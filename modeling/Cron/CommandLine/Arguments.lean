import Cron.Text.Numeral

/-!
# Arguments of the command line

The program has two tasks: `next` prints the next occurrences of a pattern, `run` registers patterns
and runs. In front of the task stands the path of a settings file, if one is given.

Arguments are read from left to right, and the first one that is out of place decides. An option is
a long name behind two hyphens or a letter behind one, and what starts with a hyphen is never the
value of an option; a single hyphen is a plain argument. After two hyphens alone, all arguments are
plain. An option can be given once. A second path that is an argument of its own, and not attached
to its option, is in place until another option or the task itself is to be taken in; so a text to
show behind it is shown.

`parse` says what to do: a task, a text to show, or nothing, if the arguments make no sense.

Model of `Cli` and `Commands`, with what clap documents of the parsers that it derives from them:
long and short options, a value attached or as an argument of its own, `--`, the flags for help and
version in front of a task and behind it, and the task `help`. Out of scope is what is said about
arguments that make no sense, apart from the exit status.
-/

namespace Cron.CommandLine

/-- What to print for `next`. -/
structure NextTask where
  pattern : String
  count : Nat
  since : Option String
  utc : Bool
  json : Bool
deriving DecidableEq, Repr

/-- What to do. -/
inductive Task where
  | next (task : NextTask)
  | run (patterns : List String)
deriving DecidableEq, Repr

/-- Which text to show. -/
inductive Topic where
  | version
  | program
  | next
  | run
  | help
deriving DecidableEq, Repr

/-- What the arguments ask for. -/
inductive Request where
  | task (settingsPath : Option String) (task : Task)
  | show (topic : Topic)
  | misuse
deriving DecidableEq, Repr

/-- How many occurrences are printed unless a number is given. -/
def defaultCount : Nat := 5

/-- The greatest count that can be given. -/
def maxCount : Nat := 18446744073709551615

/-- A count: a numeral, after a plus sign or without. -/
def count? (text : String) : Option Nat :=
  match text.toList with
  | '+' :: digits => Text.numeralUpTo? maxCount digits
  | digits => Text.numeralUpTo? maxCount digits

/-- What kind of argument a text is. -/
inductive Shape where
  | plain
  /-- Two hyphens alone. -/
  | divider
  /-- A long name, with a value behind an equals sign or without. -/
  | long (name : String) (attached : Option String)
  /-- A letter, with text behind it or not. -/
  | short (letter : Char) (attached : Option String)

/-- The text of a value that is attached to a letter; an equals sign in front of it is dropped. -/
def attachedValue : List Char → Option String
  | [] => none
  | '=' :: value => some (String.ofList value)
  | value => some (String.ofList value)

/-- The kind of an argument. -/
def shape (text : String) : Shape :=
  match text.toList with
  | ['-', '-'] => .divider
  | '-' :: '-' :: rest =>
    let name := rest.takeWhile (· != '=')
    match rest.drop name.length with
    | [] => .long (String.ofList name) none
    | _ :: value => .long (String.ofList name) (some (String.ofList value))
  | '-' :: letter :: rest => .short letter (attachedValue rest)
  | _ => .plain

/-! ## The task `next` -/

/-- The options of `next` that take a value. -/
inductive NextOption where
  | count
  | since

/-- The arguments of `next` as far as they have been read. -/
structure NextDraft where
  pattern : Option String := none
  count : Option Nat := none
  since : Option String := none
  utc : Bool := false
  json : Bool := false
  /-- The option whose value comes next. -/
  awaited : Option NextOption := none
  /-- Whether two hyphens alone were read. -/
  divided : Bool := false

namespace NextDraft

/-- The draft with the value of an option. -/
def setOption (d : NextDraft) (option : NextOption) (value : String) : Option NextDraft :=
  match option, d.count, d.since with
  | .count, none, _ => (count? value).map fun n => { d with count := some n, awaited := none }
  | .since, _, none => some { d with since := some value, awaited := none }
  | _, _, _ => none

/-- The draft with an option, whose value may be attached or come next. -/
def withOption (d : NextDraft) (option : NextOption) : Option String → Option NextDraft
  | some value => d.setOption option value
  | none => some { d with awaited := some option }

/-- The draft with a plain argument. -/
def withPlain (d : NextDraft) (text : String) : Option NextDraft :=
  match d.awaited, d.pattern with
  | some option, _ => d.setOption option text
  | none, none => some { d with pattern := some text }
  | none, some _ => none

/-- The task of a draft that is complete. -/
def task? (d : NextDraft) : Option NextTask :=
  match d.awaited, d.pattern with
  | none, some pattern =>
    some { pattern, count := d.count.getD defaultCount, since := d.since, utc := d.utc
           json := d.json }
  | _, _ => none

end NextDraft

/-- Goes on with a draft, if there is one. -/
def orMisuse (go : NextDraft → Request) : Option NextDraft → Request
  | some d => go d
  | none => .misuse

/-- Reads the arguments of `next`. -/
def parseNext (settingsPath : Option String) (d : NextDraft) : List String → Request
  | [] =>
    match d.task? with
    | some task => .task settingsPath (.next task)
    | none => .misuse
  | text :: rest =>
    let go := fun d => parseNext settingsPath d rest
    if d.divided then orMisuse go (d.withPlain text)
    else
      match shape text, d.awaited with
      | .plain, _ => orMisuse go (d.withPlain text)
      | _, some _ => .misuse
      | .divider, none => go { d with divided := true }
      | .long "count" value, none => orMisuse go (d.withOption .count value)
      | .short 'n' value, none => orMisuse go (d.withOption .count value)
      | .long "from" value, none => orMisuse go (d.withOption .since value)
      | .long "utc" none, none => if d.utc then .misuse else go { d with utc := true }
      | .long "json" none, none => if d.json then .misuse else go { d with json := true }
      | .long "help" none, none => .show .next
      | .short 'h' _, none => .show .next
      | _, none => .misuse

/-! ## The task `run` -/

/-- Reads the arguments of `run`. -/
def parseRun (settingsPath : Option String) (patterns : List String) (divided : Bool) :
    List String → Request
  | [] => if patterns.isEmpty then .misuse else .task settingsPath (.run patterns)
  | text :: rest =>
    if divided then parseRun settingsPath (patterns ++ [text]) true rest
    else
      match shape text with
      | .plain => parseRun settingsPath (patterns ++ [text]) false rest
      | .divider => parseRun settingsPath patterns true rest
      | .long "help" none => .show .run
      | .short 'h' _ => .show .run
      | _ => .misuse

/-! ## The program -/

/-- What to show for a list of names behind `help`. -/
def parseHelp : List String → Request
  | [] => .show .program
  | ["next"] => .show .next
  | ["run"] => .show .run
  | ["help"] => .show .help
  | _ => .misuse

/-- The arguments in front of the task as far as they have been read. -/
structure ProgramDraft where
  settingsPath : Option String := none
  /-- Whether the path comes next. -/
  awaited : Bool := false
  /-- Whether a second path was read. -/
  doubled : Bool := false

namespace ProgramDraft

/-- The draft with a path that is an argument of its own. -/
def withPath (d : ProgramDraft) (path : String) : ProgramDraft :=
  { settingsPath := some path, awaited := false, doubled := d.settingsPath.isSome }

/-- What the arguments ask for, given what those behind the draft ask for: with two paths there is
no task. -/
def conclude (d : ProgramDraft) (request : Request) : Request :=
  match request, d.doubled with
  | .task _ _, true => .misuse
  | request, _ => request

end ProgramDraft

/-- Reads the task and its arguments. -/
def parseTask (settingsPath : Option String) (name : String) (arguments : List String) : Request :=
  if name = "next" then parseNext settingsPath {} arguments
  else if name = "run" then parseRun settingsPath [] false arguments
  else if name = "help" then parseHelp arguments
  else .misuse

/-- Reads all arguments, those in front of the task into a draft. -/
def parseProgram (d : ProgramDraft) : List String → Request
  | [] => .misuse
  | text :: rest =>
    match shape text, d.awaited with
    | .plain, true => parseProgram (d.withPath text) rest
    | _, true => .misuse
    | .plain, false => d.conclude (parseTask d.settingsPath text rest)
    | option, false =>
      if d.doubled then .misuse
      else
        match option, d.settingsPath with
        | .long "config" (some path), none => parseProgram (d.withPath path) rest
        | .short 'c' (some path), none => parseProgram (d.withPath path) rest
        | .long "config" none, _ => parseProgram { d with awaited := true } rest
        | .short 'c' none, _ => parseProgram { d with awaited := true } rest
        | .long "help" none, _ => .show .program
        | .short 'h' _, _ => .show .program
        | .long "version" none, _ => .show .version
        | .short 'V' _, _ => .show .version
        | _, _ => .misuse

/-- What the arguments ask for. -/
def parse (arguments : List String) : Request := parseProgram {} arguments

end Cron.CommandLine
