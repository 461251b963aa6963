import Cron.Calendar.Timestamp
import Cron.CommandLine.Help
import Cron.Scheduler.Session
import Cron.Settings.Load

/-!
# The program behind the command line

`plan` says what the arguments ask for, given the files, the environment, the zone of the host and
the instant at which the program is called: a report with what is printed and the exit status, or
patterns that are to be run. `startUp` is what the task `run` does first: it registers the patterns
and gives the notices to print and the session that goes on.

The settings come from the file that an option names, else the variable `CHIME_CONFIG`, else the
home directory. A relative path is looked for in the working directory and in those above it, which
is what figment documents of `file`. Settings that cannot be loaded are replaced by the defaults.

Model of `main`, `occurrences`, `print_occurrences` and `run` of the command line. `jsonText` is the
layout that serde_json documents for its pretty printing, two blanks deep. The name of an entry is a
UUID that is made from the clock, and making one breaks down before 1970 (`register`).

Assumed of the host: there is room for as many lines as an address space can hold (`maxLines`). A
host that refuses room for fewer lines ends the program earlier; that is not modelled. Out of scope:
the log apart from the notices, and the wording of errors behind their first line.
-/

namespace Cron.CommandLine

/-- What the program finds around it. -/
structure Surroundings where
  /-- The text of the file at an absolute path, if there is one. -/
  file : String → Option String
  /-- The absolute path of the working directory. -/
  directory : String
  /-- The variables of the environment, in order. -/
  environment : List (String × String)
  /-- The zone of the host. -/
  zone : Zone
  /-- The instant at which the program is called. -/
  now : Instant

/-- What the program prints, and its exit status. -/
structure Report where
  status : Nat
  output : String
  /-- What is reported as an error. -/
  error : Option String
deriving DecidableEq, Repr

/-- Why a task comes to nothing. -/
inductive Failure where
  /-- Something is wrong with what was asked for. -/
  | reported (message : String)
  /-- The program broke down on the way. -/
  | brokeDown
deriving DecidableEq, Repr

/-- A report on success. -/
def Report.success (output : String) : Report := ⟨0, output, none⟩

/-- A report on arguments that make no sense. -/
def Report.misuse : Report := ⟨2, "", none⟩

/-- A report on a program that broke down. -/
def Report.breakdown : Report := ⟨101, "", none⟩

/-- A report on failure. -/
def Report.failure : Failure → Report
  | .reported message => ⟨1, "", some ("Error: " ++ message)⟩
  | .brokeDown => .breakdown

/-! ## Settings -/

/-- The path of the settings file. -/
def settingsPath (option : Option String) (environment : List (String × String)) : String :=
  match option, environment.lookup "CHIME_CONFIG" with
  | some path, _ => path
  | none, some path => path
  | none, none => (environment.lookup "HOME").getD "." ++ "/.chime/chime.toml"

/-- The starts of a path up to each of its slashes, the longest first: when a slash ends it, a
directory and those above it. -/
def outward : List Char → List (List Char)
  | [] => []
  | c :: rest =>
    let longer := (outward rest).map (c :: ·)
    if c = '/' then longer ++ [['/']] else longer

/-- Where a file is looked for, in order: an absolute path stands for itself, and any other one is
taken from the working directory and then from each directory above it. -/
def places (directory path : String) : List String :=
  match path.toList with
  | '/' :: _ => [path]
  | _ => (outward (directory.toList ++ ['/'])).map fun outer => String.ofList outer ++ path

/-- The text of the settings file, at the first place where there is one. -/
def settingsText (s : Surroundings) (option : Option String) : Option String :=
  (places s.directory (settingsPath option s.environment)).findSome? s.file

/-- The settings that hold. -/
def settings (s : Surroundings) (option : Option String) : Settings :=
  match Settings.load (settingsText s option) s.environment with
  | .ok settings => settings
  | .error _ => Settings.default

/-- The zone that patterns are read in. -/
def zoneFor (s : Surroundings) : ClockChoice → Zone
  | .localTime => s.zone
  | .utc => .utc

/-! ## The next occurrences -/

/-- An instant in text, with its offset in figures to the minute. -/
def internetText (z : Zone) (t : Instant) : String :=
  (z.reading t).text ++ offsetMinutesText (z.offsetAt t.seconds)

/-- Lines as a list of texts in JSON; they hold nothing that would have to be escaped. -/
def jsonText (lines : List String) : String :=
  if lines.isEmpty then "[]\n"
  else "[\n" ++ String.intercalate ",\n" (lines.map fun line => "  \"" ++ line ++ "\"") ++ "\n]\n"

/-- The lines as they are printed. -/
def printed (json : Bool) (lines : List String) : String :=
  if json then jsonText lines
  else if lines.isEmpty then unlines ["never"]
  else unlines lines

/-- The greatest count for which there can be room: each line takes 24 bytes of an address space of
63 bits. That the host has no room for a count within this bound is not modelled. -/
def maxLines : Nat := 9223372036854775807 / 24

/-- The lines of the task `next`, or `none` if there can be no room for that many. -/
def nextLines? (s : Schedule) (z : Zone) (horizon : Int) (count : Nat) (since : Instant) :
    Option (List String) :=
  if maxLines < count then none
  else some ((s.occurrences z horizon count since).map (internetText z))

/-- Does the task `next`. -/
def performNext (s : Surroundings) (settings : Settings) (task : NextTask) : Report :=
  match Schedule.compile task.pattern with
  | .error _ => .failure (.reported ("cannot compile pattern " ++ Text.quoted task.pattern))
  | .ok schedule =>
    match task.since with
    | some text =>
      match Timestamp.ofInternet? text with
      | none => .failure (.reported ("--from " ++ Text.quoted text ++ " is not an RFC 3339 timestamp"))
      | some since => answer schedule since
    | none => answer schedule s.now
where
  /-- The report on a schedule. -/
  answer (schedule : Schedule) (since : Instant) : Report :=
    let zone := if task.utc then .utc else zoneFor s settings.clock
    match nextLines? schedule zone settings.searchYears task.count since with
    | some lines => .success (printed task.json lines)
    | none => .breakdown

/-! ## Running -/

/-- What the task `run` says. -/
inductive Notice where
  | registered (pattern : String)
  | scheduled (pattern : String) (next : Instant)
  | neverFires (pattern : String)
  | shutdownRequested
deriving DecidableEq

/-- What is said about an entry that was registered. -/
def noticeOf (e : Entry) : Notice :=
  match e.next with
  | some next => .scheduled e.schedule.text next
  | none => .neverFires e.schedule.text

/-- The name of the entry of a pattern. Names only have to differ from one another, so the place among
the arguments stands for what the generator makes up. -/
def entryId (place : Nat) : EntryId := ⟨toString place⟩

/-- Registers patterns in their order, as far as they compile. Gives the notices, and the scheduler
or what went wrong. An entry gets its name, which the generator takes from the clock, once its pattern
has been compiled; the generator breaks down before 1970. -/
def register (s : Scheduler) (now : Instant) (place : Nat) :
    List String → List Notice × Except Failure Scheduler
  | [] => ([], .ok s)
  | pattern :: rest =>
    match s.add (entryId place) pattern with
    | .error _ => ([], .error (.reported ("cannot register pattern " ++ Text.quoted pattern)))
    | .ok s =>
      if now.seconds < 0 then ([], .error .brokeDown)
      else
        let (notices, result) := register s now (place + 1) rest
        (.registered pattern :: notices, result)

/-- The start of the task `run` at an instant: registers the patterns, starts the scheduler, and
says for each entry when it fires first. -/
def startUp (settings : Settings) (zone : Zone) (now : Instant) (patterns : List String) :
    List Notice × Except Failure Session :=
  match register (Scheduler.new (settings.tuning zone)) now 0 patterns with
  | (notices, .error failure) => (notices, .error failure)
  | (notices, .ok s) =>
    match s.start true with
    | .error e => (notices, .error (.reported e.message))
    | .ok s =>
      match s.entries now with
      | (_, .error e) => (notices, .error (.reported e.message))
      | (s, .ok es) => (notices ++ es.map noticeOf, .ok ⟨s, now⟩)

/-- The end of the task `run`. -/
def shutDown : List Notice := [.shutdownRequested]

/-! ## All tasks -/

/-- What there is to do: a report is all, or patterns are to be run. -/
inductive Plan where
  | report (r : Report)
  | run (settings : Settings) (zone : Zone) (patterns : List String)

/-- What the arguments ask for. -/
def plan (s : Surroundings) (arguments : List String) : Plan :=
  match parse arguments with
  | .misuse => .report .misuse
  | .show topic => .report (.success topic.text)
  | .task option (.next task) => .report (performNext s (settings s option) task)
  | .task option (.run patterns) =>
    let settings := settings s option
    .run settings (zoneFor s settings.clock) patterns

end Cron.CommandLine
