import Cron.CommandLine.Program
import Std.Time.DateTime.Timestamp

/-!
# The command line

Reads the surroundings, hands them to `CommandLine.plan` and prints what it gives. The task `run`
prints its notices and then each firing, until it is interrupted. The host's clock is taken to show
UTC.

The session has no timer of its own here: `goOn` looks at the host's clock ten times a second and
lets the tasks run. What a session does when they run is `Session.step`.
-/

namespace Cron.CommandLine

/-- The instant now. -/
def currentInstant : IO Instant := do
  let since ← Std.Time.Timestamp.now
  let nanos : Int := since.toNanosecondsSinceUnixEpoch.val
  return ⟨nanos / 1000000000, (nanos % 1000000000).toNat, by omega⟩

/-- The text of a file, if it can be read. -/
def readText (path : String) : IO (Option String) := do
  try
    return some (← IO.FS.readFile path)
  catch _ => return none

/-- The variables of the environment. -/
def readVariables : IO (List (String × String)) := do
  let text := (← readText "/proc/self/environ").getD ""
  return (text.splitOn "\x00").filterMap fun entry =>
    match Text.cut '=' entry.toList with
    | some (name, value) => some (String.ofList name, String.ofList value)
    | none => none

/-- A notice in words. -/
def noticeText (zone : Zone) : Notice → String
  | .registered pattern => "registered pattern=" ++ pattern
  | .scheduled pattern next =>
    "scheduled pattern=" ++ pattern ++ " next=" ++ internetText zone next
  | .neverFires pattern => "pattern never fires pattern=" ++ pattern
  | .shutdownRequested => "shutdown requested"

/-- Prints a report. Gives the exit status. -/
def conclude (report : Report) : IO UInt32 := do
  IO.print report.output
  if let some message := report.error then IO.eprintln message
  if report.status = 2 then IO.eprint Topic.program.text
  return report.status.toUInt32

/-- Lets a session go on with the host's clock, and prints what fires. -/
partial def goOn (session : Session) : IO Unit := do
  IO.sleep 100
  let now ← currentInstant
  let outcome := { session with clock := now }.step .runTasks true
  for firing in outcome.fired do
    IO.println ("tick entry=" ++ firing.id.text)
  goOn outcome.session

end Cron.CommandLine

open Cron.CommandLine

/-- Runs the program. -/
def main (arguments : List String) : IO UInt32 := do
  let environment ← readVariables
  let directory := toString (← IO.currentDir)
  let wanted := match parse arguments with
    | .task option _ => places directory (settingsPath option environment)
    | _ => []
  let files ← wanted.filterMapM fun path => do
    return (← readText path).map fun text => (path, text)
  let surroundings : Surroundings :=
    { file := fun path => files.lookup path, directory, environment, zone := .fixed 0
      now := ← currentInstant }
  match plan surroundings arguments with
  | .report report => conclude report
  | .run settings zone patterns =>
    let (notices, result) := startUp settings zone surroundings.now patterns
    for notice in notices do
      IO.println (noticeText zone notice)
    match result with
    | .error failure => conclude (.failure failure)
    | .ok session =>
      goOn session
      return 0
