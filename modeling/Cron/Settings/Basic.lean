import Cron.Scheduler.Loop

/-!
# Settings

What a user can set: how many years ahead occurrences are looked for, how many days the loop waits
when nothing is due, and whether patterns are read against local time or UTC.

Model of `SchedulerConfig` with its defaults, of `validate` and of `Scheduler::with_config`.

`Settings.check` refuses horizons below 1, the years first. A scheduler can be set up from settings
that were not checked: `Settings.tuning` brings both horizons into a usable range.
-/

namespace Cron

/-- The clock that patterns are read against. -/
inductive ClockChoice where
  | localTime
  | utc
deriving DecidableEq, Repr

/-- The settings of a scheduler. -/
structure Settings where
  searchYears : Int
  idleDays : Int
  clock : ClockChoice
deriving DecidableEq, Repr

/-- Which setting a value is for. -/
inductive SettingKey where
  | searchYears
  | idleDays
deriving DecidableEq, Repr

/-- Why settings are refused. -/
inductive SettingsError where
  /-- They cannot be read, or a value is not of the kind that its key asks for. -/
  | unreadable
  /-- A horizon is below 1. -/
  | tooSmall (key : SettingKey) (value : Int)
deriving DecidableEq, Repr

/-- The name of a setting, with the name of its table. -/
def SettingKey.path : SettingKey → String
  | searchYears => "scheduler.search_horizon_years"
  | idleDays => "scheduler.idle_horizon_days"

/-- The error in words. What stands in the place of an unreadable file's report is up to the
caller. -/
def SettingsError.message : SettingsError → String
  | unreadable => "Configuration error"
  | tooSmall key value =>
    "Invalid configuration value for " ++ key.path ++ ": must be at least 1, got "
      ++ toString value

namespace Settings

/-- The settings that hold unless others are given. -/
def default : Settings := { searchYears := 5, idleDays := 3650, clock := .localTime }

instance : Inhabited Settings := ⟨default⟩

/-- Refuses horizons below 1, the years before the days. -/
def check (s : Settings) : Except SettingsError Unit := do
  if s.searchYears < 1 then throw (.tooSmall .searchYears s.searchYears)
  if s.idleDays < 1 then throw (.tooSmall .idleDays s.idleDays)

/-- The longest idle time in days. -/
def maxIdleDays : Int := 365000

/-- The setup of a scheduler: at least one year, and from one day up to the longest idle time. -/
def tuning (s : Settings) (zone : Zone) : Tuning where
  zone := zone
  horizon := max s.searchYears 1
  idleSeconds := (max 1 (min s.idleDays maxIdleDays)).toNat * 86400

end Settings

end Cron
