import Cron.Settings.Basic
import Cron.Settings.Environment
import Cron.Toml.Document

/-!
# Loading settings

Settings are read from a file, with values from the environment laid over it key by key. Each
setting that neither gives has its default. A tree gives settings if every setting that it holds is
of the right kind: a whole number of 32 bits for the years and of 64 bits for the days, and one of
two names for the clock; parts of other names do not count. Settings that were read still have to
pass `Settings.check`.

Model of `ChimeConfig::load`. Of figment it assumes what is documented of `merge` and `extract`: the
later provider is laid over the earlier one, a file that is not there gives no values, one that is
no TOML document is an error, and a structure is taken from a tree by the names of its parts, or
from a list by their places. Which text an error has beyond its kind is out of scope.
-/

namespace Cron.Settings

/-- The whole number of a value, if it has a number of bits. -/
def integerOf (bits : Nat) : Value → Except SettingsError Int
  | .integer n =>
    let bound : Int := Nat.pow 2 (bits - 1)
    if -bound ≤ n ∧ n < bound then .ok n else .error .unreadable
  | _ => .error .unreadable

/-- The clock of a value. -/
def clockOf : Value → Except SettingsError ClockChoice
  | .text "local" => .ok .localTime
  | .text "utc" => .ok .utc
  | _ => .error .unreadable

/-- What a value gives, or the default where there is none. -/
def orDefault {α : Type} (default : α) (read : Value → Except SettingsError α) :
    Option Value → Except SettingsError α
  | some v => read v
  | none => .ok default

/-- The settings of three values, each of which may be missing. -/
def ofParts (years days clock : Option Value) : Except SettingsError Settings := do
  let searchYears ← orDefault Settings.default.searchYears (integerOf 32) years
  let idleDays ← orDefault Settings.default.idleDays (integerOf 64) days
  let clock ← orDefault Settings.default.clock clockOf clock
  return { searchYears, idleDays, clock }

/-- The settings of the value that is given for the scheduler: a table, or a list of the settings
in their order. A moment counts as a table that holds none of them. -/
def ofScheduler : Value → Except SettingsError Settings
  | .table _ es =>
    ofParts (es.lookup "search_horizon_years") (es.lookup "idle_horizon_days")
      (es.lookup "timezone")
  | .list items => ofParts items[0]? items[1]? items[2]?
  | .moment _ => .ok Settings.default
  | _ => .error .unreadable

/-- The settings of a tree. -/
def ofTree (tree : Entries) : Except SettingsError Settings :=
  orDefault Settings.default ofScheduler (tree.lookup "scheduler")

/-- The settings of a file's text, if there is a file, and of the environment. -/
def load (file : Option String) (environment : List (String × String)) :
    Except SettingsError Settings := do
  let tree ← match file with
    | none => .ok []
    | some text =>
      match Toml.document? text.toList with
      | some tree => .ok tree
      | none => .error .unreadable
  let settings ← ofTree (Entries.merge tree (Environment.tree environment))
  settings.check
  return settings

end Cron.Settings
