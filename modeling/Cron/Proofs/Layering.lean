import Cron.CommandLine.Program
import Cron.Proofs.FieldGrammar
import Cron.Proofs.VariableNames

/-!
# Settings in layers

Settings come from three layers: the environment lies over the file, and the defaults lie under
both. The trees of the two upper layers are merged, and the layers can be told apart again for each
key of the scheduler's table (`lookup_merge`): what the environment gives counts, else what the file
gives. Where both give tables these are merged as well, but no setting is a table, so it does not
matter what comes of that.

The tree of the environment is built variable by variable. As long as each variable that has to do
with the scheduler stands for a key of its own, the table gathers under each key the value of its
variable (`Environment.Gathers`).

Headlines:
* `Entries.lookup_merge`: merging, key by key;
* `Environment.gathers_tree`: what the environment gives under each key;
* `Settings.load_layers`: when settings can be loaded, what they are, and what is wrong if not.
-/

namespace Cron

/-! ## Merging -/

/-- What an upper layer and a lower one come to under one key. -/
def overlay : Option Value → Option Value → Option Value
  | lower, none => lower
  | none, some upper => some upper
  | some lower, some upper => some (Value.merge lower upper)

namespace Entries

variable {es lower upper : Entries} {key : String} {value : Value}

/-- The keys of some entries. -/
def keys (es : Entries) : List String := es.map Prod.fst

theorem nodup_keys_singleton (key : String) (value : Value) : (keys [(key, value)]).Nodup := by
  simp [keys]

theorem mem_keys_put {k : String} : k ∈ keys (es.put key value) ↔ k = key ∨ k ∈ keys es := by
  induction es with
  | nil => simp [keys, put]
  | cons e rest ih =>
    unfold put
    split
    next heq => simp [keys, heq]
    next => simp only [keys, List.map_cons, List.mem_cons] at ih ⊢; rw [ih]; exact or_left_comm

theorem nodup_keys_put (h : (keys es).Nodup) (key : String) (value : Value) :
    (keys (es.put key value)).Nodup := by
  induction es with
  | nil => simp [keys, put]
  | cons e rest ih =>
    obtain ⟨hfirst, hrest⟩ := List.nodup_cons.mp h
    unfold put
    split
    next heq => exact List.nodup_cons.mpr ⟨heq ▸ hfirst, hrest⟩
    next hne =>
      refine List.nodup_cons.mpr ⟨fun hmem => ?_, ih hrest⟩
      rcases mem_keys_put.mp hmem with heq | hmem
      · exact hne heq
      · exact hfirst hmem

theorem lookup_eq_none_of_not_mem (h : key ∉ keys es) : es.lookup key = none := by
  refine List.lookup_eq_none_iff.mpr fun e he => bne_iff_ne.mpr ?_
  rintro rfl
  exact h (List.mem_map_of_mem he)

theorem merge_cons (lower : Entries) (key : String) (value : Value) (rest : Entries) :
    merge lower ((key, value) :: rest) =
      merge (lower.put key (match lower.lookup key with
        | some below => Value.merge below value
        | none => value)) rest :=
  merge.eq_2 lower key value rest

theorem nodup_keys_merge (h : (keys lower).Nodup) (upper : Entries) :
    (keys (merge lower upper)).Nodup := by
  induction upper generalizing lower with
  | nil => exact h
  | cons e rest ih =>
    rw [merge_cons]
    exact ih (nodup_keys_put h _ _)

/-- Merged entries, key by key. -/
theorem lookup_merge (h : (keys upper).Nodup) (lower : Entries) (key : String) :
    (merge lower upper).lookup key = overlay (lower.lookup key) (upper.lookup key) := by
  induction upper generalizing lower with
  | nil => rfl
  | cons e rest ih =>
    -- the first key does not come again, so what it is merged with is still the lower value
    obtain ⟨hfirst, hrest⟩ := List.nodup_cons.mp h
    rw [merge_cons, ih hrest]
    by_cases hkey : key = e.1
    · subst hkey
      rw [lookup_put_self, lookup_eq_none_of_not_mem hfirst, List.lookup_cons, beq_self_eq_true]
      cases lower.lookup e.1 <;> rfl
    · rw [lookup_put_of_ne hkey, List.lookup_cons, beq_false_of_ne hkey]

end Entries

/-! ## The table of the scheduler -/

/-- The table of the scheduler in a tree. If there is none, it counts as empty. -/
inductive SchedulerTable (tree : Entries) : Entries → Prop
  | missing (h : tree.lookup "scheduler" = none) : SchedulerTable tree []
  | given {form : TableForm} {es : Entries} (h : tree.lookup "scheduler" = some (.table form es)) :
      SchedulerTable tree es

/-- The table of the scheduler in a tree, unless something else stands in its place. -/
def schedulerTable? (tree : Entries) : Option Entries :=
  match tree.lookup "scheduler" with
  | none => some []
  | some (.table _ es) => some es
  | some _ => none

theorem schedulerTable?_eq_some_iff {tree table : Entries} :
    schedulerTable? tree = some table ↔ SchedulerTable tree table := by
  unfold schedulerTable?
  constructor
  · intro h
    split at h
    next hnone =>
      obtain rfl := Option.some.inj h
      exact .missing hnone
    next hsome =>
      obtain rfl := Option.some.inj h
      exact .given hsome
    next => cases h
  · rintro (h | h) <;> rw [h]

theorem overlay_none_left (upper : Option Value) : overlay none upper = upper := by
  cases upper <;> rfl

theorem overlay_none_right (lower : Option Value) : overlay lower none = lower := by
  cases lower <;> rfl

/-- The tables of the scheduler are merged with their trees. -/
theorem SchedulerTable.merge {lower upper s t : Entries} (hs : SchedulerTable lower s)
    (ht : SchedulerTable upper t) (hupper : (Entries.keys upper).Nodup)
    (hkeys : (Entries.keys t).Nodup) :
    ∃ u, SchedulerTable (Entries.merge lower upper) u ∧
      ((Entries.keys s).Nodup → (Entries.keys u).Nodup) ∧
      ∀ key, u.lookup key = overlay (s.lookup key) (t.lookup key) := by
  have hlookup := Entries.lookup_merge hupper lower "scheduler"
  cases hs with
  | missing hlower =>
    rw [hlower, overlay_none_left] at hlookup
    refine ⟨t, ?_, fun _ => hkeys, fun key => (overlay_none_left _).symm⟩
    cases ht with
    | missing h => exact .missing (hlookup.trans h)
    | given h => exact .given (hlookup.trans h)
  | given hlower =>
    rw [hlower] at hlookup
    cases ht with
    | missing h =>
      rw [h] at hlookup
      exact ⟨s, .given hlookup, id, fun key => (overlay_none_right _).symm⟩
    | given h =>
      rw [h, overlay, Value.merge] at hlookup
      exact ⟨_, .given hlookup, fun hdistinct => Entries.nodup_keys_merge hdistinct _,
        Entries.lookup_merge hkeys s⟩

namespace Environment

/-! ## The tree of the environment -/

variable {environment seen : List (String × String)} {tree table : Entries} {v : String × String}
  {key : String}

/-- A variable's name does not stand for anything under the name of the scheduler. -/
def Elsewhere (name : String) : Prop :=
  ∀ path, path? name = some path → path.head? ≠ some "scheduler"

/-- The value of the variable for a key of the scheduler. -/
def given? (environment : List (String × String)) (key : String) : Option Value :=
  (environment.find? fun v => plainName v.1 = schedulerName key).map fun v => ofText v.2

/-- The tree with the value of a variable laid over it. -/
def withVariable (tree : Entries) (v : String × String) : Entries :=
  match path? v.1 with
  | some (key :: path) => Entries.merge tree [(key, nested (ofText v.2) path)]
  | _ => tree

/-- The table of the scheduler in a tree holds, under each key, the value of its variable. -/
structure Gathers (seen : List (String × String)) (tree table : Entries) : Prop where
  distinct : (Entries.keys tree).Nodup
  isTable : SchedulerTable tree table
  distinct_table : (Entries.keys table).Nodup
  lookup : ∀ key, IsKey key → table.lookup key = given? seen key

theorem given?_snoc_of_eq (h : plainName v.1 = schedulerName key)
    (hnew : ∀ w ∈ seen, plainName w.1 ≠ schedulerName key) :
    given? seen key = none ∧ given? (seen ++ [v]) key = some (ofText v.2) := by
  have hseen : seen.find? (fun w => plainName w.1 = schedulerName key) = none :=
    List.find?_eq_none.mpr fun w hw => by simpa using hnew w hw
  simp [given?, List.find?_append, hseen, h]

theorem given?_snoc_of_ne (h : plainName v.1 ≠ schedulerName key) :
    given? (seen ++ [v]) key = given? seen key := by
  simp [given?, List.find?_append, h]

/-- A variable for a new key adds its value under that key. -/
theorem Gathers.of_names (h : Gathers seen tree table) (hv : Names v.1 key)
    (hnew : ∀ w ∈ seen, ¬ Names w.1 key) :
    ∃ after, Gathers (seen ++ [v]) (withVariable tree v) after := by
  have hstep : withVariable tree v =
      Entries.merge tree [("scheduler", .table .inline [(key, ofText v.2)])] := by
    rw [withVariable, path?_of_names hv]
    rfl
  obtain ⟨hnone, hsome⟩ := given?_snoc_of_eq hv.plain fun w hw hplain =>
    hnew w hw ⟨hv.toIsKey, hplain⟩
  have hsingle : SchedulerTable [("scheduler", .table .inline [(key, ofText v.2)])]
      [(key, ofText v.2)] := .given rfl
  obtain ⟨after, htable, hdistinct, hlookup⟩ :=
    h.isTable.merge hsingle (Entries.nodup_keys_singleton _ _) (Entries.nodup_keys_singleton _ _)
  refine ⟨after, hstep ▸ Entries.nodup_keys_merge h.distinct _, hstep ▸ htable,
    hdistinct h.distinct_table, fun k hk => ?_⟩
  -- a key that is new has no value yet, so nothing is merged under it
  rw [hlookup, h.lookup k hk, List.lookup_cons]
  by_cases hkey : k = key
  · subst hkey
    rw [hnone, hsome, beq_self_eq_true]
    rfl
  · have hne : plainName v.1 ≠ schedulerName k := fun hplain =>
      hkey (schedulerName_inj (hplain.symm.trans hv.plain))
    rw [given?_snoc_of_ne hne, beq_false_of_ne hkey]
    exact overlay_none_right _

/-- A variable that has nothing to do with the scheduler changes nothing there. -/
theorem Gathers.of_elsewhere (h : Gathers seen tree table) (hv : Elsewhere v.1) :
    Gathers (seen ++ [v]) (withVariable tree v) table := by
  have hlookup : ∀ key, IsKey key → table.lookup key = given? (seen ++ [v]) key :=
    fun key hkey => by
      have hne : plainName v.1 ≠ schedulerName key := fun hplain =>
        hv _ (path?_of_names ⟨hkey, hplain⟩) rfl
      rw [h.lookup key hkey, given?_snoc_of_ne hne]
  unfold withVariable
  split
  next k path hpath =>
    have hne : "scheduler" ≠ k := fun heq => hv _ hpath (congrArg some heq.symm)
    refine ⟨Entries.nodup_keys_merge h.distinct _, ?_, h.distinct_table, hlookup⟩
    have hsame : (Entries.merge tree [(k, nested (ofText v.2) path)]).lookup "scheduler" =
        tree.lookup "scheduler" := by
      rw [Entries.lookup_merge (Entries.nodup_keys_singleton _ _), List.lookup_cons, beq_false_of_ne hne]
      exact overlay_none_right _
    cases h.isTable with
    | missing hnone => exact .missing (hsame.trans hnone)
    | given hsome => exact .given (hsame.trans hsome)
  next => exact ⟨h.distinct, h.isTable, h.distinct_table, hlookup⟩

/-- All variables, one after the other. -/
theorem Gathers.foldl (h : Gathers seen tree table)
    (hvariables : ∀ v ∈ environment, (∃ key, Names v.1 key) ∨ Elsewhere v.1)
    (hdistinct : (seen ++ environment).Pairwise fun v w => ∀ key, Names v.1 key → ¬ Names w.1 key) :
    ∃ after, Gathers (seen ++ environment) (environment.foldl withVariable tree) after := by
  induction environment generalizing seen tree table with
  | nil => exact ⟨table, by rwa [List.append_nil]⟩
  | cons v rest ih =>
    obtain ⟨hv, hrest⟩ := List.forall_mem_cons.mp hvariables
    have hstep : ∃ after, Gathers (seen ++ [v]) (withVariable tree v) after := by
      rcases hv with ⟨key, hkey⟩ | hv
      · refine h.of_names hkey fun w hw hnames => ?_
        exact (List.pairwise_append.mp hdistinct).2.2 w hw v List.mem_cons_self key hnames hkey
      · exact ⟨table, h.of_elsewhere hv⟩
    obtain ⟨after, hafter⟩ := hstep
    rw [List.append_cons] at hdistinct ⊢
    exact ih hafter hrest hdistinct

/-- The environment gives, under each key of the scheduler, the value of its variable. -/
theorem gathers_tree (hvariables : ∀ v ∈ environment, (∃ key, Names v.1 key) ∨ Elsewhere v.1)
    (hdistinct : environment.Pairwise fun v w => ∀ key, Names v.1 key → ¬ Names w.1 key) :
    ∃ table, Gathers environment (Environment.tree environment) table := by
  have hnothing : Gathers [] [] [] :=
    ⟨List.nodup_nil, .missing rfl, List.nodup_nil, fun _ _ => rfl⟩
  exact hnothing.foldl hvariables hdistinct

end Environment

/-- Variables whose names differ stand for different keys. -/
theorem Environment.pairwise_of_nodup {environment : List (String × String)}
    (h : (environment.map fun v => plainName v.1).Nodup) :
    environment.Pairwise fun v w => ∀ key, Names v.1 key → ¬ Names w.1 key :=
  (List.pairwise_map.mp h).imp fun hne _ hv hw => hne (hv.plain.trans hw.plain.symm)

namespace Settings

/-! ## Settings that follow from values -/

variable {environment : List (String × String)} {lower table tree : Entries} {file : Option String}
  {value : String → Option Value} {settings : Settings}

/-- A whole number that fits into a number of bits, or the default where no value is given. -/
inductive IntegerSetting (bits : Nat) (default : Int) : Option Value → Int → Prop
  | given {n : Int} (hlow : -(Nat.pow 2 (bits - 1) : Int) ≤ n) (hhigh : n < Nat.pow 2 (bits - 1)) :
      IntegerSetting bits default (some (.integer n)) n
  | missing : IntegerSetting bits default none default

/-- One of two names, or the default where no value is given. -/
inductive ClockSetting (v : Option Value) : ClockChoice → Prop
  | localTime (h : v = some (.text "local")) : ClockSetting v .localTime
  | utc (h : v = some (.text "utc")) : ClockSetting v .utc
  | missing (h : v = none) : ClockSetting v .localTime

/-- Each setting follows from the value under its key, or is the default. -/
structure FollowsFrom (settings : Settings) (value : String → Option Value) : Prop where
  searchYears : IntegerSetting 32 5 (value "search_horizon_years") settings.searchYears
  idleDays : IntegerSetting 64 3650 (value "idle_horizon_days") settings.idleDays
  clock : ClockSetting (value "timezone") settings.clock

/-- What the values under the three keys come to. -/
def ofValues (value : String → Option Value) : Except SettingsError Settings :=
  ofParts (value "search_horizon_years") (value "idle_horizon_days") (value "timezone")

theorem integerOf_eq_ok_iff {bits : Nat} {v : Value} {n : Int} :
    integerOf bits v = .ok n ↔
      v = .integer n ∧ -(Nat.pow 2 (bits - 1) : Int) ≤ n ∧ n < Nat.pow 2 (bits - 1) := by
  cases v with
  | integer m =>
    simp only [integerOf, Value.integer.injEq]
    constructor
    · intro h
      split at h
      next hfits =>
        obtain rfl := Except.ok.inj h
        exact ⟨rfl, hfits⟩
      next => cases h
    · rintro ⟨rfl, hfits⟩
      rw [if_pos hfits]
  | _ => exact ⟨nofun, nofun⟩

theorem clockOf_eq_ok_iff {v : Value} {clock : ClockChoice} :
    clockOf v = .ok clock ↔ ClockSetting (some v) clock := by
  unfold clockOf
  split
  next =>
    refine ⟨fun h => Except.ok.inj h ▸ .localTime rfl, fun h => ?_⟩
    cases h with
    | localTime h => rfl
    | utc h => simp at h
    | missing h => cases h
  next =>
    refine ⟨fun h => Except.ok.inj h ▸ .utc rfl, fun h => ?_⟩
    cases h with
    | localTime h => simp at h
    | utc h => rfl
    | missing h => cases h
  next hlocal hutc =>
    refine ⟨nofun, fun h => ?_⟩
    cases h with
    | localTime h => exact absurd (Option.some.inj h) hlocal
    | utc h => exact absurd (Option.some.inj h) hutc
    | missing h => cases h

/-- Nothing else is wrong with a value than that it cannot be read. -/
theorem integerOf_eq_error {bits : Nat} {v : Value} {e : SettingsError}
    (h : integerOf bits v = .error e) : e = .unreadable := by
  unfold integerOf at h
  split at h
  · simp only at h
    split at h
    · cases h
    · exact (Except.error.inj h).symm
  · exact (Except.error.inj h).symm

theorem clockOf_eq_error {v : Value} {e : SettingsError} (h : clockOf v = .error e) :
    e = .unreadable := by
  unfold clockOf at h
  split at h
  · cases h
  · cases h
  · exact (Except.error.inj h).symm

theorem orDefault_integerOf_eq_ok_iff {bits : Nat} {default n : Int} {v : Option Value} :
    orDefault default (integerOf bits) v = .ok n ↔ IntegerSetting bits default v n := by
  cases v with
  | none =>
    exact ⟨fun h => Except.ok.inj h ▸ .missing, by rintro ⟨⟩; rfl⟩
  | some v =>
    refine integerOf_eq_ok_iff.trans ⟨?_, ?_⟩
    · rintro ⟨rfl, hlow, hhigh⟩
      exact .given hlow hhigh
    · rintro ⟨hlow, hhigh⟩
      exact ⟨rfl, hlow, hhigh⟩

theorem orDefault_clockOf_eq_ok_iff {v : Option Value} {clock : ClockChoice} :
    orDefault Settings.default.clock clockOf v = .ok clock ↔ ClockSetting v clock := by
  cases v with
  | none =>
    refine ⟨fun h => Except.ok.inj h ▸ .missing rfl, fun h => ?_⟩
    cases h with
    | localTime h => cases h
    | utc h => cases h
    | missing => rfl
  | some v => exact clockOf_eq_ok_iff

theorem orDefault_eq_error {α : Type} {default : α} {read : Value → Except SettingsError α}
    (hread : ∀ v e, read v = .error e → e = .unreadable) {v : Option Value} {e : SettingsError}
    (h : orDefault default read v = .error e) : e = .unreadable := by
  cases v with
  | none => cases h
  | some v => exact hread v e h

theorem ok_of_toOption {ε α : Type} {r : Except ε α} {a : α} (h : r.toOption = some a) : r = .ok a := by
  cases r with
  | error e => cases h
  | ok b => exact congrArg _ (Option.some.inj h)

/-- Values come to the settings that follow from them. -/
theorem ofValues_eq_ok_iff : ofValues value = .ok settings ↔ settings.FollowsFrom value := by
  simp only [ofValues, ofParts, bind_eq_ok_iff, orDefault_integerOf_eq_ok_iff,
    orDefault_clockOf_eq_ok_iff]
  constructor
  · rintro ⟨years, hyears, days, hdays, clock, hclock, ⟨⟩⟩
    exact ⟨hyears, hdays, hclock⟩
  · rintro ⟨hyears, hdays, hclock⟩
    exact ⟨_, hyears, _, hdays, _, hclock, rfl⟩

/-- Where none follow, a value cannot be read. -/
theorem ofValues_eq_error {e : SettingsError} (h : ofValues value = .error e) : e = .unreadable := by
  rcases bind_eq_error_iff.mp h with h | ⟨years, -, h⟩
  · exact orDefault_eq_error (fun _ _ => integerOf_eq_error) h
  rcases bind_eq_error_iff.mp h with h | ⟨days, -, h⟩
  · exact orDefault_eq_error (fun _ _ => integerOf_eq_error) h
  rcases bind_eq_error_iff.mp h with h | ⟨clock, -, h⟩
  · exact orDefault_eq_error (fun _ _ => clockOf_eq_error) h
  · cases h

/-! ## Layers -/

/-- What lies below a value does not matter to a setting. -/
theorem integerOf_merge (bits : Nat) (lower upper : Value) :
    integerOf bits (Value.merge lower upper) = integerOf bits upper := by
  cases upper with
  | table form es => cases lower <;> rfl
  | _ => rfl

theorem clockOf_merge (lower upper : Value) : clockOf (Value.merge lower upper) = clockOf upper := by
  cases upper with
  | table form es => cases lower <;> rfl
  | _ => rfl

theorem orDefault_overlay {α : Type} (default : α) {read : Value → Except SettingsError α}
    (hread : ∀ lower upper, read (Value.merge lower upper) = read upper) (lower upper : Option Value) :
    orDefault default read (overlay lower upper) = orDefault default read (upper.or lower) := by
  cases upper with
  | none => rw [overlay_none_right, Option.none_or]
  | some upper =>
    cases lower with
    | none => rfl
    | some lower => exact hread lower upper

theorem ofTree_of_schedulerTable (h : SchedulerTable tree table) :
    ofTree tree = ofValues fun key => table.lookup key := by
  cases h with
  | missing h => rw [ofTree, h]; rfl
  | given h => rw [ofTree, h]; rfl

/-- The tree of a file, if there is a file. -/
def fileTree? : Option String → Option Entries
  | none => some []
  | some text => Toml.document? text.toList

theorem load_of_fileTree (h : fileTree? file = some lower) (environment : List (String × String)) :
    load file environment =
      ofTree (Entries.merge lower (Environment.tree environment)) >>= fun settings =>
        settings.check >>= fun _ => .ok settings := by
  cases file with
  | none =>
    obtain rfl := Option.some.inj h
    rfl
  | some text =>
    have hdocument : Toml.document? text.toList = some lower := h
    simp only [load, hdocument]
    rfl

theorem load_of_not_fileTree (h : fileTree? file = none) (environment : List (String × String)) :
    load file environment = .error .unreadable := by
  cases file with
  | none => cases h
  | some text =>
    have hdocument : Toml.document? text.toList = none := h
    simp only [load, hdocument]
    rfl

/-- The names of the settings stand in the names of variables as they are. -/
theorem isKey_of_setting : Environment.IsKey "search_horizon_years" ∧
    Environment.IsKey "idle_horizon_days" ∧ Environment.IsKey "timezone" := by
  refine ⟨⟨?_, ?_, ?_⟩, ⟨?_, ?_, ?_⟩, ⟨?_, ?_, ?_⟩⟩ <;> simp [List.infix_cons_iff]

/-- The layers of the file and of the environment, key by key. -/
theorem ofTree_merge (hlower : SchedulerTable lower table)
    (hvariables : ∀ v ∈ environment, (∃ key, Environment.Names v.1 key) ∨ Environment.Elsewhere v.1)
    (hdistinct : environment.Pairwise fun v w =>
      ∀ key, Environment.Names v.1 key → ¬ Environment.Names w.1 key) :
    ofTree (Entries.merge lower (Environment.tree environment)) =
      ofValues fun key => (Environment.given? environment key).or (table.lookup key) := by
  obtain ⟨upper, hupper⟩ := Environment.gathers_tree hvariables hdistinct
  obtain ⟨merged, hmerged, -, hlookup⟩ :=
    hlower.merge hupper.isTable hupper.distinct hupper.distinct_table
  obtain ⟨hyears, hdays, hclock⟩ := isKey_of_setting
  -- only three keys are asked for, and two merged values are read like the upper one
  rw [ofTree_of_schedulerTable hmerged]
  simp only [ofValues, ofParts, hlookup, hupper.lookup _ hyears, hupper.lookup _ hdays,
    hupper.lookup _ hclock, orDefault_overlay _ (integerOf_merge _), orDefault_overlay _ clockOf_merge]

/-! ## Checking -/

theorem check_eq (settings : Settings) :
    settings.check =
      if settings.searchYears < 1 then .error (.tooSmall .searchYears settings.searchYears)
      else if settings.idleDays < 1 then .error (.tooSmall .idleDays settings.idleDays)
      else .ok () := by
  unfold check
  by_cases hyears : settings.searchYears < 1
  · rw [if_pos hyears, if_pos hyears]
    rfl
  · by_cases hdays : settings.idleDays < 1
    · rw [if_neg hyears, if_neg hyears, if_pos hdays, if_pos hdays]
      rfl
    · rw [if_neg hyears, if_neg hyears, if_neg hdays, if_neg hdays]
      rfl

theorem check_eq_ok_iff :
    settings.check = .ok () ↔ 1 ≤ settings.searchYears ∧ 1 ≤ settings.idleDays := by
  rw [check_eq]
  split
  next hyears => exact ⟨nofun, fun h => absurd h.1 (Int.not_le.mpr hyears)⟩
  next hyears =>
    split
    next hdays => exact ⟨nofun, fun h => absurd h.2 (Int.not_le.mpr hdays)⟩
    next hdays => exact ⟨fun _ => ⟨Int.not_lt.mp hyears, Int.not_lt.mp hdays⟩, fun _ => rfl⟩

/-- The years are checked before the days. -/
theorem check_eq_error_iff {e : SettingsError} :
    settings.check = .error e ↔
      (settings.searchYears < 1 ∧ e = .tooSmall .searchYears settings.searchYears) ∨
        (1 ≤ settings.searchYears ∧ settings.idleDays < 1 ∧
          e = .tooSmall .idleDays settings.idleDays) := by
  rw [check_eq]
  split
  next hyears =>
    refine ⟨fun h => .inl ⟨hyears, (Except.error.inj h).symm⟩, ?_⟩
    rintro (⟨-, rfl⟩ | ⟨hle, -⟩)
    · rfl
    · exact absurd hyears (Int.not_lt.mpr hle)
  next hyears =>
    split
    next hdays =>
      refine ⟨fun h => .inr ⟨Int.not_lt.mp hyears, hdays, (Except.error.inj h).symm⟩, ?_⟩
      rintro (⟨hlt, -⟩ | ⟨-, -, rfl⟩)
      · exact absurd hlt hyears
      · rfl
    next hdays =>
      refine ⟨nofun, ?_⟩
      rintro (⟨hlt, -⟩ | ⟨-, hlt, -⟩)
      · exact absurd hlt hyears
      · exact absurd hlt hdays

/-- What is loaded passes the check, whatever the layers are. -/
theorem check_of_load (h : load file environment = .ok settings) : settings.check = .ok () := by
  cases hfile : fileTree? file with
  | none =>
    rw [load_of_not_fileTree hfile] at h
    cases h
  | some lower =>
    rw [load_of_fileTree hfile] at h
    obtain ⟨read, -, hread⟩ := bind_eq_ok_iff.mp h
    obtain ⟨⟨⟩, hcheck, hsame⟩ := bind_eq_ok_iff.mp hread
    obtain rfl := Except.ok.inj hsame
    exact hcheck

/-- The program goes on with what is loaded, or else with the defaults. -/
theorem settings_eq (s : CommandLine.Surroundings) (option : Option String) :
    (∀ settings, load (CommandLine.settingsText s option) s.environment = .ok settings →
        CommandLine.settings s option = settings) ∧
      ∀ e, load (CommandLine.settingsText s option) s.environment = .error e →
        CommandLine.settings s option = default := by
  constructor
  · intro settings h
    rw [CommandLine.settings, h]
  · intro e h
    rw [CommandLine.settings, h]

/-- Whatever happens, these settings pass the check. -/
theorem check_settings (s : CommandLine.Surroundings) (option : Option String) :
    (CommandLine.settings s option).check = .ok () := by
  obtain ⟨hloaded, hfailed⟩ := settings_eq s option
  cases h : load (CommandLine.settingsText s option) s.environment with
  | ok settings =>
    rw [hloaded settings h]
    exact check_of_load h
  | error e =>
    rw [hfailed e h]
    rfl

/-- The settings that follow from values, if they pass the check. -/
def checked (value : String → Option Value) : Except SettingsError Settings :=
  ofValues value >>= fun settings => settings.check >>= fun _ => .ok settings

theorem checked_eq_ok_iff :
    checked value = .ok settings ↔
      settings.FollowsFrom value ∧ 1 ≤ settings.searchYears ∧ 1 ≤ settings.idleDays := by
  rw [checked, bind_eq_ok_iff, ← check_eq_ok_iff]
  constructor
  · rintro ⟨read, hread, hrest⟩
    obtain ⟨⟨⟩, hcheck, hsame⟩ := bind_eq_ok_iff.mp hrest
    obtain rfl := Except.ok.inj hsame
    exact ⟨ofValues_eq_ok_iff.mp hread, hcheck⟩
  · rintro ⟨hfollows, hcheck⟩
    exact ⟨settings, ofValues_eq_ok_iff.mpr hfollows, by rw [hcheck]; rfl⟩

theorem checked_eq_error_iff {e : SettingsError} :
    checked value = .error e ↔
      (e = .unreadable ∧ ¬ ∃ settings : Settings, settings.FollowsFrom value) ∨
        ∃ settings : Settings, settings.FollowsFrom value ∧ settings.check = .error e := by
  rw [checked, bind_eq_error_iff]
  refine or_congr ?_ (exists_congr fun settings => ?_)
  · simp only [← ofValues_eq_ok_iff]
    cases h : ofValues value with
    | error e' =>
      obtain rfl := ofValues_eq_error h
      exact ⟨fun he => ⟨(Except.error.inj he).symm, nofun⟩, fun ⟨he, _⟩ => he ▸ rfl⟩
    | ok settings => exact ⟨nofun, fun ⟨_, hnone⟩ => absurd ⟨settings, rfl⟩ hnone⟩
  · rw [ofValues_eq_ok_iff, bind_eq_error_iff]
    refine and_congr_right fun _ => ⟨?_, .inl⟩
    rintro (h | ⟨_, _, h⟩)
    · exact h
    · cases h

theorem checked_eq_unreadable_iff :
    checked value = .error .unreadable ↔
      ¬ ∃ settings : Settings, settings.FollowsFrom value := by
  rw [checked_eq_error_iff]
  constructor
  · rintro (⟨-, hnone⟩ | ⟨settings, -, hcheck⟩)
    · exact hnone
    · rcases check_eq_error_iff.mp hcheck with ⟨-, h⟩ | ⟨-, -, h⟩ <;> cases h
  · exact fun hnone => .inl ⟨rfl, hnone⟩

theorem checked_eq_tooSmall_years_iff {n : Int} :
    checked value = .error (.tooSmall .searchYears n) ↔
      ∃ settings : Settings, settings.FollowsFrom value ∧ settings.searchYears = n ∧ n < 1 := by
  rw [checked_eq_error_iff]
  constructor
  · rintro (⟨h, -⟩ | ⟨settings, hfollows, hcheck⟩)
    · cases h
    · rcases check_eq_error_iff.mp hcheck with ⟨hlt, h⟩ | ⟨-, -, h⟩
      · cases h
        exact ⟨settings, hfollows, rfl, hlt⟩
      · cases h
  · rintro ⟨settings, hfollows, rfl, hlt⟩
    exact .inr ⟨settings, hfollows, check_eq_error_iff.mpr (.inl ⟨hlt, rfl⟩)⟩

theorem checked_eq_tooSmall_days_iff {n : Int} :
    checked value = .error (.tooSmall .idleDays n) ↔ ∃ settings : Settings,
      settings.FollowsFrom value ∧ 1 ≤ settings.searchYears ∧ settings.idleDays = n ∧ n < 1 := by
  rw [checked_eq_error_iff]
  constructor
  · rintro (⟨h, -⟩ | ⟨settings, hfollows, hcheck⟩)
    · cases h
    · rcases check_eq_error_iff.mp hcheck with ⟨-, h⟩ | ⟨hle, hlt, h⟩
      · cases h
      · cases h
        exact ⟨settings, hfollows, hle, rfl, hlt⟩
  · rintro ⟨settings, hfollows, hle, rfl, hlt⟩
    exact .inr ⟨settings, hfollows, check_eq_error_iff.mpr (.inr ⟨hle, hlt, rfl⟩)⟩

/-- **Settings in layers.** Take a file whose tree has at most a table for the scheduler, or no file, and
an environment in which every variable stands for a key of the scheduler or for nothing under its name,
and no two stand for the same key. Under each key the value of the environment counts, else that of the
file. The settings can be loaded exactly if the values under the three keys are what these ask for, or
are missing, and both horizons are at least 1; and they are what follows from these values alone. If the
values are not of the right kind, that is the error; else it is the years if they are below 1, and else
the days. What is loaded passes the check, and the program goes on with it or with the defaults, which
pass the check as well. -/
theorem load_layers (file : Option String) (environment : List (String × String))
    {lower table : Entries} (hfile : fileTree? file = some lower) (htable : SchedulerTable lower table)
    (hvariables : ∀ v ∈ environment, (∃ key, Environment.Names v.1 key) ∨ Environment.Elsewhere v.1)
    (hdistinct : environment.Pairwise fun v w =>
      ∀ key, Environment.Names v.1 key → ¬ Environment.Names w.1 key) :
    let value := fun key => (Environment.given? environment key).or (table.lookup key)
    let loaded := load file environment
    (∀ settings, loaded = .ok settings ↔
      settings.FollowsFrom value ∧ 1 ≤ settings.searchYears ∧ 1 ≤ settings.idleDays) ∧
    (loaded = .error .unreadable ↔ ¬ ∃ settings : Settings, settings.FollowsFrom value) ∧
    (∀ n, loaded = .error (.tooSmall .searchYears n) ↔
      ∃ settings : Settings, settings.FollowsFrom value ∧ settings.searchYears = n ∧ n < 1) ∧
    (∀ n, loaded = .error (.tooSmall .idleDays n) ↔ ∃ settings : Settings,
      settings.FollowsFrom value ∧ 1 ≤ settings.searchYears ∧ settings.idleDays = n ∧ n < 1) ∧
    (∀ settings, loaded = .ok settings → settings.check = .ok ()) ∧
    ∀ s option, CommandLine.settingsText s option = file → s.environment = environment →
      (∀ settings, loaded = .ok settings → CommandLine.settings s option = settings) ∧
      (∀ e, loaded = .error e → CommandLine.settings s option = default) ∧
      (CommandLine.settings s option).check = .ok () := by
  intro value loaded
  have hloaded : loaded = checked value := by
    rw [checked, ← ofTree_merge htable hvariables hdistinct]
    exact load_of_fileTree hfile environment
  rw [hloaded]
  refine ⟨fun settings => checked_eq_ok_iff, checked_eq_unreadable_iff,
    fun n => checked_eq_tooSmall_years_iff, fun n => checked_eq_tooSmall_days_iff,
    fun settings h => check_of_load (hloaded.trans h), ?_⟩
  rintro s option rfl rfl
  rw [← hloaded]
  exact ⟨(settings_eq s option).1, (settings_eq s option).2, check_settings s option⟩

/-- The environment gives the years in the place of a text that is none, and the clock; the file gives
the days. Two other variables do not count. -/
theorem load_layers_per_key :
    let file := "[scheduler]\nsearch_horizon_years = \"many\"\nidle_horizon_days = 30\n"
    let environment := [("PATH", "/bin"), ("chime_scheduler__search_horizon_years", "8"),
      ("CHIME_SCHEDULER__COLOUR", "["), (" Chime_Scheduler__TimeZone", "utc")]
    load (some file) environment = .ok { searchYears := 8, idleDays := 30, clock := .utc } ∧
      load (some file) (environment.take 1) = .error .unreadable := by
  intro file environment
  let table? := (fileTree? (some file)).bind schedulerTable?
  let settings? := fun (environment : List (String × String)) (table : Entries) =>
    (ofValues fun key => (Environment.given? environment key).or (table.lookup key)).toOption
  obtain ⟨table, hsome⟩ : ∃ table, table? = some table :=
    Option.isSome_iff_exists.mp (by decide +kernel)
  obtain ⟨lower, hfile, hlower⟩ := Option.bind_eq_some_iff.mp hsome
  have htable : SchedulerTable lower table := schedulerTable?_eq_some_iff.mp hlower
  have hvariables : ∀ v ∈ environment,
      (∃ key, Environment.Names v.1 key) ∨ Environment.Elsewhere v.1 := by
    have hpath : Environment.Elsewhere "PATH" := fun path h => by
      have hnone : Environment.path? "PATH" = none := by decide +kernel
      rw [hnone] at h
      cases h
    have hyears : Environment.Names "chime_scheduler__search_horizon_years" "search_horizon_years" :=
      ⟨isKey_of_setting.1, by decide +kernel⟩
    have hcolour : Environment.Names "CHIME_SCHEDULER__COLOUR" "colour" :=
      ⟨⟨by simp, by simp, by simp [List.infix_cons_iff]⟩, by decide +kernel⟩
    have hclock : Environment.Names " Chime_Scheduler__TimeZone" "timezone" :=
      ⟨isKey_of_setting.2.2, by decide +kernel⟩
    simp only [environment, List.forall_mem_cons]
    exact ⟨.inr hpath, .inl ⟨_, hyears⟩, .inl ⟨_, hcolour⟩, .inl ⟨_, hclock⟩,
      fun v hv => absurd hv List.not_mem_nil⟩
  have hnodup : (environment.map fun v => Environment.plainName v.1).Nodup := by decide +kernel
  have hdistinct := Environment.pairwise_of_nodup hnodup
  constructor
  · obtain ⟨hok, -⟩ := load_layers (some file) environment hfile htable hvariables hdistinct
    have hread : table?.map (settings? environment) =
        some (some { searchYears := 8, idleDays := 30, clock := .utc }) := by decide +kernel
    rw [hsome] at hread
    have hfollows := ofValues_eq_ok_iff.mp (ok_of_toOption (Option.some.inj hread))
    exact (hok _).mpr ⟨hfollows, by decide, by decide⟩
  · obtain ⟨-, hunreadable, -⟩ := load_layers (some file) (environment.take 1) hfile htable
      (fun v hv => hvariables v (List.mem_of_mem_take hv)) (hdistinct.sublist (List.take_sublist 1 _))
    have hread : table?.map (settings? (environment.take 1)) = some none := by decide +kernel
    rw [hsome] at hread
    refine hunreadable.mpr fun ⟨settings, hfollows⟩ => ?_
    have hnone := Option.some.inj hread
    simp only [settings?, ofValues_eq_ok_iff.mpr hfollows] at hnone
    cases hnone

/-- A point in a name nests as well: here it makes a table where a number is expected. -/
theorem nested_by_point :
    ¬ ['_', '_'] <:+: "SEARCH_HORIZON_YEARS.X".toList ∧
      load none [] = .ok default ∧
      load none [("CHIME_SCHEDULER__SEARCH_HORIZON_YEARS.X", "5")] = .error .unreadable :=
  ⟨by simp [List.infix_cons_iff], rfl, rfl⟩

end Settings

end Cron
