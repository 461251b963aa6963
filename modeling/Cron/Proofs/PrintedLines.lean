import Cron.Proofs.Enumeration
import Cron.Proofs.NextOccurrence

/-!
# What the task `next` prints

The task `next` prints its lines as they are or as a list in JSON. It is read back here, line by
line (`linesOf`) and character by character (`jsonTexts?`), so that something can be said about the
printed text itself: both forms hold the same lines, and each of them stands for an occurrence.

The word `never` stands for a list without lines. A line of a timestamp has no letter but a `T`, so
the word cannot be mistaken for one. The list is empty if nothing is found, but also if no lines are
asked for.

Headlines:
* `linesOf_unlines`, `jsonTexts?_jsonText`: what is printed is read back;
* `isStampChar_of_mem_internetText`: the characters of a timestamp;
* `next_says_never_iff`: what both forms say, and when they say never.
-/

namespace Cron

/-- What is listed is an occurrence. -/
theorem Schedule.occursAt_of_mem_occurrences {s : Schedule} {z : Zone} {horizon : Int} {n : Nat}
    {since t : Instant} (h : t ∈ s.occurrences z horizon n since) : s.occursAt z t = true := by
  induction n generalizing since with
  | zero => cases h
  | succ n ih =>
    cases hfound : s.firstAfter? z horizon since with
    | none =>
      rw [occurrences_of_none hfound] at h
      cases h
    | some u =>
      rw [occurrences_of_some hfound] at h
      rcases List.mem_cons.mp h with rfl | h
      · exact occursAt_of_firstAfter hfound
      · exact ih h

theorem Schedule.length_occurrences_le (s : Schedule) (z : Zone) (horizon : Int) (n : Nat)
    (since : Instant) : (s.occurrences z horizon n since).length ≤ n := by
  have hbehind := getElem?_occurrences s z horizon n since n
  rw [if_neg (Nat.lt_irrefl n)] at hbehind
  exact List.getElem?_eq_none_iff.mp hbehind

/-- Nothing is listed only if nothing is found, unless nothing was asked for. -/
theorem Schedule.occurrences_eq_nil_iff {s : Schedule} {z : Zone} {horizon : Int} {n : Nat}
    {since : Instant} (hn : 0 < n) :
    s.occurrences z horizon n since = [] ↔ s.firstAfter? z horizon since = none := by
  obtain ⟨n, rfl⟩ := Nat.exists_eq_succ_of_ne_zero (Nat.ne_of_gt hn)
  cases hfound : s.firstAfter? z horizon since with
  | none => simp only [occurrences_of_none hfound]
  | some t => simp only [occurrences_of_some hfound, reduceCtorEq]

namespace CommandLine

/-! ## Lines -/

/-- The lines of a text, each of which has a line break behind it. -/
def linesOf (text : String) : List String := (text.toList.splitOn '\n').dropLast.map String.ofList

theorem toList_unlines_cons (line : String) (rest : List String) :
    (unlines (line :: rest)).toList = line.toList ++ '\n' :: (unlines rest).toList := by
  simp [unlines, String.toList_join]

/-- Lines without breaks in them are read back. -/
theorem linesOf_unlines {lines : List String} (h : ∀ line ∈ lines, '\n' ∉ line.toList) :
    linesOf (unlines lines) = lines := by
  induction lines with
  | nil => rfl
  | cons line rest ih =>
    obtain ⟨hline, hrest⟩ := List.forall_mem_cons.mp h
    rw [linesOf, toList_unlines_cons, List.splitOn_append_cons_self_of_not_mem hline,
      List.dropLast_cons_of_ne_nil (List.splitOn_ne_nil _ _), List.map_cons, String.ofList_toList]
    exact congrArg (line :: ·) (ih hrest)

/-! ## Lists in JSON -/

/-- How far a list of texts in JSON has been read. -/
inductive JsonState where
  /-- In front of the list. -/
  | outside
  /-- Behind the opening bracket. -/
  | opened
  /-- Within a text, behind some of its characters. -/
  | within (texts : List String) (start : List Char)
  /-- Behind a text. -/
  | behind (texts : List String)
  /-- Behind a comma. -/
  | between (texts : List String)
  /-- Behind the closing bracket. -/
  | closed (texts : List String)

/-- The blanks of JSON. -/
def isJsonBlank (c : Char) : Bool := c == ' ' || c == '\n' || c == '\r' || c == '\t'

/-- Whether a character stands for itself within a text in JSON. -/
def isJsonPlain (c : Char) : Bool := c != '"' && c != '\\' && 32 ≤ c.toNat

namespace JsonState

/-- Reads one character further. Escapes are refused. -/
def step (state : JsonState) (c : Char) : Option JsonState :=
  match state with
  | within texts start =>
    if c = '"' then some (behind (texts ++ [String.ofList start]))
    else if isJsonPlain c then some (within texts (start ++ [c]))
    else none
  | state =>
    if isJsonBlank c then some state
    else
      match state, c with
      | outside, '[' => some opened
      | opened, ']' => some (closed [])
      | opened, '"' => some (within [] [])
      | behind texts, ',' => some (between texts)
      | behind texts, ']' => some (closed texts)
      | between texts, '"' => some (within texts [])
      | _, _ => none

end JsonState

namespace JsonState

/-- Reading some characters leads from one state to another. -/
def Reads (state : JsonState) (text : List Char) (after : JsonState) : Prop :=
  text.foldlM step state = some after

variable {state middle after : JsonState} {l l' : List Char} {texts : List String}

theorem Reads.append (h : state.Reads l middle) (h' : middle.Reads l' after) :
    state.Reads (l ++ l') after := by
  unfold Reads at *
  rw [List.foldlM_append, h]
  exact h'

theorem Reads.cons {c : Char} (h : state.step c = some middle) (h' : middle.Reads l after) :
    state.Reads (c :: l) after := by
  unfold Reads at *
  rw [List.foldlM_cons, h]
  exact h'

/-- A text is read up to the quote behind it. -/
theorem reads_within (h : ∀ c ∈ l, isJsonPlain c = true) (texts : List String)
    (start : List Char) :
    (within texts start).Reads (l ++ ['"']) (behind (texts ++ [String.ofList (start ++ l)])) := by
  induction l generalizing start with
  | nil =>
    rw [List.append_nil]
    rfl
  | cons c rest ih =>
    obtain ⟨hc, hrest⟩ := List.forall_mem_cons.mp h
    have hquote : c ≠ '"' := by
      rintro rfl
      exact absurd hc (by decide)
    have hstep : (within texts start).step c = some (within texts (start ++ [c])) := by
      rw [step, if_neg hquote, if_pos hc]
    have htext := ih hrest (start ++ [c])
    rw [List.append_assoc] at htext
    exact htext.cons hstep

/-- A text is read with its quotes, where one may begin. -/
theorem reads_quoted {line : String} (h : ∀ c ∈ line.toList, isJsonPlain c = true)
    (hblank : state.step ' ' = some state) (hquote : state.step '"' = some (within texts [])) :
    state.Reads ("  \"" ++ line ++ "\"").toList (behind (texts ++ [line])) := by
  have htoList : ("  \"" ++ line ++ "\"").toList = ' ' :: ' ' :: '"' :: (line.toList ++ ['"']) := by
    simp
  have htext := reads_within h texts []
  rw [List.nil_append, String.ofList_toList] at htext
  rw [htoList]
  exact ((htext.cons hquote).cons hblank).cons hblank

/-- Texts are read one after the other, with commas between them. -/
theorem reads_texts {lines : List String} (hlines : lines ≠ [])
    (h : ∀ line ∈ lines, ∀ c ∈ line.toList, isJsonPlain c = true)
    (hblank : state.step ' ' = some state) (hquote : state.step '"' = some (within texts [])) :
    state.Reads (String.intercalate ",\n" (lines.map fun line => "  \"" ++ line ++ "\"")).toList
      (behind (texts ++ lines)) := by
  induction lines generalizing state texts with
  | nil => exact absurd rfl hlines
  | cons line rest ih =>
    obtain ⟨hline, hrest⟩ := List.forall_mem_cons.mp h
    have hfirst := reads_quoted hline hblank hquote
    cases rest with
    | nil =>
      rw [List.map_cons, List.map_nil, String.intercalate_singleton]
      exact hfirst
    | cons line' rest =>
      -- blanks and quotes are read behind a comma as they are behind the bracket
      have hcomma : (behind (texts ++ [line])).Reads [',', '\n'] (between (texts ++ [line])) := rfl
      have hothers : (between (texts ++ [line])).Reads _ _ :=
        ih (List.cons_ne_nil line' rest) hrest rfl rfl
      rw [List.append_assoc, String.toList_intercalate] at hothers
      rw [List.map_cons, String.toList_intercalate, List.map_cons,
        List.intercalate_cons_of_ne_nil (by simp)]
      exact (hfirst.append hcomma).append hothers

end JsonState

/-- The texts of a list in JSON. -/
def jsonTexts? (text : String) : Option (List String) :=
  match text.toList.foldlM JsonState.step .outside with
  | some (.closed texts) => some texts
  | _ => none

/-- Lines of plain characters are read back. -/
theorem jsonTexts?_jsonText {lines : List String}
    (h : ∀ line ∈ lines, ∀ c ∈ line.toList, isJsonPlain c = true) :
    jsonTexts? (jsonText lines) = some lines := by
  cases lines with
  | nil => rfl
  | cons line rest =>
    have hopen : JsonState.outside.Reads ['[', '\n'] .opened := rfl
    have htexts : JsonState.opened.Reads _ (.behind ([] ++ line :: rest)) :=
      JsonState.reads_texts (List.cons_ne_nil line rest) h rfl rfl
    have hclose : (JsonState.behind (line :: rest)).Reads ['\n', ']', '\n'] (.closed (line :: rest)) :=
      rfl
    have hall := (hopen.append htexts).append hclose
    unfold JsonState.Reads at hall
    rw [jsonTexts?, jsonText, List.isEmpty_cons, if_neg Bool.false_ne_true, String.toList_append,
      String.toList_append]
    exact congrArg (fun state => match state with
      | some (JsonState.closed texts) => some texts
      | _ => none) hall

/-! ## Timestamps -/

/-- The characters of timestamps. -/
def isStampChar (c : Char) : Bool := c.isDigit || ['-', '+', ':', '.', 'T'].contains c

/-- The characters of timestamps stand for themselves in JSON. -/
theorem isJsonPlain_of_isStampChar {c : Char} (h : isStampChar c = true) : isJsonPlain c = true := by
  have hquote : c ≠ '"' := by
    rintro rfl
    exact absurd h (by decide)
  have hescape : c ≠ '\\' := by
    rintro rfl
    exact absurd h (by decide)
  have hcode : 32 ≤ c.toNat := by
    rcases Bool.or_eq_true_iff.mp h with hdigit | hmark
    · have hlow := (Char.isDigit_iff_toNat.mp hdigit).1
      exact Nat.le_trans (by decide) hlow
    · have hmarks : ['-', '+', ':', '.', 'T'].all (fun c => decide (32 ≤ c.toNat)) = true := by decide
      exact of_decide_eq_true (List.all_eq_true.mp hmarks c (List.contains_iff_mem.mp hmark))
  simp only [isJsonPlain, bne_iff_ne, ne_eq, Bool.and_eq_true, decide_eq_true_eq]
  exact ⟨⟨hquote, hescape⟩, hcode⟩

theorem all_padded (width n : Nat) : (Text.padded width n).all isStampChar = true := by
  refine List.all_eq_true.mpr fun c hc => ?_
  have hdigit : c.isDigit = true := by
    rcases List.mem_append.mp hc with hc | hc
    · rw [List.eq_of_mem_replicate hc]
      decide
    · exact Nat.isDigit_of_mem_toDigits (by decide) (by decide) hc
  rw [isStampChar, hdigit, Bool.true_or]

theorem all_yearText (year : Int) : (yearText year).all isStampChar = true := by
  unfold yearText
  split
  · exact all_padded 4 _
  · rw [List.all_cons, all_padded, Bool.and_true]
    split <;> decide

theorem all_fractionText (nanos : Nat) : (fractionText nanos).all isStampChar = true := by
  have hpoint : isStampChar '.' = true := by decide
  unfold fractionText
  split
  · rfl
  · split
    · rw [List.all_cons, all_padded, hpoint, Bool.and_true]
    · split <;> rw [List.all_cons, all_padded, hpoint, Bool.and_true]

theorem all_text (r : Reading) : r.text.toList.all isStampChar = true := by
  have hmarks : isStampChar '-' = true ∧ isStampChar ':' = true ∧ isStampChar 'T' = true := by decide
  simp only [Reading.text, Date.text, String.toList_ofList, List.all_append, List.all_cons,
    List.all_nil, all_padded, all_yearText, all_fractionText, hmarks, Bool.and_true]

theorem all_offsetMinutesText (offset : Int) :
    (offsetMinutesText offset).toList.all isStampChar = true := by
  have hcolon : isStampChar ':' = true := by decide
  rw [offsetMinutesText]
  simp only [String.toList_ofList, List.all_append, List.all_cons, List.all_nil, all_padded, hcolon,
    Bool.and_true]
  split <;> decide

/-- A timestamp has no other characters. -/
theorem isStampChar_of_mem_internetText {z : Zone} {t : Instant} {c : Char}
    (h : c ∈ (internetText z t).toList) : isStampChar c = true := by
  rw [internetText, String.toList_append] at h
  rcases List.mem_append.mp h with h | h
  · exact List.all_eq_true.mp (all_text _) c h
  · exact List.all_eq_true.mp (all_offsetMinutesText _) c h

/-! ## The task `next` -/

variable {lines : List String}

/-- The lines of timestamps. -/
def Stamped (lines : List String) : Prop := ∀ line ∈ lines, ∀ c ∈ line.toList, isStampChar c = true

theorem stamped_map_internetText (z : Zone) (dues : List Instant) :
    Stamped (dues.map (internetText z)) := by
  intro line hline
  obtain ⟨t, -, rfl⟩ := List.mem_map.mp hline
  exact fun c => isStampChar_of_mem_internetText

/-- The lines are read back from the plain form, if there are any. -/
theorem Stamped.linesOf_printed (h : Stamped lines) (hlines : lines ≠ []) :
    linesOf (printed false lines) = lines := by
  have hbreaks : ∀ line ∈ lines, '\n' ∉ line.toList := fun line hline hbreak =>
    absurd (h line hline _ hbreak) (by decide)
  rw [printed, if_neg Bool.false_ne_true, if_neg (by simpa using hlines)]
  exact linesOf_unlines hbreaks

/-- The lines are read back from the form in JSON. -/
theorem Stamped.jsonTexts?_printed (h : Stamped lines) :
    jsonTexts? (printed true lines) = some lines := by
  rw [printed, if_pos rfl]
  exact jsonTexts?_jsonText fun line hline c hc => isJsonPlain_of_isStampChar (h line hline c hc)

/-- The word stands for a list without lines. -/
theorem Stamped.printed_eq_never_iff (h : Stamped lines) :
    printed false lines = unlines ["never"] ↔ lines = [] := by
  constructor
  · intro hnever
    -- otherwise the word is one of the lines, but no line has an n in it
    refine Decidable.byContradiction fun hlines => ?_
    have hread := h.linesOf_printed hlines
    rw [hnever, linesOf_unlines (by decide)] at hread
    exact absurd (h "never" (hread ▸ List.mem_singleton_self _) 'n' (by decide)) (by decide)
  · rintro rfl
    rfl

/-- If there is room for the lines, the task prints them. -/
theorem performNext_of_le {s : Surroundings} {settings : Settings} {task : NextTask}
    {schedule : Schedule} {text : String} {since : Instant}
    (hcompile : Schedule.compile task.pattern = .ok schedule) (hsince : task.since = some text)
    (hread : Timestamp.ofInternet? text = some since) (hroom : task.count ≤ maxLines) :
    let zone := if task.utc then .utc else zoneFor s settings.clock
    performNext s settings task = .success (printed task.json
      ((schedule.occurrences zone settings.searchYears task.count since).map (internetText zone))) := by
  simp only [performNext, hcompile, hsince, hread, performNext.answer, nextLines?_of_le hroom]

/-- **What the task `next` prints, and when it says never.** Take two calls that only differ in the
form that they ask for, with a pattern that compiles, a timestamp to start from, and a count that is
not zero and for which there is room. Both succeed. The plain form is the word `never` exactly if
nothing is found after the timestamp within the horizon. Otherwise it has up to as many lines as were
asked for, at least one, and each of them is the text of a later occurrence. The form in JSON is a list
of exactly these lines, and is empty where the plain form says never. -/
theorem next_says_never_iff (s : Surroundings) (option : Option String) (task : NextTask)
    {plain json : List String} {schedule : Schedule} {text : String} {since : Instant}
    (hplain : parse plain = .task option (.next { task with json := false }))
    (hjson : parse json = .task option (.next { task with json := true }))
    (hcompile : Schedule.compile task.pattern = .ok schedule) (hsince : task.since = some text)
    (hread : Timestamp.ofInternet? text = some since) (hcount : 0 < task.count)
    (hroom : task.count ≤ maxLines) :
    let settings := settings s option
    let zone := if task.utc then .utc else zoneFor s settings.clock
    let found := schedule.firstAfter? zone settings.searchYears since
    ∃ plainForm jsonForm,
      plan s plain = .report (.success plainForm) ∧ plan s json = .report (.success jsonForm) ∧
      (plainForm = "never\n" ↔ found = none) ∧
      (found ≠ none → 0 < (linesOf plainForm).length ∧ (linesOf plainForm).length ≤ task.count ∧
        ∀ line ∈ linesOf plainForm, ∃ t,
          line = internetText zone t ∧ since < t ∧ schedule.occursAt zone t = true) ∧
      jsonTexts? jsonForm = some (if found = none then [] else linesOf plainForm) := by
  intro settings zone found
  let dues := schedule.occurrences zone settings.searchYears task.count since
  let lines := dues.map (internetText zone)
  have hstamped : Stamped lines := stamped_map_internetText zone dues
  have hnone : lines = [] ↔ found = none :=
    List.map_eq_nil_iff.trans (Schedule.occurrences_eq_nil_iff hcount)
  refine ⟨printed false lines, printed true lines, ?_, ?_, ?_, fun hfound => ?_, ?_⟩
  · rw [plan, hplain]
    exact congrArg Plan.report (performNext_of_le hcompile hsince hread hroom)
  · rw [plan, hjson]
    exact congrArg Plan.report (performNext_of_le hcompile hsince hread hroom)
  · exact hstamped.printed_eq_never_iff.trans hnone
  · have hlines : lines ≠ [] := fun h => hfound (hnone.mp h)
    rw [hstamped.linesOf_printed hlines]
    refine ⟨List.length_pos_iff.mpr hlines, ?_, fun line hline => ?_⟩
    · rw [List.length_map]
      exact Schedule.length_occurrences_le _ _ _ _ _
    · obtain ⟨t, ht, rfl⟩ := List.mem_map.mp hline
      exact ⟨t, rfl, Schedule.lt_of_mem_occurrences ht, Schedule.occursAt_of_mem_occurrences ht⟩
  · rw [hstamped.jsonTexts?_printed]
    split
    next hfound => rw [hnone.mpr hfound]
    next hfound => rw [hstamped.linesOf_printed fun h => hfound (hnone.mp h)]

/-- With a horizon of one year, no leap day is found after the summer of 2022; with that of the
defaults, the next one is. -/
theorem next_says_never_iff_for_leap_days :
    let around := fun environment : List (String × String) =>
      ({ file := fun _ => none, directory := "/", environment, zone := .utc
         now := Instant.ofSeconds 0 } : Surroundings)
    let short := around [("CHIME_SCHEDULER__SEARCH_HORIZON_YEARS", "1")]
    let plain := ["next", "0 0 0 29 2 ?", "--from", "2022-07-19T14:50:00Z"]
    let json := ["next", "0 0 0 29 2 ?", "--from", "2022-07-19T14:50:00Z", "--json"]
    (plan short plain = .report (.success "never\n") ∧
      ∃ jsonForm, plan short json = .report (.success jsonForm) ∧ jsonTexts? jsonForm = some []) ∧
    ∃ plainForm jsonForm, plan (around []) plain = .report (.success plainForm) ∧
      plan (around []) json = .report (.success jsonForm) ∧ plainForm ≠ "never\n" ∧
      jsonTexts? jsonForm = some (linesOf plainForm) := by
  intro around short plain json
  let task : NextTask :=
    { pattern := "0 0 0 29 2 ?", count := 5, since := some "2022-07-19T14:50:00Z", utc := false
      json := false }
  have hplain : parse plain = .task none (.next { task with json := false }) := by decide +kernel
  have hjson : parse json = .task none (.next { task with json := true }) := by decide +kernel
  have hread : Timestamp.ofInternet? "2022-07-19T14:50:00Z" = some (Instant.ofSeconds 1658242200) := by
    decide +kernel
  obtain ⟨schedule, hcompile⟩ : ∃ schedule, Schedule.compile "0 0 0 29 2 ?" = .ok schedule := ⟨_, rfl⟩
  have hleapDays : schedule = midnightOfFebruary 29 := by
    have hsome : (Schedule.compile "0 0 0 29 2 ?").toOption = some (midnightOfFebruary 29) := by
      decide +kernel
    rw [hcompile] at hsome
    exact Option.some.inj hsome
  subst hleapDays
  constructor
  · obtain ⟨plainForm, jsonForm, hp, hj, hnever, -, htexts⟩ :=
      next_says_never_iff short none task hplain hjson hcompile rfl hread (by decide) (by decide)
    have hfound : (midnightOfFebruary 29).firstAfter? .utc 1 (Instant.ofSeconds 1658242200) = none := by
      decide +kernel
    have hsettings : settings short none = { Settings.default with searchYears := 1 } := by
      decide +kernel
    rw [hsettings] at hnever htexts
    obtain rfl := hnever.mpr hfound
    exact ⟨hp, jsonForm, hj, htexts.trans (congrArg some (if_pos hfound))⟩
  · obtain ⟨plainForm, jsonForm, hp, hj, hnever, -, htexts⟩ :=
      next_says_never_iff (around []) none task hplain hjson hcompile rfl hread (by decide) (by decide)
    have hfound : (midnightOfFebruary 29).firstAfter? .utc 5 (Instant.ofSeconds 1658242200) ≠ none := by
      decide +kernel
    have hsettings : settings (around []) none = Settings.default := by decide +kernel
    rw [hsettings] at hnever htexts
    exact ⟨plainForm, jsonForm, hp, hj, fun h => hfound (hnever.mp h),
      htexts.trans (congrArg some (if_neg hfound))⟩

/-- If no lines are asked for, the plain form says never, whatever there is to be found. -/
theorem never_of_count_eq_zero {s : Surroundings} {settings : Settings} {task : NextTask}
    {schedule : Schedule} {text : String} {since : Instant}
    (hcompile : Schedule.compile task.pattern = .ok schedule) (hsince : task.since = some text)
    (hread : Timestamp.ofInternet? text = some since) (hcount : task.count = 0)
    (hplain : task.json = false) : performNext s settings task = .success "never\n" := by
  rw [performNext_of_le hcompile hsince hread (hcount ▸ Nat.zero_le _), hcount, hplain]
  rfl

/-- Every second is an occurrence, and the plain form says never all the same, since no lines are asked
for. -/
theorem never_although_found :
    let surroundings : Surroundings :=
      { file := fun _ => none, directory := "/", environment := [], zone := .utc
        now := Instant.ofSeconds 0 }
    let arguments := ["next", "* * * * * *", "--from", "2022-07-19T14:50:00Z", "-n", "0"]
    let horizon := (settings surroundings none).searchYears
    Schedule.compile "* * * * * *" = .ok Schedule.everySecond ∧
      Timestamp.ofInternet? "2022-07-19T14:50:00Z" = some (Instant.ofSeconds 1658242200) ∧
      Schedule.everySecond.firstAfter? .utc horizon (Instant.ofSeconds 1658242200) =
        some (Instant.ofSeconds 1658242201) ∧
      plan surroundings arguments = .report (.success "never\n") := by
  intro surroundings arguments horizon
  let task : NextTask :=
    { pattern := "* * * * * *", count := 0, since := some "2022-07-19T14:50:00Z", utc := false
      json := false }
  have hparse : parse arguments = .task none (.next task) := by decide +kernel
  have hread : Timestamp.ofInternet? "2022-07-19T14:50:00Z" = some (Instant.ofSeconds 1658242200) := by
    decide +kernel
  have hcompile : Schedule.compile "* * * * * *" = .ok Schedule.everySecond := rfl
  refine ⟨hcompile, hread, by decide +kernel, ?_⟩
  rw [plan, hparse]
  exact congrArg Plan.report (never_of_count_eq_zero hcompile rfl hread rfl rfl)

end CommandLine

end Cron
