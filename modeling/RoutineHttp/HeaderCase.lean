import RoutineHttp.HeaderViews
import RoutineHttp.HeaderSlices
import RoutineHttp.Lib.Runs

/-! Letter case and header names. The parser folds the names of a block; insertion, lookup and
creation take a name as it is spelled, so a name with a letter in it has another spelling that
is not found. -/
namespace RoutineHttp.HeaderCase
open Lib HeaderViews HeaderSlices

/-- A call on a mutable container. -/
inductive Call where
  | insert (key value : Str)
  | atMutable (key : StringView)
  | subscriptMutable (key : StringView)

/-- The container after a call, where the call is defined. -/
def step (h : Headers) : Call → Option Headers
  | .insert key value => some (h.insert key value)
  | .atMutable key => (h.atMutable key).toOption.map Prod.snd
  | .subscriptMutable key => (h.subscriptMutable key).toOption.map Prod.snd

/-- Equal but for the case of ASCII letters. -/
def SameIgnoringCase (n n' : Str) : Prop := n.map Char.toLower = n'.map Char.toLower

structure CaseInsensitive (h : Headers) : Prop where
  apart : ∀ field ∈ h.headers.entries, ∀ field' ∈ h.headers.entries,
    SameIgnoringCase field.1 field'.1 → field = field'
  contains : ∀ n n', SameIgnoringCase n n' → h.contains n = h.contains n'
  found : ∀ n n', SameIgnoringCase n n' → h.findField n = h.findField n'

/-- A name that can be spelled in one way only. -/
def Caseless (name : Str) : Prop := ∀ c ∈ name, c.isAlpha = false

/-- No line of the block is stored under a name with a letter. -/
def CaselessBlock (block : Str) : Prop :=
  ∀ line ∈ parsedLines block, ∀ n, find line ':' 2 = some n → Caseless (line.take n)

/-- The name under which a call may store a new field. -/
def addedName (h : Headers) : Call → Option Str
  | .insert key _ => some key
  | .atMutable key => if h.contains key.text then none else key.cString.toOption
  | .subscriptMutable key => if h.contains key.text then none else key.cString.toOption

/-- A call adds no name with a letter. -/
def AddsCaseless (h : Headers) (call : Call) : Prop :=
  ∀ name, addedName h call = some name → Caseless name

def CaselessFields (h : Headers) : Prop := ∀ name, name ∈ h.headers → Caseless name

theorem caseless_map_toLower {name : Str} : Caseless (name.map Char.toLower) ↔ Caseless name := by
  simp only [Caseless, List.forall_mem_map, Char.isAlpha_toLower_eq_isAlpha]

theorem map_toLower_of_caseless {name : Str} (h : Caseless name) :
    name.map Char.toLower = name := by
  refine (List.map_congr_left fun c hc => ?_).trans (List.map_id name)
  have hc' : c.isUpper = false := by
    have := h c hc
    rw [Char.isAlpha, Bool.or_eq_false_iff] at this
    exact this.1
  exact Char.toLower_eq_of_not_isUpper (by simp [hc'])

theorem eq_of_sameIgnoringCase {n n' : Str} (h : SameIgnoringCase n n') (hn : Caseless n) :
    n' = n := by
  have hn' : Caseless n' := by
    rw [← caseless_map_toLower, ← h, caseless_map_toLower]
    exact hn
  rw [← map_toLower_of_caseless hn', ← map_toLower_of_caseless hn]
  exact h.symm

/-- A name with a letter has two spellings. -/
theorem map_toUpper_ne_map_toLower {name : Str} (h : ¬ Caseless name) :
    name.map Char.toUpper ≠ name.map Char.toLower := by
  intro heq
  refine h fun c hc => ?_
  have hupper : c.toUpper = c.toLower := List.map_inj_left.mp heq c hc
  have hcase := congrArg Char.isUpper hupper
  rwa [Char.isUpper_toUpper_eq_isAlpha, Char.isUpper_toLower_eq_false] at hcase

theorem sameIgnoringCase_toUpper (name : Str) : SameIgnoringCase name (name.map Char.toUpper) := by
  simp [SameIgnoringCase, Function.comp_def]

theorem sameIgnoringCase_toLower (name : Str) : SameIgnoringCase name (name.map Char.toLower) := by
  simp [SameIgnoringCase, Function.comp_def]

theorem findField_of_notMem {h : Headers} {name : Str} (hn : name ∉ h.headers) :
    h.findField name = none := by
  rw [Headers.findField, AList.lookup_eq_none.mpr hn, Option.map_none]

/-- Lookup and storage ignore the letter case exactly when no stored name has a letter. -/
theorem caseInsensitive_iff (h : Headers) : CaseInsensitive h ↔ CaselessFields h := by
  constructor
  · -- a stored name would be stored in capital and in small letters
    intro hcase name hname
    by_contra hletter
    have hstored : ∀ n', SameIgnoringCase name n' →
        ∃ value, (⟨n', value⟩ : HeaderField) ∈ h.headers.entries := by
      intro n' hn'
      have hcontains := hcase.contains name n' hn'
      rw [Headers.contains, Headers.contains, decide_eq_true hname] at hcontains
      exact mem_iff_exists_entry.mp (of_decide_eq_true hcontains.symm)
    obtain ⟨value, hupper⟩ := hstored _ (sameIgnoringCase_toUpper name)
    obtain ⟨value', hlower⟩ := hstored _ (sameIgnoringCase_toLower name)
    have hsame := (sameIgnoringCase_toUpper name).symm.trans (sameIgnoringCase_toLower name)
    have hfield := hcase.apart _ hupper _ hlower hsame
    exact map_toUpper_ne_map_toLower hletter (congrArg Sigma.fst hfield)
  · intro hnames
    have hmem : ∀ {n n'}, SameIgnoringCase n n' → n ∈ h.headers → n' = n :=
      fun hsame hn => eq_of_sameIgnoringCase hsame (hnames _ hn)
    have hnone : ∀ {n n'}, SameIgnoringCase n n' → n ∉ h.headers → n' ∉ h.headers :=
      fun hsame hn hn' => hn (hmem hsame.symm hn' ▸ hn')
    refine ⟨fun field hfield field' hfield' hsame => ?_, fun n n' hsame => ?_, fun n n' hsame => ?_⟩
    · have hname : field'.1 = field.1 :=
        hmem hsame (mem_iff_exists_entry.mpr ⟨field.2, hfield⟩)
      obtain ⟨name, value⟩ := field
      obtain ⟨name', value'⟩ := field'
      cases hname
      have hlookup := AList.mem_lookup_iff.mpr hfield
      rw [Option.mem_def, AList.mem_lookup_iff.mpr hfield'] at hlookup
      cases hlookup
      rfl
    · by_cases hn : n ∈ h.headers
      · rw [hmem hsame hn]
      · simp [Headers.contains, hn, hnone hsame hn]
    · by_cases hn : n ∈ h.headers
      · rw [hmem hsame hn]
      · rw [findField_of_notMem hn, findField_of_notMem (hnone hsame hn)]

/-- The names after a lookup that may create. -/
theorem mem_findOrEmplace {h : Headers} {key : StringView} {r : HeaderField × Headers}
    (hr : h.findOrEmplace key = .ok r) {name : Str} : name ∈ r.2.headers ↔ name ∈ h.headers ∨
      (if h.contains key.text then none else key.cString.toOption) = some name := by
  cases hl : h.headers.lookup key.text with
  | some value =>
    rw [findOrEmplace_of_mem hl] at hr
    cases hr
    simp [contains_iff.mpr ⟨value, hl⟩]
  | none =>
    have hcontains : h.contains key.text = false := by
      rw [← Bool.not_eq_true, contains_iff, hl]
      simp
    rw [findOrEmplace_of_notMem hl] at hr
    obtain ⟨created, hname, hr⟩ := bind_eq_ok hr
    rw [← Except.ok.inj hr, Headers.mem_insert, hcontains, hname]
    simp [Except.toOption, or_comm, eq_comm]

/-- The names after a call. -/
theorem mem_step {h h' : Headers} {call : Call} (hs : step h call = some h') {name : Str} :
    name ∈ h'.headers ↔ name ∈ h.headers ∨ addedName h call = some name := by
  have haccess : ∀ {key : StringView}, (h.findOrEmplace key).toOption.map Prod.snd = some h' →
      (name ∈ h'.headers ↔ name ∈ h.headers ∨
        (if h.contains key.text then none else key.cString.toOption) = some name) := by
    intro key hk
    obtain ⟨r, hr, rfl⟩ := Option.map_eq_some_iff.mp hk
    cases hfound : h.findOrEmplace key with
    | error fault => simp [hfound, Except.toOption] at hr
    | ok found =>
      rw [hfound] at hr
      cases hr
      exact mem_findOrEmplace hfound
  cases call with
  | insert key value =>
    cases hs
    rw [Headers.mem_insert, addedName, Option.some.injEq, or_comm, eq_comm]
  | atMutable key => exact haccess hs
  | subscriptMutable key => exact haccess hs

/-- The names after a line of a block. -/
theorem mem_parseLine {h h' : Headers} {line : Str} (hp : h.parseLine line = .ok h') {name : Str} :
    name ∈ h'.headers ↔ name ∈ h.headers ∨
      ∃ n, find line ':' 2 = some n ∧ (line.take n).map Char.toLower = name := by
  cases hf : find line ':' 2 with
  | none =>
    rw [Headers.parseLine, hf] at hp
    cases hp
    simp
  | some n =>
    have hn := colonInside_iff.mp (parseLine_ok_iff.mp ⟨h', hp⟩) n hf
    rw [Headers.parseLine_eq hf hn] at hp
    cases hp
    rw [Headers.mem_insert, or_comm]
    simp [eq_comm]

theorem mem_parseLines {h h' : Headers} {lines : List Str} (hp : h.parseLines lines = .ok h')
    {name : Str} : name ∈ h'.headers ↔ name ∈ h.headers ∨
      ∃ line ∈ lines.takeWhile (fun line => decide (line.head? ≠ some '\r')),
        ∃ n, find line ':' 2 = some n ∧ (line.take n).map Char.toLower = name := by
  induction lines generalizing h with
  | nil =>
    cases hp
    simp
  | cons line lines ih =>
    obtain ⟨hend, rfl⟩ | ⟨hmore, next, hline, hp⟩ := Headers.parseLines_cons_ok hp
    · simp [hend]
    · rw [ih hp, mem_parseLine hline, List.takeWhile_cons_of_pos (by simpa using hmore),
        List.exists_mem_cons_iff, or_assoc]

theorem caselessFields_parsed {block : Str} {h : Headers}
    (hp : Headers.initFromStream {} block = .ok h) : CaselessFields h ↔ CaselessBlock block := by
  unfold CaselessFields CaselessBlock parsedLines
  simp only [mem_parseLines hp]
  constructor
  · intro hnames line hline n hf
    exact caseless_map_toLower.mp (hnames _ (Or.inr ⟨line, hline, n, hf, rfl⟩))
  · intro hblock name hname
    obtain hname | ⟨line, hline, n, hf, rfl⟩ := hname
    · exact absurd hname (AList.notMem_empty name)
    · exact caseless_map_toLower.mpr (hblock line hline n hf)

/-- A step keeps the names without letters, or stores one with a letter. -/
theorem caselessFields_step {h h' : Headers} {call : Call} (hh : CaselessFields h)
    (hs : step h call = some h') : CaselessFields h' ↔ AddsCaseless h call := by
  constructor
  · exact fun hnames name hadded => hnames name ((mem_step hs).mpr (Or.inr hadded))
  · intro hadds name hname
    obtain hname | hadded := (mem_step hs).mp hname
    · exact hh name hname
    · exact hadds name hadded

/-- In every state of a run from a parsed block the letter case makes no difference exactly
when nothing is ever stored under a name with a letter. -/
theorem case_insensitive_iff {block : Str} {h t : Headers}
    (hp : Headers.initFromStream {} block = .ok h) {calls : List Call}
    (hrun : run step h calls = some t) :
    Throughout step CaseInsensitive h calls ↔
      CaselessBlock block ∧ Along step AddsCaseless h calls := by
  rw [← caselessFields_parsed hp]
  by_cases hh : CaselessFields h
  · rw [and_iff_right hh]
    refine throughout_iff_along (fun s (hs : CaselessFields s) => (caseInsensitive_iff s).mpr hs)
      (fun s call s' hs hkept hstep => (caselessFields_step hs hstep).mpr hkept)
      (fun s call s' hs hadds hstep hcase => hadds ?_) hh hrun
    exact (caselessFields_step hs hstep).mp ((caseInsensitive_iff s').mp hcase)
  · refine iff_of_false (fun hall => hh ?_) fun hboth => hh hboth.1
    exact (caseInsensitive_iff h).mp (hall [] calls h rfl rfl)

/-- A parsed name is found in small letters only, and inserted again in another spelling. -/
theorem host_stored_twice : ∃ h t,
    Headers.initFromStream {} "Host: a\r\n".toList = .ok h ∧
    h.contains "host".toList = true ∧ h.contains "Host".toList = false ∧
    run step h [.insert "Host".toList "b".toList] = some t ∧ t.headers.entries.length = 2 ∧
    ¬ CaseInsensitive h ∧ ¬ CaseInsensitive t := by
  refine ⟨_, _, rfl, rfl, rfl, rfl, rfl, fun hcase => ?_, fun hcase => ?_⟩
  · have hnames := (caseInsensitive_iff _).mp hcase "host".toList (by decide)
    exact absurd (hnames 'h' (by decide)) (by decide)
  · have hnames := (caseInsensitive_iff _).mp hcase "host".toList (by decide)
    exact absurd (hnames 'h' (by decide)) (by decide)

def digitCalls : List Call := [.insert ['3'] ['c'], .atMutable (.ofString ['4'])]

theorem caselessBlock_digits : CaselessBlock "1-2: b\r\n".toList := by
  intro line hline n hf
  have hlines : parsedLines "1-2: b\r\n".toList = [['1', '-', '2', ':', ' ', 'b', '\r']] := rfl
  rw [hlines, List.mem_singleton] at hline
  subst hline
  have hn : n = 3 := (Option.some.inj hf).symm
  subst hn
  intro c hc
  have hname : c = '1' ∨ c = '-' ∨ c = '2' := by simpa using hc
  obtain rfl | rfl | rfl := hname <;> decide

theorem case_insensitive_iff_digits : ∃ h t,
    Headers.initFromStream {} "1-2: b\r\n".toList = .ok h ∧ run step h digitCalls = some t ∧
    Throughout step CaseInsensitive h digitCalls := by
  obtain ⟨h, hp⟩ : ∃ h, Headers.initFromStream {} "1-2: b\r\n".toList = .ok h := ⟨_, rfl⟩
  obtain ⟨t, hrun⟩ : ∃ t, run step h digitCalls = some t := by
    cases hp
    exact ⟨_, rfl⟩
  have hadded : ∀ {c : Char} {name : Str}, c.isAlpha = false → some [c] = some name →
      Caseless name := by
    intro c name hc hname
    cases hname
    exact fun d hd => List.mem_singleton.mp hd ▸ hc
  refine ⟨h, t, hp, hrun, (case_insensitive_iff hp hrun).mpr ⟨caselessBlock_digits, ?_⟩⟩
  refine ⟨fun name hname => hadded (by decide) hname, fun s hs => ⟨fun name hname => ?_, ?_⟩⟩
  · cases hp
    cases hs
    exact @hadded '4' name (by decide) hname
  · exact fun _ _ => trivial

end RoutineHttp.HeaderCase
