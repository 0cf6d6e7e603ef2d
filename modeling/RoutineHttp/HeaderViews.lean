import RoutineHttp.Headers
import RoutineHttp.Types

/-! The accessors of a mutable header container. A missing field is looked for under the
characters of the view and created under the C string that begins where the view does. -/
namespace RoutineHttp
open Lib

/-- A `std::string_view`: a range of a buffer. -/
structure StringView where
  buffer : Str
  offset : Nat
  length : Nat
  inside : offset + length ≤ buffer.length

namespace StringView

def text (view : StringView) : Str := (view.buffer.drop view.offset).take view.length

/-- The buffer from `data()` on. -/
def fromData (view : StringView) : Str := view.buffer.drop view.offset

/-- What a constructor from `data()` reads: up to the first NUL, over the end of the buffer
when there is none. -/
def cString (view : StringView) : Except Fault Str :=
  if '\x00' ∈ view.fromData then .ok (view.fromData.takeWhile fun c => decide (c ≠ '\x00'))
  else .error .undefinedBehaviour

/-- The view ends where the first NUL is. -/
def Terminated (view : StringView) : Prop :=
  '\x00' ∉ view.text ∧ view.buffer[view.offset + view.length]? = some '\x00'

instance (view : StringView) : Decidable view.Terminated := inferInstanceAs (Decidable (_ ∧ _))

/-- The view of a whole `std::string`. -/
def ofString (s : Str) : StringView where
  buffer := s ++ ['\x00']
  offset := 0
  length := s.length
  inside := by simp

theorem fromData_eq (view : StringView) :
    view.fromData = view.text ++ view.buffer.drop (view.offset + view.length) := by
  rw [fromData, text, ← List.drop_drop, List.take_append_drop]

/-- The C string is the view exactly when the view ends at the first NUL. -/
theorem cString_eq_text_iff (view : StringView) :
    view.cString = .ok view.text ↔ view.Terminated := by
  unfold cString Terminated
  rw [← List.head?_drop, fromData_eq]
  generalize view.text = s
  generalize view.buffer.drop (view.offset + view.length) = rest
  constructor
  · intro h
    split at h
    · next hnul =>
      have htake : (s ++ rest).takeWhile (fun c => decide (c ≠ '\x00')) = s := Except.ok.inj h
      have hs : '\x00' ∉ s := by
        intro hmem
        rw [← htake] at hmem
        simpa using List.mem_takeWhile_imp hmem
      refine ⟨hs, ?_⟩
      have hall : ∀ c ∈ s, decide (c ≠ '\x00') = true := fun c hc =>
        decide_eq_true fun he => hs (he ▸ hc)
      rw [List.takeWhile_append_of_pos hall, List.append_right_eq_self] at htake
      cases rest with
      | nil => simp [hs] at hnul
      | cons c rest =>
        by_contra hc
        have hne : c ≠ '\x00' := by simpa using hc
        rw [List.takeWhile_cons_of_pos (by simpa using hne)] at htake
        cases htake
    · cases h
  · rintro ⟨hs, hhead⟩
    obtain ⟨tail, rfl⟩ := List.head?_eq_some_iff.mp hhead
    have hall : ∀ c ∈ s, decide (c ≠ '\x00') = true := fun c hc =>
      decide_eq_true fun he => hs (he ▸ hc)
    rw [if_pos (by simp), List.takeWhile_append_of_pos hall, List.takeWhile_cons_of_neg (by simp),
      List.append_nil]

@[simp] theorem text_ofString (s : Str) : (ofString s).text = s := by
  simp [text, ofString]

theorem terminated_ofString {s : Str} (h : '\x00' ∉ s) : (ofString s).Terminated :=
  ⟨by simpa using h, by simp [ofString]⟩

end StringView

namespace Headers

/-- The field `headers_.find` points to. -/
def findField (h : Headers) (key : Str) : Option HeaderField :=
  (h.headers.lookup key).map fun value => ⟨key, value⟩

/-- The field found, or the one `emplace` comes to: a new one, or the one that has the C
string for a name already. -/
def findOrEmplace (h : Headers) (key : StringView) : Except Fault (HeaderField × Headers) :=
  match h.findField key.text with
  | some field => .ok (field, h)
  | none => do
    let name ← key.cString
    let created := h.insert name []
    return (⟨name, (created.headers.lookup name).getD []⟩, created)

/-- `at` of a mutable object. -/
def atMutable (h : Headers) (key : StringView) : Except Fault (HeaderField × Headers) :=
  h.findOrEmplace key

/-- `operator[]` of a mutable object. -/
def subscriptMutable (h : Headers) (key : StringView) : Except Fault (HeaderField × Headers) :=
  h.findOrEmplace key

/-- `at` and `operator[]` of a mutable object with a known header. -/
def atMutableHeader (h : Headers) (key : Header) : Except Fault (HeaderField × Headers) :=
  h.atMutable (.ofString key.name)

end Headers

namespace HeaderViews

/-- What get-or-create promises of a call: the field stored under the key, created with an
empty value if there was none, and nothing else touched. -/
def GetsOrCreates (h : Headers) (key : Str) (result : Except Fault (HeaderField × Headers)) :
    Prop :=
  ∃ field h', result = .ok (field, h') ∧ h'.contains key = true ∧
    field = ⟨key, (h.headers.lookup key).getD []⟩ ∧ h'.headers.lookup key = some field.2 ∧
    ∀ other, other ≠ key → h'.headers.lookup other = h.headers.lookup other

/-- A field that is there is found. -/
theorem findOrEmplace_of_mem {h : Headers} {view : StringView} {value : Str}
    (hl : h.headers.lookup view.text = some value) :
    h.findOrEmplace view = .ok (⟨view.text, value⟩, h) := by
  rw [Headers.findOrEmplace, Headers.findField, hl, Option.map_some]

theorem findOrEmplace_of_notMem {h : Headers} {view : StringView}
    (hl : h.headers.lookup view.text = none) : h.findOrEmplace view = do
      let name ← view.cString
      return (⟨name, ((h.insert name []).headers.lookup name).getD []⟩, h.insert name []) := by
  rw [Headers.findOrEmplace, Headers.findField, hl, Option.map_none]

theorem contains_iff {h : Headers} {key : Str} :
    h.contains key = true ↔ ∃ value, h.headers.lookup key = some value := by
  rw [Headers.contains, decide_eq_true_iff, mem_iff_exists_lookup]

theorem findOrEmplace_iff (h : Headers) (view : StringView) :
    GetsOrCreates h view.text (h.findOrEmplace view) ↔
      h.contains view.text = true ∨ view.Terminated := by
  cases hl : h.headers.lookup view.text with
  | some value =>
    have hcontains : h.contains view.text = true := contains_iff.mpr ⟨value, hl⟩
    refine iff_of_true ⟨_, h, findOrEmplace_of_mem hl, hcontains, ?_, hl, fun _ _ => rfl⟩
      (Or.inl hcontains)
    rw [hl, Option.getD_some]
  | none =>
    have hcontains : ¬ h.contains view.text = true := by
      rw [contains_iff, hl]
      simp
    rw [or_iff_right hcontains, findOrEmplace_of_notMem hl, ← view.cString_eq_text_iff]
    constructor
    · -- whatever name is created, it is the view's when the view is a name afterwards
      rintro ⟨field, h', hresult, hafter, -⟩
      obtain ⟨name, hname, hresult⟩ := bind_eq_ok hresult
      obtain ⟨-, rfl⟩ := Prod.mk.inj (Except.ok.inj hresult)
      rw [Headers.contains, decide_eq_true_iff, Headers.mem_insert] at hafter
      obtain heq | hmem := hafter
      · rw [hname, heq]
      · exact absurd (decide_eq_true hmem) hcontains
    · intro hname
      have hnew : (h.insert view.text []).headers.lookup view.text = some [] := by
        rw [Headers.insert, lookup_emplace, hl, if_pos rfl, Option.none_or]
      refine ⟨⟨view.text, []⟩, h.insert view.text [], ?_, contains_iff.mpr ⟨_, hnew⟩, ?_, hnew, ?_⟩
      · simp only [hname, hnew, bind, Except.bind, pure, Except.pure, Option.getD_some]
      · rw [hl, Option.getD_none]
      · intro other hne
        rw [Headers.insert, lookup_emplace, if_neg hne, Option.or_none]

/-- Both accessors get or create the field asked for exactly when it is there or the view ends
at the first NUL of its buffer. -/
theorem gets_or_creates_iff (h : Headers) (view : StringView) :
    (GetsOrCreates h view.text (h.atMutable view) ↔
      h.contains view.text = true ∨ view.Terminated) ∧
    (GetsOrCreates h view.text (h.subscriptMutable view) ↔
      h.contains view.text = true ∨ view.Terminated) :=
  ⟨findOrEmplace_iff h view, findOrEmplace_iff h view⟩

/-- The name in front of the colon of a line. -/
def nameInLine : StringView where
  buffer := "accept: */*".toList ++ ['\x00']
  offset := 0
  length := 6
  inside := by decide

/-- The rest of the line becomes part of the name. -/
theorem created_under_longer_name :
    (Headers.atMutable {} nameInLine).map (fun result => result.1) =
      .ok ⟨"accept: */*".toList, []⟩ ∧
    ¬ GetsOrCreates {} nameInLine.text (Headers.atMutable {} nameInLine) ∧
    ¬ GetsOrCreates {} nameInLine.text (Headers.subscriptMutable {} nameInLine) := by
  have hnot : ¬ GetsOrCreates {} nameInLine.text (Headers.findOrEmplace {} nameInLine) := by
    rw [findOrEmplace_iff]
    decide
  exact ⟨rfl, hnot, hnot⟩

theorem nul_notMem_name (key : Header) : '\x00' ∉ key.name := by
  cases key <;> decide

/-- The names of the known headers end where they should. -/
theorem atMutableHeader_gets_or_creates (h : Headers) (key : Header) :
    GetsOrCreates h key.name (h.atMutableHeader key) := by
  have hterminated := StringView.terminated_ofString (nul_notMem_name key)
  have hgets := (findOrEmplace_iff h (.ofString key.name)).mpr (Or.inr hterminated)
  rwa [StringView.text_ofString] at hgets

end HeaderViews
end RoutineHttp
