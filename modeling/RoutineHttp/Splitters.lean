import RoutineHttp.Utils

/-! The splitters and the path normaliser against the pieces a delimiter cuts a text into.
The plain splitter keeps the pieces that are not empty; the limited one keeps those among its
first reads, and an empty piece is a read. -/
namespace RoutineHttp.Splitters

/-- The text between every two delimiters, before the first and after the last. -/
def pieces (delim : Char) (s : Str) : List Str := s.splitOn delim

/-- The pieces with something in them. -/
def segments (delim : Char) (s : Str) : List Str :=
  (pieces delim s).filter fun piece => !piece.isEmpty

/-- `split_string_limit` with its `reserve(limit)`, which throws for more than the `max_size()`
of the vector. -/
def splitStringLimitReserved (maxSize : Nat) (input : Str) (delim : Char) (limit : Nat) :
    Option (List Str) :=
  if limit ≤ maxSize then some (splitStringLimit input delim limit) else none

/-- None of the first `limit` pieces is empty, or nothing but empty ones comes after them. -/
def LimitUnspent (input : Str) (delim : Char) (limit : Nat) : Prop :=
  (∀ piece ∈ (pieces delim input).take limit, piece ≠ []) ∨
    ∀ piece ∈ (pieces delim input).drop limit, piece = []

instance (input : Str) (delim : Char) (limit : Nat) : Decidable (LimitUnspent input delim limit) :=
  inferInstanceAs (Decidable (_ ∨ _))

/-- The loop of reads yields the pieces, but for an empty last one. -/
theorem pieces_cases (delim : Char) (s : Str) :
    pieces delim s = getlines s delim ∨ pieces delim s = getlines s delim ++ [[]] := by
  unfold pieces getlines
  induction s with
  | nil => exact Or.inr rfl
  | cons x xs ih =>
    rw [List.splitOn_cons_eq_if_modifyHead]
    by_cases hx : x = delim
    · simpa [Lib.records, hx] using ih
    · rw [if_neg (by simpa using hx), Lib.records_cons_ne hx]
      cases hr : Lib.records delim xs with
      | nil =>
        rw [hr] at ih
        obtain ih | ih := ih
        · exact absurd ih (List.splitOn_ne_nil delim xs)
        · exact Or.inl (by rw [ih]; rfl)
      | cons token rest =>
        rw [hr] at ih
        obtain ih | ih := ih
        · exact Or.inl (by rw [ih]; rfl)
        · exact Or.inr (by rw [ih]; rfl)

theorem splitString_eq_segments (input : Str) (delim : Char) :
    splitString input delim = segments delim input := by
  unfold splitString segments
  obtain h | h := pieces_cases delim input
  · rw [h]
  · rw [h, List.filter_append]
    simp

theorem formatPath_normal (p : Str) : Lib.Normal '/' (formatPath p) :=
  (formatPath_eq_self_iff _).mp (formatPath_idem p)

/-- `format_path` computes a normal form for the equality of segments. -/
theorem formatPath_canonical (p : Str) :
    (formatPath p).head? ≠ some '/' ∧ (formatPath p).getLast? ≠ some '/' ∧
    ¬ ['/', '/'] <:+: formatPath p ∧
    segments '/' (formatPath p) = segments '/' p ∧
    formatPath (formatPath p) = formatPath p ∧
    ∀ q, formatPath p = formatPath q ↔ segments '/' p = segments '/' q := by
  obtain ⟨hhead, hlast, hpair⟩ := formatPath_normal p
  refine ⟨hhead, hlast, hpair, ?_, formatPath_idem p, fun q => ?_⟩
  · rw [← splitString_eq_segments, ← splitString_eq_segments, splitString_formatPath]
  · rw [formatPath_eq_iff, splitString_eq_segments, splitString_eq_segments]

example : formatPath "//api//v1/".toList = "api/v1".toList := by decide

/-- The reads within the limit are the pieces within it. -/
theorem limitUnspent_iff_reads (input : Str) (delim : Char) (limit : Nat) :
    LimitUnspent input delim limit ↔
      (∀ token ∈ (getlines input delim).take limit, token ≠ []) ∨
        ∀ token ∈ (getlines input delim).drop limit, token = [] := by
  unfold LimitUnspent
  obtain h | h := pieces_cases delim input
  · rw [h]
  rw [h]
  by_cases hlen : limit ≤ (getlines input delim).length
  · rw [List.take_append_of_le_length hlen, List.drop_append_of_le_length hlen]
    simp [or_imp]
  · have hdrop : (getlines input delim).drop limit = [] := List.drop_of_length_le (by omega)
    rw [List.drop_append, hdrop, List.nil_append]
    refine iff_of_true (Or.inr fun piece hpiece => ?_) (Or.inr (List.forall_mem_nil _))
    exact List.mem_singleton.mp (List.mem_of_mem_drop hpiece)

theorem splitStringLimit_eq_take_iff (input : Str) (delim : Char) (limit : Nat) :
    splitStringLimit input delim limit = (splitString input delim).take limit ↔
      LimitUnspent input delim limit := by
  rw [limitUnspent_iff_reads, splitStringLimit, splitString, Lib.filter_take_eq_iff]
  simp

/-- The limited splitter hands out the first tokens of the plain one exactly when the vector can
have that many and no read of the limit is spent on an empty piece while a token is left behind
the limit. -/
theorem limited_iff (maxSize : Nat) (input : Str) (delim : Char) (limit : Nat) :
    splitStringLimitReserved maxSize input delim limit =
        some ((splitString input delim).take (min limit (splitString input delim).length)) ↔
      limit ≤ maxSize ∧ LimitUnspent input delim limit := by
  rw [← List.take_eq_take_min, splitStringLimitReserved, ← splitStringLimit_eq_take_iff]
  by_cases hmax : limit ≤ maxSize
  · rw [if_pos hmax, Option.some.injEq, and_iff_right hmax]
  · rw [if_neg hmax]
    exact iff_of_false (fun h => by cases h) fun h => hmax h.1

/-- A doubled delimiter costs a token. -/
theorem limit_spent_on_empty_piece :
    splitStringLimitReserved 288230376151711743 "GET  /a HTTP/1.1".toList ' ' 3 =
      some ["GET".toList, "/a".toList] ∧
    splitString "GET  /a HTTP/1.1".toList ' ' = ["GET".toList, "/a".toList, "HTTP/1.1".toList] ∧
    splitStringLimitReserved 288230376151711743 "GET  /a HTTP/1.1".toList ' ' 3 ≠
      some ((splitString "GET  /a HTTP/1.1".toList ' ').take
        (min 3 (splitString "GET  /a HTTP/1.1".toList ' ').length)) := by
  decide

end RoutineHttp.Splitters
