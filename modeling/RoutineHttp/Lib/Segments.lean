import RoutineHttp.Lib.Records

/-! Non-empty records and their joined form. The joined form is canonical: two
texts have the same non-empty records exactly when their joined forms agree. -/
namespace RoutineHttp.Lib
variable {α : Type*} [DecidableEq α]

def tokens (delim : α) (s : List α) : List (List α) :=
  (records delim s).filter fun token => decide (token ≠ [])

/-- Join without a leading delimiter: a separator only once something is there. -/
def joinTokens (delim : α) (segments : List (List α)) : List α :=
  segments.foldl (fun a b => if a = [] then b else a ++ delim :: b) []

/-- What a list of segments has to be for joining to be undone by `tokens`. -/
def Segments (delim : α) (segments : List (List α)) : Prop :=
  ∀ s ∈ segments, s ≠ [] ∧ delim ∉ s

/-- No delimiter at either end and no two in a row. -/
def Normal (delim : α) (s : List α) : Prop :=
  s.head? ≠ some delim ∧ s.getLast? ≠ some delim ∧ ¬ [delim, delim] <:+: s

theorem tokens_segments (delim : α) (s : List α) : Segments delim (tokens delim s) := by
  intro token h
  obtain ⟨hmem, hne⟩ := List.mem_filter.mp h
  exact ⟨of_decide_eq_true hne, not_mem_of_mem_records hmem⟩

/-- A final delimiter opens no further record, at most an empty one. -/
theorem records_concat_delim (delim : α) (s : List α) :
    records delim (s ++ [delim]) = records delim s ∨
      records delim (s ++ [delim]) = records delim s ++ [[]] := by
  induction s with
  | nil => exact Or.inr (by simp [records])
  | cons x xs ih =>
    by_cases hx : x = delim
    · simpa [records, hx] using ih
    · rw [List.cons_append, records_cons_ne hx, records_cons_ne hx]
      cases hr : records delim xs with
      | nil =>
        rw [hr] at ih
        obtain ih | ih := ih <;> rw [ih] <;> exact Or.inl rfl
      | cons token rest =>
        rw [hr] at ih
        obtain ih | ih := ih
        · exact Or.inl (by rw [ih])
        · exact Or.inr (by rw [ih, List.cons_append, List.cons_append])

theorem tokens_concat_delim (delim : α) (s : List α) : tokens delim (s ++ [delim]) = tokens delim s := by
  obtain h | h := records_concat_delim delim s
  · rw [tokens, h, tokens]
  · rw [tokens, h, List.filter_append, tokens]
    simp

theorem tokens_cons_delim (delim : α) (s : List α) : tokens delim (delim :: s) = tokens delim s := by
  simp [tokens, records]

/-- Everything but delimiters is in some token. -/
theorem exists_token_of_mem {delim a : α} {s : List α} (h : a ∈ s) (ha : a ≠ delim) :
    ∃ token ∈ tokens delim s, a ∈ token := by
  have hrecords : ∃ token ∈ records delim s, a ∈ token := by
    induction s with
    | nil => cases h
    | cons x xs ih =>
      by_cases hx : x = delim
      · obtain rfl | h := List.mem_cons.mp h
        · exact absurd hx ha
        · obtain ⟨token, ht, hmem⟩ := ih h
          exact ⟨token, by simp [records, hx, ht], hmem⟩
      · rw [records_cons_ne hx]
        cases hr : records delim xs with
        | nil =>
          obtain rfl | h := List.mem_cons.mp h
          · exact ⟨[a], by simp, by simp⟩
          · obtain ⟨token, ht, -⟩ := ih h
            rw [hr] at ht
            cases ht
        | cons first rest =>
          obtain rfl | h := List.mem_cons.mp h
          · exact ⟨a :: first, by simp, by simp⟩
          · obtain ⟨token, ht, hmem⟩ := ih h
            rw [hr] at ht
            obtain rfl | ht := List.mem_cons.mp ht
            · exact ⟨x :: token, by simp, by simp [hmem]⟩
            · exact ⟨token, by simp [ht], hmem⟩
  obtain ⟨token, ht, hmem⟩ := hrecords
  refine ⟨token, List.mem_filter.mpr ⟨ht, decide_eq_true ?_⟩, hmem⟩
  exact List.ne_nil_of_mem hmem

theorem mem_of_mem_tokens {delim a : α} {s token : List α} (h : token ∈ tokens delim s)
    (ha : a ∈ token) : a ∈ s :=
  mem_of_mem_records (List.mem_of_mem_filter h) ha

omit [DecidableEq α] in
theorem Segments.tail {delim : α} {s : List α} {segments : List (List α)}
    (h : Segments delim (s :: segments)) : Segments delim segments :=
  fun t ht => h t (List.mem_cons_of_mem _ ht)

omit [DecidableEq α] in
theorem intercalate_cut (delim : α) (s t : List α) (segments : List (List α)) :
    [delim].intercalate (s :: t :: segments) =
      s ++ delim :: [delim].intercalate (t :: segments) := by
  simp [List.intercalate_cons_cons]

omit [DecidableEq α] in
theorem foldl_join (delim : α) (segments : List (List α)) (acc : List α)
    (hs : Segments delim segments) (hacc : acc ≠ []) :
    segments.foldl (fun a b => if a = [] then b else a ++ delim :: b) acc =
      [delim].intercalate (acc :: segments) := by
  induction segments generalizing acc with
  | nil => simp
  | cons s segments ih =>
    rw [List.foldl_cons, if_neg hacc, ih _ hs.tail (by simp)]
    cases segments with
    | nil => simp
    | cons t segments => simp [List.intercalate_cons_cons]

omit [DecidableEq α] in
theorem joinTokens_eq_intercalate (delim : α) (segments : List (List α))
    (hs : Segments delim segments) : joinTokens delim segments = [delim].intercalate segments := by
  cases segments with
  | nil => rfl
  | cons s segments =>
    have hne : s ≠ [] := (hs s (by simp)).1
    rw [joinTokens, List.foldl_cons, if_pos rfl, foldl_join delim segments s hs.tail hne]

theorem tokens_intercalate (delim : α) (segments : List (List α)) (hs : Segments delim segments) :
    tokens delim ([delim].intercalate segments) = segments := by
  induction segments with
  | nil => rfl
  | cons s segments ih =>
    obtain ⟨hne, hdelim⟩ := hs s (by simp)
    cases segments with
    | nil => simp [tokens, records_of_not_mem hdelim hne, hne]
    | cons t segments =>
      have ht := ih hs.tail
      rw [tokens] at ht
      rw [intercalate_cut, tokens, records_append hdelim, List.filter_cons_of_pos (by simp [hne]), ht]

/-- Splitting undoes joining. -/
theorem tokens_joinTokens (delim : α) (segments : List (List α)) (hs : Segments delim segments) :
    tokens delim (joinTokens delim segments) = segments := by
  rw [joinTokens_eq_intercalate delim segments hs, tokens_intercalate delim segments hs]

theorem joinTokens_tokens_eq_iff (delim : α) (s t : List α) :
    joinTokens delim (tokens delim s) = joinTokens delim (tokens delim t) ↔
      tokens delim s = tokens delim t := by
  refine ⟨fun h => ?_, fun h => by rw [h]⟩
  have ht := congrArg (tokens delim) h
  rwa [tokens_joinTokens _ _ (tokens_segments delim s),
    tokens_joinTokens _ _ (tokens_segments delim t)] at ht

omit [DecidableEq α] in
theorem mem_intercalate {delim a : α} {segments : List (List α)}
    (h : a ∈ [delim].intercalate segments) : a = delim ∨ ∃ s ∈ segments, a ∈ s := by
  induction segments with
  | nil => simp at h
  | cons s segments ih =>
    cases segments with
    | nil => exact Or.inr ⟨s, by simp, by simpa using h⟩
    | cons t segments =>
      rw [List.intercalate_cons_cons, List.mem_append, List.mem_append] at h
      obtain (h | h) | h := h
      · exact Or.inr ⟨s, by simp, h⟩
      · exact Or.inl (by simpa using h)
      · obtain h | ⟨u, hu, ha⟩ := ih h
        · exact Or.inl h
        · exact Or.inr ⟨u, List.mem_cons_of_mem _ hu, ha⟩

omit [DecidableEq α] in
theorem mem_intercalate_of_mem {delim a : α} {segments : List (List α)} {s : List α}
    (hs : s ∈ segments) (ha : a ∈ s) : a ∈ [delim].intercalate segments := by
  induction segments with
  | nil => cases hs
  | cons t segments ih =>
    cases segments with
    | nil =>
      rw [List.mem_singleton.mp hs] at ha
      simpa using ha
    | cons u segments =>
      rw [intercalate_cut, List.mem_append, List.mem_cons]
      obtain rfl | hs := List.mem_cons.mp hs
      · exact Or.inl ha
      · exact Or.inr (Or.inr (ih hs))

theorem records_eq_nil_iff {delim : α} {s : List α} : records delim s = [] ↔ s = [] := by
  cases s with
  | nil => simp [records]
  | cons x xs =>
    by_cases hx : x = delim
    · simp [records, hx]
    · rw [records_cons_ne hx]
      split <;> simp

theorem intercalate_records {delim : α} {s : List α} (h : s.getLast? ≠ some delim) :
    [delim].intercalate (records delim s) = s := by
  induction s with
  | nil => rfl
  | cons x xs ih =>
    cases xs with
    | nil =>
      have hx : x ≠ delim := by simpa using h
      simp [records, hx]
    | cons y ys =>
      have hi := ih (by simpa using h)
      have hne : records delim (y :: ys) ≠ [] := by simp [records_eq_nil_iff]
      by_cases hx : x = delim
      · rw [records, if_pos hx, List.intercalate_cons_of_ne_nil hne, hi]
        simp [hx]
      · rw [records_cons_ne hx]
        cases hr : records delim (y :: ys) with
        | nil => exact absurd hr hne
        | cons token rest =>
          rw [hr] at hi
          cases rest with
          | nil => simpa using hi
          | cons next rest => simpa [List.intercalate_cons_cons] using hi

theorem head_records_ne_nil {delim : α} {s token : List α} (hhead : s.head? ≠ some delim)
    (h : (records delim s).head? = some token) : token ≠ [] := by
  cases s with
  | nil => simp [records] at h
  | cons x xs =>
    rw [records_cons_ne (by simpa using hhead)] at h
    split at h <;> rintro rfl <;> simp at h

theorem tail_records_ne_nil {delim : α} {s : List α} (hpair : ¬ [delim, delim] <:+: s) :
    ∀ token ∈ (records delim s).tail, token ≠ [] := by
  induction s with
  | nil => simp [records]
  | cons x xs ih =>
    have hi := ih fun h => hpair (h.trans (List.suffix_cons x xs).isInfix)
    by_cases hx : x = delim
    · have hhead : xs.head? ≠ some delim := by
        intro h
        obtain ⟨ys, rfl⟩ := List.head?_eq_some_iff.mp h
        exact hpair ⟨[], ys, by simp [hx]⟩
      rw [records, if_pos hx, List.tail_cons]
      intro token ht
      cases hr : records delim xs with
      | nil => simp [hr] at ht
      | cons first rest =>
        rw [hr] at ht hi
        obtain rfl | ht := List.mem_cons.mp ht
        · exact head_records_ne_nil hhead (by simp [hr])
        · exact hi token ht
    · rw [records_cons_ne hx]
      cases hr : records delim xs with
      | nil => simp
      | cons first rest => simpa [hr] using hi

/-- A normal text is its own joined form. -/
theorem joinTokens_tokens_of_normal {delim : α} {s : List α} (h : Normal delim s) :
    joinTokens delim (tokens delim s) = s := by
  obtain ⟨hhead, hlast, hpair⟩ := h
  have hall : ∀ token ∈ records delim s, decide (token ≠ []) = true := by
    intro token ht
    cases hr : records delim s with
    | nil => simp [hr] at ht
    | cons first rest =>
      have htail := tail_records_ne_nil hpair
      rw [hr] at ht htail
      obtain rfl | ht := List.mem_cons.mp ht
      · simpa using head_records_ne_nil hhead (by simp [hr])
      · simpa using htail token ht
  rw [joinTokens_eq_intercalate _ _ (tokens_segments delim s), tokens,
    List.filter_eq_self.mpr hall, intercalate_records hlast]

omit [DecidableEq α] in
theorem no_pair_append {delim : α} {s t : List α} (hs : delim ∉ s)
    (hhead : t.head? ≠ some delim) (hpair : ¬ [delim, delim] <:+: t) :
    ¬ [delim, delim] <:+: s ++ delim :: t := by
  induction s with
  | nil =>
    rw [List.nil_append, List.infix_cons_iff]
    rintro (h | h)
    · obtain ⟨u, hu⟩ := h
      have htu : t = delim :: u := by simpa using hu.symm
      exact hhead (by simp [htu])
    · exact hpair h
  | cons x xs ih =>
    obtain ⟨hx, hxs⟩ := List.ne_and_not_mem_of_not_mem_cons hs
    rw [List.cons_append, List.infix_cons_iff]
    rintro (h | h)
    · obtain ⟨u, hu⟩ := h
      exact hx (by simp_all)
    · exact ih hxs h

omit [DecidableEq α] in
theorem normal_intercalate {delim : α} {segments : List (List α)}
    (hs : Segments delim segments) : Normal delim ([delim].intercalate segments) := by
  induction segments with
  | nil => simp [Normal]
  | cons s segments ih =>
    obtain ⟨hne, hdelim⟩ := hs s (by simp)
    have hi := ih hs.tail
    have hhead : s.head? ≠ some delim := fun h => hdelim (List.mem_of_mem_head? h)
    have hlast : s.getLast? ≠ some delim := fun h => hdelim (List.mem_of_mem_getLast? h)
    cases segments with
    | nil =>
      rw [List.intercalate_singleton]
      exact ⟨hhead, hlast, fun h => hdelim (h.subset (List.mem_cons_self ..))⟩
    | cons t segments =>
      obtain ⟨htne, -⟩ := hs t (by simp)
      have hrne : [delim].intercalate (t :: segments) ≠ [] := by
        cases segments <;> simp [htne, List.intercalate_cons_cons]
      rw [intercalate_cut]
      refine ⟨?_, ?_, no_pair_append hdelim hi.1 hi.2.2⟩
      · simpa [List.head?_append_of_ne_nil _ hne] using hhead
      · rw [List.getLast?_append_of_ne_nil _ (List.cons_ne_nil _ _),
          List.getLast?_cons_of_ne_nil hrne]
        exact hi.2.1

/-- The joined form is normal, so normal texts are exactly its fixed points. -/
theorem joinTokens_tokens_eq_self_iff (delim : α) (s : List α) :
    joinTokens delim (tokens delim s) = s ↔ Normal delim s := by
  refine ⟨fun h => ?_, joinTokens_tokens_of_normal⟩
  rw [← h, joinTokens_eq_intercalate _ _ (tokens_segments delim s)]
  exact normal_intercalate (tokens_segments delim s)

omit [DecidableEq α] in
theorem intercalate_concat (delim : α) (front : List (List α)) (last : List α) :
    [delim].intercalate (front ++ [last]) = (front.flatMap fun s => s ++ [delim]) ++ last := by
  induction front with
  | nil => simp
  | cons s front ih =>
    have hne : front ++ [last] ≠ [] := by simp
    rw [List.cons_append, List.intercalate_cons_of_ne_nil hne, ih, List.flatMap_cons]
    simp only [List.append_assoc]

/-- A join has the delimiters of its parts and one between every two of them. -/
theorem count_intercalate (delim : α) {segments : List (List α)} (hne : segments ≠ []) :
    ([delim].intercalate segments).count delim + 1 =
      segments.flatten.count delim + segments.length := by
  induction segments with
  | nil => exact absurd rfl hne
  | cons s segments ih =>
    cases segments with
    | nil => simp
    | cons t segments =>
      have hrest := ih (List.cons_ne_nil t segments)
      rw [intercalate_cut, List.count_append, List.count_cons_self, List.flatten_cons,
        List.count_append, List.length_cons]
      omega

section
variable {β : Type*} (p : β → Bool) (k : Nat) (l : List β)

theorem length_filter_take_eq_iff (hlen : k ≤ l.length) :
    ((l.take k).filter p).length = k ↔ ∀ x ∈ l.take k, p x = true := by
  have htake : (l.take k).length = k := List.length_take_of_le hlen
  constructor
  · intro h
    exact List.length_filter_eq_length_iff.mp (h.trans htake.symm)
  · intro h
    rw [List.filter_eq_self.mpr h, htake]

/-- Testing behind a limit passes the same items as testing in front of it exactly when the
test refuses none within the limit, or passes none beyond it. -/
theorem filter_take_eq_iff : (l.take k).filter p = (l.filter p).take k ↔
    (∀ x ∈ l.take k, p x = true) ∨ ∀ x ∈ l.drop k, p x = false := by
  have hsplit : l.filter p = (l.take k).filter p ++ (l.drop k).filter p := by
    rw [← List.filter_append, List.take_append_drop]
  have hle : ((l.take k).filter p).length ≤ k :=
    (List.length_filter_le _ _).trans (List.length_take_le k l)
  have hnil : (l.drop k).filter p = [] ↔ ∀ x ∈ l.drop k, p x = false := by
    rw [List.filter_eq_nil_iff]
    simp
  rw [hsplit, List.take_append, List.take_of_length_le hle, List.self_eq_append_right,
    List.take_eq_nil_iff, hnil]
  by_cases hlen : k ≤ l.length
  · rw [← length_filter_take_eq_iff p k l hlen]
    exact or_congr_left (by omega)
  · have hdrop : l.drop k = [] := List.drop_of_length_le (by omega)
    simp [hdrop]

end

section
variable {β : Type*} [DecidableEq β]

omit [DecidableEq α] in
/-- Leaving the delimiter out after every copy of one item makes a text that much shorter. -/
theorem length_flatMap_skip (delim : α) (f : β → List α) (skip : β) (items : List β) :
    (items.flatMap fun item => f item ++ if item = skip then [] else [delim]).length +
      items.count skip = (items.flatMap fun item => f item ++ [delim]).length := by
  induction items with
  | nil => rfl
  | cons item items ih =>
    simp only [List.flatMap_cons, List.length_append, ← ih]
    by_cases he : item = skip
    · subst he
      rw [if_pos rfl, List.count_cons_self, List.length_nil, List.length_singleton]
      omega
    · rw [if_neg he, List.count_cons_of_ne he]
      omega

omit [DecidableEq α] in
/-- A delimiter after every item that differs from the last one makes the join exactly when
the last item occurs nowhere before. -/
theorem separated_iff (delim : α) (f : β → List α) (items : List β) :
    (items.flatMap fun item => f item ++ if some item = items.getLast? then [] else [delim]) =
        [delim].intercalate (items.map f) ↔
      ∀ last, items.getLast? = some last → last ∉ items.dropLast := by
  obtain rfl | ⟨front, last, rfl⟩ := List.eq_nil_or_concat items
  · simp
  simp only [List.concat_eq_append, List.getLast?_concat, Option.some.injEq, forall_eq',
    List.map_append, List.map_cons, List.map_nil, intercalate_concat, List.flatMap_append,
    List.flatMap_cons, List.flatMap_nil, if_true, List.append_nil, List.append_cancel_right_eq,
    List.flatMap_map, List.dropLast_concat]
  have hlength := length_flatMap_skip delim f last front
  constructor
  · intro h
    rw [h] at hlength
    exact List.count_eq_zero.mp (by omega)
  · intro hnone
    refine List.flatMap_congr fun item hitem => ?_
    have hne : item ≠ last := fun he => hnone (he ▸ hitem)
    rw [if_neg hne]

end

end RoutineHttp.Lib
