import Mathlib.Data.List.AList

/-! Association lists as unordered maps: first-wins insertion, lookup-or-create,
and the unspecified order in which a map is iterated. -/
namespace RoutineHttp.Lib
variable {κ : Type*} {υ : Type*} [DecidableEq κ]

abbrev Dictionary (κ υ : Type*) := AList fun _ : κ => υ

/-- Some order in which a container hands out its elements. -/
structure IterationOrder (β : Type*) where
  order : List β → List β
  perm : ∀ l, (order l).Perm l

def IterationOrder.stored (β : Type*) : IterationOrder β := ⟨id, fun _ => List.Perm.refl _⟩

/-- Insertion that keeps a value already stored under the key. -/
def emplace (d : Dictionary κ υ) (key : κ) (value : υ) : Dictionary κ υ :=
  if key ∈ d then d else d.insert key value

def getOrCreate (d : Dictionary κ υ) (key : κ) (fresh : υ) : υ × Dictionary κ υ :=
  match d.lookup key with
  | some value => (value, d)
  | none => (fresh, d.insert key fresh)

theorem mem_iff_exists_lookup {d : Dictionary κ υ} {key : κ} :
    key ∈ d ↔ ∃ value, d.lookup key = some value := by
  rw [← AList.lookup_isSome, Option.isSome_iff_exists]

@[simp] theorem mem_emplace (d : Dictionary κ υ) (key key' : κ) (value : υ) :
    key' ∈ emplace d key value ↔ key' = key ∨ key' ∈ d := by
  by_cases h : key ∈ d
  · simp only [emplace, if_pos h]
    exact ⟨Or.inr, fun hk => hk.elim (fun he => he ▸ h) id⟩
  · simp [emplace, h]

theorem lookup_emplace (d : Dictionary κ υ) (key key' : κ) (value : υ) :
    (emplace d key value).lookup key' =
      (d.lookup key').or (if key' = key then some value else none) := by
  by_cases hd : key ∈ d
  · rw [emplace, if_pos hd]
    by_cases he : key' = key
    · subst he
      obtain ⟨old, hold⟩ := mem_iff_exists_lookup.mp hd
      rw [hold, Option.some_or]
    · rw [if_neg he, Option.or_none]
  · rw [emplace, if_neg hd]
    by_cases he : key' = key
    · subst he
      rw [AList.lookup_insert, AList.lookup_eq_none.mpr hd, Option.none_or, if_pos rfl]
    · rw [AList.lookup_insert_ne he, if_neg he, Option.or_none]

/-- One insertion after the other. -/
def emplaceAll (d : Dictionary κ υ) (bindings : List (κ × υ)) : Dictionary κ υ :=
  bindings.foldl (fun d binding => emplace d binding.1 binding.2) d

/-- The binding of a key that counts: no earlier one has the key. -/
def FirstBound (bindings : List (κ × υ)) (key : κ) (value : υ) : Prop :=
  ∃ before after, bindings = before ++ (key, value) :: after ∧ ∀ b ∈ before, b.1 ≠ key

theorem lookup_emplaceAll (d : Dictionary κ υ) (bindings : List (κ × υ)) (key : κ) :
    (emplaceAll d bindings).lookup key = (d.lookup key).or (bindings.lookup key) := by
  induction bindings generalizing d with
  | nil => rw [emplaceAll, List.foldl_nil, List.lookup_nil, Option.or_none]
  | cons binding bindings ih =>
    obtain ⟨key', value⟩ := binding
    have hrest := ih (emplace d key' value)
    rw [lookup_emplace, Option.or_assoc] at hrest
    rw [emplaceAll, List.foldl_cons, ← emplaceAll, hrest, List.lookup_cons]
    by_cases he : key = key'
    · simp [he]
    · simp [he, beq_false_of_ne]

theorem mem_emplaceAll {d : Dictionary κ υ} {bindings : List (κ × υ)} {key : κ} :
    key ∈ emplaceAll d bindings ↔ key ∈ d ∨ ∃ b ∈ bindings, b.1 = key := by
  induction bindings generalizing d with
  | nil => simp [emplaceAll]
  | cons binding bindings ih =>
    rw [emplaceAll, List.foldl_cons, ← emplaceAll, ih, mem_emplace]
    simp only [List.exists_mem_cons_iff, eq_comm (a := key), or_assoc, or_left_comm]

/-- Starting from nothing the first binding of each key is stored, and nothing else. -/
theorem lookup_emplaceAll_empty {bindings : List (κ × υ)} {key : κ} {value : υ} :
    (emplaceAll ∅ bindings).lookup key = some value ↔ FirstBound bindings key value := by
  rw [lookup_emplaceAll, AList.lookup_empty, Option.none_or, List.lookup_eq_some_iff]
  simp only [FirstBound, bne_iff_ne, ne_comm]

omit [DecidableEq κ] in
theorem FirstBound.mem {bindings : List (κ × υ)} {key : κ} {value : υ}
    (h : FirstBound bindings key value) : (key, value) ∈ bindings := by
  obtain ⟨before, after, rfl, -⟩ := h
  simp

theorem exists_firstBound {bindings : List (κ × υ)} {key : κ} {value : υ}
    (h : (key, value) ∈ bindings) : ∃ first, FirstBound bindings key first := by
  have hmem : key ∈ emplaceAll ∅ bindings := mem_emplaceAll.mpr (Or.inr ⟨_, h, rfl⟩)
  obtain ⟨first, hfirst⟩ := mem_iff_exists_lookup.mp hmem
  exact ⟨first, lookup_emplaceAll_empty.mp hfirst⟩

theorem FirstBound.unique {bindings : List (κ × υ)} {key : κ} {value value' : υ}
    (h : FirstBound bindings key value) (h' : FirstBound bindings key value') : value = value' := by
  rw [← lookup_emplaceAll_empty] at h h'
  exact Option.some.inj (h.symm.trans h')

/-- The first of the items with its key. -/
def FirstWith {ι : Type*} (k : ι → κ) (items : List ι) (item : ι) : Prop :=
  ∃ before after, items = before ++ item :: after ∧ ∀ other ∈ before, k other ≠ k item

section
variable {ι : Type*} {k : ι → κ} {v w : ι → υ} {items : List ι}

omit [DecidableEq κ] in
theorem firstBound_map_iff {key : κ} {value : υ} :
    FirstBound (items.map fun item => (k item, v item)) key value ↔
      ∃ item, FirstWith k items item ∧ k item = key ∧ v item = value := by
  constructor
  · rintro ⟨before, after, heq, hbefore⟩
    obtain ⟨front, tail, rfl, rfl, htail⟩ := List.map_eq_append_iff.mp heq
    obtain ⟨item, rest, rfl, hitem, rfl⟩ := List.map_eq_cons_iff.mp htail
    obtain ⟨rfl, rfl⟩ := Prod.mk.inj hitem
    refine ⟨item, ⟨front, rest, rfl, fun other hother => ?_⟩, rfl, rfl⟩
    exact hbefore (k other, v other) (List.mem_map_of_mem hother)
  · rintro ⟨item, ⟨front, rest, rfl, hfront⟩, rfl, rfl⟩
    refine ⟨_, _, by rw [List.map_append, List.map_cons], fun b hb => ?_⟩
    obtain ⟨other, hother, rfl⟩ := List.mem_map.mp hb
    exact hfront other hother

theorem FirstWith.unique {a b : ι} (ha : FirstWith k items a) (hb : FirstWith k items b)
    (hk : k a = k b) : a = b := by
  have hfirst : ∀ {item}, FirstWith k items item →
      FirstBound (items.map fun item => (k item, item)) (k item) item :=
    fun {item} h => firstBound_map_iff.mpr ⟨item, h, rfl, rfl⟩
  exact (hfirst ha).unique (hk ▸ hfirst hb)

theorem exists_firstWith {item : ι} (h : item ∈ items) :
    ∃ first, FirstWith k items first ∧ k first = k item := by
  obtain ⟨first, hfirst⟩ := exists_firstBound (List.mem_map_of_mem (f := fun i => (k i, i)) h)
  obtain ⟨first, hitem, hk, -⟩ := firstBound_map_iff.mp hfirst
  exact ⟨first, hitem, hk⟩

/-- Two ways to read the values of a list bind alike when they agree on the first item of
every key. -/
theorem firstBound_congr_iff :
    (∀ key value, FirstBound (items.map fun item => (k item, v item)) key value ↔
      FirstBound (items.map fun item => (k item, w item)) key value) ↔
        ∀ item, FirstWith k items item → v item = w item := by
  constructor
  · intro h item hfirst
    have hv := (h _ _).mp (firstBound_map_iff.mpr ⟨item, hfirst, rfl, rfl⟩)
    exact hv.unique (firstBound_map_iff.mpr ⟨item, hfirst, rfl, rfl⟩)
  · intro h key value
    rw [firstBound_map_iff, firstBound_map_iff]
    constructor
    · rintro ⟨item, hfirst, rfl, rfl⟩
      exact ⟨item, hfirst, rfl, (h item hfirst).symm⟩
    · rintro ⟨item, hfirst, rfl, rfl⟩
      exact ⟨item, hfirst, rfl, h item hfirst⟩

end

/-- Insertions change nothing exactly when every key is stored already. -/
theorem emplaceAll_eq_self_iff {d : Dictionary κ υ} {bindings : List (κ × υ)} :
    emplaceAll d bindings = d ↔ ∀ b ∈ bindings, b.1 ∈ d := by
  constructor
  · intro h b hb
    rw [← h]
    exact mem_emplaceAll.mpr (Or.inr ⟨b, hb, rfl⟩)
  · intro h
    induction bindings with
    | nil => rfl
    | cons binding bindings ih =>
      have hstored : emplace d binding.1 binding.2 = d := if_pos (h binding (by simp))
      rw [emplaceAll, List.foldl_cons, hstored]
      exact ih fun b hb => h b (List.mem_cons_of_mem _ hb)

/-- Storing the entries of a dictionary anew, in any order, stores the same values. -/
theorem lookup_emplaceAll_perm {d : Dictionary κ υ} {fields : List (Σ _ : κ, υ)}
    (h : fields.Perm d.entries) (key : κ) :
    (emplaceAll ∅ (fields.map fun e => (e.1, e.2))).lookup key = d.lookup key := by
  have hsound : ∀ {value}, FirstBound (fields.map fun e => (e.1, e.2)) key value →
      d.lookup key = some value := by
    intro value hfirst
    obtain ⟨e, he, heq⟩ := List.mem_map.mp hfirst.mem
    obtain ⟨rfl, rfl⟩ := Prod.mk.inj heq
    exact AList.mem_lookup_iff.mpr (h.mem_iff.mp he)
  refine Option.ext fun value => ?_
  rw [lookup_emplaceAll_empty]
  refine ⟨hsound, fun hlookup => ?_⟩
  have hmem : ⟨key, value⟩ ∈ fields := h.mem_iff.mpr (AList.mem_lookup_iff.mp hlookup)
  obtain ⟨first, hfirst⟩ := exists_firstBound (List.mem_map_of_mem (f := fun e => (e.1, e.2)) hmem)
  cases hlookup.symm.trans (hsound hfirst)
  exact hfirst

theorem emplaceAll_emplaceAll (d : Dictionary κ υ) (bindings : List (κ × υ)) :
    emplaceAll (emplaceAll d bindings) bindings = emplaceAll d bindings :=
  emplaceAll_eq_self_iff.mpr fun b hb => mem_emplaceAll.mpr (Or.inr ⟨b, hb, rfl⟩)

theorem mem_getOrCreate {d : Dictionary κ υ} {key key' : κ} {fresh : υ} :
    key' ∈ (getOrCreate d key fresh).2 ↔ key' = key ∨ key' ∈ d := by
  unfold getOrCreate
  cases hl : d.lookup key with
  | some value =>
    have hkey : key ∈ d := mem_iff_exists_lookup.mpr ⟨value, hl⟩
    exact ⟨Or.inr, fun h => h.elim (fun he => he ▸ hkey) id⟩
  | none => exact AList.mem_insert d

/-- Whatever holds of every stored entry and of the new one holds after `emplace`. -/
theorem forall_entries_emplace {P : (Σ _ : κ, υ) → Prop} {d : Dictionary κ υ} {key : κ} {value : υ}
    (hd : ∀ e ∈ d.entries, P e) (hnew : P ⟨key, value⟩) :
    ∀ e ∈ (emplace d key value).entries, P e := by
  by_cases hk : key ∈ d
  · rwa [emplace, if_pos hk]
  · rw [emplace, if_neg hk, AList.entries_insert_of_notMem hk]
    intro e he
    obtain rfl | he := List.mem_cons.mp he
    · exact hnew
    · exact hd e he

theorem mem_iff_exists_entry {d : Dictionary κ υ} {key : κ} :
    key ∈ d ↔ ∃ value, (⟨key, value⟩ : Σ _ : κ, υ) ∈ d.entries := by
  simp only [mem_iff_exists_lookup, AList.mem_lookup_iff.symm, Option.mem_def]

theorem mem_entries_insert {d : Dictionary κ υ} {key : κ} {value : υ} {e : Σ _ : κ, υ} :
    e ∈ (d.insert key value).entries ↔ e = ⟨key, value⟩ ∨ e.1 ≠ key ∧ e ∈ d.entries := by
  obtain ⟨key', value'⟩ := e
  rw [← AList.mem_lookup_iff]
  by_cases hk : key' = key
  · subst hk
    simp [AList.lookup_insert, eq_comm]
  · rw [AList.lookup_insert_ne hk, AList.mem_lookup_iff]
    simp [hk]

/-- Iterating after an assignment meets one entry that a test accepts, when no other key
passes it. -/
theorem filter_order_insert {order : IterationOrder (Σ _ : κ, υ)} {d : Dictionary κ υ} {key : κ}
    {value : υ} {p : (Σ _ : κ, υ) → Bool} (hp : p ⟨key, value⟩ = true)
    (hd : ∀ e ∈ d.entries, p e = true → e.1 = key) :
    (order.order (d.insert key value).entries).filter p = [⟨key, value⟩] := by
  have hrest : (List.kerase key d.entries).filter p = [] := by
    refine List.filter_eq_nil_iff.mpr fun e he hpe => ?_
    have hkey : e.1 = key := hd e ((List.kerase_sublist key d.entries).subset he) hpe
    have hmem : e.1 ∈ (List.kerase key d.entries).keys := List.mem_keys_of_mem he
    rw [hkey] at hmem
    exact List.notMem_keys_kerase key d.nodupKeys hmem
  have hperm := (order.perm (d.insert key value).entries).filter p
  rw [AList.entries_insert, List.filter_cons_of_pos hp, hrest] at hperm
  exact hperm.eq_singleton

theorem eq_key_of_length_filter {order : IterationOrder (Σ _ : κ, υ)} {d : Dictionary κ υ} {key : κ}
    {value : υ} {p : (Σ _ : κ, υ) → Bool} (hp : p ⟨key, value⟩ = true)
    (hone : ((order.order (d.insert key value).entries).filter p).length = 1) {e : Σ _ : κ, υ}
    (he : e ∈ d.entries) (hpe : p e = true) : e.1 = key := by
  by_contra hne
  have hmem : ∀ e' ∈ (d.insert key value).entries, p e' = true →
      e' ∈ (order.order (d.insert key value).entries).filter p := fun e' he' hp' =>
    List.mem_filter.mpr ⟨(order.perm _).mem_iff.mpr he', hp'⟩
  obtain ⟨e', hsingle⟩ := List.length_eq_one_iff.mp hone
  have hnew := hmem _ (mem_entries_insert.mpr (Or.inl rfl)) hp
  have hold := hmem e (mem_entries_insert.mpr (Or.inr ⟨hne, he⟩)) hpe
  rw [hsingle, List.mem_singleton] at hnew hold
  exact hne (by rw [hold, ← hnew])

end RoutineHttp.Lib
