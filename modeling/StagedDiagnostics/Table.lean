/-!
# Table — finite maps that keep the order of insertion

A key stands where it was first inserted; inserting it again changes the value and not the place.
`get?` is the view of a table, `keys` its order:

* `get?_insert_self`, `get?_insert_of_ne` — what an insertion does to the view;
* `keys_insert` — a new key goes to the end, an old one stays;
* `get?_ofList` — of the values a key is given, the last one counts;
* `get?_filterMap` — a table filtered and mapped value by value.
-/

namespace StagedDiagnostics

variable {κ α β : Type}

/-! ## Lists of entries -/

namespace Entries

/-- Keeps the entries that `f` gives a value, with that value. -/
def filterMap (f : κ → α → Option β) : List (κ × α) → List (κ × β)
  | [] => []
  | (k, v) :: es =>
    match f k v with
    | none => filterMap f es
    | some w => (k, w) :: filterMap f es

theorem sublist_filterMap (f : κ → α → Option β) (es : List (κ × α)) :
    ((filterMap f es).map Prod.fst).Sublist (es.map Prod.fst) := by
  fun_induction filterMap f es with
  | case1 => exact List.Sublist.slnil
  | case2 k v es _ ih => exact ih.cons _
  | case3 k v es w _ ih => exact ih.cons_cons _

/-- Filtering and mapping twice is doing both to each value. -/
theorem filterMap_filterMap {γ : Type} (f : κ → α → Option β) (g : κ → β → Option γ)
    (es : List (κ × α)) :
    filterMap g (filterMap f es) = filterMap (fun k v => (f k v).bind (g k)) es := by
  induction es with
  | nil => rfl
  | cons e es ih =>
    obtain ⟨k, v⟩ := e
    cases hf : f k v with
    | none => simp [filterMap, hf, ih]
    | some w => cases hg : g k w <;> simp [filterMap, hf, hg, ih]

theorem filterMap_eq_self {f : κ → α → Option α} {es : List (κ × α)}
    (h : ∀ e ∈ es, f e.1 e.2 = some e.2) : filterMap f es = es := by
  induction es with
  | nil => rfl
  | cons e es ih =>
    obtain ⟨he, hes⟩ := List.forall_mem_cons.mp h
    rw [filterMap, he, ih hes]

variable [DecidableEq κ]

/-- Sets the value of a key, in its place or at the end. -/
def insert (k : κ) (v : α) : List (κ × α) → List (κ × α)
  | [] => [(k, v)]
  | e :: es => if e.1 = k then (k, v) :: es else e :: insert k v es

/-- The value of a key. -/
def get? (k : κ) : List (κ × α) → Option α
  | [] => none
  | e :: es => if e.1 = k then some e.2 else get? k es

theorem map_fst_insert (k : κ) (v : α) (es : List (κ × α)) :
    (insert k v es).map Prod.fst
      = if k ∈ es.map Prod.fst then es.map Prod.fst else es.map Prod.fst ++ [k] := by
  induction es with
  | nil => simp [insert]
  | cons e es ih =>
    by_cases h : e.1 = k
    · simp [insert, h]
    · have h' : ¬ k = e.1 := fun hk => h hk.symm
      simp only [insert, if_neg h, List.map_cons, ih, List.mem_cons, h', false_or]
      split <;> simp

theorem get?_insert (k j : κ) (v : α) (es : List (κ × α)) :
    get? j (insert k v es) = if k = j then some v else get? j es := by
  induction es with
  | nil => simp [insert, get?]
  | cons e es ih =>
    by_cases h : e.1 = k
    · by_cases hj : k = j <;> simp [insert, get?, h, hj]
    · by_cases hj : k = j
      · subst hj
        simp [insert, get?, h, ih]
      · simp only [insert, if_neg h, get?, ih, if_neg hj]

theorem get?_eq_none_iff (k : κ) (es : List (κ × α)) :
    get? k es = none ↔ k ∉ es.map Prod.fst := by
  induction es with
  | nil => simp [get?]
  | cons e es ih =>
    by_cases h : e.1 = k
    · simp [get?, h]
    · have h' : ¬ k = e.1 := fun hk => h hk.symm
      simp [get?, h, h', ih]

theorem mem_of_get?_eq_some {k : κ} {v : α} {es : List (κ × α)} (h : get? k es = some v) :
    (k, v) ∈ es := by
  induction es with
  | nil => simp [get?] at h
  | cons e es ih =>
    by_cases hk : e.1 = k
    · simp only [get?, if_pos hk, Option.some.injEq] at h
      exact List.mem_cons.mpr (Or.inl (Prod.ext hk.symm h.symm))
    · simp only [get?, if_neg hk] at h
      exact List.mem_cons_of_mem _ (ih h)

theorem get?_eq_some_of_mem {k : κ} {v : α} {es : List (κ × α)} (hn : (es.map Prod.fst).Nodup)
    (h : (k, v) ∈ es) : get? k es = some v := by
  induction es with
  | nil => simp at h
  | cons e es ih =>
    rw [List.map_cons, List.nodup_cons] at hn
    rcases List.mem_cons.mp h with rfl | h
    · simp [get?]
    · have hne : ¬ e.1 = k := fun hk => hn.1 (hk ▸ List.mem_map_of_mem h)
      rw [get?, if_neg hne, ih hn.2 h]

theorem get?_filterMap (f : κ → α → Option β) {es : List (κ × α)} (hn : (es.map Prod.fst).Nodup)
    (k : κ) : get? k (filterMap f es) = (get? k es).bind (f k) := by
  induction es with
  | nil => rfl
  | cons e es ih =>
    obtain ⟨j, v⟩ := e
    rw [List.map_cons, List.nodup_cons] at hn
    have ih := ih hn.2
    by_cases hk : j = k
    · subst hk
      have habs : get? j es = none := (get?_eq_none_iff _ _).mpr hn.1
      rw [habs] at ih
      cases h : f j v <;> simp_all [get?, filterMap]
    · cases h : f j v <;> simp_all [get?, filterMap]

end Entries

/-! ## Tables -/

/-- A finite map whose keys stand in the order of their first insertion. -/
structure Table (κ α : Type) where
  /-- The entries in order. -/
  entries : List (κ × α)
  /-- No key stands twice. -/
  nodup_keys : (entries.map Prod.fst).Nodup

namespace Table

/-- Two tables with the same entries are the same table. -/
@[ext] theorem ext {s t : Table κ α} (h : s.entries = t.entries) : s = t := by
  cases s; cases t; simpa using h

/-- The table without entries. -/
def empty : Table κ α := ⟨[], List.nodup_nil⟩

instance : Inhabited (Table κ α) := ⟨empty⟩

/-- The keys in order. -/
def keys (t : Table κ α) : List κ := t.entries.map Prod.fst

/-- The number of entries. -/
def size (t : Table κ α) : Nat := t.entries.length

/-- Keeps the entries that `f` gives a value, with that value. -/
def filterMap (t : Table κ α) (f : κ → α → Option β) : Table κ β where
  entries := Entries.filterMap f t.entries
  nodup_keys := t.nodup_keys.sublist (Entries.sublist_filterMap f t.entries)

/-- Changes every value and no key. -/
def map (t : Table κ α) (f : κ → α → β) : Table κ β := t.filterMap fun k v => some (f k v)

@[simp] theorem keys_empty : (empty : Table κ α).keys = [] := rfl

/-- Filtering and mapping keeps the order of the keys it keeps. -/
theorem keys_filterMap_sublist (t : Table κ α) (f : κ → α → Option β) :
    (t.filterMap f).keys.Sublist t.keys := Entries.sublist_filterMap f t.entries

@[simp] theorem filterMap_filterMap {γ : Type} (t : Table κ α) (f : κ → α → Option β)
    (g : κ → β → Option γ) :
    (t.filterMap f).filterMap g = t.filterMap fun k v => (f k v).bind (g k) :=
  ext (Entries.filterMap_filterMap f g t.entries)

@[simp] theorem keys_map (t : Table κ α) (f : κ → α → β) : (t.map f).keys = t.keys := by
  simp only [keys, map, filterMap]
  induction t.entries with
  | nil => rfl
  | cons e es ih => exact congrArg (e.1 :: ·) ih

variable [DecidableEq κ]

/-- The value of a key. -/
def get? (t : Table κ α) (k : κ) : Option α := Entries.get? k t.entries

/-- Whether a key has a value. -/
def contains (t : Table κ α) (k : κ) : Bool := (t.get? k).isSome

/-- Sets the value of a key: an old key keeps its place, a new one goes to the end. -/
def insert (t : Table κ α) (k : κ) (v : α) : Table κ α where
  entries := Entries.insert k v t.entries
  nodup_keys := by
    rw [Entries.map_fst_insert]
    split
    · exact t.nodup_keys
    · rename_i h
      exact List.nodup_append.mpr ⟨t.nodup_keys, by simp, by
        intro a ha b hb hab
        rw [List.mem_singleton] at hb
        exact h (hb ▸ hab ▸ ha)⟩

/-- Removes a key. -/
def erase (t : Table κ α) (k : κ) : Table κ α :=
  t.filterMap fun j v => if j = k then none else some v

/-- Sets a key to what `f` makes of the value it has. -/
def modify (t : Table κ α) (k : κ) (f : Option α → α) : Table κ α := t.insert k (f (t.get? k))

/-- The table some entries build when they are inserted one after another. -/
def ofList (es : List (κ × α)) : Table κ α := es.foldl (fun t e => t.insert e.1 e.2) empty

@[simp] theorem get?_empty (k : κ) : (empty : Table κ α).get? k = none := rfl

/-- A new key goes to the end and an old one stays. -/
theorem keys_insert (t : Table κ α) (k : κ) (v : α) :
    (t.insert k v).keys = if k ∈ t.keys then t.keys else t.keys ++ [k] :=
  Entries.map_fst_insert k v t.entries

theorem get?_insert (t : Table κ α) (k j : κ) (v : α) :
    (t.insert k v).get? j = if k = j then some v else t.get? j :=
  Entries.get?_insert k j v t.entries

@[simp] theorem get?_insert_self (t : Table κ α) (k : κ) (v : α) :
    (t.insert k v).get? k = some v := by
  rw [get?_insert, if_pos rfl]

theorem get?_insert_of_ne (t : Table κ α) {k j : κ} (h : k ≠ j) (v : α) :
    (t.insert k v).get? j = t.get? j := by
  rw [get?_insert, if_neg h]

theorem get?_foldl_insert (t : Table κ α) (es : List (κ × α)) (k : κ) :
    (es.foldl (fun t e => t.insert e.1 e.2) t).get? k
      = ((es.filter fun e => e.1 = k).getLast?.map Prod.snd).or (t.get? k) := by
  induction es generalizing t with
  | nil => rfl
  | cons e es ih =>
    rw [List.foldl_cons, ih, get?_insert, ← List.singleton_append, List.filter_append,
      List.getLast?_append, Option.map_or, Option.or_assoc]
    by_cases h : e.1 = k
    · simp [h]
    · simp [h]

/-- **The last value counts.** -/
theorem get?_ofList (es : List (κ × α)) (k : κ) :
    (ofList es).get? k = (es.filter fun e => e.1 = k).getLast?.map Prod.snd := by
  rw [ofList, get?_foldl_insert, get?_empty, Option.or_none]

theorem get?_eq_none_iff (t : Table κ α) (k : κ) : t.get? k = none ↔ k ∉ t.keys :=
  Entries.get?_eq_none_iff k t.entries

theorem mem_keys_ofList_iff (es : List (κ × α)) (k : κ) :
    k ∈ (ofList es).keys ↔ k ∈ es.map Prod.fst := by
  rw [← Decidable.not_iff_not, ← get?_eq_none_iff, get?_ofList, Option.map_eq_none_iff,
    List.getLast?_eq_none_iff, List.filter_eq_nil_iff]
  simp only [decide_eq_true_eq, List.mem_map, not_exists, not_and]

theorem contains_iff (t : Table κ α) (k : κ) : t.contains k = true ↔ k ∈ t.keys := by
  have h := t.get?_eq_none_iff k
  rw [contains]
  cases hv : t.get? k with
  | none => simpa using h.mp hv
  | some v =>
    rw [hv] at h
    simpa using h

theorem get?_eq_some_iff (t : Table κ α) (k : κ) (v : α) :
    t.get? k = some v ↔ (k, v) ∈ t.entries :=
  ⟨Entries.mem_of_get?_eq_some, Entries.get?_eq_some_of_mem t.nodup_keys⟩

/-- **Filtering and mapping acts on each value alone.** -/
@[simp] theorem get?_filterMap (t : Table κ α) (f : κ → α → Option β) (k : κ) :
    (t.filterMap f).get? k = (t.get? k).bind (f k) :=
  Entries.get?_filterMap f t.nodup_keys k

@[simp] theorem get?_map (t : Table κ α) (f : κ → α → β) (k : κ) :
    (t.map f).get? k = (t.get? k).map (f k) := by
  rw [map, get?_filterMap]
  cases t.get? k <;> rfl

/-- A table that loses none of its values and keeps them as they are stays itself. -/
theorem filterMap_eq_self {t : Table κ α} {f : κ → α → Option α}
    (h : ∀ k v, t.get? k = some v → f k v = some v) : t.filterMap f = t :=
  ext (Entries.filterMap_eq_self fun e he => h e.1 e.2 ((t.get?_eq_some_iff e.1 e.2).mpr he))

theorem get?_erase (t : Table κ α) (k j : κ) :
    (t.erase k).get? j = if j = k then none else t.get? j := by
  rw [erase, get?_filterMap]
  by_cases h : j = k <;> cases t.get? j <;> simp [h]

@[simp] theorem get?_modify_self (t : Table κ α) (k : κ) (f : Option α → α) :
    (t.modify k f).get? k = some (f (t.get? k)) := get?_insert_self _ _ _

end Table

end StagedDiagnostics
