/-
Finite maps in the order in which their keys first appeared.

A table is a list of entries with one entry per key. Writing to a key
that is there replaces its value in place, writing to a new key
appends, so `entries` lists the keys in the order of their first
writing. Everything the solver remembers is kept in such tables. `get?`
is the view through which they are read: one lemma per operation says
what it does to that view, and `mem_entries` says that the entries list
exactly what reading returns.

A table counts its keys as they come, so that its size is read off and
not counted again. That the count is the number of entries is part of
being a table.
-/

namespace Tabulation

/-- A finite map that lists its keys in the order of their first
writing. -/
structure Table (κ υ : Type) where
  entries : List (κ × υ) := []
  /-- Every key has one entry. -/
  nodup_keys : (entries.map Prod.fst).Nodup := by exact List.nodup_nil
  /-- How many keys were new when they were written. -/
  count : Nat := 0
  /-- Nothing else makes a table longer. -/
  count_eq : count = entries.length := by exact rfl
deriving Repr

namespace Table

variable {κ υ : Type}

/-- The map without entries. -/
def empty : Table κ υ := {}

instance : Inhabited (Table κ υ) := ⟨empty⟩

/-- The keys, in the order of their first writing. -/
def keys (t : Table κ υ) : List κ := t.entries.map Prod.fst

/-- The number of keys. -/
def size (t : Table κ υ) : Nat := t.count

theorem size_eq (t : Table κ υ) : t.size = t.entries.length := t.count_eq

/-- The map of the given keys to their values under a function. -/
def ofKeys (ks : List κ) (h : ks.Nodup) (f : κ → υ) : Table κ υ where
  entries := ks.map fun k => (k, f k)
  nodup_keys := by
    have : (ks.map fun k => (k, f k)).map Prod.fst = ks := by
      simp [Function.comp_def]
    rw [this]
    exact h
  count := ks.length
  count_eq := by rw [List.length_map]

variable [DecidableEq κ]

/-- The value of the first entry with this key. -/
def find (k : κ) : List (κ × υ) → Option υ
  | [] => none
  | (k', v) :: rest => if k' = k then some v else find k rest

/-- Replace the value of the first entry with this key, or append an
entry. -/
def put (k : κ) (v : υ) : List (κ × υ) → List (κ × υ)
  | [] => [(k, v)]
  | (k', v') :: rest =>
    if k' = k then (k', v) :: rest else (k', v') :: put k v rest

theorem map_fst_put (k : κ) (v : υ) (es : List (κ × υ)) :
    (put k v es).map Prod.fst =
      if k ∈ es.map Prod.fst then es.map Prod.fst else es.map
        Prod.fst ++ [k] := by
  induction es with
  | nil => simp [put]
  | cons e es ih =>
    obtain ⟨a, b⟩ := e
    by_cases ha : a = k
    · simp [put, ha]
    · by_cases hk : k ∈ es.map Prod.fst
      · rw [if_pos hk] at ih
        simp only [put, ha, if_false, List.map_cons, ih]
        rw [if_pos (List.mem_cons_of_mem _ hk)]
      · rw [if_neg hk] at ih
        simp only [put, ha, if_false, List.map_cons, ih]
        rw [if_neg]
        · rfl
        · simp only [List.mem_cons, not_or]
          exact ⟨Ne.symm ha, hk⟩

theorem nodup_map_fst_put {es : List (κ × υ)} (h : (es.map Prod.fst).Nodup)
    (k : κ) (v : υ) : ((put k v es).map Prod.fst).Nodup := by
  rw [map_fst_put]
  split
  next => exact h
  next hk => exact List.nodup_append.mpr ⟨h, by simp, by
    intro a ha b hb
    rw [List.mem_singleton.mp hb]
    rintro rfl
    exact hk ha⟩

theorem find_isSome_iff {k : κ} {es : List (κ × υ)} :
    (find k es).isSome ↔ k ∈ es.map Prod.fst := by
  induction es with
  | nil => simp [find]
  | cons e es ih =>
    obtain ⟨a, b⟩ := e
    by_cases ha : a = k
    · simp [find, ha]
    · simp [find, ha, ih, Ne.symm ha]

/-- Writing appends if and only if the key was not found. -/
theorem length_put (k : κ) (v : υ) (es : List (κ × υ)) :
    (put k v es).length =
      if (find k es).isSome then es.length else es.length + 1 := by
  have hkeys := congrArg List.length (map_fst_put k v es)
  rw [List.length_map] at hkeys
  rw [hkeys]
  by_cases hk : k ∈ es.map Prod.fst
  · rw [if_pos hk, if_pos (find_isSome_iff.mpr hk), List.length_map]
  · rw [if_neg hk, if_neg fun h => hk (find_isSome_iff.mp h),
      List.length_append, List.length_map, List.length_singleton]

/-- The value a key is mapped to. -/
def get? (t : Table κ υ) (k : κ) : Option υ := find k t.entries

/-- The value a key is mapped to, or the given one. -/
def getD (t : Table κ υ) (k : κ) (default : υ) : υ := (t.get? k).getD default

/-- Whether a key has an entry. -/
def contains (t : Table κ υ) (k : κ) : Bool := (t.get? k).isSome

/-- Map a key to a value. -/
def insert (t : Table κ υ) (k : κ) (v : υ) : Table κ υ where
  entries := put k v t.entries
  nodup_keys := nodup_map_fst_put t.nodup_keys k v
  count := if t.contains k then t.count else t.count + 1
  count_eq := by
    rw [length_put, t.count_eq]
    rfl

/-- Change the value of a key, starting from the given one if there is
none. -/
def update (t : Table κ υ) (k : κ) (default : υ) (f : υ → υ) : Table κ υ :=
  t.insert k (f (t.getD k default))

-- ==================================================== what reading returns

@[simp] theorem get?_empty (k : κ) : (empty : Table κ υ).get? k = none := rfl

theorem find_put (k k' : κ) (v : υ) (es : List (κ × υ)) :
    find k' (put k v es) = if k = k' then some v else find k' es := by
  induction es with
  | nil => simp [put, find]
  | cons e es ih =>
    obtain ⟨a, b⟩ := e
    by_cases ha : a = k
    · subst ha
      by_cases hk : a = k' <;> simp [put, find, hk]
    · by_cases hk : a = k'
      · subst hk
        simp [put, find, ha, Ne.symm ha]
      · simp [put, find, ha, hk, ih]

/-- After a write, the written key has the new value and no other key
changed. -/
theorem get?_insert (t : Table κ υ) (k k' : κ) (v : υ) :
    (t.insert k v).get? k' = if k = k' then some v else t.get? k' :=
  find_put k k' v t.entries

@[simp] theorem get?_insert_self (t : Table κ υ) (k : κ) (v : υ) :
    (t.insert k v).get? k = some v := by
  simp [get?_insert]

theorem get?_insert_of_ne (t : Table κ υ) {k k' : κ} (h : k ≠ k') (v : υ) :
    (t.insert k v).get? k' = t.get? k' := by
  simp [get?_insert, h]

theorem getD_update (t : Table κ υ) (k k' : κ) (d : υ) (f : υ → υ) :
    (t.update k d f).getD k' d = if k = k' then f (t.getD k d)
      else t.getD k' d := by
  unfold update getD
  rw [get?_insert]
  split <;> rfl

-- ======================================================= keys and entries

/-- A write makes a table larger if the key is new. -/
theorem size_insert (t : Table κ υ) (k : κ) (v : υ) :
    (t.insert k v).size = if t.contains k then t.size else t.size + 1 := rfl

/-- A key has an entry exactly if it is one of the keys. -/
theorem contains_iff {t : Table κ υ} {k : κ} :
    t.contains k = true ↔ k ∈ t.keys :=
  find_isSome_iff

/-- A write keeps the keys, or appends the new one. -/
theorem keys_insert (t : Table κ υ) (k : κ) (v : υ) :
    (t.insert k v).keys = if k ∈ t.keys then t.keys else t.keys ++ [k] :=
  map_fst_put k v t.entries

theorem mem_iff_find {k : κ} {v : υ} {es : List (κ × υ)}
    (h : (es.map Prod.fst).Nodup) : (k, v) ∈ es ↔ find k es = some v := by
  induction es with
  | nil => simp [find]
  | cons e es ih =>
    obtain ⟨a, b⟩ := e
    rw [List.map_cons, List.nodup_cons] at h
    by_cases ha : a = k
    · subst ha
      have : (a, v) ∉ es := fun hm => h.1 (List.mem_map.mpr ⟨(a, v), hm, rfl⟩)
      simp [find, this, eq_comm]
    · simp [find, ha, Ne.symm ha, ih h.2]

/-- The entries list exactly what reading returns. -/
theorem mem_entries {t : Table κ υ} {k : κ} {v : υ} :
    (k, v) ∈ t.entries ↔ t.get? k = some v :=
  mem_iff_find t.nodup_keys

theorem mem_keys {t : Table κ υ} {k : κ} :
    k ∈ t.keys ↔ ∃ v, t.get? k = some v := by
  rw [← contains_iff, contains, Option.isSome_iff_exists]

theorem get?_ofKeys {ks : List κ} (h : ks.Nodup) (f : κ → υ) (k : κ) :
    (ofKeys ks h f).get? k = if k ∈ ks then some (f k) else none := by
  split
  next hk => exact mem_entries.mp (List.mem_map.mpr ⟨k, hk, rfl⟩)
  next hk =>
    rw [← Option.not_isSome_iff_eq_none]
    intro hs
    have := find_isSome_iff.mp hs
    simp [ofKeys] at this
    exact hk this

end Table

end Tabulation
