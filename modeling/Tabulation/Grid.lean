/-
Tables with two coordinates.

A grid is a table of rows. To find a cell one finds its row first, so a
grid with many rows is searched faster than one long table, and a whole
row is at hand without a search through the others. As with a table,
`get?` is the view, and `cells` lists exactly what reading returns. A
grid counts its cells as a table counts its keys, and carries the proof
that the count is right.
-/
import Tabulation.Table

namespace Tabulation

/-- All cells of rows, row by row. -/
def Table.cellsIn {ρ κ υ : Type} (rows : List (ρ × Table κ υ)) :
    List (ρ × κ × υ) :=
  rows.flatMap fun r => r.2.entries.map fun c => (r.1, c.1, c.2)

/-- Without rows there are no cells. -/
theorem Table.length_cellsIn_nil {ρ κ υ : Type} :
    0 = (cellsIn ([] : List (ρ × Table κ υ))).length := rfl

/-- A finite map with two keys. -/
structure Grid (ρ κ υ : Type) where
  rows : Table ρ (Table κ υ) := .empty
  /-- How many cells were new when they were written. -/
  count : Nat := 0
  /-- Nothing else adds cells. -/
  count_eq : count = (Table.cellsIn rows.entries).length := by
    exact Table.length_cellsIn_nil
deriving Repr

namespace Grid

variable {ρ κ υ : Type}

/-- The map without cells. -/
def empty : Grid ρ κ υ := {}

instance : Inhabited (Grid ρ κ υ) := ⟨empty⟩

/-- All cells, row by row. -/
def cells (g : Grid ρ κ υ) : List (ρ × κ × υ) := Table.cellsIn g.rows.entries

/-- The number of cells. -/
def size (g : Grid ρ κ υ) : Nat := g.count

theorem size_eq (g : Grid ρ κ υ) : g.size = g.cells.length := g.count_eq

variable [DecidableEq ρ]

/-- One row. -/
def row (g : Grid ρ κ υ) (r : ρ) : Table κ υ := g.rows.getD r .empty

/-- Replacing a row replaces its cells, and adding one adds them. -/
theorem length_cellsIn_put (r : ρ) (row : Table κ υ)
    (es : List (ρ × Table κ υ)) :
    (Table.cellsIn (Table.put r row es)).length +
        ((Table.find r es).getD .empty).size =
      (Table.cellsIn es).length + row.size := by
  unfold Table.cellsIn
  induction es with
  | nil => simp [Table.put, Table.find, Table.size_eq, Table.empty]
  | cons e es ih =>
    obtain ⟨r', row'⟩ := e
    by_cases hr : r' = r
    · simp only [Table.put, Table.find, if_pos hr, List.flatMap_cons,
        List.length_append, List.length_map, Option.getD_some, Table.size_eq]
      omega
    · simp only [Table.put, Table.find, if_neg hr, List.flatMap_cons,
        List.length_append]
      omega

variable [DecidableEq κ]

/-- The value of a cell. -/
def get? (g : Grid ρ κ υ) (r : ρ) (k : κ) : Option υ := (g.row r).get? k

/-- The value of a cell, or the given one. -/
def getD (g : Grid ρ κ υ) (r : ρ) (k : κ) (default : υ) : υ :=
  (g.get? r k).getD default

/-- Write a cell. -/
def insert (g : Grid ρ κ υ) (r : ρ) (k : κ) (v : υ) : Grid ρ κ υ where
  rows := g.rows.update r .empty fun row => row.insert k v
  count := if (g.row r).contains k then g.count else g.count + 1
  count_eq := by
    have hcells := length_cellsIn_put r ((g.row r).insert k v) g.rows.entries
    have hrow : ((Table.find r g.rows.entries).getD .empty).size =
      (g.row r).size :=
      rfl
    have hcount := g.count_eq
    show _ = (Table.cellsIn
        (Table.put r ((g.row r).insert k v) g.rows.entries)).length
    rw [hrow, Table.size_insert] at hcells
    split
    next h =>
      rw [if_pos h] at hcells
      omega
    next h =>
      rw [if_neg h] at hcells
      omega

/-- A write makes a grid larger if the cell is new. -/
theorem size_insert (g : Grid ρ κ υ) (r : ρ) (k : κ) (v : υ) :
    (g.insert r k v).size =
      if (g.row r).contains k then g.size else g.size + 1 := rfl

-- ==================================================== what reading returns

@[simp] theorem get?_empty (r : ρ) (k : κ) :
    (empty : Grid ρ κ υ).get? r k = none :=
  rfl

theorem row_insert (g : Grid ρ κ υ) (r r' : ρ) (k : κ) (v : υ) :
    (g.insert r k v).row r' = if r = r' then (g.row r).insert k v
      else g.row r' :=
  Table.getD_update g.rows r r' .empty _

/-- After a write, the written cell has the new value and no other cell
changed. -/
theorem get?_insert (g : Grid ρ κ υ) (r r' : ρ) (k k' : κ) (v : υ) :
    (g.insert r k v).get? r' k' = if r = r' ∧
    k = k' then some v else g.get? r' k' := by
  unfold get?
  rw [row_insert]
  by_cases hr : r = r'
  · subst hr
    simp [Table.get?_insert]
  · simp [hr]

@[simp] theorem get?_insert_self (g : Grid ρ κ υ) (r : ρ) (k : κ) (v : υ) :
    (g.insert r k v).get? r k = some v := by
  simp [get?_insert]

/-- A write adds at most the row that it writes to. -/
theorem mem_keys_rows_insert {g : Grid ρ κ υ} {r r' : ρ} {k : κ} {v : υ} :
    r' ∈ (g.insert r k v).rows.keys ↔ r' ∈ g.rows.keys ∨ r' = r := by
  show r' ∈ (g.rows.insert r ((g.rows.getD r .empty).insert k v)).keys ↔ _
  rw [Table.keys_insert]
  split
  next hr =>
    refine ⟨Or.inl, fun h => ?_⟩
    rcases h with h | rfl
    · exact h
    · exact hr
  next => rw [List.mem_append, List.mem_singleton]

/-- The cells list exactly what reading returns. -/
theorem mem_cells {g : Grid ρ κ υ} {r : ρ} {k : κ} {v : υ} :
    (r, k, v) ∈ g.cells ↔ g.get? r k = some v := by
  unfold cells Table.cellsIn get? row Table.getD
  simp only [List.mem_flatMap, List.mem_map, Prod.mk.injEq, Prod.exists]
  constructor
  · rintro ⟨r', row, hrow, k', v', hcell, rfl, rfl, rfl⟩
    rw [Table.mem_entries.mp hrow]
    exact Table.mem_entries.mp hcell
  · intro h
    cases hrow : g.rows.get? r with
    | none => simp [hrow] at h
    | some row =>
      refine ⟨r, row, Table.mem_entries.mpr hrow, k, v, ?_, rfl, rfl, rfl⟩
      rw [hrow] at h
      exact Table.mem_entries.mpr h

end Grid

end Tabulation
