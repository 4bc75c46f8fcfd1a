import Mathlib.Data.List.Basic
import Mathlib.Tactic.Common

/-!
# Keyed tables

A table of a database with a primary key, as the list of its rows.

* `findRow`: the row of a key.
* `putRow`: `INSERT … ON CONFLICT(key) DO UPDATE`; it replaces the row of the same key in place, or
  appends the new one.
* `insertRow`: `INSERT … ON CONFLICT(key) DO NOTHING`, and whether it did something.
* `updateRows`: `UPDATE … WHERE key = ?`.
* `findRow_putRow_self`, `findRow_putRow_ne`, `findRow_updateRows`: what is found after a write.
* `findRow_of_mem`: with distinct keys every row is found.
* `map_putRow_of_mem`: a write to a key that is there leaves the column of keys as it is.
-/

section Table

variable {α κ : Type} [DecidableEq κ] (key : α → κ)

/-- The row of a key. -/
def findRow (k : κ) : List α → Option α
  | [] => none
  | r :: rs => if key r = k then some r else findRow k rs

/-- Write a row in place of the row of the same key, or at the end. -/
def putRow (row : α) : List α → List α
  | [] => [row]
  | r :: rs => if key r = key row then row :: rs else r :: putRow row rs

/-- Write a row at the end, unless there is a row of the same key. -/
def insertRow (row : α) (rows : List α) : List α × Bool :=
  if (findRow key (key row) rows).isSome then (rows, false) else (rows ++ [row], true)

/-- Change the rows of a key. -/
def updateRows (k : κ) (change : α → α) (rows : List α) : List α :=
  rows.map fun r => if key r = k then change r else r

variable {key}

theorem findRow_cons_of_eq {k : κ} {r : α} (h : key r = k) (rs : List α) :
    findRow key k (r :: rs) = some r := by
  rw [findRow, if_pos h]

theorem findRow_cons_of_ne {k : κ} {r : α} (h : key r ≠ k) (rs : List α) :
    findRow key k (r :: rs) = findRow key k rs := by
  rw [findRow, if_neg h]

theorem key_of_findRow {k : κ} {rows : List α} {r : α} (h : findRow key k rows = some r) :
    key r = k := by
  induction rows with
  | nil => exact absurd h (by simp [findRow])
  | cons r' rs ih =>
    rw [findRow] at h
    split at h
    · next hk =>
      rw [← Option.some.inj h]
      exact hk
    · exact ih h

theorem mem_of_findRow {k : κ} {rows : List α} {r : α} (h : findRow key k rows = some r) :
    r ∈ rows := by
  induction rows with
  | nil => exact absurd h (by simp [findRow])
  | cons r' rs ih =>
    rw [findRow] at h
    split at h
    · rw [Option.some.inj h]
      exact List.mem_cons_self
    · exact List.mem_cons_of_mem _ (ih h)

theorem findRow_isSome_iff {k : κ} {rows : List α} :
    (∃ r, findRow key k rows = some r) ↔ k ∈ rows.map key := by
  induction rows with
  | nil => simp [findRow]
  | cons r rs ih =>
    rw [findRow, List.map_cons, List.mem_cons]
    by_cases hk : key r = k
    · rw [if_pos hk]
      exact iff_of_true ⟨r, rfl⟩ (Or.inl hk.symm)
    · rw [if_neg hk, ih]
      exact ⟨Or.inr, fun h => h.resolve_left fun h' => hk h'.symm⟩

theorem findRow_putRow_self (row : α) (rows : List α) :
    findRow key (key row) (putRow key row rows) = some row := by
  induction rows with
  | nil => rw [putRow, findRow_cons_of_eq rfl]
  | cons r rs ih =>
    rw [putRow]
    split
    · rw [findRow_cons_of_eq rfl]
    · next hk => rw [findRow_cons_of_ne hk, ih]

theorem findRow_putRow_ne {k : κ} {row : α} (h : key row ≠ k) (rows : List α) :
    findRow key k (putRow key row rows) = findRow key k rows := by
  induction rows with
  | nil => rw [putRow, findRow_cons_of_ne h]
  | cons r rs ih =>
    rw [putRow]
    split
    · next hk => rw [findRow_cons_of_ne h, findRow_cons_of_ne (hk ▸ h)]
    · rw [findRow, findRow, ih]

/-- A change that keeps the key is seen under its key only. -/
theorem findRow_updateRows {change : α → α} (hkey : ∀ r, key (change r) = key r) (k k' : κ)
    (rows : List α) :
    findRow key k' (updateRows key k change rows) =
      if k' = k then (findRow key k' rows).map change else findRow key k' rows := by
  induction rows with
  | nil =>
    rw [updateRows, List.map_nil, findRow, Option.map_none, ite_self]
  | cons r rs ih =>
    have hhead : key (if key r = k then change r else r) = key r := by
      split
      · exact hkey r
      · rfl
    rw [updateRows, List.map_cons, findRow, hhead, findRow]
    split
    · next hr =>
      rw [Option.map_some, ← apply_ite some, hr]
    · exact ih

/-- A row at the end is found when there is none of its key before. -/
theorem findRow_append (k : κ) (rows rows' : List α) :
    findRow key k (rows ++ rows') = (findRow key k rows).or (findRow key k rows') := by
  induction rows with
  | nil => rfl
  | cons r rs ih =>
    rw [List.cons_append, findRow, findRow]
    split
    · rfl
    · exact ih

theorem findRow_eq_none_iff {k : κ} {rows : List α} :
    findRow key k rows = none ↔ k ∉ rows.map key := by
  rw [← findRow_isSome_iff, Option.eq_none_iff_forall_ne_some, not_exists]

theorem insertRow_of_none {row : α} {rows : List α} (h : findRow key (key row) rows = none) :
    insertRow key row rows = (rows ++ [row], true) := by
  rw [insertRow, h, Option.isSome_none, if_neg Bool.false_ne_true]

/-- An insertion that did something has added a row of a new key. -/
theorem insertRow_cases (row : α) (rows : List α) :
    insertRow key row rows = (rows, false) ∨
      findRow key (key row) rows = none ∧ insertRow key row rows = (rows ++ [row], true) := by
  cases h : findRow key (key row) rows with
  | none => exact Or.inr ⟨rfl, insertRow_of_none h⟩
  | some r => exact Or.inl (by rw [insertRow, h, Option.isSome_some, if_pos rfl])

theorem map_putRow_of_mem {row : α} {rows : List α} (h : key row ∈ rows.map key) :
    (putRow key row rows).map key = rows.map key := by
  induction rows with
  | nil => exact absurd h (by simp)
  | cons r rs ih =>
    rw [putRow]
    split
    · next hk => rw [List.map_cons, List.map_cons, hk]
    · next hk =>
      rw [List.map_cons, List.mem_cons] at h
      rw [List.map_cons, List.map_cons, ih (h.resolve_left fun h' => hk h'.symm)]

/-- Every row of a table with distinct keys is found under its key. -/
theorem findRow_of_mem {rows : List α} {r : α} (hnodup : (rows.map key).Nodup) (h : r ∈ rows) :
    findRow key (key r) rows = some r := by
  induction rows with
  | nil => exact absurd h (by simp)
  | cons r' rs ih =>
    rw [List.map_cons, List.nodup_cons] at hnodup
    rw [List.mem_cons] at h
    rcases h with rfl | h
    · exact findRow_cons_of_eq rfl rs
    · have hne : key r' ≠ key r := fun heq => hnodup.1 (heq ▸ List.mem_map_of_mem h)
      rw [findRow_cons_of_ne hne]
      exact ih hnodup.2 h

/-- A row that is not there is found in neither of two tables with the same keys. -/
theorem findRow_eq_none_of_keys {rows rows' : List α} (hkeys : rows'.map key = rows.map key) {k : κ}
    (h : k ∉ rows.map key) : findRow key k rows' = none ∧ findRow key k rows = none := by
  have hnone : ∀ rs : List α, k ∉ rs.map key → findRow key k rs = none := by
    intro rs hk
    rw [Option.eq_none_iff_forall_ne_some]
    exact fun r hr => hk (findRow_isSome_iff.mp ⟨r, hr⟩)
  exact ⟨hnone rows' (hkeys ▸ h), hnone rows h⟩

end Table
