import ControlStore.Fault

/-! # Tables of distinct values, and sorting

An interned table gives every distinct value the position of its first occurrence.  It is kept in both
directions: the values by index, and the index by value.

`sortBy before` lists the elements so that none comes after one it stands before; elements of which
neither stands before the other keep their order. -/

namespace ControlStore

/-! ### Interned values -/

/-- The distinct values met so far. -/
structure Interned (α : Type) where
  /-- The values in order of first occurrence. -/
  values : List α
  /-- The index of every value. -/
  indices : List (α × Nat)
deriving DecidableEq

namespace Interned

variable {α : Type}

/-- The table without values. -/
def empty : Interned α := ⟨[], []⟩

/-- The number of distinct values. -/
def size (t : Interned α) : Nat := t.values.length

/-- The value at `index`. -/
def fetch (t : Interned α) (index : Nat) : Checked α := ControlStore.fetch t.values index

/-- The values with their indices. -/
def indexed (t : Interned α) : List (Nat × α) := t.values.zipIdx.map fun (v, i) => (i, v)

variable [DecidableEq α]

/-- The index of `v`, if it was met. -/
def index? (t : Interned α) (v : α) : Option Nat := t.indices.lookup v

/-- The index of `v`, which a value not yet met gets at the end of the table. -/
def intern (t : Interned α) (v : α) : Nat × Interned α :=
  match t.index? v with
  | some i => (i, t)
  | none => (t.size, ⟨t.values ++ [v], t.indices ++ [(v, t.size)]⟩)

/-- The indices of `vs`, interned one after the other. -/
def internAll (t : Interned α) : List α → List Nat × Interned α
  | [] => ([], t)
  | v :: vs =>
    let (i, t) := t.intern v
    let (is, t) := t.internAll vs
    (i :: is, t)

theorem size_intern_pos {t : Interned α} (h : 0 < t.size) (v : α) : 0 < (t.intern v).2.size := by
  unfold intern
  split
  · exact h
  · exact List.length_pos_of_mem (List.mem_append_right _ List.mem_cons_self)

theorem size_intern_empty_pos (v : α) : 0 < (empty.intern v).2.size := Nat.one_pos

/-- Values that were met are kept. -/
theorem size_internAll_pos {t : Interned α} (h : 0 < t.size) (vs : List α) :
    0 < (t.internAll vs).2.size := by
  induction vs generalizing t with
  | nil => exact h
  | cons v vs ih => exact ih (size_intern_pos h v)

end Interned

/-! ### Sorting by insertion -/

section
variable {α : Type}

/-- Inserts `a` behind the elements that stand before it. -/
def insertBy (before : α → α → Bool) (a : α) : List α → List α
  | [] => [a]
  | b :: rest => if before b a then b :: insertBy before a rest else a :: b :: rest

/-- The elements in order. -/
def sortBy (before : α → α → Bool) (l : List α) : List α := l.foldr (insertBy before) []

/-- All pairs of two elements at different positions, the earlier one first, ordered by the position
of the first and then of the second. -/
def pairsOf : List α → List (α × α)
  | [] => []
  | a :: rest => rest.map (fun b => (a, b)) ++ pairsOf rest

end

end ControlStore
