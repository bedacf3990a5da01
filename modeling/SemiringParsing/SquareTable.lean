/-!
# Square tables

An `n` by `n` table of values, stored by rows. Algorithms on tables are written as the entries of
the next table in terms of the entries of the last.
-/

namespace SemiringParsing

/-- The rows of a square table. -/
abbrev SquareTable (α : Type) (n : Nat) := Vector (Vector α n) n

namespace SquareTable

variable {α : Type} {n : Nat}

/-- The table with the given rows. -/
def ofRows (row : Fin n → Vector α n) : SquareTable α n :=
  Vector.ofFn row

/-- The table with the given entries. -/
def ofFn (entry : Fin n → Fin n → α) : SquareTable α n :=
  ofRows fun i => Vector.ofFn (entry i)

/-- The entry in a row and a column. -/
def entry (t : SquareTable α n) (i j : Fin n) : α :=
  (t.get i).get j

theorem get_ofFn {β : Type} (f : Fin n → β) (i : Fin n) : (Vector.ofFn f).get i = f i := by
  have h : (Vector.ofFn f).get i = (Vector.ofFn f)[i.val] := rfl
  simp [h]

@[simp] theorem entry_ofRows (row : Fin n → Vector α n) (i j : Fin n) :
    (ofRows row).entry i j = (row i).get j := by
  rw [entry, ofRows, get_ofFn]

@[simp] theorem entry_ofFn (f : Fin n → Fin n → α) (i j : Fin n) :
    (ofFn f).entry i j = f i j := by
  rw [ofFn, entry_ofRows, get_ofFn]

end SquareTable

end SemiringParsing
