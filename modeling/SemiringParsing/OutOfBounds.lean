/-!
# Looking up by number

What is kept in an array is numbered from 0. Looking up a number gives the element with that
number (`lookUp_eq_ok`), or an error where the numbers have run out.
-/

namespace SemiringParsing

/-- A number that no element has, and how many elements there are. -/
structure OutOfBounds where
  index : Nat
  size : Nat
  deriving DecidableEq, Repr

/-- The text of the error. -/
def OutOfBounds.message (e : OutOfBounds) : String :=
  "index out of bounds: the len is " ++ toString e.size ++ " but the index is " ++
    toString e.index

variable {α : Type}

/-- The element with a number. -/
def lookUp (xs : Array α) (index : Nat) : Except OutOfBounds α :=
  match xs[index]? with
  | some x => .ok x
  | none => .error ⟨index, xs.size⟩

theorem lookUp_eq_ok {xs : Array α} {index : Nat} {x : α} :
    lookUp xs index = .ok x ↔ xs[index]? = some x := by
  cases h : xs[index]? <;> simp [lookUp, h]

end SemiringParsing
