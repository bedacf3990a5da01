import Std.Data.TreeMap

/-!
# Buckets of numbers

Numbers filed under keys, in each bucket in the order in which they came.
-/

namespace SemiringParsing

/-- The numbers filed under each key. -/
abbrev Buckets (κ : Type) [Ord κ] := Std.TreeMap κ (Array Nat)

namespace Buckets

variable {κ : Type} [Ord κ]

/-- Files a number behind those of its key. -/
def add (b : Buckets κ) (key : κ) (n : Nat) : Buckets κ :=
  b.alter key fun bucket? => some ((bucket?.getD #[]).push n)

/-- The numbers filed under a key. -/
def bucket (b : Buckets κ) (key : κ) : Array Nat :=
  b.getD key #[]

@[simp] theorem bucket_empty [Std.TransOrd κ] (key : κ) : bucket (∅ : Buckets κ) key = #[] := by
  simp [bucket]

theorem bucket_add [Std.TransOrd κ] [Std.LawfulEqOrd κ] [DecidableEq κ] (b : Buckets κ)
    (key other : κ) (n : Nat) :
    (b.add key n).bucket other =
      if key = other then (b.bucket other).push n else b.bucket other := by
  rw [bucket, add, Std.TreeMap.getD_alter]
  by_cases h : key = other
  · simp [h, bucket, Std.TreeMap.getD_eq_getD_getElem?]
  · simp [h, bucket]

end Buckets

end SemiringParsing
