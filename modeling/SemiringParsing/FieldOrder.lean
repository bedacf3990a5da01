import Std.Data.TreeMap

/-!
# Orders by fields

The keys of the maps in this library are compared field by field. Two keys compare equal exactly
when all the fields that are looked at agree.
-/

namespace SemiringParsing

variable {α β : Type}

theorem compareLex_eq_eq_iff {c d : α → α → Ordering} {a b : α} :
    compareLex c d a b = .eq ↔ c a b = .eq ∧ d a b = .eq := by
  simp [compareLex, Ordering.then_eq_eq]

theorem compareOn_eq_eq_iff [Ord β] [Std.LawfulEqOrd β] {f : α → β} {a b : α} :
    compareOn f a b = .eq ↔ f a = f b :=
  Std.LawfulEqOrd.compare_eq_iff_eq

end SemiringParsing
