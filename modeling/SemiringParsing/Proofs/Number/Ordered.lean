import SemiringParsing.Proofs.Number.Sign

/-!
# Numbers in order

Of two numbers one is at most the other exactly if the other is not less, unless one of them is no
number at all (`ComparesNumbers`). For doubles the comparison of two values is the other way round
when the values are (`Double.compare_swap`). So what passes the check of probabilities is what lies
between zero and one (`isProbability_iff`).
-/

namespace SemiringParsing

/-- All numbers can be compared, zero and one among them. -/
class ComparesNumbers (π : Type) [Number π] : Prop where
  not_isNaN_zero : Number.isNaN (0 : π) = false
  not_isNaN_one : Number.isNaN (1 : π) = false
  le_iff_not_lt : ∀ {a b : π}, Number.isNaN a = false → Number.isNaN b = false →
    (Number.le a b = true ↔ Number.lt b a = false)

/-- A probability is a number from zero to one. -/
theorem GrammarError.isProbability_iff {π : Type} [Number π] [ComparesNumbers π] {p : π} :
    isProbability p = true ↔
      Number.isNaN p = false ∧ Number.le 0 p = true ∧ Number.le p 1 = true := by
  rw [isProbability, Bool.and_eq_true, Bool.and_eq_true, Bool.not_eq_true', Bool.not_eq_true',
    Bool.not_eq_true', and_assoc]
  refine and_congr_right fun hp => ?_
  rw [ComparesNumbers.le_iff_not_lt ComparesNumbers.not_isNaN_zero hp,
    ComparesNumbers.le_iff_not_lt hp ComparesNumbers.not_isNaN_one]

/-! ## Doubles -/

namespace Double

open Float.Model (UnpackedFloat)
open Float.Model.UnpackedFloat

variable {x y : UnpackedFloat}

theorem compare_swap (hx : x.isNaN = false) (hy : y.isNaN = false) :
    ∃ o, x.compare y = some o ∧ y.compare x = some o.swap := by
  have hsign : ∀ s t : Sign, compare t s = (compare s t).swap := by decide
  have hfinite : ∀ (m m' : Nat) (e e' : Int), (compare e' e).then (compare m' m) =
      ((compare e e').then (compare m m')).swap := by
    intro m m' e e'
    rw [Ordering.swap_then, ← Std.OrientedOrd.eq_swap, ← Std.OrientedOrd.eq_swap]
  cases x with
  | notANumber => cases hx
  | infinity s =>
    cases y with
    | notANumber => cases hy
    | infinity t => exact ⟨_, rfl, congrArg some (hsign s t)⟩
    | zero t => cases s <;> exact ⟨_, rfl, rfl⟩
    | finite t m' e' => cases s <;> exact ⟨_, rfl, rfl⟩
  | zero s =>
    cases y with
    | notANumber => cases hy
    | infinity t => cases t <;> exact ⟨_, rfl, rfl⟩
    | zero t => exact ⟨_, rfl, rfl⟩
    | finite t m' e' => cases t <;> exact ⟨_, rfl, rfl⟩
  | finite s m e =>
    cases y with
    | notANumber => cases hy
    | infinity t => cases s <;> cases t <;> exact ⟨_, rfl, rfl⟩
    | zero t => cases s <;> exact ⟨_, rfl, rfl⟩
    | finite t m' e' =>
      cases s <;> cases t
      · exact ⟨_, rfl, congrArg (some ∘ Ordering.swap) (hfinite m m' e e')⟩
      · exact ⟨_, rfl, rfl⟩
      · exact ⟨_, rfl, rfl⟩
      · exact ⟨_, rfl, congrArg some (hfinite m m' e e')⟩

theorem le_eq_not_lt (hx : x.isNaN = false) (hy : y.isNaN = false) : x.le y = !y.lt x := by
  obtain ⟨o, hxy, hyx⟩ := compare_swap hx hy
  rw [UnpackedFloat.le, UnpackedFloat.lt, hxy, hyx]
  cases o <;> rfl

instance : ComparesNumbers Float where
  not_isNaN_zero := by decide
  not_isNaN_one := by decide
  le_iff_not_lt {a b} ha hb := by
    have hle : (value a).le (value b) = !(value b).lt (value a) := le_eq_not_lt ha hb
    rw [le_eq, lt_eq, hle, Bool.not_eq_true']

end Double

/-! ## Exact numbers -/

namespace Exact

instance : ComparesNumbers Exact where
  not_isNaN_zero := by decide
  not_isNaN_one := by decide
  le_iff_not_lt {a b} ha hb := by
    have hle : Number.le a b = (Exact.lt a b || Exact.eq a b) := rfl
    have hlt : Number.lt b a = Exact.lt b a := rfl
    rw [hle, hlt]
    cases a <;> cases b <;> simp_all [Number.isNaN, Exact.lt, Exact.eq, le_iff_lt_or_eq]

end Exact

end SemiringParsing
