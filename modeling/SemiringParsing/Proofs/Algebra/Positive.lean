import Mathlib.Tactic.Common
import SemiringParsing.Algebra.Standard

/-!
# Algebras in which zero has to be forced

A sum is zero only when both terms are, a product only when a factor is, and a closure never. Then
which scores are zero can be computed without computing scores. `Positive` says this of the
values that satisfy a predicate and that the operations do not leave.

Reachability is of this kind: its values are zero and one. All that has to be known of the numbers
is that comparing them tells zero from one (`TellsZeroFromOne`).
-/

namespace SemiringParsing

/-- Comparing numbers tells zero from one. -/
class TellsZeroFromOne (α : Type) [Number α] : Prop where
  zero_eq_zero : Number.eq (0 : α) 0 = true
  one_eq_one : Number.eq (1 : α) 1 = true
  zero_eq_one : Number.eq (0 : α) 1 = false
  one_eq_zero : Number.eq (1 : α) 0 = false

namespace ScoreAlgebra

variable {π α : Type}

/-- Whether a score is told from zero. -/
def NonZero (S : ScoreAlgebra π α) (a : α) : Prop :=
  S.eq a S.zero = false

/-- The operations do not leave the values of `V`. -/
structure Closed (S : ScoreAlgebra π α) (V : α → Prop) : Prop where
  zero : V S.zero
  one : V S.one
  plus : ∀ {a b}, V a → V b → V (S.plus a b)
  times : ∀ {a b}, V a → V b → V (S.times a b)
  star : ∀ {a}, V a → V (S.star a)

/-- A sum from the left stays among the values. -/
theorem Closed.foldl_plus {S : ScoreAlgebra π α} {V : α → Prop} (h : S.Closed V) {ι : Type}
    (f : ι → α) (xs : List ι) (hf : ∀ x ∈ xs, V (f x)) {a : α} (ha : V a) :
    V (xs.foldl (fun score x => S.plus score (f x)) a) := by
  induction xs generalizing a with
  | nil => exact ha
  | cons x xs ih =>
    exact ih (fun y hy => hf y (List.mem_cons_of_mem _ hy)) (h.plus ha (hf x List.mem_cons_self))

/-- Among the values of `V`, zero arises only where an operand forces it. -/
structure Positive (S : ScoreAlgebra π α) (V : α → Prop) : Prop where
  zero : V S.zero
  one : V S.one
  plus : ∀ {a b}, V a → V b → V (S.plus a b)
  times : ∀ {a b}, V a → V b → V (S.times a b)
  star : ∀ {a}, V a → V (S.star a)
  not_nonZero_zero : ¬ S.NonZero S.zero
  nonZero_one : S.NonZero S.one
  nonZero_plus : ∀ {a b}, V a → V b → (S.NonZero (S.plus a b) ↔ S.NonZero a ∨ S.NonZero b)
  nonZero_times : ∀ {a b}, V a → V b → (S.NonZero (S.times a b) ↔ S.NonZero a ∧ S.NonZero b)
  nonZero_star : ∀ {a}, V a → S.NonZero (S.star a)

namespace Positive

variable {S : ScoreAlgebra π α} {V : α → Prop}

theorem closed (h : S.Positive V) : S.Closed V :=
  ⟨h.zero, h.one, h.plus, h.times, h.star⟩

/-- A sum from the left is zero only when all of it is. -/
theorem nonZero_foldl_plus (h : S.Positive V) {ι : Type} (f : ι → α) (xs : List ι)
    (hf : ∀ x ∈ xs, V (f x)) {a : α} (ha : V a) :
    S.NonZero (xs.foldl (fun score x => S.plus score (f x)) a) ↔
      S.NonZero a ∨ ∃ x ∈ xs, S.NonZero (f x) := by
  induction xs generalizing a with
  | nil => simp
  | cons x xs ih =>
    have hx : V (f x) := hf x List.mem_cons_self
    rw [List.foldl_cons, ih (fun y hy => hf y (List.mem_cons_of_mem _ hy)) (h.plus ha hx),
      h.nonZero_plus ha hx]
    simp only [List.mem_cons, exists_eq_or_imp, or_assoc]

end Positive

/-! ## Reachability -/

section Boolean

open ExtendedNumber

variable [ExtendedNumber α] [TellsZeroFromOne α]

@[simp] theorem isTruth_ofTruth (b : Bool) : isTruth (ofTruth b : α) = true := by
  cases b <;> simp [isTruth, ofTruth, TellsZeroFromOne.zero_eq_zero, TellsZeroFromOne.one_eq_one]

@[simp] theorem eq_ofTruth_one (b : Bool) : Number.eq (ofTruth b : α) 1 = b := by
  cases b <;> simp [ofTruth, TellsZeroFromOne.zero_eq_one, TellsZeroFromOne.one_eq_one]

theorem ofTruth_inj {a b : Bool} : (ofTruth a : α) = ofTruth b ↔ a = b := by
  refine ⟨fun h => ?_, congrArg ofTruth⟩
  simpa using congrArg (Number.eq · (1 : α)) h

@[simp] theorem nonZero_ofTruth (b : Bool) :
    (boolean : ScoreAlgebra α α).NonZero (ofTruth b) ↔ b = true := by
  cases b <;>
    simp [NonZero, boolean, ofTruth, TellsZeroFromOne.zero_eq_zero, TellsZeroFromOne.one_eq_zero]

theorem boolean_plus_ofTruth (a b : Bool) :
    (boolean : ScoreAlgebra α α).plus (ofTruth a) (ofTruth b) = ofTruth (a || b) := by
  simp [boolean]

theorem boolean_times_ofTruth (a b : Bool) :
    (boolean : ScoreAlgebra α α).times (ofTruth a) (ofTruth b) = ofTruth (a && b) := by
  simp [boolean]

/-- The product of truth values is the conjunction of all. -/
theorem boolean_product_ofTruth (bs : List Bool) :
    (boolean : ScoreAlgebra α α).product (bs.map ofTruth) = ofTruth (bs.all id) := by
  suffices h : ∀ b : Bool, (bs.map ofTruth).foldl (boolean : ScoreAlgebra α α).times (ofTruth b) =
      ofTruth (b && bs.all id) from h true
  induction bs with
  | nil => simp
  | cons b' bs ih =>
    intro b
    rw [List.map_cons, List.foldl_cons, boolean_times_ofTruth, ih, List.all_cons, Bool.and_assoc]
    rfl

theorem boolean_star_ofTruth (a : Bool) :
    (boolean : ScoreAlgebra α α).star (ofTruth a) = ofTruth true := by
  simp [boolean]

/-- Reachability computes with truth values, and no value is zero unless it has to be. -/
theorem positive_boolean :
    (boolean : ScoreAlgebra α α).Positive fun a => ∃ b : Bool, a = ofTruth b where
  zero := ⟨false, rfl⟩
  one := ⟨true, rfl⟩
  plus := by
    rintro _ _ ⟨a, rfl⟩ ⟨b, rfl⟩
    exact ⟨a || b, boolean_plus_ofTruth a b⟩
  times := by
    rintro _ _ ⟨a, rfl⟩ ⟨b, rfl⟩
    exact ⟨a && b, boolean_times_ofTruth a b⟩
  star := by
    rintro _ ⟨a, rfl⟩
    exact ⟨true, boolean_star_ofTruth a⟩
  not_nonZero_zero := by
    have h := nonZero_ofTruth (α := α) false
    simpa [ofTruth, boolean] using h
  nonZero_one := by
    have h := nonZero_ofTruth (α := α) true
    simpa [ofTruth, boolean] using h
  nonZero_plus := by
    rintro _ _ ⟨a, rfl⟩ ⟨b, rfl⟩
    rw [boolean_plus_ofTruth]
    simp
  nonZero_times := by
    rintro _ _ ⟨a, rfl⟩ ⟨b, rfl⟩
    rw [boolean_times_ofTruth]
    simp
  nonZero_star := by
    rintro _ ⟨a, rfl⟩
    rw [boolean_star_ofTruth]
    simp

end Boolean

end ScoreAlgebra

end SemiringParsing
