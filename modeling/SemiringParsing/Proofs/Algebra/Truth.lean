import SemiringParsing.Proofs.Algebra.Selective
import SemiringParsing.Proofs.Number.Nonneg

/-!
# Reachability as an exact algebra

Truth values are a commutative semiring with disjunction and conjunction (`Truth`). Reachability
computes in it, over all numbers that tell zero from one, as long as no other number is a member
(`represents_boolean`). Doubles have others, since they have a zero with a sign. The algebra `truth`
is reachability without these. It is selective.
-/

namespace SemiringParsing

open ExtendedNumber

/-! ## Truth values -/

/-- A truth value. -/
@[ext]
structure Truth where
  holds : Bool
  deriving DecidableEq

namespace Truth

instance : Zero Truth := ⟨⟨false⟩⟩

instance : One Truth := ⟨⟨true⟩⟩

instance : Add Truth := ⟨fun a b => ⟨a.holds || b.holds⟩⟩

instance : Mul Truth := ⟨fun a b => ⟨a.holds && b.holds⟩⟩

instance : CommSemiring Truth where
  nsmul := nsmulRec
  add_assoc a b c := Truth.ext (Bool.or_assoc ..)
  add_comm a b := Truth.ext (Bool.or_comm ..)
  zero_add a := Truth.ext (Bool.false_or _)
  add_zero a := Truth.ext (Bool.or_false _)
  mul_assoc a b c := Truth.ext (Bool.and_assoc ..)
  mul_comm a b := Truth.ext (Bool.and_comm ..)
  one_mul a := Truth.ext (Bool.true_and _)
  mul_one a := Truth.ext (Bool.and_true _)
  zero_mul a := Truth.ext (Bool.false_and a.holds)
  mul_zero a := Truth.ext (Bool.and_false a.holds)
  left_distrib a b c := Truth.ext (Bool.and_or_distrib_left ..)
  right_distrib a b c := Truth.ext (Bool.and_or_distrib_right ..)

instance : NoZeroDivisors Truth where
  eq_zero_or_eq_zero_of_mul_eq_zero h :=
    (Bool.and_eq_false_iff.1 (congrArg holds h)).imp Truth.ext Truth.ext

end Truth

/-- Comparing numbers tells zero from one, and neither is no number. -/
class TellsTruth (α : Type) [Number α] : Prop extends TellsZeroFromOne α where
  not_isNaN_zero : Number.isNaN (0 : α) = false
  not_isNaN_one : Number.isNaN (1 : α) = false

/-! ## Other members -/

/-- The algebra with other members. -/
def ScoreAlgebra.withMembers {π α : Type} (S : ScoreAlgebra π α) (member : α → Bool) :
    ScoreAlgebra π α :=
  { S with member := member }

/-! ## The algebra of truth values -/

namespace ScoreAlgebra

variable {α : Type} [ExtendedNumber α]

/-- Reachability is computed in truth values, if zero and one are the only members. -/
theorem represents_boolean [TellsTruth α] {member : α → Bool}
    (hmember : ∀ a, member a = true ↔ ∃ b : Bool, ofTruth b = a) :
    (boolean.withMembers member).Represents fun x : Truth => (ofTruth x.holds : α) where
  injective _ _ h := Truth.ext (ofTruth_inj.1 h)
  member_iff a := (hmember a).trans ⟨fun ⟨b, h⟩ => ⟨⟨b⟩, h⟩, fun ⟨x, h⟩ => ⟨x.holds, h⟩⟩
  zero := rfl
  one := rfl
  plus x y := boolean_plus_ofTruth x.holds y.holds
  times x y := boolean_times_ofTruth x.holds y.holds
  star x := ⟨1, boolean_star_ofTruth x.holds, rfl⟩
  ofProbability _ := (hmember _).2 ⟨_, rfl⟩
  eq_iff := by
    rintro ⟨_ | _⟩ ⟨_ | _⟩
    · exact iff_of_true TellsZeroFromOne.zero_eq_zero rfl
    · exact iff_of_false (ne_true_of_eq_false TellsZeroFromOne.zero_eq_one) (by decide)
    · exact iff_of_false (ne_true_of_eq_false TellsZeroFromOne.one_eq_zero) (by decide)
    · exact iff_of_true TellsZeroFromOne.one_eq_one rfl
  not_isNaN := by
    rintro ⟨_ | _⟩
    · exact TellsTruth.not_isNaN_zero
    · exact TellsTruth.not_isNaN_one

open Classical in
/-- Reachability with zero and one as the only members. -/
noncomputable def truth : ScoreAlgebra α α :=
  boolean.withMembers fun a => decide (∃ b : Bool, ofTruth b = a)

theorem member_truth {a : α} :
    (truth : ScoreAlgebra α α).member a = true ↔ ∃ b : Bool, ofTruth b = a := by
  classical exact decide_eq_true_iff

variable [TellsTruth α]

theorem represents_truth :
    (truth : ScoreAlgebra α α).Represents fun x : Truth => ofTruth x.holds :=
  represents_boolean fun _ => member_truth

instance : (truth : ScoreAlgebra α α).IsCommSemiring :=
  represents_truth.isCommSemiring fun _ _ h =>
    (Bool.or_eq_false_iff.1 (congrArg Truth.holds h)).imp Truth.ext Truth.ext

instance : (truth : ScoreAlgebra α α).IsSelective where
  plus_eq {a b} ha hb := by
    obtain ⟨x, rfl⟩ := (represents_truth.member_iff a).1 ha
    obtain ⟨y, rfl⟩ := (represents_truth.member_iff b).1 hb
    rw [represents_truth.plus]
    rcases x with ⟨_ | _⟩
    · exact .inr rfl
    · exact .inl rfl
  one_plus _ := boolean_plus_ofTruth true _
  star_eq_one {a} ha _ := by
    obtain ⟨x, rfl⟩ := (represents_truth.member_iff a).1 ha
    exact boolean_star_ofTruth x.holds

end ScoreAlgebra

end SemiringParsing
