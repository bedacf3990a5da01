import Mathlib.Algebra.Order.BigOperators.Group.Finset
import Mathlib.Algebra.Order.Kleene
import Mathlib.Algebra.Group.Submonoid.Finsupp
import Mathlib.Order.WellFoundedSet
import SemiringParsing.Proofs.Algebra.Semiring
import SemiringParsing.Proofs.Grammar.Accepted

/-!
# Algebras that select

In a selective algebra the sum of two scores is one of the two, rules score at most one, and so
going around a cycle adds nothing (`ScoreAlgebra.IsSelective`). The scores of best derivations are
of this kind. A member is at most another when their sum is the other.

What rules score together comes from finitely many scores by composing them. Factors only lower a
product, so nothing of this kind ascends forever (`partiallyWellOrderedOn_closure`), and it is not
left by the operations (`ScoreAlgebra.closed_composites`).
-/

namespace SemiringParsing

/-- In a commutative idempotent semiring, products of finitely many elements that are at most one do
not ascend forever. -/
theorem partiallyWellOrderedOn_closure {M : Type} [IdemCommSemiring M] {generators : Set M}
    (hfinite : generators.Finite) (hle : ∀ x ∈ generators, x ≤ 1) :
    (Submonoid.closure generators : Set M).PartiallyWellOrderedOn (· ≥ ·) := by
  have : IsOrderedMonoid M := ⟨fun a b h c => by gcongr, fun a b h c => by gcongr⟩
  have := hfinite.fintype
  have himage : (Submonoid.closure generators : Set M) =
      (fun exponents : generators → ℕ => ∏ x, x.1 ^ exponents x) '' Set.univ := by
    ext x
    rw [SetLike.mem_coe, Submonoid.mem_closure_iff_of_fintype, Set.image_univ, Set.mem_range]
    exact exists_congr fun _ => eq_comm
  rw [himage]
  -- The exponents are well ordered by Dickson's lemma.
  refine Set.PartiallyWellOrderedOn.image_of_monotone_on
    (Set.isPWO_of_wellQuasiOrderedLE Set.univ) ?_
  intro exponents _ exponents' _ hexponents
  exact Finset.prod_le_prod' fun x _ => pow_le_pow_right_of_le_one' (hle x.1 x.2) (hexponents x)

namespace ScoreAlgebra

variable {π α : Type} [Number π]

/-- Of two members the sum is one, no rule scores more than one, and going around what scores at
most one is not better than standing still. -/
class IsSelective (S : ScoreAlgebra π α) : Prop extends IsCommSemiring S where
  plus_eq : ∀ {a b}, S.member a = true → S.member b = true → S.plus a b = a ∨ S.plus a b = b
  one_plus : ∀ {p}, GrammarError.isProbability p = true →
    S.plus S.one (S.ofProbability p) = S.one
  star_eq_one : ∀ {a}, S.member a = true → S.plus S.one a = S.one → S.star a = S.one

variable {S : ScoreAlgebra π α} [S.IsSelective]

theorem Members.add_eq_or (a b : S.Members) : a + b = a ∨ a + b = b :=
  (IsSelective.plus_eq a.member b.member).imp Members.ext Members.ext

instance : IdemCommSemiring S.Members :=
  { (inferInstance : CommSemiring S.Members),
    IdemSemiring.ofSemiring fun a : S.Members => (a.add_eq_or a).elim id id with }

theorem lift_ofProbability_le {p : π} (hp : GrammarError.isProbability p = true) :
    S.lift (S.ofProbability p) ≤ 1 := by
  rw [← add_eq_left_iff_le, ← lift_one,
    ← lift_plus IsSemiring.one_mem (IsSemiring.ofProbability_mem hp), IsSelective.one_plus hp]

theorem lift_star_eq_one {a : α} (ha : S.member a = true) (hle : S.lift a ≤ 1) :
    S.lift (S.star a) = 1 := by
  rw [← add_eq_left_iff_le, ← lift_one, ← lift_plus IsSemiring.one_mem ha,
    lift_inj (IsSemiring.plus_mem IsSemiring.one_mem ha) IsSemiring.one_mem] at hle
  rw [IsSelective.star_eq_one ha hle, lift_one]

/-! ## What rules score together -/

variable (S) in
/-- Zero and what is composed of the scores of the rules of a grammar. -/
def composites (G : Grammar π) : Submonoid S.Members :=
  Submonoid.closure (insert 0 {x | ∃ r ∈ G.rules, S.lift (S.ofProbability r.probability) = x})

variable {G : Grammar π}

theorem zero_mem_composites : 0 ∈ S.composites G :=
  Submonoid.subset_closure (Set.mem_insert ..)

theorem lift_mem_composites {r : Rule π} (hr : r ∈ G.rules) :
    S.lift (S.ofProbability r.probability) ∈ S.composites G :=
  Submonoid.subset_closure (Set.mem_insert_of_mem _ ⟨r, hr, rfl⟩)

theorem add_mem_composites {x y : S.Members} (hx : x ∈ S.composites G)
    (hy : y ∈ S.composites G) : x + y ∈ S.composites G := by
  rcases x.add_eq_or y with heq | heq
  · rwa [heq]
  · rwa [heq]

theorem le_one_of_mem_generators :
    ∀ x ∈ insert 0 {x | ∃ r ∈ G.rules, S.lift (S.ofProbability r.probability) = x}, x ≤ 1 := by
  rintro x (rfl | ⟨r, hr, rfl⟩)
  · exact zero_le
  · exact lift_ofProbability_le (Grammar.isProbability_probability hr)

theorem le_one_of_mem_composites {x : S.Members} (hx : x ∈ S.composites G) : x ≤ 1 := by
  induction hx using Submonoid.closure_induction with
  | mem x hx => exact le_one_of_mem_generators x hx
  | one => exact le_rfl
  | mul x y _ _ hx hy => exact mul_le_one' hx hy

variable (S G) in
theorem partiallyWellOrderedOn_composites :
    (S.composites G : Set S.Members).PartiallyWellOrderedOn (· ≥ ·) := by
  refine partiallyWellOrderedOn_closure (Set.Finite.insert _ ?_) le_one_of_mem_generators
  exact (Set.Finite.image (fun r : Rule π => S.lift (S.ofProbability r.probability))
    (List.finite_toSet G.rules)).subset fun x hx => hx

variable (S G) in
/-- Composing and selecting does not leave what rules score together. -/
theorem closed_composites : S.Closed fun a => S.member a = true ∧ S.lift a ∈ S.composites G where
  zero := by
    refine ⟨IsSemiring.zero_mem, ?_⟩
    rw [lift_zero]
    exact zero_mem_composites
  one := by
    refine ⟨IsSemiring.one_mem, ?_⟩
    rw [lift_one]
    exact one_mem _
  plus := by
    rintro a b ⟨ha, hga⟩ ⟨hb, hgb⟩
    exact ⟨IsSemiring.plus_mem ha hb, lift_plus ha hb ▸ add_mem_composites hga hgb⟩
  times := by
    rintro a b ⟨ha, hga⟩ ⟨hb, hgb⟩
    exact ⟨IsSemiring.times_mem ha hb, lift_times ha hb ▸ mul_mem hga hgb⟩
  star := by
    rintro a ⟨ha, hga⟩
    refine ⟨IsSemiring.star_mem ha, ?_⟩
    rw [lift_star_eq_one ha (le_one_of_mem_composites hga)]
    exact one_mem _

end ScoreAlgebra

end SemiringParsing
