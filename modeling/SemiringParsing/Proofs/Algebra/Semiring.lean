import Mathlib.Algebra.BigOperators.Group.Finset.Basic
import Mathlib.Algebra.BigOperators.Group.List.Basic
import Mathlib.Algebra.Ring.Defs
import SemiringParsing.Grammar.Basic
import SemiringParsing.Proofs.Algebra.Positive

/-!
# Exact algebras

An algebra is exact when its members are a semiring and comparing them tells whether they are the
same (`IsSemiring`). The members are then a type of their own, on which the theory of semirings is
there to be used. Scores of any kind are taken to it by `lift`, which commutes with the operations
on members.

The theorems on total weights need more (`IsCommSemiring`): that factors may change places, the law
of the closure, and that nothing is zero that need not be.
-/

namespace SemiringParsing

/-- The indexes of a list without repetitions carry a sum, if all others are zero. -/
theorem sum_eq_sum_map {ι κ M : Type} [DecidableEq κ] [AddCommMonoid M] {indexes : Finset κ}
    {entries : List ι} {key : ι → κ} {f : κ → M}
    (hdistinct : entries.Pairwise fun x y => key x ≠ key y)
    (hentries : ∀ x ∈ entries, key x ∈ indexes)
    (hzero : ∀ k ∈ indexes, (∀ x ∈ entries, key x ≠ k) → f k = 0) :
    ∑ k ∈ indexes, f k = (entries.map fun x => f (key x)).sum := by
  have hsubset : (entries.map key).toFinset ⊆ indexes := by
    intro k hk
    obtain ⟨x, hx, rfl⟩ := List.mem_map.1 (List.mem_toFinset.1 hk)
    exact hentries x hx
  rw [← Finset.sum_subset hsubset, List.sum_toFinset f (List.pairwise_map.2 hdistinct),
    List.map_map]
  · rfl
  · intro k hk hnotMem
    refine hzero k hk fun x hx hkey => hnotMem ?_
    exact List.mem_toFinset.2 (List.mem_map.2 ⟨x, hx, hkey⟩)

namespace ScoreAlgebra

variable {π α : Type} [Number π]

/-- The members of an algebra are a semiring, and numerical equality of members is equality. -/
class IsSemiring (S : ScoreAlgebra π α) : Prop where
  zero_mem : S.member S.zero = true
  one_mem : S.member S.one = true
  plus_mem : ∀ {a b}, S.member a = true → S.member b = true → S.member (S.plus a b) = true
  times_mem : ∀ {a b}, S.member a = true → S.member b = true → S.member (S.times a b) = true
  star_mem : ∀ {a}, S.member a = true → S.member (S.star a) = true
  ofProbability_mem : ∀ {p}, GrammarError.isProbability p = true →
    S.member (S.ofProbability p) = true
  plus_assoc : ∀ {a b c}, S.member a = true → S.member b = true → S.member c = true →
    S.plus (S.plus a b) c = S.plus a (S.plus b c)
  plus_comm : ∀ {a b}, S.member a = true → S.member b = true → S.plus a b = S.plus b a
  zero_plus : ∀ {a}, S.member a = true → S.plus S.zero a = a
  times_assoc : ∀ {a b c}, S.member a = true → S.member b = true → S.member c = true →
    S.times (S.times a b) c = S.times a (S.times b c)
  one_times : ∀ {a}, S.member a = true → S.times S.one a = a
  times_one : ∀ {a}, S.member a = true → S.times a S.one = a
  zero_times : ∀ {a}, S.member a = true → S.times S.zero a = S.zero
  times_zero : ∀ {a}, S.member a = true → S.times a S.zero = S.zero
  times_plus : ∀ {a b c}, S.member a = true → S.member b = true → S.member c = true →
    S.times a (S.plus b c) = S.plus (S.times a b) (S.times a c)
  plus_times : ∀ {a b c}, S.member a = true → S.member b = true → S.member c = true →
    S.times (S.plus a b) c = S.plus (S.times a c) (S.times b c)
  eq_iff : ∀ {a b}, S.member a = true → S.member b = true → (S.eq a b = true ↔ a = b)
  not_isNaN : ∀ {a}, S.member a = true → S.isNaN a = false

/-- The members are a commutative semiring with a closure, in which a sum is zero only if both terms
are, and a product only if a factor is. -/
class IsCommSemiring (S : ScoreAlgebra π α) : Prop extends IsSemiring S where
  times_comm : ∀ {a b}, S.member a = true → S.member b = true → S.times a b = S.times b a
  star_eq : ∀ {a}, S.member a = true → S.star a = S.plus S.one (S.times a (S.star a))
  eq_zero_of_plus : ∀ {a b}, S.member a = true → S.member b = true → S.plus a b = S.zero →
    a = S.zero ∧ b = S.zero
  eq_zero_of_times : ∀ {a b}, S.member a = true → S.member b = true → S.times a b = S.zero →
    a = S.zero ∨ b = S.zero

/-- A member of an algebra. -/
@[ext]
structure Members (S : ScoreAlgebra π α) where
  val : α
  member : S.member val = true

namespace Members

variable {S : ScoreAlgebra π α} [S.IsSemiring]

instance : Zero S.Members := ⟨⟨S.zero, IsSemiring.zero_mem⟩⟩

instance : One S.Members := ⟨⟨S.one, IsSemiring.one_mem⟩⟩

instance : Add S.Members :=
  ⟨fun a b => ⟨S.plus a.val b.val, IsSemiring.plus_mem a.member b.member⟩⟩

instance : Mul S.Members :=
  ⟨fun a b => ⟨S.times a.val b.val, IsSemiring.times_mem a.member b.member⟩⟩

@[simp] theorem val_zero : (0 : S.Members).val = S.zero := rfl

@[simp] theorem val_one : (1 : S.Members).val = S.one := rfl

@[simp] theorem val_add (a b : S.Members) : (a + b).val = S.plus a.val b.val := rfl

@[simp] theorem val_mul (a b : S.Members) : (a * b).val = S.times a.val b.val := rfl

instance : Semiring S.Members where
  nsmul := nsmulRec
  add_assoc a b c := Members.ext (IsSemiring.plus_assoc a.member b.member c.member)
  add_comm a b := Members.ext (IsSemiring.plus_comm a.member b.member)
  zero_add a := Members.ext (IsSemiring.zero_plus a.member)
  add_zero a := Members.ext ((IsSemiring.plus_comm a.member IsSemiring.zero_mem).trans
    (IsSemiring.zero_plus a.member))
  mul_assoc a b c := Members.ext (IsSemiring.times_assoc a.member b.member c.member)
  one_mul a := Members.ext (IsSemiring.one_times a.member)
  mul_one a := Members.ext (IsSemiring.times_one a.member)
  zero_mul a := Members.ext (IsSemiring.zero_times a.member)
  mul_zero a := Members.ext (IsSemiring.times_zero a.member)
  left_distrib a b c := Members.ext (IsSemiring.times_plus a.member b.member c.member)
  right_distrib a b c := Members.ext (IsSemiring.plus_times a.member b.member c.member)

instance {S : ScoreAlgebra π α} [S.IsCommSemiring] : CommSemiring S.Members where
  mul_comm a b := Members.ext (IsCommSemiring.times_comm a.member b.member)

end Members

/-! ## Scores as members -/

section Lift

variable (S : ScoreAlgebra π α) [S.IsSemiring] {a b : α}

/-- A score as a member. What is none becomes zero. -/
def lift (a : α) : S.Members :=
  if h : S.member a = true then ⟨a, h⟩ else 0

variable {S}

theorem val_lift (h : S.member a = true) : (S.lift a).val = a := by
  rw [lift, dif_pos h]

theorem lift_inj (ha : S.member a = true) (hb : S.member b = true) :
    S.lift a = S.lift b ↔ a = b := by
  rw [Members.ext_iff, val_lift ha, val_lift hb]

@[simp] theorem lift_zero : S.lift S.zero = 0 :=
  Members.ext (val_lift IsSemiring.zero_mem)

@[simp] theorem lift_one : S.lift S.one = 1 :=
  Members.ext (val_lift IsSemiring.one_mem)

theorem lift_plus (ha : S.member a = true) (hb : S.member b = true) :
    S.lift (S.plus a b) = S.lift a + S.lift b := by
  ext
  rw [val_lift (IsSemiring.plus_mem ha hb), Members.val_add, val_lift ha, val_lift hb]

theorem lift_times (ha : S.member a = true) (hb : S.member b = true) :
    S.lift (S.times a b) = S.lift a * S.lift b := by
  ext
  rw [val_lift (IsSemiring.times_mem ha hb), Members.val_mul, val_lift ha, val_lift hb]

theorem same_iff (ha : S.member a = true) (hb : S.member b = true) :
    S.same a b = true ↔ a = b := by
  simp [same, IsSemiring.eq_iff ha hb, IsSemiring.not_isNaN ha]

variable (S) in
theorem closed : S.Closed fun a => S.member a = true :=
  ⟨IsSemiring.zero_mem, IsSemiring.one_mem, IsSemiring.plus_mem, IsSemiring.times_mem,
    IsSemiring.star_mem⟩

variable (S) in
/-- An operation on scores composes members with some weight. -/
def Composes (compose : α → α) (weight : S.Members) : Prop :=
  ∀ a, S.member a = true → S.member (compose a) = true ∧ S.lift (compose a) = S.lift a * weight

theorem foldl_plus_mem {scores : List α} (h : ∀ x ∈ scores, S.member x = true)
    (ha : S.member a = true) : S.member (scores.foldl S.plus a) = true ∧
      S.lift (scores.foldl S.plus a) = S.lift a + (scores.map S.lift).sum := by
  induction scores generalizing a with
  | nil => exact ⟨ha, by simp⟩
  | cons x xs ih =>
    have hx := h x List.mem_cons_self
    obtain ⟨hmem, hlift⟩ := ih (fun y hy => h y (List.mem_cons_of_mem _ hy))
      (IsSemiring.plus_mem ha hx)
    refine ⟨hmem, ?_⟩
    rw [List.foldl_cons, hlift, lift_plus ha hx, List.map_cons, List.sum_cons, add_assoc]

/-- The sum of some members is one, and its value is the sum of their values. -/
theorem sum_mem {scores : List α} (h : ∀ x ∈ scores, S.member x = true) :
    S.member (S.sum scores) = true ∧ S.lift (S.sum scores) = (scores.map S.lift).sum := by
  obtain ⟨hsum, hlift⟩ := foldl_plus_mem h IsSemiring.zero_mem
  rw [lift_zero, zero_add] at hlift
  exact ⟨hsum, hlift⟩

/-- A member is the sum of some members if it is that of their values. -/
theorem eq_sum_iff {scores : List α} (h : ∀ x ∈ scores, S.member x = true)
    (ha : S.member a = true) : a = S.sum scores ↔ S.lift a = (scores.map S.lift).sum := by
  obtain ⟨hsum, hlift⟩ := sum_mem h
  rw [← lift_inj ha hsum, hlift]

theorem foldl_times_mem {scores : List α} (h : ∀ x ∈ scores, S.member x = true)
    (ha : S.member a = true) : S.member (scores.foldl S.times a) = true ∧
      S.lift (scores.foldl S.times a) = S.lift a * (scores.map S.lift).prod := by
  induction scores generalizing a with
  | nil => exact ⟨ha, by simp⟩
  | cons x xs ih =>
    have hx := h x List.mem_cons_self
    obtain ⟨hmem, hlift⟩ := ih (fun y hy => h y (List.mem_cons_of_mem _ hy))
      (IsSemiring.times_mem ha hx)
    refine ⟨hmem, ?_⟩
    rw [List.foldl_cons, hlift, lift_times ha hx, List.map_cons, List.prod_cons, mul_assoc]

end Lift

/-! ## Zero -/

section Zero

variable {S : ScoreAlgebra π α} [S.IsCommSemiring] {a b : α}

theorem nonZero_iff (ha : S.member a = true) : S.NonZero a ↔ a ≠ S.zero := by
  rw [NonZero, ← Bool.not_eq_true, IsSemiring.eq_iff ha IsSemiring.zero_mem]

/-- In an exact commutative algebra in which one is not zero, zero arises only where it has to. -/
theorem positive (h : S.one ≠ S.zero) : S.Positive fun a => S.member a = true := by
  have hone_plus : ∀ {a}, S.member a = true → S.plus S.one a ≠ S.zero := fun ha hzero =>
    h (IsCommSemiring.eq_zero_of_plus IsSemiring.one_mem ha hzero).1
  refine ⟨IsSemiring.zero_mem, IsSemiring.one_mem, IsSemiring.plus_mem, IsSemiring.times_mem,
    IsSemiring.star_mem, ?_, ?_, fun ha hb => ?_, fun ha hb => ?_, fun ha => ?_⟩
  · rw [nonZero_iff IsSemiring.zero_mem]
    exact not_not_intro rfl
  · rwa [nonZero_iff IsSemiring.one_mem]
  · rw [nonZero_iff ha, nonZero_iff hb, nonZero_iff (IsSemiring.plus_mem ha hb), ← not_and_or,
      not_iff_not]
    constructor
    · exact IsCommSemiring.eq_zero_of_plus ha hb
    · rintro ⟨rfl, rfl⟩
      exact IsSemiring.zero_plus ha
  · rw [nonZero_iff ha, nonZero_iff hb, nonZero_iff (IsSemiring.times_mem ha hb), ← not_or,
      not_iff_not]
    constructor
    · exact IsCommSemiring.eq_zero_of_times ha hb
    · rintro (rfl | rfl)
      · exact IsSemiring.zero_times hb
      · exact IsSemiring.times_zero ha
  · rw [nonZero_iff (IsSemiring.star_mem ha), IsCommSemiring.star_eq ha]
    exact hone_plus (IsSemiring.times_mem ha (IsSemiring.star_mem ha))

end Zero

end ScoreAlgebra

end SemiringParsing
