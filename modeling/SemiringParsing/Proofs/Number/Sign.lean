import SemiringParsing.Number.Double
import SemiringParsing.Proofs.Algebra.Guarded
import SemiringParsing.Proofs.Number.Nonneg

/-!
# Doubles keep signs

What is computed from doubles that are zero or more is zero or more, whatever is lost by rounding,
in an overflow or in an underflow. A value that is rounded and packed has the sign it was computed
with (`HasSign.unpack_pack`), and no operation makes `NaN` of operands with a positive sign, except
the product of zero and infinity. Exact numbers keep signs too.
-/

namespace SemiringParsing

open ExtendedNumber

namespace Double

open Float.Model (UnpackedFloat Format)
open Float.Model.UnpackedFloat

/-! ## Signs -/

/-- A value other than `NaN` has a sign, zero included. -/
inductive HasSign (s : Sign) : UnpackedFloat → Prop
  | infinity : HasSign s (.infinity s)
  | zero : HasSign s (.zero s)
  | finite (m : Nat) (e : Int) (hm : 0 < m) : HasSign s (.finite s m e hm)

/-! ## Packing -/

theorem ofBitVec_unpackSign {spec : Format} (s : Sign) (e : BitVec spec.exponentBits)
    (m : BitVec spec.mantissaBitsWithoutImplicit) :
    Sign.ofBitVec (unpackSign (packComponents spec s e m)) = s := by
  have hsign : unpackSign (packComponents spec s e m) = s.toBitVec := by
    ext i hi
    obtain rfl : i = 0 := by omega
    simp [unpackSign, packComponents, BitVec.getLsbD_append, BitVec.getElem_append]
  rw [hsign]
  cases s <;> rfl

/-- Only with the highest exponent, and then with a mantissa, is what is unpacked `NaN`. -/
theorem hasSign_unpack {spec : Format} (s : Sign) {e : BitVec spec.exponentBits}
    {m : BitVec spec.mantissaBitsWithoutImplicit} (h : e ≠ -1#_ ∨ m = 0#_) :
    HasSign s (unpack spec (packComponents spec s e m)) := by
  unfold unpack
  simp only [unpackExponent_packComponents, unpackMantissa_packComponents, ofBitVec_unpackSign]
  split
  · next he =>
    rw [if_pos (h.resolve_left fun hne => hne he)]
    exact .infinity
  · split
    · split
      · exact .zero
      · exact .finite ..
    · exact .finite ..

namespace HasSign

variable {spec : Format} {s : Sign} {x : UnpackedFloat}

/-- Whether a value overflows or is subnormal, it is packed with its sign. -/
theorem unpack_pack (h : HasSign s x) : HasSign s (unpack spec (pack spec x)) := by
  have hexponent := spec.he
  cases h with
  | infinity => exact hasSign_unpack s (.inr rfl)
  | zero => exact hasSign_unpack s (.inr rfl)
  | finite m e hm =>
    unfold pack
    dsimp only
    split
    · exact hasSign_unpack s (.inr rfl)
    · split
      · refine hasSign_unpack s (.inl fun heq => ?_)
        have htoNat := congrArg BitVec.toNat heq
        rw [BitVec.toNat_ofNat, Nat.mod_eq_of_lt (by omega), BitVec.neg_one_eq_allOnes,
          BitVec.toNat_allOnes] at htoNat
        omega
      · refine hasSign_unpack s (.inl fun heq => ?_)
        have htoNat := congrArg BitVec.toNat heq
        simp [BitVec.neg_one_eq_allOnes] at htoNat
        omega

/-- Rounding keeps the sign, even where nothing is left but zero. -/
theorem roundWithAccuracy (s : Sign) (m : Nat) (e : Int) (a : Accuracy) :
    HasSign s (roundWithAccuracy spec s m e a) := by
  unfold UnpackedFloat.roundWithAccuracy
  dsimp only
  split
  · exact .zero
  · exact .finite ..

theorem normalize {m : Int} (hm : 0 ≤ m) (e : Int) :
    HasSign .positive (normalize spec m e .positive) := by
  unfold UnpackedFloat.normalize
  split
  · next h => exact absurd (Int.compare_eq_lt.1 h) (by omega)
  · exact .zero
  · exact roundWithAccuracy ..

end HasSign

/-- Zero of either sign is zero or more. -/
def Nonneg (x : UnpackedFloat) : Prop :=
  HasSign .positive x ∨ x = .zero .negative

/-! ## Operations -/

section Operations

variable {spec : Format} {x y : UnpackedFloat}

theorem Nonneg.unpack_pack (h : Nonneg x) :
    Nonneg (unpack Format.binary64 (pack Format.binary64 x)) := by
  rcases h with h | rfl
  · exact .inl h.unpack_pack
  · exact .inr rfl

theorem Nonneg.add (hx : Nonneg x) (hy : Nonneg y) : Nonneg (add spec x y) := by
  rcases hx with hx | rfl
  · refine .inl ?_
    rcases hy with hy | rfl
    · cases hx with
      | infinity => cases hy <;> exact .infinity
      | zero => cases hy <;> constructor
      | finite m e hm =>
        cases hy with
        | infinity => exact .infinity
        | zero => exact .finite ..
        | finite m' e' hm' =>
          unfold UnpackedFloat.add
          dsimp only [Sign.apply]
          exact .normalize (by omega) _
    · cases hx <;> constructor
  · rcases hy with hy | rfl
    · refine .inl ?_
      cases hy <;> constructor
    · exact .inr rfl

theorem Nonneg.mul (hx : Nonneg x) (hy : Nonneg y) (hxzero : x.beq (.zero .positive) = false)
    (hyzero : y.beq (.zero .positive) = false) : HasSign .positive (mul spec x y) := by
  rcases hx with hx | rfl
  · rcases hy with hy | rfl
    · cases hx with
      | infinity =>
        cases hy with
        | infinity => exact .infinity
        | zero => cases hyzero
        | finite m e hm => exact .infinity
      | zero => cases hxzero
      | finite m e hm =>
        cases hy with
        | infinity => exact .infinity
        | zero => cases hyzero
        | finite m' e' hm' => exact .roundWithAccuracy ..
    · cases hyzero
  · cases hxzero

theorem HasSign.div {m : Nat} {e : Int} {hm : 0 < m} (hx : HasSign .positive x) :
    HasSign .positive (div spec (.finite .positive m e hm) x) := by
  cases hx with
  | infinity => exact .zero
  | zero => exact .infinity
  | finite m' e' hm' => exact .roundWithAccuracy ..

/-- Packed values have at most 53 digits. -/
theorem mantissa_lt {b : BitVec Format.binary64.numBits} {s : Sign} {m : Nat} {e : Int} {hm : 0 < m}
    (h : unpack Format.binary64 b = .finite s m e hm) : m < 2 ^ 53 := by
  unfold unpack at h
  dsimp only at h
  split at h
  · split at h <;> cases h
  · split at h
    · split at h
      · cases h
      · cases h
        exact (BitVec.isLt _).trans (by decide)
    · cases h
      exact BitVec.isLt _

/-- The value one. -/
def one : UnpackedFloat :=
  .finite .positive (2 ^ 52) (-52) (by decide)

/-- What is less than one leaves something of it, since it has no more digits than one has. -/
theorem Nonneg.one_sub {b : BitVec Format.binary64.numBits} (hb : unpack Format.binary64 b = x)
    (hx : Nonneg x) (hlt : x.lt one = true) : HasSign .positive (sub spec one x) := by
  rcases hx with hx | rfl
  · cases hx with
    | infinity => cases hlt
    | zero => exact .finite ..
    | finite m e hm =>
      have hlt : (compare e (-52)).then (compare m (2 ^ 52)) = .lt := by
        simpa [one, UnpackedFloat.lt, UnpackedFloat.compare] using hlt
      have hm := mantissa_lt hb
      have hle : e ≤ -52 ∧ (e = -52 → m ≤ 2 ^ 52) := by
        rcases Ordering.then_eq_lt.1 hlt with hlt | ⟨heq, hlt⟩
        · have := Int.compare_eq_lt.1 hlt
          omega
        · have := Std.compare_eq_iff_eq.1 heq
          have := Nat.compare_eq_lt.1 hlt
          omega
      have hshift : m ≤ 2 ^ 52 <<< (-52 - e).toNat := by
        rw [Nat.shiftLeft_eq]
        cases hk : (-52 - e).toNat with
        | zero => exact hle.2 (by omega)
        | succ k =>
          have := Nat.two_pow_pos k
          omega
      unfold sub one
      dsimp only [Sign.apply, decreaseExponent]
      refine .normalize ?_ _
      rw [min_eq_right hle.1, Int.sub_self, Int.toNat_zero, Nat.shiftLeft_zero]
      omega
  · exact .finite ..

end Operations

/-! ## Values of doubles -/

/-- The value of a double. -/
def value (x : Float) : UnpackedFloat :=
  x.toModel.unpack

theorem lt_eq (x y : Float) : Number.lt x y = (value x).lt (value y) := by
  rw [Bool.eq_iff_iff]
  exact decide_eq_true_iff.trans decide_eq_true_iff

theorem le_eq (x y : Float) : Number.le x y = (value x).le (value y) := by
  rw [Bool.eq_iff_iff]
  exact decide_eq_true_iff.trans decide_eq_true_iff

theorem zero_le_eq (x : UnpackedFloat) :
    (UnpackedFloat.zero .positive).le x = (!x.isNaN && !x.lt (.zero .positive)) := by
  cases x with
  | notANumber => rfl
  | infinity s => cases s <;> rfl
  | zero s => cases s <;> rfl
  | finite s m e hm => cases s <;> rfl

theorem nonneg_iff (x : UnpackedFloat) :
    Nonneg x ↔ x.isNaN = false ∧ x.lt (.zero .positive) = false := by
  constructor
  · rintro (h | rfl)
    · cases h <;> exact ⟨rfl, rfl⟩
    · exact ⟨rfl, rfl⟩
  · rintro ⟨hnumber, hlt⟩
    cases x with
    | notANumber => cases hnumber
    | infinity s =>
      cases s with
      | negative => cases hlt
      | positive => exact .inl .infinity
    | zero s =>
      cases s with
      | negative => exact .inr rfl
      | positive => exact .inl .zero
    | finite s m e hm =>
      cases s with
      | negative => cases hlt
      | positive => exact .inl (.finite m e hm)

theorem isNonneg_iff (x : Float) : isNonneg x = true ↔ Nonneg (value x) := by
  have h : isNonneg x = (!(value x).isNaN && (UnpackedFloat.zero .positive).le (value x)) :=
    congrArg (!(value x).isNaN && ·) (le_eq 0 x)
  rw [h, zero_le_eq, nonneg_iff]
  simp

theorem isNonneg_of_isProbability {p : Float} (h : GrammarError.isProbability p = true) :
    isNonneg p = true := by
  simp only [GrammarError.isProbability, Bool.and_eq_true, Bool.not_eq_true', lt_eq] at h
  rw [isNonneg_iff, nonneg_iff]
  exact h.1

instance : KeepsSign Float where
  isNonneg_zero := by decide
  isNonneg_one := by decide
  isNonneg_infinity := by decide
  isNonneg_negInfinity := by decide
  isNonneg_of_isProbability := isNonneg_of_isProbability
  isNonneg_add ha hb := by
    rw [isNonneg_iff] at ha hb ⊢
    exact (ha.add hb).unpack_pack
  isNonneg_mul ha hb hazero hbzero := by
    rw [isNonneg_iff] at ha hb ⊢
    exact Nonneg.unpack_pack (.inl (ha.mul hb hazero hbzero))
  isNonneg_geometric ha hlt := by
    rw [isNonneg_iff] at ha ⊢
    rw [lt_eq] at hlt
    exact Nonneg.unpack_pack (.inl (ha.one_sub rfl hlt).unpack_pack.div)

end Double

/-! ## Exact numbers -/

namespace Exact

instance : KeepsSign Exact :=
  represents_probability.isSemiring.keepsSign (by decide) (by decide)

end Exact

end SemiringParsing
