import Mathlib.Data.List.Basic
import SemiringParsing.Names

/-!
# The order of names

Names are ordered by code points. That is the order of their UTF-8 bytes (`Names.lt_iff_bytes_lt`).
The lead bytes of longer encodings are larger, and within an encoding the digits come from the most
significant on, so that the encodings of two characters differ in a byte that decides, before either
of them ends.
-/

namespace SemiringParsing

namespace Names

/-- The UTF-8 bytes of a name. -/
def bytes (name : String) : List UInt8 :=
  name.toByteArray.data.toList

theorem bytes_eq (name : String) : bytes name = name.toList.flatMap String.utf8EncodeChar := by
  rw [bytes, ← String.utf8Encode_toList, List.utf8Encode, List.data_toByteArray]

/-- The bytes of a smaller character are smaller, whatever follows. -/
theorem utf8EncodeChar_append_lt {c d : Char} (h : c < d) (xs ys : List UInt8) :
    String.utf8EncodeChar c ++ xs < String.utf8EncodeChar d ++ ys := by
  have hlt : c.val.toNat < d.val.toNat := UInt32.lt_iff_toNat_lt.1 (Char.lt_def.1 h)
  have hmax : d.val.toNat < 0x110000 := by
    rcases d.valid with hd | ⟨-, hd⟩ <;> omega
  unfold String.utf8EncodeChar
  dsimp only
  generalize c.val.toNat = m at hlt ⊢
  generalize d.val.toNat = n at hlt hmax ⊢
  -- No byte overflows.
  have hcontinue : ∀ k, (k % 64 + 128) % 2 ^ 8 = k % 64 + 128 := by omega
  have hlead₂ : ∀ k, (k % 32 + 192) % 2 ^ 8 = k % 32 + 192 := by omega
  have hlead₃ : ∀ k, (k % 16 + 224) % 2 ^ 8 = k % 16 + 224 := by omega
  have hlead₄ : ∀ k < 0x110000, (k / 262144 % 8 + 240) % 2 ^ 8 = k / 262144 + 240 := by omega
  -- Of six binary digits at a time the first ones that differ decide.
  have h₁ : m / 64 < n / 64 ∨ m / 64 = n / 64 ∧ m % 64 < n % 64 := by omega
  have h₂ : m / 4096 < n / 4096 ∨ m / 4096 = n / 4096 ∧ m / 64 % 64 ≤ n / 64 % 64 := by omega
  have h₃ : m / 262144 < n / 262144 ∨
      m / 262144 = n / 262144 ∧ m / 4096 % 64 ≤ n / 4096 % 64 := by omega
  split_ifs <;>
    simp only [List.cons_append, List.nil_append, List.cons_lt_cons_iff, UInt8.lt_iff_toNat_lt,
      ← UInt8.toNat_inj, UInt8.toNat_ofNat', hcontinue, hlead₂, hlead₃,
      hlead₄ m (Nat.lt_trans hlt hmax), hlead₄ n hmax] <;>
    omega

theorem flatMap_utf8EncodeChar_lt {cs ds : List Char} (h : cs < ds) :
    cs.flatMap String.utf8EncodeChar < ds.flatMap String.utf8EncodeChar := by
  induction h with
  | @nil d ds =>
    rw [List.flatMap_nil, List.flatMap_cons]
    cases hbytes : String.utf8EncodeChar d ++ ds.flatMap String.utf8EncodeChar with
    | nil => exact absurd (List.append_eq_nil_iff.1 hbytes).1 (String.utf8EncodeChar_ne_nil)
    | cons => exact .nil
  | rel hlt => exact utf8EncodeChar_append_lt hlt _ _
  | cons _ ih => exact List.append_left_lt ih

/-- **Names are ordered by their bytes.** -/
theorem lt_iff_bytes_lt {x y : String} : x < y ↔ bytes x < bytes y := by
  have hlt : ∀ {x y : String}, x < y → bytes x < bytes y := by
    intro x y h
    rw [bytes_eq, bytes_eq]
    exact flatMap_utf8EncodeChar_lt h
  refine ⟨hlt, fun h => ?_⟩
  by_contra hnot
  by_cases heq : y = x
  · exact Std.lt_irrefl (heq ▸ h)
  · exact Std.lt_irrefl (Std.lt_trans h (hlt (Std.lt_of_le_of_ne (Std.not_lt.1 hnot) heq)))

/-- Searching sorted names finds the least one with a property, in the order of their bytes. -/
theorem find?_sorted_eq_some {xs : List String} {p : String → Bool} {x : String} :
    (sorted xs).find? p = some x ↔
      x ∈ xs ∧ p x = true ∧ ∀ y ∈ xs, p y = true → bytes x ≤ bytes y := by
  have hle : ∀ {y}, bytes x ≤ bytes y ↔ ¬ y < x := fun {y} => by
    rw [lt_iff_bytes_lt, Std.not_lt]
  simp only [hle]
  rw [List.find?_eq_some_iff_append]
  have hsorted := pairwise_sorted xs
  constructor
  · rintro ⟨hx, before, after, heq, hbefore⟩
    rw [heq, List.pairwise_append, List.pairwise_cons] at hsorted
    have hmem : x ∈ sorted xs := heq ▸ List.mem_append_right _ List.mem_cons_self
    refine ⟨mem_sorted.1 hmem, hx, fun y hy hpy => ?_⟩
    have hmem : y ∈ before ++ x :: after := heq ▸ mem_sorted.2 hy
    rcases List.mem_append.1 hmem with hy | hy
    · exact absurd hpy (by simpa using hbefore y hy)
    · rcases List.mem_cons.1 hy with rfl | hy
      · exact Std.lt_irrefl
      · exact Std.not_lt.2 (Std.le_of_lt (hsorted.2.1.1 y hy))
  · rintro ⟨hmem, hx, hleast⟩
    obtain ⟨before, after, heq⟩ := List.append_of_mem (mem_sorted.2 hmem)
    rw [heq, List.pairwise_append] at hsorted
    refine ⟨hx, before, after, heq, fun y hy => ?_⟩
    have hy' : y ∈ xs := mem_sorted.1 (heq ▸ List.mem_append_left _ hy)
    have hlt : y < x := hsorted.2.2 y hy x List.mem_cons_self
    by_contra hpy
    exact hleast y hy' (by simpa using hpy) hlt

end Names

end SemiringParsing
