/-!
# Sorted sets of names

A set of names is kept as a strictly increasing list. Names are ordered by code points, which
is the order of their UTF-8 bytes.
-/

namespace SemiringParsing

namespace Names

/-- Inserts a name into an increasing list, unless it is there. -/
def insert (x : String) : List String → List String
  | [] => [x]
  | y :: ys => if x < y then x :: y :: ys else if x = y then y :: ys else y :: insert x ys

/-- The distinct names of a list in increasing order. -/
def sorted (xs : List String) : List String :=
  xs.foldr insert []

@[simp] theorem mem_insert {x z : String} {ys : List String} :
    z ∈ insert x ys ↔ z = x ∨ z ∈ ys := by
  induction ys with
  | nil => simp [insert]
  | cons y ys ih =>
    unfold insert
    split
    · simp
    · split
      · next h => simp [h]
      · simp only [List.mem_cons, ih]
        exact or_left_comm

@[simp] theorem mem_sorted {x : String} {xs : List String} : x ∈ sorted xs ↔ x ∈ xs := by
  induction xs with
  | nil => simp [sorted]
  | cons y ys ih =>
    rw [sorted, List.foldr_cons, mem_insert, List.mem_cons]
    exact or_congr Iff.rfl ih

/-- Inserting keeps a list strictly increasing. -/
theorem pairwise_insert {x : String} {ys : List String} (h : ys.Pairwise (· < ·)) :
    (insert x ys).Pairwise (· < ·) := by
  induction ys with
  | nil => simp [insert]
  | cons y ys ih =>
    obtain ⟨hy, hys⟩ := List.pairwise_cons.1 h
    unfold insert
    split
    · next hxy =>
      exact List.pairwise_cons.2 ⟨fun z hz => (List.mem_cons.1 hz).elim
        (fun e => e ▸ hxy) (fun hz => Std.lt_trans hxy (hy z hz)), h⟩
    · next hxy =>
      split
      · exact h
      · next hne =>
        have hyx : y < x := Std.lt_of_le_of_ne (Std.not_lt.1 hxy) (Ne.symm hne)
        exact List.pairwise_cons.2
          ⟨fun z hz => (mem_insert.1 hz).elim (fun e => e ▸ hyx) (hy z), ih hys⟩

/-- The sorted names of a list are strictly increasing. -/
theorem pairwise_sorted (xs : List String) : (sorted xs).Pairwise (· < ·) := by
  induction xs with
  | nil => exact List.Pairwise.nil
  | cons x xs ih => exact pairwise_insert ih

end Names

end SemiringParsing
