/-!
# Agendas

What is still to be done, first come first served. New entries go onto a second list, which is
turned around when the first is used up.
-/

namespace SemiringParsing

/-- A queue of entries. -/
structure Agenda (δ : Type) where
  front : List δ := []
  back : List δ := []

namespace Agenda

variable {δ : Type}

/-- The agenda without entries. -/
def empty : Agenda δ := {}

/-- The entries in the order in which they are due. -/
def toList (a : Agenda δ) : List δ :=
  a.front ++ a.back.reverse

/-- Puts an entry behind all others. -/
def push (a : Agenda δ) (d : δ) : Agenda δ :=
  { a with back := d :: a.back }

/-- Takes out the entry that is due. -/
def pop? (a : Agenda δ) : Option (δ × Agenda δ) :=
  match a.front with
  | d :: front => some (d, { a with front := front })
  | [] =>
    match a.back.reverse with
    | d :: front => some (d, ⟨front, []⟩)
    | [] => none

@[simp] theorem toList_empty : (empty : Agenda δ).toList = [] := rfl

@[simp] theorem toList_push (a : Agenda δ) (d : δ) : (a.push d).toList = a.toList ++ [d] := by
  simp [push, toList]

theorem pop?_eq_none {a : Agenda δ} : a.pop? = none ↔ a.toList = [] := by
  unfold pop? toList
  split
  · next h => simp [h]
  · next h =>
    split
    · next h' => simp [h, h']
    · next h' => simp [h, h']

theorem pop?_eq_some {a b : Agenda δ} {d : δ} (h : a.pop? = some (d, b)) :
    a.toList = d :: b.toList := by
  unfold pop? at h
  split at h
  · next hf =>
    simp only [Option.some.injEq, Prod.mk.injEq] at h
    obtain ⟨rfl, rfl⟩ := h
    simp [toList, hf]
  · next hf =>
    split at h
    · next hb =>
      simp only [Option.some.injEq, Prod.mk.injEq] at h
      obtain ⟨rfl, rfl⟩ := h
      simp [toList, hf, hb]
    · simp at h

end Agenda

end SemiringParsing
