import Mathlib.Data.Finset.Prod
import Mathlib.Data.Finset.Union
import SemiringParsing.Proofs.Grammar.Accepted
import SemiringParsing.Chart.State
import SemiringParsing.Token

/-!
# The items of a grammar

At each position there are finitely many items of the rules of a grammar. A chart holds some of
them.
-/

namespace SemiringParsing

namespace Item

/-- The category behind the dot. -/
def active? (i : Item) : Option Category :=
  i.production.right[i.dot]?

/-- Whether the token behind the item can be read as what it expects. -/
def reads {τ : Type} (tokens : List (Token τ)) (i : Item) : Bool :=
  tokens[i.position]?.any fun token => i.active?.any token.isA

theorem reads_iff {τ : Type} {tokens : List (Token τ)} {i : Item} : i.reads tokens = true ↔
    ∃ token category, tokens[i.position]? = some token ∧ i.active? = some category ∧
      token.isA category = true := by
  simp only [reads, Option.any_eq_true]
  constructor
  · rintro ⟨token, htoken, category, hactive, hisA⟩
    exact ⟨token, category, htoken, hactive, hisA⟩
  · rintro ⟨token, category, htoken, hactive, hisA⟩
    exact ⟨token, htoken, category, hactive, hisA⟩

/-- The item behind the next token. -/
def next (i : Item) : Item :=
  ⟨i.production, i.position + 1, i.origin, i.dot + 1⟩

theorem next_injective : Function.Injective next := by
  rintro ⟨q, position, origin, dot⟩ ⟨q', position', origin', dot'⟩ h
  cases h
  rfl

end Item

variable {π : Type} [Number π] {G : Grammar π} {position : Nat} {i : Item}

namespace Grammar

/-- The items that a chart may hold at a position. -/
def items (G : Grammar π) (position : Nat) : Finset Item :=
  ((G.topRule :: G.rules).map Rule.toProduction).toFinset.biUnion fun q =>
    (Finset.range (position + 1) ×ˢ Finset.range (q.length + 1)).image fun x =>
      ⟨q, position, x.1, x.2⟩

/-- Those of them that expect a category. -/
def itemsOn (G : Grammar π) (position : Nat) (category : Category) : Finset Item :=
  (G.items position).filter fun i => i.active? = some category

theorem mem_items : i ∈ G.items position ↔
    (∃ r ∈ G.topRule :: G.rules, r.toProduction = i.production) ∧ i.position = position ∧
      i.origin ≤ position ∧ i.dot ≤ i.production.length := by
  simp only [items, Finset.mem_biUnion, List.mem_toFinset, List.mem_map, Finset.mem_image,
    Finset.mem_product, Finset.mem_range, Nat.lt_succ_iff, Prod.exists]
  constructor
  · rintro ⟨q, hq, origin, dot, ⟨horigin, hdot⟩, rfl⟩
    exact ⟨hq, rfl, horigin, hdot⟩
  · rintro ⟨hq, rfl, horigin, hdot⟩
    exact ⟨i.production, hq, i.origin, i.dot, ⟨horigin, hdot⟩, rfl⟩

theorem mem_itemsOn {category : Category} :
    i ∈ G.itemsOn position category ↔ i ∈ G.items position ∧ i.active? = some category :=
  Finset.mem_filter

/-- The top rule expects no token. -/
theorem production_ne_of_reads {τ : Type} {tokens : List (Token τ)} (h : i.reads tokens = true) :
    i.production ≠ G.topRule.toProduction := by
  intro htop
  obtain ⟨token, category, -, hactive, hisA⟩ := Item.reads_iff.1 h
  rw [Item.active?, htop] at hactive
  have hmem := List.mem_of_getElem? hactive
  rw [right_topRule, List.mem_singleton] at hmem
  rw [hmem] at hisA
  exact Bool.false_ne_true hisA

/-- Something is matched by an item exactly if something stands before its dot, and the top rule is
matched from the beginning. -/
structure Proper (G : Grammar π) (i : Item) : Prop where
  origin_le : i.origin ≤ i.position
  dot_eq_zero_iff : i.dot = 0 ↔ i.origin = i.position
  top : i.production = G.topRule.toProduction → i.origin = 0

/-- The top rule expects something at the beginning only. -/
theorem Proper.eq_top (h : G.Proper i) (htop : i.production = G.topRule.toProduction)
    {category : Category} (hactive : i.active? = some category) :
    i = ⟨G.topRule.toProduction, 0, 0, 0⟩ := by
  have hdot : i.dot = 0 := by
    rw [Item.active?, htop] at hactive
    have hlt := (List.getElem?_eq_some_iff.1 hactive).1
    rw [right_topRule, List.length_singleton] at hlt
    omega
  have horigin := h.top htop
  have hposition := h.dot_eq_zero_iff.1 hdot
  obtain ⟨production, position, origin, dot⟩ := i
  dsimp only at htop hdot horigin hposition
  subst htop hdot hposition horigin
  rfl

end Grammar

end SemiringParsing
