import Mathlib.Tactic.Ring
import SemiringParsing.Chart.State
import SemiringParsing.Proofs.Tree.Inside

/-!
# The recurrence of a chart and its solution

`Grammar.Composed` says how the value of an item comes from the values of shorter ones: from the
one before its dot and the inner value of what stands between. In `Grammar.Recurrence` the two
kinds of values are the same. Neither determines the values of the items that have nothing before
the dot, and these need not be those of the rules. A rule that was not predicted, since nothing that
scores more than zero leads to it, has the value zero.

Without cycles of unit productions the recurrence has one solution (`Composed.weighs`). The
value of an item is that of the item with nothing before the dot, times what all forests over its
stretch of tokens weigh.
-/

namespace SemiringParsing

variable {π α τ : Type} [Number π]

/-- The values of items are composed of those of shorter ones and the inner values of what stands
between. -/
structure Grammar.Composed (G : Grammar π) (S : ScoreAlgebra π α) [S.IsSemiring]
    (options : ParseOptions τ α) (tokens : List (Token τ)) (value inner : Item → S.Members) :
    Prop where
  /-- Only items with nothing before the dot match no token. -/
  matched : ∀ i, value i ≠ 0 → i.origin ≤ i.position ∧ (i.dot = 0 ↔ i.origin = i.position)
  /-- Where a nonterminal is expected its rules have their scores. -/
  offered : ∀ {production q : Production} {position origin dot : Nat} {name : String},
    production.right[dot]? = some (.nonterminal name) → q ∈ G.productionsFor name →
    value ⟨production, position, origin, dot⟩ * inner ⟨q, position, position, 0⟩ =
      value ⟨production, position, origin, dot⟩ * S.lift (G.score S q)
  scanned : ∀ {production : Production} {position origin dot : Nat} {category : Category},
    production.right[dot]? = some category → (∀ name, category ≠ .nonterminal name) →
    category ≠ .start → value ⟨production, position + 1, origin, dot + 1⟩ =
      if (tokens[position]?.any (·.isA category)) = true then
        value ⟨production, position, origin, dot⟩ * tokenWeight S options tokens position
      else 0
  completed : ∀ {production : Production} {position origin dot : Nat} {name : String},
    production.right[dot]? = some (.nonterminal name) →
    value ⟨production, position, origin, dot + 1⟩ =
      ∑ k ∈ Finset.range position, ∑ q ∈ G.productionsFor name,
        value ⟨production, k, origin, dot⟩ * inner ⟨q, position, k, q.length⟩

/-- The values of items are made up of those of shorter ones. -/
structure Grammar.Recurrence (G : Grammar π) (S : ScoreAlgebra π α) [S.IsSemiring]
    (options : ParseOptions τ α) (tokens : List (Token τ)) (value : Item → S.Members) : Prop
    extends G.Composed S options tokens value value where
  top : value ⟨G.topRule.toProduction, 0, 0, 0⟩ = 1

namespace Grammar

variable {G : Grammar π} {S : ScoreAlgebra π α} [S.IsCommSemiring] {options : ParseOptions τ α}
  {tokens : List (Token τ)} {value inner : Item → S.Members} {production : Production}
  {i j dot : Nat} {category : Category}

namespace Composed

variable (G options tokens value) in
/-- The value of an item is that with nothing before the dot, times what the forests over its
tokens weigh. -/
def Weighs (production : Production) (i dot j : Nat) : Prop :=
  value ⟨production, j, i, dot⟩ = value ⟨production, i, i, 0⟩ *
    G.inside tokens S (production.right.take dot) i j * tokensWeight S options tokens i j

theorem value_eq_zero (h : G.Composed S options tokens value inner) {item : Item}
    (hitem : ¬ (item.origin ≤ item.position ∧ (item.dot = 0 ↔ item.origin = item.position))) :
    value item = 0 := by
  by_contra hne
  exact hitem (h.matched item hne)

theorem weighs_zero (h : G.Composed S options tokens value inner) (production : Production)
    (i j : Nat) : Weighs G options tokens value production i 0 j := by
  rw [Weighs, List.take_zero, inside_nil]
  by_cases hij : i = j
  · subst hij
    rw [if_pos rfl, tokensWeight_self, mul_one, mul_one]
  · have hzero : value ⟨production, j, i, 0⟩ = 0 :=
      h.value_eq_zero fun hmatched => hij (hmatched.2.1 rfl)
    rw [hzero, if_neg hij, mul_zero, zero_mul]

/-- Nothing is matched by no tokens. -/
theorem weighs_of_le (h : G.Composed S options tokens value inner) (hle : j ≤ i) (hdot : dot ≠ 0)
    (hlength : dot ≤ production.length) : Weighs G options tokens value production i dot j := by
  have hform : production.right.take dot ≠ [] := by
    rw [Ne, List.take_eq_nil_iff, not_or]
    refine ⟨hdot, fun hnil => hdot ?_⟩
    rw [Production.length, hnil, List.length_nil] at hlength
    exact Nat.le_zero.1 hlength
  have hinside : G.inside tokens S (production.right.take dot) i j = 0 := by
    rcases Nat.lt_or_eq_of_le hle with hlt | rfl
    · exact inside_eq_zero hlt
    · exact inside_self hform
  have hzero : value ⟨production, j, i, dot⟩ = 0 := by
    refine h.value_eq_zero fun hmatched => hdot (hmatched.2.2 ?_)
    exact Nat.le_antisymm hmatched.1 hle
  rw [Weighs, hzero, hinside, mul_zero, zero_mul]

/-- Moving the dot over a token. -/
theorem weighs_scanned (h : G.Composed S options tokens value inner) (hacyclic : G.UnitAcyclic)
    (hcategory : production.right[dot]? = some category)
    (hname : ∀ name, category ≠ .nonterminal name) (hstart : category ≠ .start)
    (hbefore : ∀ k < j, Weighs G options tokens value production i dot k) :
    Weighs G options tokens value production i (dot + 1) j := by
  have hlength : dot + 1 ≤ production.length := (List.getElem?_eq_some_iff.1 hcategory).1
  rcases Nat.lt_or_ge i j with hij | hij
  · obtain ⟨k, rfl⟩ : ∃ k, j = k + 1 := ⟨j - 1, by omega⟩
    have hread : G.inside tokens S (production.right.take dot ++ [category]) i (k + 1) =
        G.inside tokens S (production.right.take dot) i k *
          if (tokens[k]?.any (·.isA category)) = true then 1 else 0 := by
      rw [inside_concat hacyclic, Finset.sum_eq_single k]
      · simp [inside_terminal hname]
      · intro k' _ hne
        simp [inside_terminal hname, Ne.symm hne]
      · exact fun hk => absurd (Finset.self_mem_range_succ k) hk
    rw [Weighs, Production.take_add_one hcategory, hread, h.scanned hcategory hname hstart,
      hbefore k (Nat.lt_succ_self k), tokensWeight_succ (by omega)]
    split
    · ring
    · ring
  · exact h.weighs_of_le hij (Nat.succ_ne_zero dot) hlength

/-- The rules of a nonterminal that is expected weigh what its trees weigh. -/
theorem sum_productionsFor (h : G.Composed S options tokens value inner) (hacyclic : G.UnitAcyclic)
    {name : String} (hcategory : production.right[dot]? = some (.nonterminal name)) {k : Nat}
    (htrees : ∀ q ∈ G.productionsFor name, Weighs G options tokens inner q k q.length j) :
    ∑ q ∈ G.productionsFor name,
        value ⟨production, k, i, dot⟩ * inner ⟨q, j, k, q.length⟩ =
      value ⟨production, k, i, dot⟩ *
        (G.inside tokens S [.nonterminal name] k j * tokensWeight S options tokens k j) := by
  rw [inside_nonterminal hacyclic, Finset.sum_mul, Finset.mul_sum]
  refine Finset.sum_congr rfl fun q hq => ?_
  have htake : q.right.take q.length = q.right := List.take_length
  have hweighs := htrees q hq
  rw [Weighs, htake] at hweighs
  calc value ⟨production, k, i, dot⟩ * inner ⟨q, j, k, q.length⟩
      = value ⟨production, k, i, dot⟩ * inner ⟨q, k, k, 0⟩ *
          (G.inside tokens S q.right k j * tokensWeight S options tokens k j) := by
        rw [hweighs]
        ring
    _ = _ := by
        rw [h.offered hcategory hq]
        ring

/-- Moving the dot over a nonterminal. -/
theorem weighs_completed (h : G.Composed S options tokens value inner) (hacyclic : G.UnitAcyclic)
    {name : String} (hcategory : production.right[dot]? = some (.nonterminal name))
    (hbefore : ∀ k < j, Weighs G options tokens value production i dot k)
    (htrees : ∀ k < j, i ≤ k → (k = i → dot = 0) → ∀ q ∈ G.productionsFor name,
      Weighs G options tokens inner q k q.length j) :
    Weighs G options tokens value production i (dot + 1) j := by
  rw [Weighs, Production.take_add_one hcategory, h.completed hcategory, inside_concat hacyclic,
    Finset.mul_sum, Finset.sum_mul]
  refine Finset.sum_congr rfl fun k hk => ?_
  have hkj := Finset.mem_range.1 hk
  have hsum : ∑ q ∈ G.productionsFor name,
      value ⟨production, k, i, dot⟩ * inner ⟨q, j, k, q.length⟩ = value ⟨production, k, i, dot⟩ *
        (G.inside tokens S [.nonterminal name] k j * tokensWeight S options tokens k j) := by
    by_cases hzero : value ⟨production, k, i, dot⟩ = 0
    · -- Where nothing is matched the rules need not weigh what they should.
      simp only [hzero, zero_mul, Finset.sum_const_zero]
    · obtain ⟨hik, hdot⟩ := h.matched _ hzero
      exact h.sum_productionsFor hacyclic hcategory
        (htrees k hkj hik fun heq => hdot.2 heq.symm)
  rcases Nat.lt_or_ge k i with hki | hik
  · have hzero : value ⟨production, k, i, dot⟩ = 0 :=
      h.value_eq_zero fun hmatched => Nat.not_le_of_gt hki hmatched.1
    rw [hsum, hzero, inside_eq_zero hki, zero_mul, zero_mul, mul_zero, zero_mul]
  · have hweighs := hbefore k hkj
    rw [Weighs] at hweighs
    rw [hsum, hweighs, ← tokensWeight_mul hik (Nat.le_of_lt hkj)]
    ring

/-- Moving the dot over any category. -/
theorem weighs_succ (h : G.Composed S options tokens value inner) (hacyclic : G.UnitAcyclic)
    (hcategory : production.right[dot]? = some category) (hstart : category ≠ .start)
    (hbefore : ∀ k < j, Weighs G options tokens value production i dot k)
    (htrees : ∀ name, category = .nonterminal name → ∀ k < j, i ≤ k → (k = i → dot = 0) →
      ∀ q ∈ G.productionsFor name, Weighs G options tokens inner q k q.length j) :
    Weighs G options tokens value production i (dot + 1) j := by
  by_cases hname : ∃ name, category = .nonterminal name
  · obtain ⟨name, rfl⟩ := hname
    exact h.weighs_completed hacyclic hcategory hbefore (htrees name rfl)
  · exact h.weighs_scanned hacyclic hcategory (fun name heq => hname ⟨name, heq⟩) hstart hbefore

/-- Over short stretches of tokens, if completed rules over them do so. -/
theorem weighs_of_completed (h : G.Composed S options tokens inner inner) (hacyclic : G.UnitAcyclic)
    {n : Nat} (hcompleted : ∀ name i j, j - i < n → ∀ q ∈ G.productionsFor name,
      Weighs G options tokens inner q i q.length j)
    (hstart : .start ∉ production.right) (hlt : j - i < n) (hlength : dot ≤ production.length) :
    Weighs G options tokens inner production i dot j := by
  induction dot generalizing j with
  | zero => exact h.weighs_zero production i j
  | succ dot ih =>
    have hcategory : production.right[dot]? = some production.right[dot] :=
      List.getElem?_eq_getElem hlength
    refine h.weighs_succ hacyclic hcategory (fun heq => hstart ?_) (fun k hk => ih ?_ ?_) ?_
    · exact heq ▸ List.getElem_mem hlength
    · omega
    · omega
    · intro name _ k hk hik _ q hq
      exact hcompleted name k j (by omega) q hq

/-- Completed rules weigh what the forests below them weigh. -/
theorem weighs_length (h : G.Composed S options tokens inner inner) (hacyclic : G.UnitAcyclic) :
    ∀ name i j, ∀ q ∈ G.productionsFor name, Weighs G options tokens inner q i q.length j := by
  refine hacyclic.induction fun name i j ihLength ihUnit q hq => ?_
  obtain ⟨⟨r, hr, rfl⟩, hleft⟩ := mem_productionsFor.1 hq
  have hpos : 0 < r.length := length_pos hr
  have hstart : .start ∉ r.right := start_notMem_right hr
  rcases Nat.lt_or_ge i j with hij | hji
  · obtain ⟨dot, hdot⟩ : ∃ dot, r.length = dot + 1 := ⟨r.length - 1, by omega⟩
    have hlt : dot < r.right.length := by
      have : r.right.length = dot + 1 := hdot
      omega
    have hcategory : r.right[dot]? = some r.right[dot] := List.getElem?_eq_getElem hlt
    rw [hdot]
    refine h.weighs_succ hacyclic hcategory (fun heq => hstart ?_) (fun k hk => ?_) ?_
    · exact heq ▸ List.getElem_mem hlt
    · exact h.weighs_of_completed hacyclic ihLength hstart (by omega) (by rw [hdot]; omega)
    · intro name' hname' k hk hik hzero q' hq'
      rcases Nat.lt_or_eq_of_le hik with hlt | rfl
      · exact ihLength name' k j (by omega) q' hq'
      · -- Only a unit production goes over all tokens at once.
        obtain rfl := hzero rfl
        have hright : r.right = [.nonterminal name'] := by
          obtain ⟨category, hone⟩ := List.length_eq_one_iff.1 hdot
          simp only [hone, List.getElem_singleton] at hname'
          rw [hone, hname']
        exact ihUnit name' (unitStep_iff.2 ⟨r, hr, hleft, hright⟩) q' hq'
  · exact h.weighs_of_le hji (Nat.ne_of_gt hpos) (Nat.le_refl _)

/-- **The solution of the recurrence.** The value of an item is that with nothing before the dot, times
what all forests over its tokens weigh. -/
theorem weighs (h : G.Composed S options tokens value inner)
    (hinner : G.Composed S options tokens inner inner) (hacyclic : G.UnitAcyclic)
    (hstart : .start ∉ production.right) (hlength : dot ≤ production.length) :
    Weighs G options tokens value production i dot j := by
  induction dot generalizing j with
  | zero => exact h.weighs_zero production i j
  | succ dot ih =>
    have hcategory : production.right[dot]? = some production.right[dot] :=
      List.getElem?_eq_getElem hlength
    refine h.weighs_succ hacyclic hcategory (fun heq => hstart ?_) (fun k _ => ?_) ?_
    · exact heq ▸ List.getElem_mem hlength
    · exact ih (Nat.le_of_succ_le hlength)
    · exact fun name _ k _ _ _ => hinner.weighs_length hacyclic name k j

end Composed

/-- The start symbol matched by all tokens has as its value what
all its derivation trees weigh. -/
theorem Recurrence.value_goal (h : G.Recurrence S options tokens value) (hacyclic : G.UnitAcyclic) (j : Nat) :
    value ⟨G.topRule.toProduction, j, 0, 1⟩ =
      G.inside tokens S [.nonterminal G.start] 0 j * tokensWeight S options tokens 0 j := by
  have hweighs : Composed.Weighs G options tokens value G.topRule.toProduction 0 1 j :=
    h.toComposed.weighs h.toComposed hacyclic (by simp) (Nat.le_refl 1)
  rw [Composed.Weighs, h.top, one_mul] at hweighs
  exact hweighs

end Grammar

end SemiringParsing
