import SemiringParsing.Proofs.Number.Exact
import SemiringParsing.Proofs.Sweep.Links

/-!
# The packed forest

The links of a chart are a forest in which derivations share what they have in common. `Packs`
says of one record that its links are all the ways in which its dot can have come to where it is,
and no others. Every record of a chart that a parse returns is packed (`packs_of_parse`), whatever
the grammar, the input and the algebra, and whether or not the forest is cyclic.
-/

namespace SemiringParsing

variable {π α τ : Type}

/-! ## The packed forest -/

namespace Chart

/-- The number is that of an item. -/
def Stores (c : Chart π α) (id : StateId) (i : Item) : Prop :=
  ∃ r, c.record? id = some r ∧ r.state.item = i

/-- The number is that of a completed state with a left side, between two positions. -/
def Completes (c : Chart π α) (id : StateId) (left : Category) (origin position : Nat) : Prop :=
  ∃ r, c.record? id = some r ∧ r.state.isCompleted = true ∧ r.state.rule.left = left ∧
    r.state.origin = origin ∧ r.state.position = position

/-- The links of a record are all the ways to put its dot where it is. -/
structure Packs (c : Chart π α) (id : StateId) (r : Record π α) : Prop where
  /-- A dot in front has not been moved. -/
  front : r.state.dot = 0 → r.links = []
  /-- A dot behind anything but a nonterminal was moved by a token, in one way. -/
  scanned : ∀ dot category, r.state.dot = dot + 1 → r.state.rule.categoryAt? dot = some category →
    (∀ name, category ≠ .nonterminal name) →
    ∃ w before, r.state.position = before + 1 ∧
      c.Stores w ⟨r.state.rule.toProduction, before, r.state.origin, dot⟩ ∧
      r.links = [.scanned w]
  /-- A dot behind a nonterminal was moved in at least one way. Each is that a state waited for the
  nonterminal where a completed one began, and the links are all of these. -/
  completed : ∀ dot name, r.state.dot = dot + 1 →
    r.state.rule.categoryAt? dot = some (.nonterminal name) →
    r.links ≠ [] ∧ r.links.Nodup ∧ ∀ link, link ∈ r.links ↔ ∃ w child middle,
      link = .completed w child ∧
      c.Stores w ⟨r.state.rule.toProduction, middle, r.state.origin, dot⟩ ∧
      c.Completes child (.nonterminal name) middle r.state.position
  /-- The first way was found from records that were there before. -/
  head : ∀ link, r.links.head? = some link →
    link.predecessor < id ∧ ∀ child, link.completed? = some child → child < id

end Chart

namespace Parser

variable [Number π] {p : Parser π α} {tokens : List (Token τ)} {options : ParseOptions τ α}
  {c : Chart π α} {id : StateId} {r : Record π α} {s : State π}

/-- A link that leads to a state tells of a token or of a completed state, as the category that the
dot was moved over says. -/
theorem LeadsTo.link_cases {link : Link} {dot : Nat} {category : Category}
    (h : p.LeadsTo tokens c id s (some link))
    (hc : ∀ id r, c.record? id = some r → p.grammar.Admits r.state) (hdot : s.dot = dot + 1)
    (hcategory : s.rule.categoryAt? dot = some category) :
    ((∀ name, category ≠ .nonterminal name) ∧ ∃ w before, s.position = before + 1 ∧
      link = .scanned w ∧ c.Stores w ⟨s.rule.toProduction, before, s.origin, dot⟩) ∨
    ((∃ name, category = .nonterminal name) ∧ ∃ w child middle, link = .completed w child ∧
      c.Stores w ⟨s.rule.toProduction, middle, s.origin, dot⟩ ∧
      c.Completes child category middle s.position) := by
  cases h with
  | @complete waiting _ w r _ hw hr hcompleted hposition hactive hnext =>
    obtain ⟨hrule, hs, horigin, hdot'⟩ := State.advance_eq_some_iff.1 hnext
    obtain rfl : w.state.dot = dot := by omega
    rw [hrule] at hcategory
    have hleft : category = r.state.rule.left := Option.some.inj (hcategory.symm.trans hactive)
    refine .inr ⟨?_, waiting, id, r.state.origin, rfl, ⟨w, hw, ?_⟩,
      r, hr, hcompleted, hleft.symm, rfl, hs.symm⟩
    · rw [hleft]
      exact Grammar.left_eq_nonterminal ((hc _ _ hr).mem_rules_of_active? (hc _ _ hw) hactive)
    · rw [State.item, hrule, horigin, hposition]
  | @scan _ r token category' _ hr htoken hactive hisA hnext =>
    obtain ⟨hrule, hs, horigin, hdot'⟩ := State.advance_eq_some_iff.1 hnext
    obtain rfl : r.state.dot = dot := by omega
    rw [hrule] at hcategory
    obtain rfl : category = category' := Option.some.inj (hcategory.symm.trans hactive)
    refine .inl ⟨?_, id, r.state.position, hs, rfl, r, hr, ?_⟩
    · rintro name rfl
      simp [Token.isA] at hisA
    · rw [State.item, hrule, horigin]

namespace Finished

/-- A waiting state and a completed one behind it have moved the dot. -/
theorem completed_mem_links (h : p.Finished tokens c) (hr : c.record? id = some r) {dot : Nat}
    {category : Category} (hdot : r.state.dot = dot + 1)
    (hcategory : r.state.rule.categoryAt? dot = some category) {w child : StateId} {middle : Nat}
    (hw : c.Stores w ⟨r.state.rule.toProduction, middle, r.state.origin, dot⟩)
    (hchild : c.Completes child category middle r.state.position) :
    .completed w child ∈ r.links := by
  obtain ⟨waiting, hwaiting, hitem⟩ := hw
  obtain ⟨completed, hcompleted, hdone, hleft, horigin, hposition⟩ := hchild
  simp only [State.item, Item.mk.injEq] at hitem
  obtain ⟨hproduction, hmiddle, hwaitingOrigin, hwaitingDot⟩ := hitem
  have hactive : waiting.state.active? = some completed.state.rule.left := by
    rw [State.active?, hproduction, hwaitingDot, hleft]
    exact hcategory
  have hle : waiting.state.position ≤ completed.state.position := by
    have := completed.state.origin_le
    omega
  obtain ⟨next, hnext⟩ := State.exists_advance hactive hle
  have hleads : p.LeadsTo tokens c child next (some (.completed w child)) :=
    .complete hwaiting hcompleted hdone (hmiddle.trans horigin.symm) hactive hnext
  obtain ⟨hrule, hnextPosition, hnextOrigin, hnextDot⟩ := State.advance_eq_some_iff.1 hnext
  have hnextItem : next.item = r.state.item := by
    simp only [State.item, Item.mk.injEq]
    refine ⟨?_, hnextPosition.trans hposition, hnextOrigin.trans hwaitingOrigin, by omega⟩
    rw [hrule, hproduction]
  obtain ⟨id', r', hr', hstate, hlink⟩ := h.holds hleads
  obtain rfl : id' = id := h.indexed.id_unique hr' hr (hstate ▸ hnextItem)
  obtain rfl : r' = r := Option.some.inj (hr'.symm.trans hr)
  exact hlink _ rfl

theorem packs (h : p.Finished tokens c) (hr : c.record? id = some r) : c.Packs id r := by
  have hlinked := h.linked id r hr
  have hne : ∀ dot, r.state.dot = dot + 1 → r.links ≠ [] := by
    intro dot hdot hnil
    have := hlinked.eq_nil_iff.1 hnil
    omega
  refine ⟨hlinked.eq_nil_iff.2, fun dot category hdot hcategory hname => ?_,
    fun dot name hdot hcategory => ⟨hne dot hdot, hlinked.nodup, fun link => ⟨fun hlink => ?_, ?_⟩⟩,
    hlinked.head_lt⟩
  · have hscanned : ∀ link ∈ r.links, ∃ w before, r.state.position = before + 1 ∧
        link = .scanned w ∧
        c.Stores w ⟨r.state.rule.toProduction, before, r.state.origin, dot⟩ := by
      intro link hlink
      obtain ⟨_, hleads⟩ := hlinked.leadsTo link hlink
      rcases hleads.link_cases h.admits hdot hcategory with ⟨-, hw⟩ | ⟨⟨name, hcontra⟩, -⟩
      · exact hw
      · exact absurd hcontra (hname name)
    obtain ⟨first, links, hlinks⟩ := List.exists_cons_of_ne_nil (hne dot hdot)
    rw [hlinks] at hscanned
    obtain ⟨w, before, hposition, rfl, hw⟩ := hscanned first List.mem_cons_self
    refine ⟨w, before, hposition, hw, ?_⟩
    -- Any further link would be the same, but no link is there twice.
    rw [hlinks, List.cons.injEq]
    refine ⟨rfl, List.eq_nil_iff_forall_not_mem.2 fun link hlink => ?_⟩
    obtain ⟨w', before', hposition', rfl, hw'⟩ := hscanned link (List.mem_cons_of_mem _ hlink)
    obtain rfl : before' = before := by omega
    obtain ⟨waiting, hwaiting, hitem⟩ := hw
    obtain ⟨waiting', hwaiting', hitem'⟩ := hw'
    obtain rfl : w' = w := h.indexed.id_unique hwaiting' hwaiting (hitem'.trans hitem.symm)
    have hnodup := hlinked.nodup
    rw [hlinks, List.nodup_cons] at hnodup
    exact hnodup.1 hlink
  · obtain ⟨_, hleads⟩ := hlinked.leadsTo link hlink
    rcases hleads.link_cases h.admits hdot hcategory with ⟨hcontra, -⟩ | ⟨-, hw⟩
    · exact absurd rfl (hcontra name)
    · exact hw
  · rintro ⟨w, child, middle, rfl, hw, hchild⟩
    exact h.completed_mem_links hr hdot hcategory hw hchild

end Finished

/-- **The links are exactly the packed forest**, in every chart that a parse returns. -/
theorem packs_of_parse {fuel : Nat} {result : ParseResult π α}
    (h : p.parse options fuel tokens = some result) (hr : result.chart.record? id = some r) :
    result.chart.Packs id r :=
  (finished_of_parse h).packs hr

/-- In the parse of a unit cycle a state has two links, the second to a later record. -/
theorem packs_of_parse_unitCycle : ∃ result id r,
    (Parser.new Examples.unitCycleGrammar .viterbi).parse {} 20 [Token.literal "x"] = some result ∧
      result.chart.record? id = some r ∧ r.links.length = 2 ∧
      (∃ link ∈ r.links, ∃ child, link.completed? = some child ∧ id < child) ∧
      result.chart.Packs id r := by
  have hparse : ((Parser.new Examples.unitCycleGrammar .viterbi).parse {} 20
      [Token.literal "x"]).any (fun result => (List.range result.chart.size).any fun id =>
        (result.chart.record? id).any fun r => r.links.length == 2 &&
          r.links.any fun link => link.completed?.any fun child => decide (id < child)) = true := by
    decide +kernel
  simp only [Option.any_eq_true, List.any_eq_true, Bool.and_eq_true, beq_iff_eq,
    decide_eq_true_eq] at hparse
  obtain ⟨result, hresult, id, -, r, hr, hlength, hforward⟩ := hparse
  exact ⟨result, id, r, hresult, hr, hlength, hforward, packs_of_parse hresult hr⟩

end Parser

end SemiringParsing
