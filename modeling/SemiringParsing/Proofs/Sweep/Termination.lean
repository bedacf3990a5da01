import Mathlib.Logic.Hydra
import SemiringParsing.Proofs.Grammar.UnitRank
import SemiringParsing.Proofs.Sweep.Settling

/-!
# Without cycles of unit productions

Without cycles of unit productions a parse settles, whatever the algebra. What a state leads to at
the same position is lower than the state itself (`LeadsTo.height_lt`). A completed state moves dots
of states that began before it, or completes a rule by itself along a unit production. A state that
predicts leads to predicted ones, which lead to nothing.

So passing on a contribution replaces its height among those on the agenda by lower ones, and this
cannot go on forever. How many contributions there are to a state does not matter.
-/

namespace SemiringParsing

open Relation

variable {π α τ : Type} [Number π]

/-- A bound on how far what a state leads to at its position can be traced. -/
noncomputable def Grammar.height (G : Grammar π) (s : State π) : Nat :=
  if s.isCompleted then
    match s.rule.left with
    | .nonterminal name => 2 + (s.origin * (G.nonterminals.length + 1) +
        (G.nonterminals.length - G.unitRank name))
    | _ => 0
  else if s.isPredicted then 0
  else 1

namespace Grammar

variable {G : Grammar π} {s t : State π} {name : String}

theorem height_of_completed (hcompleted : s.isCompleted = true)
    (hleft : s.rule.left = .nonterminal name) : G.height s =
      2 + (s.origin * (G.nonterminals.length + 1) +
        (G.nonterminals.length - G.unitRank name)) := by
  rw [height, if_pos hcompleted, hleft]

theorem height_le_one (hopen : s.isCompleted = false) : G.height s ≤ 1 := by
  rw [height, hopen, if_neg Bool.false_ne_true]
  split
  · exact Nat.zero_le 1
  · exact Nat.le_refl 1

/-- Only a unit production is completed by one state that began with it. -/
theorem unitStep_of_advance {name' : String} (hs : G.Admits s)
    (hactive : s.active? = some (.nonterminal name)) {next : Nat}
    (hnext : s.advance next = .ok (some t)) (heq : s.origin = s.position)
    (hcompleted : t.isCompleted = true) (hleft : t.rule.left = .nonterminal name') :
    G.UnitStep name' name := by
  obtain ⟨hrule, -, -, hdot⟩ := State.advance_eq_some_iff.1 hnext
  rw [hrule] at hleft
  have hzero : s.dot = 0 := hs.dot_eq_zero_iff.2 heq
  have hlength : s.rule.right.length = 1 := by
    have : t.dot = t.rule.right.length := by
      simpa [State.isCompleted, Production.length] using hcompleted
    rw [← hrule, ← this, hdot, hzero]
  have hmem : s.rule ∈ G.rules := hs.mem_rules (by simp [hleft])
  have hright : s.rule.right = [.nonterminal name] := by
    obtain ⟨category, hone⟩ := List.length_eq_one_iff.1 hlength
    rw [State.active?, Production.categoryAt?, hzero, hone] at hactive
    rw [hone, Option.some.inj hactive]
  exact unitStep_iff.2 ⟨s.rule, hmem, hleft, hright⟩

/-- Moving the dot of a waiting state over a completed one leads to a lower state. -/
theorem height_lt_of_advance (hacyclic : G.UnitAcyclic) (hs : G.Admits s)
    (hactive : s.active? = some (.nonterminal name)) {next : Nat}
    (hnext : s.advance next = .ok (some t)) :
    G.height t < 2 + (s.position * (G.nonterminals.length + 1) +
      (G.nonterminals.length - G.unitRank name)) := by
  have horigin : t.origin = s.origin := (State.advance_eq_some_iff.1 hnext).2.2.1
  cases hcompleted : t.isCompleted with
  | false =>
    have := height_le_one (G := G) hcompleted
    omega
  | true =>
    cases hleft : t.rule.left with
    | nonterminal name' =>
      rw [height_of_completed hcompleted hleft, horigin]
      rcases Nat.lt_or_eq_of_le s.origin_le with hlt | heq
      · have hmul : (s.origin + 1) * (G.nonterminals.length + 1) ≤
            s.position * (G.nonterminals.length + 1) := Nat.mul_le_mul_right _ hlt
        rw [Nat.succ_mul] at hmul
        omega
      · have hstep := unitStep_of_advance hs hactive hnext heq hcompleted hleft
        have hrank := unitRank_lt hacyclic hstep
        have hle := G.unitRank_le name'
        rw [heq]
        omega
    | start =>
      rw [height, if_pos hcompleted, hleft]
      dsimp only
      omega
    | error =>
      rw [height, if_pos hcompleted, hleft]
      dsimp only
      omega
    | terminal _ =>
      rw [height, if_pos hcompleted, hleft]
      dsimp only
      omega

end Grammar

namespace Parser

variable {p : Parser π α} {tokens : List (Token τ)} {options : ParseOptions τ α}
  {position : Nat} {c : Chart π α} {id : StateId} {r : Record π α} {s : State π}
  {link? : Option Link} {d : Delta α} {ds : List (Delta α)}

/-- What a state leads to at its position is lower. -/
theorem LeadsTo.height_lt (hacyclic : p.grammar.UnitAcyclic) (h : p.LeadsTo tokens c id s link?)
    (hc : ∀ id r, c.record? id = some r → p.grammar.Admits r.state)
    (hr : c.record? id = some r) (hposition : s.position = r.state.position) :
    p.grammar.height s < p.grammar.height r.state := by
  cases h with
  | @predict _ r' name corner rule hr' hactive hpredicted hcorner hrule =>
    obtain rfl := Option.some.inj (hr.symm.trans hr')
    have hopen : r.state.isCompleted = false := State.isCompleted_eq_false hactive
    have hmem := mem_rules_of_mem_reachableFrom hcorner hrule
    have hbegin : (State.begin rule r.state.position).isCompleted = false := by
      have := Grammar.length_pos hmem
      simp only [State.isCompleted, State.begin, beq_eq_false_iff_ne]
      omega
    have hbeginPredicted : (State.begin rule r.state.position).isPredicted = true := by
      simp [State.isPredicted, State.begin, Grammar.left_ne_start hmem]
    simp [Grammar.height, hopen, hpredicted, hbegin, hbeginPredicted]
  | @complete _ _ w r' _ hw hr' hcompleted horigin hactive hnext =>
    obtain rfl := Option.some.inj (hr.symm.trans hr')
    obtain ⟨name, hname⟩ :=
      Grammar.left_eq_nonterminal ((hc _ _ hr).mem_rules_of_active? (hc _ _ hw) hactive)
    rw [hname] at hactive
    have hlt := Grammar.height_lt_of_advance hacyclic (hc _ _ hw) hactive hnext
    rwa [Grammar.height_of_completed hcompleted hname, ← horigin]
  | scan hr' _ _ _ hnext =>
    obtain rfl := Option.some.inj (hr.symm.trans hr')
    have := (State.advance_eq_some_iff.1 hnext).2.1
    omega

/-- The height of the state that a contribution is to. -/
noncomputable def deltaHeight (p : Parser π α) (c : Chart π α) (d : Delta α) : Nat :=
  match c.record? d.id with
  | some r => p.grammar.height r.state
  | none => 0

/-- The heights of what is on the agenda. -/
noncomputable def heights (p : Parser π α) (l : Ledger π α) : Multiset Nat :=
  l.pending.map (p.deltaHeight l.chart)

theorem deltaHeight_eq (hr : c.record? d.id = some r) :
    p.deltaHeight c d = p.grammar.height r.state := by
  rw [deltaHeight, hr]

/-- Passing on a contribution replaces its height by lower ones. -/
theorem heights_pass (hacyclic : p.grammar.UnitAcyclic)
    (hc : p.Consistent position ⟨c, d :: ds⟩) :
    CutExpand (· < ·) (p.heights (Ledger.addAll p.algebra ⟨c, ds⟩ (p.consequences position c d)))
      (p.heights ⟨c, d :: ds⟩) := by
  obtain ⟨r, hr, hposition⟩ := hc.pending d List.mem_cons_self
  obtain ⟨es, heq, hes⟩ := Ledger.exists_pending_addAll_eq (l := ⟨c, ds⟩) p.algebra
    (p.consequences position c d) hc.indexed
  have hextends := Ledger.extends_addAll (l := ⟨c, ds⟩) p.algebra
    (p.consequences position c d) hc.indexed
  have hkeep : ds.map (p.deltaHeight
      (Ledger.addAll p.algebra ⟨c, ds⟩ (p.consequences position c d)).chart) =
        ds.map (p.deltaHeight c) := by
    refine List.map_congr_left fun e he => ?_
    obtain ⟨r', hr', -⟩ := hc.tail.pending e he
    obtain ⟨r'', hr'', hstate, -⟩ := hextends e.id r' hr'
    rw [deltaHeight_eq hr', deltaHeight_eq hr'', hstate]
  refine ⟨es.map (p.deltaHeight
    (Ledger.addAll p.algebra ⟨c, ds⟩ (p.consequences position c d)).chart),
    p.deltaHeight c d, fun n hn => ?_, ?_⟩
  · obtain ⟨e, he, rfl⟩ := List.mem_map.1 (Multiset.mem_coe.1 hn)
    obtain ⟨x, hx, id, r', rfl, hr', hitem⟩ := hes e he
    have hd : ∀ r, c.record? d.id = some r → r.state.position = position := by
      intro r' hr'
      rwa [← Option.some.inj (hr.symm.trans hr')]
    have hx : p.LeadsTo ([] : List (Token Unit)) c d.id x.state x.link? ∧
        x.state.position = position := leadsTo_of_mem_consequences hc.indexed hd hx
    obtain ⟨hleads, hxposition⟩ := hx
    have hstate : r'.state = x.state :=
      ((hc.tail.addAll (Nat.le_refl _) (.inr rfl)
        (hc.consequences ([] : List (Token Unit)))).admits id r' hr').eq_of_item_eq
          (hleads.admits hc.admits) hitem
    rw [deltaHeight_eq (d := x.delta id) hr', deltaHeight_eq hr, hstate]
    exact hleads.height_lt hacyclic hc.admits hr (hxposition.trans hposition.symm)
  · rw [heights, heights, heq, List.map_append, hkeep, List.map_cons, ← Multiset.coe_add,
      ← Multiset.cons_coe, ← Multiset.singleton_add, add_comm, ← add_assoc]

/-- A position is closed with some bound. -/
theorem exists_close (hacyclic : p.grammar.UnitAcyclic) {w : Sweep π α}
    (h : p.Reaches options tokens position w.ledger) :
    ∃ fuel w', w.close p.algebra p.grammar p.corners position fuel = some w' := by
  have hwf : WellFounded (CutExpand ((· < ·) : Nat → Nat → Prop)) := Nat.lt_wfRel.wf.cutExpand
  exact exists_close_of_wellFounded hwf p.heights
    (fun _ _ _ h => heights_pass hacyclic h.consistent) h

/-- **Parses settle** without cycles of unit productions, whatever the algebra. -/
theorem settles_of_unitAcyclic (hacyclic : p.grammar.UnitAcyclic) (options : ParseOptions τ α)
    (tokens : List (Token τ)) : p.Settles options tokens :=
  .of_exists_close fun _ _ h => exists_close hacyclic h

/-- There is a result, and it is the same with all bounds from some bound on. -/
theorem exists_parse (hacyclic : p.grammar.UnitAcyclic) (options : ParseOptions τ α)
    (tokens : List (Token τ)) :
    ∃ bound result, ∀ fuel, bound ≤ fuel → p.parse options fuel tokens = some result :=
  (settles_of_unitAcyclic hacyclic options tokens).returns

end Parser

end SemiringParsing
