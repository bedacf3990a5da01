import SemiringParsing.Proofs.Sweep.PackedForest
import SemiringParsing.Proofs.Tree.Derivation
import SemiringParsing.Proofs.Tree.Walk

/-!
# Trees by first links

The first link of a record names earlier records only. So a walk back over first links comes to a
state with its dot in front (`Finished.walk_eq_ok`), and what it finds on its way covers the part of
the rule before the dot (`Chart.Covers`). The completed states among this are earlier too. Building
trees below trees therefore ends and never meets a state a second time, even where the links all
together go in circles (`Finished.trees_eq_ok`). What is built is a derivation tree
(`tree_of_parse`).
-/

namespace SemiringParsing

variable {π α τ : Type}

/-! ## Bases -/

namespace Chart

/-- A basis moved the dot over a category between two positions. If it is a completed state, its
number is below a bound. -/
inductive CoversOne (c : Chart π α) (tokens : List (Token τ)) (bound : StateId) :
    Basis → Category → Nat → Nat → Prop
  | completed {id : StateId} {category : Category} {i j : Nat}
      (h : c.Completes id category i j) (hid : id < bound) :
      CoversOne c tokens bound (.completed id) category i j
  | scanned {category : Category} {token : Token τ} {i : Nat} (htoken : tokens[i]? = some token)
      (hcategory : token.isA category = true) :
      CoversOne c tokens bound (.scanned category) category i (i + 1)

/-- Some bases moved the dot over some categories, one after the other. -/
inductive Covers (c : Chart π α) (tokens : List (Token τ)) (bound : StateId) :
    List Basis → List Category → Nat → Nat → Prop
  | nil (i : Nat) : Covers c tokens bound [] [] i i
  | cons {basis : Basis} {bases : List Basis} {category : Category} {categories : List Category}
      {i j k : Nat} (hfirst : c.CoversOne tokens bound basis category i k)
      (hrest : Covers c tokens bound bases categories k j) :
      Covers c tokens bound (basis :: bases) (category :: categories) i j

variable {c : Chart π α} {tokens : List (Token τ)} {bound bound' : StateId} {basis : Basis}
  {bases : List Basis} {category : Category} {categories : List Category} {i j k : Nat}

theorem CoversOne.mono (h : c.CoversOne tokens bound basis category i j) (hle : bound ≤ bound') :
    c.CoversOne tokens bound' basis category i j := by
  cases h with
  | completed h hid => exact .completed h (Nat.lt_of_lt_of_le hid hle)
  | scanned htoken hcategory => exact .scanned htoken hcategory

/-- One more basis, behind the others. -/
theorem Covers.concat (h : c.Covers tokens bound bases categories i k) (hle : bound ≤ bound')
    (hlast : c.CoversOne tokens bound' basis category k j) :
    c.Covers tokens bound' (bases ++ [basis]) (categories ++ [category]) i j := by
  induction h with
  | nil => exact .cons hlast (.nil _)
  | cons hfirst _ ih => exact .cons (hfirst.mono hle) (ih hlast)

end Chart

/-- An active state has no tree. -/
theorem Chart.tree_eq_error {c : Chart π α} {id : StateId} {r : Record π α}
    (hr : c.record? id = some r) (hactive : r.state.isCompleted = false) :
    c.tree id = .error (.error (.active r.state)) := by
  exact tree_of_trees_eq_error hr (trees_of_active hr hactive)

/-- A basis of a nonterminal is a completed state. -/
theorem Chart.Covers.of_nonterminal {c : Chart π α} {tokens : List (Token τ)} {bound : StateId}
    {bases : List Basis} {name : String} {i j : Nat}
    (h : c.Covers tokens bound bases [.nonterminal name] i j) :
    ∃ id, bases = [.completed id] ∧ c.Completes id (.nonterminal name) i j ∧ id < bound := by
  cases h with
  | cons hfirst hrest =>
    cases hrest
    cases hfirst with
    | completed hcompletes hid => exact ⟨_, rfl, hcompletes, hid⟩
    | scanned _ hcategory => simp [Token.isA] at hcategory

variable [Number π] {p : Parser π α} {tokens : List (Token τ)} {c : Chart π α} {id : StateId}
  {r : Record π α}

namespace Parser.Finished

/-! ## The walk -/

/-- One step of the walk goes from a state with its dot moved to the one it was moved from, which is
earlier, and finds what moved it. -/
theorem walk_step (h : p.Finished tokens c) (hr : c.record? id = some r) {dot : Nat}
    (hdot : r.state.dot = dot + 1) :
    ∃ waiting w basis category, c.record? waiting = some w ∧ waiting < id ∧
      w.state.rule = r.state.rule ∧ w.state.origin = r.state.origin ∧ w.state.dot = dot ∧
      w.state.active? = some category ∧
      c.CoversOne tokens id basis category w.state.position r.state.position ∧
      c.Back id basis waiting := by
  have hlinked := h.linked id r hr
  have hne : r.links ≠ [] := fun hnil => by
    have := hlinked.eq_nil_iff.1 hnil
    omega
  obtain ⟨link, links, hlinks⟩ := List.exists_cons_of_ne_nil hne
  have hhead : r.links.head? = some link := by rw [hlinks, List.head?_cons]
  obtain ⟨cause, hleads⟩ := hlinked.leadsTo link (List.mem_of_mem_head? hhead)
  obtain ⟨hwaiting, hchild⟩ := hlinked.head_lt link hhead
  have hfront : r.state.dot ≠ 0 := by omega
  generalize hstate : r.state = s at hleads hdot
  cases hleads with
  | @complete waiting _ w r' _ hw hr' hcompleted hposition hactive hnext =>
    obtain ⟨hrule, hend, horigin, hdot'⟩ := State.advance_eq_some_iff.1 hnext
    refine ⟨waiting, w, .completed cause, _, hw, hwaiting, hrule.symm, horigin.symm, by omega,
      hactive, .completed ⟨r', hr', hcompleted, rfl, hposition.symm, hend.symm⟩ (hchild _ rfl),
      .completed hr hfront hhead⟩
  | @scan _ w token category _ hw htoken hactive hcategory hnext =>
    obtain ⟨hrule, hend, horigin, hdot'⟩ := State.advance_eq_some_iff.1 hnext
    refine ⟨cause, w, .scanned category, category, hw, hwaiting, hrule.symm, horigin.symm,
      by omega, hactive, hend ▸ .scanned htoken hcategory, .scanned hr hfront hhead hw hactive⟩

/-- A walk with enough fuel finds what covers the rule up to the dot. -/
theorem walk_eq_ok (h : p.Finished tokens c) (hr : c.record? id = some r) {fuel : Nat}
    (hfuel : id < fuel) :
    ∃ bases, c.Covers tokens id bases (r.state.rule.right.take r.state.dot) r.state.origin
        r.state.position ∧
      ∀ found, c.walk fuel id found = .ok (bases ++ found) := by
  induction fuel generalizing id r with
  | zero => exact absurd hfuel (Nat.not_lt_zero _)
  | succ fuel ih =>
    cases hdot : r.state.dot with
    | zero =>
      refine ⟨[], ?_, fun found => ?_⟩
      · rw [(h.admits id r hr).dot_eq_zero_iff.1 hdot, List.take_zero]
        exact .nil _
      · rw [Chart.walk_of_dot_eq_zero hr hdot, List.nil_append]
    | succ dot =>
      obtain ⟨waiting, w, basis, category, hw, hlt, hrule, horigin, hdot', hactive, hlast, hback⟩ :=
        h.walk_step hr hdot
      obtain ⟨bases, hbases, hwalk⟩ := ih hw (Nat.lt_of_lt_of_le hlt (Nat.le_of_lt_succ hfuel))
      refine ⟨bases ++ [basis], ?_, fun found => ?_⟩
      · have hget : r.state.rule.right[dot]? = some category := by
          rw [← hrule, ← hdot']
          exact hactive
        rw [List.take_add_one, hget, Option.toList_some]
        rw [hrule, horigin, hdot'] at hbases
        exact hbases.concat (Nat.le_of_lt hlt) hlast
      · rw [hback.walk, hwalk, List.append_assoc, List.singleton_append]

theorem bases_eq_ok (h : p.Finished tokens c) (hr : c.record? id = some r)
    (hcompleted : r.state.isCompleted = true) :
    ∃ bases, c.bases id = .ok bases ∧
      c.Covers tokens id bases r.state.rule.right r.state.origin r.state.position := by
  obtain ⟨bases, hcovers, hwalk⟩ :=
    h.walk_eq_ok hr (Nat.lt_succ_of_lt (Chart.lt_size_of_record? hr))
  have htake : r.state.rule.right.take r.state.dot = r.state.rule.right := by
    rw [beq_iff_eq.1 hcompleted]
    exact List.take_length
  rw [htake] at hcovers
  refine ⟨bases, ?_, hcovers⟩
  rw [Chart.bases, hwalk, List.append_nil]

/-! ## Trees below trees -/

/-- If there are trees for earlier completed states, there are trees for bases. -/
theorem gather_eq_ok {G : Grammar π} {child : StateId → Except (TreeFailure π) Forest}
    {bases : List Basis} {categories : List Category} {i j : Nat}
    (hbases : c.Covers tokens id bases categories i j)
    (hchild : ∀ id' < id, ∀ category i j, category ≠ .start → c.Completes id' category i j →
      ∃ f, child id' = .ok f ∧ f.roots = [category] ∧ f.Spans G tokens i j)
    (hstart : .start ∉ categories) :
    ∃ f, Chart.gather child .leaf bases = .ok f ∧ f.roots = categories ∧
      f.Spans G tokens i j := by
  induction hbases with
  | nil i => exact ⟨.nil, rfl, rfl, .nil i⟩
  | cons hfirst _ ih =>
    rw [List.mem_cons, not_or] at hstart
    obtain ⟨beside, hbeside, hroots, hspans⟩ := ih hstart.2
    cases hfirst with
    | completed hcompletes hid =>
      obtain ⟨f, hf, hfroots, hfspans⟩ := hchild _ hid _ _ _ (Ne.symm hstart.1) hcompletes
      refine ⟨f ++ beside, ?_, ?_, hfspans.append hspans⟩
      · rw [Chart.gather, hf]
        simp only [hbeside]
      · rw [Forest.roots_append, hfroots, hroots, List.singleton_append]
    | scanned htoken hcategory =>
      refine ⟨.leaf _ ++ beside, ?_, ?_, .leaf htoken hcategory hspans⟩
      · rw [Chart.gather, hbeside]
      · rw [Forest.roots_append, hroots]
        rfl

/-- A completed state below later ones has a tree. -/
theorem trees_eq_ok (h : p.Finished tokens c) {depth : Nat} (hdepth : id < depth)
    {path : List StateId} (hpath : ∀ x ∈ path, id < x) {category : Category} {i j : Nat}
    (hstart : category ≠ .start) (hid : c.Completes id category i j) :
    ∃ f, c.trees depth path id = .ok f ∧ f.roots = [category] ∧ f.Spans p.grammar tokens i j := by
  induction depth generalizing id path category i j with
  | zero => exact absurd hdepth (Nat.not_lt_zero _)
  | succ depth ih =>
    obtain ⟨r, hr, hcompleted, rfl, rfl, rfl⟩ := hid
    have hpath' : ∀ id' < id, ∀ x ∈ id :: path, id' < x := by
      intro id' hlt x hx
      rcases List.mem_cons.1 hx with rfl | hx
      · exact hlt
      · exact Nat.lt_trans hlt (hpath x hx)
    have hnotMem : id ∉ path := fun hmem => Nat.lt_irrefl _ (hpath id hmem)
    obtain ⟨bases, hbases, hcovers⟩ := h.bases_eq_ok hr hcompleted
    have hgather : ∃ f, Chart.gather (c.trees depth (id :: path)) .leaf bases = .ok f ∧
        f.roots = r.state.rule.right ∧
        f.Spans p.grammar tokens r.state.origin r.state.position :=
      gather_eq_ok hcovers (fun id' hlt category i j hne hcompletes =>
        ih (Nat.lt_of_lt_of_le hlt (Nat.le_of_lt_succ hdepth)) (hpath' id' hlt) hne hcompletes)
        (h.admits id r hr).start_notMem_right
    obtain ⟨below, hbelow, hroots, hspans⟩ := hgather
    refine ⟨.cons r.state.rule.left below .nil, ?_, rfl, .node ?_ hspans (.nil _)⟩
    · rw [Chart.trees_of_notMem_path hr hcompleted hnotMem, hbases,
        State.leaf_of_ne_start hstart, State.node_of_ne_start hstart]
      simp only [Except.bind, hbelow, Except.map]
    · exact ⟨_, (h.admits id r hr).mem_rules hstart, by rw [hroots]⟩

/-- The tree of a completed state is a derivation. That of the top rule is one of the start
symbol. -/
theorem tree_eq_ok (h : p.Finished tokens c) (hr : c.record? id = some r)
    (hcompleted : r.state.isCompleted = true) :
    ∃ t, c.tree id = .ok t ∧ t.IsDerivation p.grammar tokens
      (p.grammar.rootCategory r.state.rule.left) r.state.origin r.state.position := by
  have hid : id < c.size := Chart.lt_size_of_record? hr
  suffices hforest : ∃ f, c.trees (c.size + 1) [] id = .ok f ∧
      f.roots = [p.grammar.rootCategory r.state.rule.left] ∧
      f.Spans p.grammar tokens r.state.origin r.state.position by
    obtain ⟨f, hf, hroots, hspans⟩ := hforest
    obtain ⟨t, rfl⟩ := Forest.exists_tree_of_roots hroots
    exact ⟨t, Chart.tree_of_trees_eq_ok hr hf, ParseTree.isDerivation_iff.2 ⟨hroots, hspans⟩⟩
  by_cases hstart : r.state.rule.left = .start
  · have hrule : r.state.rule = p.grammar.topRule := by
      rcases (h.admits id r hr).rule with hmem | ⟨htop, -⟩
      · exact absurd hstart (Grammar.left_ne_start hmem)
      · exact htop
    obtain ⟨bases, hbases, hcovers⟩ := h.bases_eq_ok hr hcompleted
    rw [hrule, Grammar.right_topRule] at hcovers
    obtain ⟨child, rfl, hchild, hlt⟩ := hcovers.of_nonterminal
    have htrees : ∃ f, c.trees c.size [id] child = .ok f ∧
        f.roots = [.nonterminal p.grammar.start] ∧
        f.Spans p.grammar tokens r.state.origin r.state.position :=
      h.trees_eq_ok (Nat.lt_trans hlt hid) (by simpa using hlt) (by simp) hchild
    obtain ⟨f, hf, hroots, hspans⟩ := htrees
    refine ⟨f, ?_, ?_, hspans⟩
    · rw [Chart.trees_of_notMem_path hr hcompleted List.not_mem_nil, hbases,
        State.leaf_of_start hstart, State.node_of_start hstart]
      simp only [Except.bind, Chart.gather, hf, Except.map, Forest.append_nil, id_eq]
    · rw [hroots, hstart]
      rfl
  · rw [Grammar.rootCategory, if_neg hstart]
    exact h.trees_eq_ok (Nat.lt_succ_of_lt hid) (by simp) hstart ⟨r, hr, hcompleted, rfl, rfl, rfl⟩

end Parser.Finished

/-! ## Trees of a parse -/

namespace Parser

variable {options : ParseOptions τ α} {fuel : Nat} {result : ParseResult π α}

/-- **Every completed state of a parse has a derivation tree**, and the parse has one if it is a
success. An active state has none, which is said to be so. -/
theorem tree_of_parse (h : p.parse options fuel tokens = some result) :
    (∀ id r, result.chart.record? id = some r →
      (r.state.isCompleted = false →
        result.chart.tree id = .error (.error (.active r.state))) ∧
      (r.state.isCompleted = true → ∃ t, result.chart.tree id = .ok t ∧
        t.IsDerivation p.grammar tokens (p.grammar.rootCategory r.state.rule.left)
          r.state.origin r.state.position)) ∧
    ((∃ t, result.tree = .ok t) ↔ result.isSuccess = true) ∧
    (∀ e, result.tree = .error e → e = .error .noParse) := by
  have hfinished := finished_of_parse h
  refine ⟨fun id r hr => ⟨Chart.tree_eq_error hr, hfinished.tree_eq_ok hr⟩, ?_⟩
  unfold ParseResult.tree ParseResult.isSuccess
  cases hroot : result.root? with
  | none =>
    refine ⟨by simp, fun e he => ?_⟩
    cases he
    rfl
  | some root =>
    obtain ⟨r, hr, hitem⟩ := hfinished.indexed.id?_eq_some.1
      ((reaches_of_parse h).2.1.symm.trans hroot)
    have hcompleted : r.state.isCompleted = true := by
      simp only [State.item, goal, Item.mk.injEq] at hitem
      simp only [State.isCompleted, hitem, Production.length, Grammar.right_topRule]
      rfl
    obtain ⟨t, ht, -⟩ := hfinished.tree_eq_ok hr hcompleted
    simp [ht]

/-- In the parse of a unit cycle the tree of a state is found whose links go in a circle. -/
theorem tree_of_parse_unitCycle : ∃ result id r t,
    (Parser.new Examples.unitCycleGrammar .viterbi).parse {} 20 [Token.literal "x"] = some result ∧
      result.chart.record? id = some r ∧ r.state.isCompleted = true ∧ r.links.length = 2 ∧
      result.chart.tree id = .ok t ∧
      t.IsDerivation Examples.unitCycleGrammar [Token.literal "x"]
        (Examples.unitCycleGrammar.rootCategory r.state.rule.left) r.state.origin r.state.position ∧
      ∃ t, result.tree = .ok t := by
  have hparse : ((Parser.new Examples.unitCycleGrammar .viterbi).parse {} 20
      [Token.literal "x"]).any (fun result => result.isSuccess &&
        (List.range result.chart.size).any fun id => (result.chart.record? id).any fun r =>
          r.state.isCompleted && r.links.length == 2) = true := by
    decide +kernel
  simp only [Option.any_eq_true, List.any_eq_true, Bool.and_eq_true, beq_iff_eq] at hparse
  obtain ⟨result, hresult, hsuccess, id, -, r, hr, hcompleted, hlength⟩ := hparse
  obtain ⟨hstates, htree, -⟩ := tree_of_parse hresult
  obtain ⟨t, ht, hderivation⟩ := (hstates id r hr).2 hcompleted
  exact ⟨result, id, r, t, hresult, hr, hcompleted, hlength, ht, hderivation, htree.2 hsuccess⟩

end Parser

end SemiringParsing
