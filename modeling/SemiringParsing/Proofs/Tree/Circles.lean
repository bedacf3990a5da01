import Mathlib.Data.List.Perm.Subperm
import Mathlib.Logic.Relation
import SemiringParsing.Proofs.Number.Exact
import SemiringParsing.Proofs.Sweep.Ledger
import SemiringParsing.Proofs.Tree.Walk

/-!
# Trees from charts that go in circles

A chart need not come from a parse. States can be added to it in any order, with links to any states
that are there (`Chart.Built`). A state that was first added without a link gets its first one when
it is added again, and this may name later states or the state itself. So first links can go in
circles, in two ways.

* Through completed states, so that a state is below itself. Building a tree keeps the path of the
  states above. It is noticed when one of them comes again, so no tree comes of this
  (`Chart.trees_ne_ok`). The states on a path are distinct, so it is no longer than the chart.
* Through states whose dot was moved, so that walking back from a state comes to one twice
  (`Chart.Circles`). A walk keeps no path. Such walks never end, with whatever fuel, and all others
  do (`Chart.KnowsLinks.circles_iff`).

Building trees therefore ends for all records of a chart exactly if no completed state has a walk of
the second kind (`Chart.Built.tree_ends_iff`).
-/

namespace SemiringParsing

open Relation

variable {π α : Type}

namespace Chart

/-! ## Charts built by adding states -/

/-- A link names records of the chart. -/
def Knows (c : Chart π α) (link : Link) : Prop :=
  link.predecessor < c.size ∧ ∀ child, link.completed? = some child → child < c.size

/-- All links of a chart name records of it. -/
def KnowsLinks (c : Chart π α) : Prop :=
  ∀ id r, c.record? id = some r → ∀ link ∈ r.links, c.Knows link

/-- A chart that comes of adding states to the empty one, with links to records that are there. -/
inductive Built (S : ScoreAlgebra π α) : Chart π α → Prop
  | empty : Built S empty
  | add {c : Chart π α} (h : Built S c) (s : State π) (forward inner : α) {link? : Option Link}
      (hlink : ∀ link, link? = some link → c.Knows link) :
      Built S (c.add S s forward inner link?).chart

theorem Extends.size_le {c c' : Chart π α} (h : c.Extends c') : c.size ≤ c'.size := by
  by_contra hlt
  obtain ⟨r, hr⟩ := exists_record?_of_lt_size (Nat.lt_of_not_le hlt)
  obtain ⟨r', hr', -⟩ := h _ r hr
  exact Nat.lt_irrefl _ (lt_size_of_record? hr')

theorem Knows.mono {c c' : Chart π α} {link : Link} (h : c.Knows link) (hc : c.Extends c') :
    c'.Knows link :=
  ⟨h.1.trans_le hc.size_le, fun child hchild => (h.2 child hchild).trans_le hc.size_le⟩

namespace Built

variable {S : ScoreAlgebra π α} {c : Chart π α}

theorem indexed (h : c.Built S) : c.Indexed := by
  induction h with
  | empty => exact .empty
  | add _ s forward inner _ ih => exact ih.add S forward inner _ s

theorem knowsLinks (h : c.Built S) : c.KnowsLinks := by
  induction h with
  | empty =>
    intro id r hr
    simp [Chart.empty, record?] at hr
  | @add c h s forward inner link? hlink ih =>
    intro id r hr link hmem
    let x : Contribution π α := ⟨s, forward, inner, link?⟩
    have hextends : c.Extends (c.add S s forward inner link?).chart :=
      Ledger.extends_add (l := ⟨c, []⟩) (x := x) h.indexed
    refine Knows.mono ?_ hextends
    rcases Ledger.record?_add (l := ⟨c, []⟩) (x := x) h.indexed hr with
      ⟨hr', -⟩ | ⟨r', hr', -, rfl⟩ | ⟨-, -, rfl⟩
    · exact ih id r hr' link hmem
    · exact (Contribution.mem_links_combined.1 hmem).elim (ih id r' hr' link) (hlink link)
    · exact hlink link (Contribution.mem_links_record.1 hmem)

end Built

/-! ## Walking back -/

variable {c : Chart π α} {id child : StateId}

/-- One step of a walk: it is done at a state with its dot in front, is stuck, or goes back. -/
theorem KnowsLinks.walk_cases (h : c.KnowsLinks) (hid : id < c.size) :
    (∃ r, c.record? id = some r ∧ r.state.dot = 0) ∨ (∃ s, c.Stuck id s) ∨
      ∃ basis before, c.Back id basis before ∧ before < c.size ∧
        ∀ child, basis = .completed child → child < c.size := by
  obtain ⟨r, hr⟩ := exists_record?_of_lt_size hid
  by_cases hdot : r.state.dot = 0
  · exact .inl ⟨r, hr, hdot⟩
  refine .inr ?_
  cases hlinks : r.links.head? with
  | none => exact .inl ⟨_, .unlinked hr hdot hlinks⟩
  | some link =>
    obtain ⟨hbefore, hchild⟩ := h id r hr link (List.mem_of_mem_head? hlinks)
    obtain ⟨before, child?⟩ := link
    cases child? with
    | some child =>
      refine .inr ⟨_, before, .completed hr hdot hlinks, hbefore, fun child hbasis => ?_⟩
      cases hbasis
      exact hchild _ rfl
    | none =>
      obtain ⟨w, hw⟩ := exists_record?_of_lt_size hbefore
      cases hactive : w.state.active? with
      | none => exact .inl ⟨_, .unread hr hdot hlinks hw hactive⟩
      | some category =>
        exact .inr ⟨_, before, .scanned hr hdot hlinks hw hactive, hbefore, fun _ h => nomatch h⟩

/-- The walk goes back from one state to another. -/
def GoesBack (c : Chart π α) (id before : StateId) : Prop :=
  ∃ basis, c.Back id basis before

/-- The walk back from a state comes to one to which it comes back. -/
def Circles (c : Chart π α) (id : StateId) : Prop :=
  ∃ x, ReflTransGen c.GoesBack id x ∧ TransGen c.GoesBack x x

theorem Circles.exists_back (h : c.Circles id) :
    ∃ basis before, c.Back id basis before ∧ c.Circles before := by
  obtain ⟨x, hto, haround⟩ := h
  rcases ReflTransGen.cases_head hto with rfl | ⟨before, ⟨basis, hback⟩, hto⟩
  · obtain ⟨before, ⟨basis, hback⟩, hto⟩ := TransGen.head'_iff.1 haround
    exact ⟨basis, before, hback, id, hto, haround⟩
  · exact ⟨basis, before, hback, x, hto, haround⟩

/-- **A walk in a circle never ends.** -/
theorem Circles.walk_eq_endless (h : c.Circles id) (fuel : Nat) (found : List Basis) :
    c.walk fuel id found = .error .endless := by
  induction fuel generalizing id found with
  | zero => rfl
  | succ fuel ih =>
    obtain ⟨basis, before, hback, hbefore⟩ := h.exists_back
    rw [hback.walk, ih hbefore]

/-- A path of distinct records of a chart is no longer than the chart. -/
theorem length_le_size {path : List StateId} (hnodup : path.Nodup)
    (hpath : ∀ x ∈ path, x < c.size) : path.length ≤ c.size := by
  have hsubset : path ⊆ List.range c.size := fun x hx => List.mem_range.2 (hpath x hx)
  exact (List.subperm_of_subset hnodup hsubset).length_le.trans_eq List.length_range

/-- Bases that are states name records of the chart. -/
def KnowsAll (c : Chart π α) (bases : List Basis) : Prop :=
  ∀ child, .completed child ∈ bases → child < c.size

namespace KnowsLinks

/-- A walk that has come along a path of distinct states comes to the front, is stuck, or comes
back to one of them. -/
theorem walk_cases_of_path (h : c.KnowsLinks) (fuel : Nat) (found : List Basis)
    (hid : id < c.size) {path : List StateId} (hnodup : path.Nodup)
    (hpath : ∀ x ∈ path, x < c.size ∧ TransGen c.GoesBack x id) (hfuel : c.size < fuel + path.length) :
    (∃ bases, c.Unwinds id bases ∧ c.KnowsAll bases ∧
        c.walk fuel id found = .ok (bases ++ found)) ∨
      (∃ x s, ReflTransGen c.GoesBack id x ∧ c.Stuck x s ∧
        c.walk fuel id found = .error (.error (.missingBasis s))) ∨ c.Circles id := by
  induction fuel generalizing id path found with
  | zero =>
    have := length_le_size hnodup fun x hx => (hpath x hx).1
    omega
  | succ fuel ih =>
    by_cases hmem : id ∈ path
    · exact .inr (.inr ⟨id, .refl, (hpath id hmem).2⟩)
    rcases h.walk_cases hid with
      ⟨r, hr, hdot⟩ | ⟨s, hstuck⟩ | ⟨basis, before, hback, hbefore, hchild⟩
    · exact .inl ⟨[], .front hr hdot, fun _ hmem => absurd hmem List.not_mem_nil,
        walk_of_dot_eq_zero hr hdot fuel found⟩
    · exact .inr (.inl ⟨id, s, .refl, hstuck, hstuck.walk fuel found⟩)
    · have hgoes : c.GoesBack id before := ⟨basis, hback⟩
      have hpath' : ∀ x ∈ id :: path, x < c.size ∧ TransGen c.GoesBack x before :=
        List.forall_mem_cons.2 ⟨⟨hid, .single hgoes⟩, fun x hx =>
          (hpath x hx).imp_right (·.tail hgoes)⟩
      have hfuel' : c.size < fuel + (id :: path).length := by
        rw [List.length_cons]
        omega
      rw [hback.walk]
      rcases ih (basis :: found) hbefore (List.nodup_cons.2 ⟨hmem, hnodup⟩) hpath' hfuel' with
        ⟨bases, hunwinds, hknows, hwalk⟩ | ⟨x, s, hx, hstuck, hwalk⟩ | ⟨x, hto, haround⟩
      · refine .inl ⟨bases ++ [basis], .back hback hunwinds, fun child hmem => ?_, ?_⟩
        · rcases List.mem_append.1 hmem with hmem | hmem
          · exact hknows child hmem
          · exact hchild child (List.mem_singleton.1 hmem).symm
        · rw [hwalk, List.append_assoc, List.singleton_append]
      · exact .inr (.inl ⟨x, s, .head hgoes hx, hstuck, hwalk⟩)
      · exact .inr (.inr ⟨x, .head hgoes hto, haround⟩)

/-- The bases of a state are found, or the walk back is stuck, or it goes in a circle. -/
theorem bases_cases (h : c.KnowsLinks) (hid : id < c.size) :
    (∃ bases, c.Unwinds id bases ∧ c.KnowsAll bases ∧ c.bases id = .ok bases) ∨
      (∃ x s, ReflTransGen c.GoesBack id x ∧ c.Stuck x s ∧
        c.bases id = .error (.error (.missingBasis s))) ∨ c.Circles id := by
  have hcases := h.walk_cases_of_path (c.size + 1) [] hid List.nodup_nil
    (List.forall_mem_nil _) (by simp)
  simpa only [List.append_nil, bases] using hcases

/-- **Which walks never end.** -/
theorem circles_iff (h : c.KnowsLinks) (hid : id < c.size) :
    c.Circles id ↔ ∀ fuel found, c.walk fuel id found = .error .endless := by
  refine ⟨Circles.walk_eq_endless, fun hendless => ?_⟩
  have hbases : c.bases id = .error .endless := hendless _ _
  rcases h.bases_cases hid with ⟨bases, -, -, heq⟩ | ⟨_, _, -, -, heq⟩ | hcircles
  · simp [hbases] at heq
  · simp [hbases] at heq
  · exact hcircles

end KnowsLinks

/-! ## Going below -/

/-- A record of a completed state. -/
def IsCompleted (c : Chart π α) (id : StateId) : Prop :=
  ∃ r, c.record? id = some r ∧ r.state.isCompleted = true

/-- A completed state is among the bases of another. -/
def Child (c : Chart π α) (id child : StateId) : Prop :=
  ∃ bases, c.bases id = .ok bases ∧ .completed child ∈ bases

variable {depth : Nat} {path : List StateId}

/-- There are trees for a state only if it is not on the path, and there are trees for the completed
states among its bases. -/
theorem trees_eq_ok {f : Forest} (h : c.trees depth path id = .ok f) :
    id ∉ path ∧ ∀ child, c.Child id child →
      ∃ depth' g, c.trees depth' (id :: path) child = .ok g := by
  obtain ⟨depth', _, bases, _, -, -, -, hmem, hbases, hgather, -⟩ := exists_of_trees_eq_ok h
  refine ⟨hmem, ?_⟩
  rintro child ⟨bases', hbases', hchild⟩
  obtain rfl : bases = bases' := by simpa [hbases] using hbases'
  obtain ⟨g, hg⟩ := exists_of_gather_eq_ok hgather child hchild
  exact ⟨depth', g, hg⟩

/-- If there are trees for a state there are for all below it, on paths that go on from its own. -/
theorem exists_trees_eq_ok {f : Forest} {x : StateId} (htrees : c.trees depth path id = .ok f)
    (hx : ReflTransGen c.Child id x) :
    ∃ depth' path' g, c.trees depth' path' x = .ok g ∧ path ⊆ path' := by
  induction hx with
  | refl => exact ⟨depth, path, f, htrees, List.Subset.refl _⟩
  | @tail y z hy hchild ih =>
    obtain ⟨_, path', g, hg, hsubset⟩ := ih
    obtain ⟨depth', g', hg'⟩ := (trees_eq_ok hg).2 z hchild
    exact ⟨depth', y :: path', g', hg', List.subset_cons_of_subset y hsubset⟩

/-- **Circles through completed states are found.** There are no trees for a state that is above one
that is below itself. -/
theorem trees_ne_ok {x : StateId} (hx : ReflTransGen c.Child id x)
    (haround : TransGen c.Child x x) (f : Forest) : c.trees depth path id ≠ .ok f := by
  intro htrees
  obtain ⟨_, _, g, hg, -⟩ := exists_trees_eq_ok htrees hx
  obtain ⟨y, hchild, hto⟩ := TransGen.head'_iff.1 haround
  obtain ⟨_, g', hg'⟩ := (trees_eq_ok hg).2 y hchild
  obtain ⟨_, path', g'', hg'', hsubset⟩ := exists_trees_eq_ok hg' hto
  exact (trees_eq_ok hg'').1 (hsubset List.mem_cons_self)

/-- Of a completed state whose walk goes in a circle comes nothing. -/
theorem Circles.tree_eq_endless (h : c.Circles id) (hcompleted : c.IsCompleted id) :
    c.tree id = .error .endless := by
  obtain ⟨r, hr, hcompleted⟩ := hcompleted
  have hbases : c.bases id = .error .endless := h.walk_eq_endless _ _
  refine tree_of_trees_eq_error hr ?_
  rw [trees_of_notMem_path hr hcompleted List.not_mem_nil, hbases]
  rfl

/-- Why there are no trees for a state below a path: because of the state, or of one among its
bases. -/
inductive Fails (c : Chart π α) (depth : Nat) (path : List StateId) (id : StateId) :
    TreeFailure π → Prop
  | active {r : Record π α} (hr : c.record? id = some r) (hactive : r.state.isCompleted = false) :
      Fails c depth path id (.error (.active r.state))
  | cyclicDerivation {r : Record π α} (hr : c.record? id = some r) (hmem : id ∈ path) :
      Fails c depth path id (.error (.cyclicDerivation r.state))
  | missingBasis {x : StateId} {s : State π} (hx : ReflTransGen c.GoesBack id x)
      (hstuck : c.Stuck x s) : Fails c depth path id (.error (.missingBasis s))
  | endless (hcompleted : c.IsCompleted id) (hcircles : c.Circles id) :
      Fails c depth path id .endless
  | below {bases : List Basis} {child : StateId} {e : TreeFailure π} (hmem : id ∉ path)
      (hbases : c.bases id = .ok bases) (hunwinds : c.Unwinds id bases)
      (hchild : .completed child ∈ bases) (hlt : child < c.size)
      (htrees : c.trees depth (id :: path) child = .error e) : Fails c depth path id e

namespace KnowsLinks

/-- Each failure has a reason. -/
theorem fails (h : c.KnowsLinks) (hid : id < c.size) {e : TreeFailure π}
    (htrees : c.trees (depth + 1) path id = .error e) : c.Fails depth path id e := by
  obtain ⟨r, hr⟩ := exists_record?_of_lt_size hid
  rcases trees_cases hr depth path with ⟨hactive, heq⟩ | ⟨-, hmem, heq⟩ | ⟨hcompleted, hmem, heq⟩
  · obtain rfl := Except.error.inj (htrees.symm.trans heq)
    exact .active hr hactive
  · obtain rfl := Except.error.inj (htrees.symm.trans heq)
    exact .cyclicDerivation hr hmem
  rw [htrees] at heq
  rcases h.bases_cases hid with
    ⟨bases, hunwinds, hknows, hbases⟩ | ⟨x, s, hx, hstuck, hbases⟩ | hcircles
  · cases hgather : gather (c.trees depth (id :: path)) r.state.leaf bases with
    | ok below => simp [hbases, hgather, Except.bind, Except.map] at heq
    | error e' =>
      obtain rfl : e = e' := by simpa [hbases, hgather, Except.bind, Except.map] using heq
      obtain ⟨child, hchild, herror⟩ := exists_of_gather_eq_error hgather
      exact .below hmem hbases hunwinds hchild (hknows child hchild) herror
  · obtain rfl : e = _ := by simpa [hbases, Except.bind] using heq
    exact .missingBasis hx hstuck
  · have hbases : c.bases id = .error .endless := hcircles.walk_eq_endless _ _
    obtain rfl : e = _ := by simpa [hbases, Except.bind] using heq
    exact .endless ⟨r, hr, hcompleted⟩ hcircles

/-- Below a path of distinct states, building trees does not end only if it comes to a completed
state whose walk goes in a circle. -/
theorem exists_circles_of_trees_eq_error (h : c.KnowsLinks) (hid : id < c.size)
    (hnodup : path.Nodup) (hpath : ∀ x ∈ path, x < c.size) (hdepth : c.size < depth + path.length)
    {e : TreeFailure π} (htrees : c.trees depth path id = .error e) :
    (∃ e', e = .error e') ∨
      e = .endless ∧ ∃ x, ReflTransGen c.Child id x ∧ c.IsCompleted x ∧ c.Circles x := by
  induction depth generalizing path id with
  | zero =>
    have := length_le_size hnodup hpath
    omega
  | succ depth ih =>
    cases h.fails hid htrees with
    | active | cyclicDerivation | missingBasis => exact .inl ⟨_, rfl⟩
    | endless hcompleted hcircles => exact .inr ⟨rfl, id, .refl, hcompleted, hcircles⟩
    | below hmem hbases _ hchild hlt herror =>
      have hdepth' : c.size < depth + (id :: path).length := by
        rw [List.length_cons]
        omega
      refine (ih hlt (List.nodup_cons.2 ⟨hmem, hnodup⟩) (List.forall_mem_cons.2 ⟨hid, hpath⟩)
        hdepth' herror).imp_right ?_
      rintro ⟨hendless, x, hx, hcircles⟩
      exact ⟨hendless, x, .head ⟨_, hbases, hchild⟩ hx, hcircles⟩

/-- A tree or an error comes of a state, or a completed state below has a walk in a circle. -/
theorem tree_cases (h : c.KnowsLinks) (hid : id < c.size) :
    (∃ t, c.tree id = .ok t) ∨ (∃ e, c.tree id = .error (.error e)) ∨
      c.tree id = .error .endless ∧
        ∃ x, ReflTransGen c.Child id x ∧ c.IsCompleted x ∧ c.Circles x := by
  obtain ⟨r, hr⟩ := exists_record?_of_lt_size hid
  rcases tree_eq_cases hr with ⟨e, htrees, htree⟩ | ⟨-, htree⟩ | ⟨t, -, htree⟩
  · rcases h.exists_circles_of_trees_eq_error hid List.nodup_nil (List.forall_mem_nil _) (by simp)
      htrees with ⟨e, rfl⟩ | ⟨rfl, hcircles⟩
    · exact .inr (.inl ⟨e, htree⟩)
    · exact .inr (.inr ⟨htree, hcircles⟩)
  · exact .inr (.inl ⟨_, htree⟩)
  · exact .inl ⟨t, htree⟩

end KnowsLinks

/-- **Building trees from any chart.** It ends with a tree or an error for all records exactly if no
walk back from a completed state goes in a circle. These are the walks that never end. A circle
through completed states is no reason not to end, but no tree comes of a state above one. -/
theorem Built.tree_ends_iff {S : ScoreAlgebra π α} (h : c.Built S) :
    ((∀ id < c.size, (∃ t, c.tree id = .ok t) ∨ ∃ e, c.tree id = .error (.error e)) ↔
      ∀ id, c.IsCompleted id → ¬ c.Circles id) ∧
    (∀ id < c.size, c.Circles id ↔ ∀ fuel found, c.walk fuel id found = .error .endless) ∧
    ∀ id < c.size, ∀ x, ReflTransGen c.Child id x → TransGen c.Child x x →
      ∀ t, c.tree id ≠ .ok t := by
  refine ⟨⟨fun hends id hcompleted hcircles => ?_, fun hnone id hid => ?_⟩,
    fun id hid => h.knowsLinks.circles_iff hid, fun id hid x hx haround t htree => ?_⟩
  · have hid : id < c.size := lt_size_of_record? hcompleted.choose_spec.1
    rcases hends id hid with ⟨t, ht⟩ | ⟨e, he⟩
    · simp [hcircles.tree_eq_endless hcompleted] at ht
    · simp [hcircles.tree_eq_endless hcompleted] at he
  · rcases h.knowsLinks.tree_cases hid with htree | herror | ⟨-, x, -, hcompleted, hcircles⟩
    · exact .inl htree
    · exact .inr herror
    · exact absurd hcircles (hnone x hcompleted)
  · exact trees_ne_ok hx haround t.forest (trees_of_tree_eq_ok htree)

end Chart

/-! ## Charts built by hand -/

namespace Examples

/-- A rule that expands a category to itself. -/
def selfRule : Rule Exact :=
  ⟨⟨.nonterminal "A", [.nonterminal "A"]⟩, 1⟩

/-- The rule matched between two positions. -/
def matchedSelf : State Exact where
  rule := selfRule
  position := 1
  origin := 0
  dot := selfRule.length
  dot_le := Nat.le_refl _
  origin_le := Nat.zero_le _

/-- A rule with its dot in front, and the rule with its dot moved over itself. -/
def loopChart : Chart Exact Exact :=
  ((((Chart.empty : Chart Exact Exact).add .probability (.begin selfRule 0) 1 1 none).chart.add
    .probability matchedSelf 1 1 none).chart.add .probability matchedSelf 1 1
      (some (.completed 0 1))).chart

/-- The matched rule with its dot moved from itself over itself. -/
def selfLinkedChart : Chart Exact Exact :=
  (((Chart.empty : Chart Exact Exact).add .probability matchedSelf 1 1 none).chart.add .probability
    matchedSelf 1 1 (some (.completed 0 0))).chart

end Examples

namespace Chart

/-- A state below itself is no reason not to end. -/
theorem Built.tree_ends_iff_loopChart :
    Examples.loopChart.Built (.probability : ScoreAlgebra Exact Exact) ∧
      TransGen Examples.loopChart.Child 1 1 ∧ (∀ t, Examples.loopChart.tree 1 ≠ .ok t) ∧
      ∀ id < Examples.loopChart.size, (∃ t, Examples.loopChart.tree id = .ok t) ∨
        ∃ e, Examples.loopChart.tree id = .error (.error e) := by
  have hbuilt : Examples.loopChart.Built (.probability : ScoreAlgebra Exact Exact) := by
    unfold Examples.loopChart
    refine .add (.add (.add .empty _ _ _ (by simp)) _ _ _ (by simp)) _ _ _ ?_
    rintro _ ⟨⟩
    refine ⟨Nat.zero_lt_succ 1, ?_⟩
    rintro _ ⟨⟩
    exact Nat.lt_succ_self 1
  have hloop : TransGen Examples.loopChart.Child 1 1 :=
    .single ⟨[.completed 1], rfl, List.mem_singleton_self _⟩
  obtain ⟨hends, -, haround⟩ := hbuilt.tree_ends_iff
  refine ⟨hbuilt, hloop, haround 1 (Nat.lt_succ_self 1) 1 .refl hloop, hends.2 ?_⟩
  -- Of the two states the walk back is done after at most one step.
  intro id hcompleted hcircles
  have hid : id < 2 := lt_size_of_record? hcompleted.choose_spec.1
  have hwalk := hcircles.walk_eq_endless 2 []
  obtain rfl | rfl := Nat.le_one_iff_eq_zero_or_eq_one.1 (Nat.le_of_lt_succ hid)
  · cases hwalk
  · cases hwalk

/-- The walk back from a state that was moved from itself never ends, and neither a tree nor an
error comes of the state. -/
theorem tree_selfLinkedChart :
    Examples.selfLinkedChart.Built (.probability : ScoreAlgebra Exact Exact) ∧
      0 < Examples.selfLinkedChart.size ∧
      ¬ ((∃ t, Examples.selfLinkedChart.tree 0 = .ok t) ∨
        ∃ e, Examples.selfLinkedChart.tree 0 = .error (.error e)) ∧
      ∀ fuel found, Examples.selfLinkedChart.walk fuel 0 found = .error .endless := by
  have hbuilt : Examples.selfLinkedChart.Built (.probability : ScoreAlgebra Exact Exact) := by
    unfold Examples.selfLinkedChart
    refine .add (.add .empty _ _ _ (by simp)) _ _ _ ?_
    rintro _ ⟨⟩
    refine ⟨Nat.zero_lt_one, ?_⟩
    rintro _ ⟨⟩
    exact Nat.zero_lt_one
  have htree : Examples.selfLinkedChart.tree 0 = .error .endless := rfl
  have hback : Examples.selfLinkedChart.GoesBack 0 0 :=
    ⟨.completed 0, .completed rfl (by decide) rfl⟩
  have hcircles : Examples.selfLinkedChart.Circles 0 := ⟨0, .refl, .single hback⟩
  refine ⟨hbuilt, Nat.zero_lt_one, ?_, hcircles.walk_eq_endless⟩
  rintro (⟨t, ht⟩ | ⟨e, he⟩)
  · simp [htree] at ht
  · simp [htree] at he

end Chart

end SemiringParsing
