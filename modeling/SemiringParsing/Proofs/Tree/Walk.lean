import SemiringParsing.Tree.Build

/-!
# Steps of building trees

What one step of building a tree comes to, as equations for each case.

The walk over first links goes back from a state (`Chart.Back`), is stuck there (`Chart.Stuck`), or
is done where the dot is in front. Trees for a state are an error, or what is gathered for its bases
under the node that it leaves (`Chart.trees_cases`). The top rule leaves no node, and tokens below
it leave no leaves (`State.node`, `State.leaf`). A tree is the forest that comes of this, unless
there is nothing in it (`Chart.tree_eq_cases`).
-/

namespace SemiringParsing

variable {π α : Type}

namespace State

variable {s : State π}

/-- What a token that moved the dot of a state leaves. Below the top rule it leaves nothing. -/
def leaf (s : State π) : Category → Forest :=
  if s.rule.left = .start then fun _ => .nil else .leaf

/-- The trees for a state with those below it. The top rule leaves no node. -/
def node (s : State π) (below : Forest) : Forest :=
  if s.rule.left = .start then below else .cons s.rule.left below .nil

theorem leaf_of_start (h : s.rule.left = .start) : s.leaf = fun _ => .nil :=
  if_pos h

theorem leaf_of_ne_start (h : s.rule.left ≠ .start) : s.leaf = .leaf :=
  if_neg h

theorem node_of_start (h : s.rule.left = .start) : s.node = id :=
  funext fun _ => if_pos h

theorem node_of_ne_start (h : s.rule.left ≠ .start) :
    s.node = fun below => .cons s.rule.left below .nil :=
  funext fun _ => if_neg h

theorem node_eq_nil_iff {below : Forest} :
    s.node below = .nil ↔ s.rule.left = .start ∧ below = .nil := by
  by_cases h : s.rule.left = .start
  · rw [node_of_start h, id_eq, and_iff_right h]
  · simp [node_of_ne_start h, h]

end State

namespace Chart

variable {c : Chart π α} {id before before' : StateId} {basis basis' : Basis}
  {bases bases' : List Basis} {r : Record π α}

/-! ## Walking back -/

/-- The first link of a state leads back to the state whose dot was moved, and names what moved it:
a completed state, or a token read as what was expected. -/
inductive Back (c : Chart π α) : StateId → Basis → StateId → Prop
  | completed {id before child : StateId} {r : Record π α} (hr : c.record? id = some r)
      (hdot : r.state.dot ≠ 0) (hlink : r.links.head? = some (.completed before child)) :
      Back c id (.completed child) before
  | scanned {id before : StateId} {r w : Record π α} {category : Category}
      (hr : c.record? id = some r) (hdot : r.state.dot ≠ 0)
      (hlink : r.links.head? = some (.scanned before)) (hw : c.record? before = some w)
      (hactive : w.state.active? = some category) :
      Back c id (.scanned category) before

theorem Back.walk (h : c.Back id basis before) (fuel : Nat) (found : List Basis) :
    c.walk (fuel + 1) id found = c.walk fuel before (basis :: found) := by
  cases h with
  | completed hr hdot hlink =>
    rw [Chart.walk, (c.record_eq_ok id).2 hr]
    simp only [hdot, if_false, hlink, Link.completed]
  | scanned hr hdot hlink hw hactive =>
    rw [Chart.walk, (c.record_eq_ok id).2 hr]
    simp only [hdot, if_false, hlink, Link.scanned, (c.record_eq_ok before).2 hw, hactive]

/-- The walk cannot go on from a state. Its dot was moved, but it has no link, or its first link
names a token and a state that expects nothing. -/
inductive Stuck (c : Chart π α) : StateId → State π → Prop
  | unlinked {id : StateId} {r : Record π α} (hr : c.record? id = some r)
      (hdot : r.state.dot ≠ 0) (hlink : r.links.head? = none) : Stuck c id r.state
  | unread {id before : StateId} {r w : Record π α} (hr : c.record? id = some r)
      (hdot : r.state.dot ≠ 0) (hlink : r.links.head? = some (.scanned before))
      (hw : c.record? before = some w) (hactive : w.state.active? = none) : Stuck c id w.state

theorem Stuck.walk {s : State π} (h : c.Stuck id s) (fuel : Nat) (found : List Basis) :
    c.walk (fuel + 1) id found = .error (.error (.missingBasis s)) := by
  cases h with
  | unlinked hr hdot hlink =>
    rw [Chart.walk, (c.record_eq_ok id).2 hr]
    simp only [hdot, if_false, hlink]
  | unread hr hdot hlink hw hactive =>
    rw [Chart.walk, (c.record_eq_ok id).2 hr]
    simp only [hdot, if_false, hlink, Link.scanned, (c.record_eq_ok _).2 hw, hactive]

theorem walk_of_dot_eq_zero (hr : c.record? id = some r) (hdot : r.state.dot = 0) (fuel : Nat)
    (found : List Basis) : c.walk (fuel + 1) id found = .ok found := by
  rw [walk, (c.record_eq_ok id).2 hr]
  simp only [hdot, if_true]

/-- Walking back from a state to one with its dot in front comes upon some bases. -/
inductive Unwinds (c : Chart π α) : StateId → List Basis → Prop
  | front {id : StateId} {r : Record π α} (hr : c.record? id = some r) (hdot : r.state.dot = 0) :
      Unwinds c id []
  | back {id before : StateId} {basis : Basis} {bases : List Basis}
      (hback : c.Back id basis before) (hbefore : Unwinds c before bases) :
      Unwinds c id (bases ++ [basis])

theorem Back.dot_ne_zero (h : c.Back id basis before) (hr : c.record? id = some r) :
    r.state.dot ≠ 0 := by
  cases h with
  | completed hr' hdot => exact Option.some.inj (hr'.symm.trans hr) ▸ hdot
  | scanned hr' hdot => exact Option.some.inj (hr'.symm.trans hr) ▸ hdot

/-- A walk that goes back is not stuck. -/
theorem Back.not_stuck (h : c.Back id basis before) (s : State π) : ¬ c.Stuck id s := by
  intro hstuck
  cases h with
  | completed hr _ hlink =>
    cases hstuck with
    | unlinked hr' _ hlink' =>
      obtain rfl := Option.some.inj (hr.symm.trans hr')
      simp [hlink] at hlink'
    | unread hr' _ hlink' =>
      obtain rfl := Option.some.inj (hr.symm.trans hr')
      simp [hlink, Link.completed, Link.scanned] at hlink'
  | scanned hr _ hlink hw hactive =>
    cases hstuck with
    | unlinked hr' _ hlink' =>
      obtain rfl := Option.some.inj (hr.symm.trans hr')
      simp [hlink] at hlink'
    | unread hr' _ hlink' hw' hactive' =>
      obtain rfl := Option.some.inj (hr.symm.trans hr')
      obtain rfl : before = _ := by simpa [hlink, Link.scanned] using hlink'
      obtain rfl := Option.some.inj (hw.symm.trans hw')
      simp [hactive] at hactive'

/-- A walk goes back in one way. -/
theorem Back.unique (h : c.Back id basis before)
    (h' : c.Back id basis' before') : basis = basis' ∧ before = before' := by
  cases h with
  | completed hr _ hlink =>
    cases h' with
    | completed hr' _ hlink' =>
      obtain rfl := Option.some.inj (hr.symm.trans hr')
      simpa [hlink, Link.completed, and_comm] using hlink'
    | scanned hr' _ hlink' =>
      obtain rfl := Option.some.inj (hr.symm.trans hr')
      simp [hlink, Link.completed, Link.scanned] at hlink'
  | scanned hr _ hlink hw hactive =>
    cases h' with
    | completed hr' _ hlink' =>
      obtain rfl := Option.some.inj (hr.symm.trans hr')
      simp [hlink, Link.completed, Link.scanned] at hlink'
    | scanned hr' _ hlink' hw' hactive' =>
      obtain rfl := Option.some.inj (hr.symm.trans hr')
      obtain rfl : before = before' := by simpa [hlink, Link.scanned] using hlink'
      obtain rfl := Option.some.inj (hw.symm.trans hw')
      simpa [hactive] using hactive'

theorem Unwinds.unique (h : c.Unwinds id bases) (h' : c.Unwinds id bases') : bases = bases' := by
  induction h generalizing bases' with
  | front hr hdot =>
    cases h' with
    | front => rfl
    | back hback => exact absurd hdot (hback.dot_ne_zero hr)
  | back hback _ ih =>
    cases h' with
    | front hr hdot => exact absurd hdot (hback.dot_ne_zero hr)
    | back hback' hbefore =>
      obtain ⟨rfl, rfl⟩ := hback.unique hback'
      rw [ih hbefore]

/-! ## Gathering trees -/

section Gather

variable {below : StateId → Except (TreeFailure π) Forest} {leaf : Category → Forest}
  {bases : List Basis}

theorem gather_scanned_eq_ok {category : Category} {f : Forest} :
    gather below leaf (.scanned category :: bases) = .ok f ↔
      ∃ beside, gather below leaf bases = .ok beside ∧ f = leaf category ++ beside := by
  rw [gather]
  cases gather below leaf bases <;> simp [eq_comm]

theorem gather_completed_eq_ok {child : StateId} {f : Forest} :
    gather below leaf (.completed child :: bases) = .ok f ↔ ∃ first beside,
      below child = .ok first ∧ gather below leaf bases = .ok beside ∧ f = first ++ beside := by
  rw [gather]
  cases below child with
  | error e => simp
  | ok first => cases gather below leaf bases <;> simp [eq_comm]

/-- Trees are gathered if there are trees for all completed states. -/
theorem exists_of_gather_eq_ok {f : Forest} (h : gather below leaf bases = .ok f) :
    ∀ child, .completed child ∈ bases → ∃ g, below child = .ok g := by
  induction bases generalizing f with
  | nil => exact fun _ hmem => absurd hmem List.not_mem_nil
  | cons basis bases ih =>
    intro child hmem
    cases basis with
    | scanned category =>
      obtain ⟨beside, hrest, -⟩ := gather_scanned_eq_ok.1 h
      exact ih hrest child ((List.mem_cons.1 hmem).resolve_left (by simp))
    | completed id =>
      obtain ⟨first, beside, hfirst, hrest, -⟩ := gather_completed_eq_ok.1 h
      rcases List.mem_cons.1 hmem with heq | hmem
      · cases heq
        exact ⟨first, hfirst⟩
      · exact ih hrest child hmem

/-- How gathering fails is how one of the completed states does. -/
theorem exists_of_gather_eq_error {e : TreeFailure π} (h : gather below leaf bases = .error e) :
    ∃ child, .completed child ∈ bases ∧ below child = .error e := by
  induction bases with
  | nil => simp [gather] at h
  | cons basis bases ih =>
    have hrest : gather below leaf bases = .error e → ∃ child,
        .completed child ∈ basis :: bases ∧ below child = .error e := by
      intro hrest
      obtain ⟨child, hmem, hchild⟩ := ih hrest
      exact ⟨child, List.mem_cons_of_mem _ hmem, hchild⟩
    cases basis with
    | scanned category =>
      rw [gather] at h
      split at h
      · next he => exact hrest (he.trans h)
      · simp at h
    | completed id =>
      rw [gather] at h
      split at h
      · next he => exact ⟨id, List.mem_cons_self, he.trans h⟩
      · split at h
        · next he => exact hrest (he.trans h)
        · simp at h

end Gather

/-! ## Trees for a state -/

variable {depth : Nat} {path : List StateId}

/-- An active state has no trees. -/
theorem trees_of_active (hr : c.record? id = some r) (hactive : r.state.isCompleted = false) :
    c.trees (depth + 1) path id = .error (.error (.active r.state)) := by
  rw [trees, (c.record_eq_ok id).2 hr]
  simp only [hactive, Bool.not_false, if_true]

/-- A state on the path is below itself. -/
theorem trees_of_mem_path (hr : c.record? id = some r) (hcompleted : r.state.isCompleted = true)
    (hmem : id ∈ path) :
    c.trees (depth + 1) path id = .error (.error (.cyclicDerivation r.state)) := by
  rw [trees, (c.record_eq_ok id).2 hr]
  simp only [hcompleted, Bool.not_true, Bool.false_eq_true, if_false, hmem, if_true]

/-- The trees for another state are those for its bases, under its node. -/
theorem trees_of_notMem_path (hr : c.record? id = some r)
    (hcompleted : r.state.isCompleted = true) (hmem : id ∉ path) :
    c.trees (depth + 1) path id = (c.bases id).bind fun bases =>
      (gather (c.trees depth (id :: path)) r.state.leaf bases).map r.state.node := by
  rw [trees, (c.record_eq_ok id).2 hr]
  simp only [hcompleted, Bool.not_true, Bool.false_eq_true, if_false, hmem]
  cases c.bases id with
  | error e => rfl
  | ok bases =>
    by_cases hstart : r.state.rule.left = .start
    · rw [State.leaf_of_start hstart, State.node_of_start hstart]
      simp only [hstart, if_true]
      exact (congrFun Except.map_id _).symm
    · rw [State.leaf_of_ne_start hstart, State.node_of_ne_start hstart]
      simp only [hstart, if_false]
      rfl

/-- What trees for a state come to: an error for an active state or one on the path, or what is
gathered for the bases. -/
theorem trees_cases (hr : c.record? id = some r) (depth : Nat) (path : List StateId) :
    (r.state.isCompleted = false ∧
      c.trees (depth + 1) path id = .error (.error (.active r.state))) ∨
    (r.state.isCompleted = true ∧ id ∈ path ∧
      c.trees (depth + 1) path id = .error (.error (.cyclicDerivation r.state))) ∨
    (r.state.isCompleted = true ∧ id ∉ path ∧
      c.trees (depth + 1) path id = (c.bases id).bind fun bases =>
        (gather (c.trees depth (id :: path)) r.state.leaf bases).map r.state.node) := by
  cases hcompleted : r.state.isCompleted with
  | false => exact .inl ⟨rfl, trees_of_active hr hcompleted⟩
  | true =>
    by_cases hmem : id ∈ path
    · exact .inr (.inl ⟨rfl, hmem, trees_of_mem_path hr hcompleted hmem⟩)
    · exact .inr (.inr ⟨rfl, hmem, trees_of_notMem_path hr hcompleted hmem⟩)

/-- There are trees for a state only if it is completed and not on the path, and has bases for which
they are gathered. -/
theorem exists_of_trees_eq_ok {f : Forest} (h : c.trees depth path id = .ok f) :
    ∃ depth' r bases below, depth = depth' + 1 ∧ c.record? id = some r ∧
      r.state.isCompleted = true ∧ id ∉ path ∧ c.bases id = .ok bases ∧
      gather (c.trees depth' (id :: path)) r.state.leaf bases = .ok below ∧
      f = r.state.node below := by
  cases depth with
  | zero => simp [trees] at h
  | succ depth =>
    cases hrecord : c.record id with
    | error e => simp [trees, hrecord] at h
    | ok r =>
      have hr := (c.record_eq_ok id).1 hrecord
      rcases trees_cases hr depth path with ⟨-, he⟩ | ⟨-, -, he⟩ | ⟨hcompleted, hmem, heq⟩
      · simp [h] at he
      · simp [h] at he
      · rw [h] at heq
        cases hbases : c.bases id with
        | error e => simp [hbases, Except.bind] at heq
        | ok bases =>
          cases hgather : gather (c.trees depth (id :: path)) r.state.leaf bases with
          | error e => simp [hbases, hgather, Except.bind, Except.map] at heq
          | ok below =>
            simp only [hbases, hgather, Except.bind, Except.map, Except.ok.injEq] at heq
            exact ⟨depth, r, bases, below, rfl, hr, hcompleted, hmem, rfl, hgather, heq⟩

/-! ## The tree of a state -/

/-- What the tree of a state comes to: the error that its trees end in, an error if there are no
nodes, or the tree that its trees make up. -/
theorem tree_eq_cases (hr : c.record? id = some r) :
    (∃ e, c.trees (c.size + 1) [] id = .error e ∧ c.tree id = .error e) ∨
    (c.trees (c.size + 1) [] id = .ok .nil ∧
      c.tree id = .error (.error (.missingBasis r.state))) ∨
    ∃ t, c.trees (c.size + 1) [] id = .ok t.forest ∧ c.tree id = .ok t := by
  rw [tree, (c.record_eq_ok id).2 hr]
  cases c.trees (c.size + 1) [] id with
  | error e => exact .inl ⟨e, rfl, rfl⟩
  | ok f =>
    cases f with
    | nil => exact .inr (.inl ⟨rfl, rfl⟩)
    | cons category below beside => exact .inr (.inr ⟨⟨category, below, beside⟩, rfl, rfl⟩)

theorem tree_of_trees_eq_ok {t : ParseTree} (hr : c.record? id = some r)
    (h : c.trees (c.size + 1) [] id = .ok t.forest) : c.tree id = .ok t := by
  rw [tree, (c.record_eq_ok id).2 hr]
  simp only [h, ParseTree.forest, ParseTree.ofForest?]

theorem tree_of_trees_eq_error {e : TreeFailure π} (hr : c.record? id = some r)
    (h : c.trees (c.size + 1) [] id = .error e) : c.tree id = .error e := by
  rw [tree, (c.record_eq_ok id).2 hr]
  simp only [h]

/-- A number that has a tree is that of a record. -/
theorem exists_record?_of_tree_eq_ok {t : ParseTree} (h : c.tree id = .ok t) :
    ∃ r, c.record? id = some r := by
  cases hrecord : c.record id with
  | error e => simp [tree, hrecord] at h
  | ok r => exact ⟨r, (c.record_eq_ok id).1 hrecord⟩

/-- The trees that a tree is made of. -/
theorem trees_of_tree_eq_ok {t : ParseTree} (h : c.tree id = .ok t) :
    c.trees (c.size + 1) [] id = .ok t.forest := by
  obtain ⟨r, hr⟩ := exists_record?_of_tree_eq_ok h
  rcases tree_eq_cases hr with ⟨e, -, heq⟩ | ⟨-, heq⟩ | ⟨t', htrees, heq⟩
  · simp [h] at heq
  · simp [h] at heq
  · obtain rfl : t = t' := Except.ok.inj (h.symm.trans heq)
    exact htrees

end Chart

end SemiringParsing
