import SemiringParsing.Proofs.Tree.Arena

/-!
# Trees from charts whose links step back

In a chart with links of any kind the walk back over first links may not end. It does where each
link leads from a state to one with its dot one category before (`Chart.Stepped`). The completed
states that links name can still be any, so states can be below themselves.

For such charts it is said here what comes of each state. The states below it are those that first
links name, on the chain back from it, on the chains back from these, and so on (`Chart.Below`). A
tree comes of it if there is nothing amiss with any of them (`Chart.Unfoldable`), and it is what
the first links unfold to (`Chart.Unfolds`). An error names a state below with which something is
amiss (`Chart.Obstructed`).

Building trees keeps the path of the states above, which are those that the state is below. So a
state on the path is below itself. A state that comes twice, but not below itself, is unfolded twice.
-/

namespace SemiringParsing

open Relation

variable {π α : Type}

namespace Chart

/-! ## Links -/

/-- Each link names a state with its dot one category before, and any completed state. -/
def Stepped (c : Chart π α) : Prop :=
  ∀ id r, c.record? id = some r → ∀ link ∈ r.links,
    (∃ w, c.record? link.predecessor = some w ∧ w.state.dot + 1 = r.state.dot) ∧
      ∀ child, link.completed? = some child → child < c.size

theorem stepped_iff {c : Chart π α} : c.Stepped ↔ ∀ r ∈ c.records.toList, ∀ link ∈ r.links,
    (∃ w ∈ c.record? link.predecessor, w.state.dot + 1 = r.state.dot) ∧
      ∀ child ∈ link.completed?, child < c.size := by
  constructor
  · intro h r hmem link hlink
    obtain ⟨id, hr⟩ := List.mem_iff_getElem?.1 hmem
    exact h id r (by rw [record?, ← Array.getElem?_toList, hr]) link hlink
  · intro h id r hr link hlink
    rw [record?, ← Array.getElem?_toList] at hr
    exact h r (List.mem_of_getElem? hr) link hlink

instance (c : Chart π α) : Decidable c.Stepped :=
  decidable_of_iff _ stepped_iff.symm

/-- The first link of a state. -/
def firstLink? (c : Chart π α) (id : StateId) : Option Link :=
  (c.record? id).bind fun r => r.links.head?

/-- A state is on the chain of first links back from another. -/
def OnChain (c : Chart π α) : StateId → StateId → Prop :=
  ReflTransGen fun id before => (c.firstLink? id).map Link.predecessor = some before

/-- The first link of a state on the chain names a completed state. -/
def HasChild (c : Chart π α) (id child : StateId) : Prop :=
  ∃ x link, c.OnChain id x ∧ c.firstLink? x = some link ∧ link.completed? = some child

/-- The states that are reached through children. -/
def Below (c : Chart π α) : StateId → StateId → Prop :=
  ReflTransGen c.HasChild

/-- Nothing is amiss with the states below a state. -/
structure Unfoldable (c : Chart π α) (id : StateId) : Prop where
  completed : ∀ x, c.Below id x → c.IsCompleted x
  /-- On the way back the states whose dot was moved have links. -/
  linked : ∀ x, c.Below id x → ∀ y, c.OnChain x y → ∀ r, c.record? y = some r →
    0 < r.state.dot → r.links ≠ []
  /-- A state from which a token moved the dot expected something. -/
  read : ∀ x, c.Below id x → ∀ y, c.OnChain x y → ∀ before w,
    c.firstLink? y = some (.scanned before) → c.record? before = some w →
      ∃ category, w.state.active? = some category
  acyclic : ∀ x, c.Below id x → ¬ TransGen c.HasChild x x
  /-- Some state leaves a node. -/
  node : ∃ x r, c.Below id x ∧ c.record? x = some r ∧ r.state.rule.left ≠ .start

/-- What some bases unfold to, from left to right, when each token leaves a given forest. A completed
state unfolds to its node over what its own bases unfold to, and one of the top rule to that
alone. -/
inductive Unfolds (c : Chart π α) : (leaf : Category → Forest) → List Basis → Forest → Prop
  | nil {leaf : Category → Forest} : Unfolds c leaf [] .nil
  | scanned {leaf : Category → Forest} {category : Category} {bases : List Basis} {beside : Forest}
      (hbeside : Unfolds c leaf bases beside) :
      Unfolds c leaf (.scanned category :: bases) (leaf category ++ beside)
  | completed {leaf : Category → Forest} {id : StateId} {r : Record π α}
      {bases bases' : List Basis} {below beside : Forest} (hr : c.record? id = some r)
      (hunwinds : c.Unwinds id bases') (hbelow : Unfolds c r.state.leaf bases' below)
      (hbeside : Unfolds c leaf bases beside) :
      Unfolds c leaf (.completed id :: bases) (r.state.node below ++ beside)

/-- What a completed state unfolds to. -/
def UnfoldsTo (c : Chart π α) (id : StateId) (f : Forest) : Prop :=
  c.Unfolds (fun _ => .nil) [.completed id] f

/-- An error names a state below with which something is amiss. -/
inductive Obstructed (c : Chart π α) (id : StateId) : TreeError π → Prop
  | active {x : StateId} {r : Record π α} (hx : c.Below id x) (hr : c.record? x = some r)
      (hactive : r.state.isCompleted = false) : Obstructed c id (.active r.state)
  | cyclicDerivation {x : StateId} {r : Record π α} (hx : c.Below id x)
      (hr : c.record? x = some r) (haround : TransGen c.HasChild x x) :
      Obstructed c id (.cyclicDerivation r.state)
  | missingBasis {x y : StateId} {s : State π} (hx : c.Below id x) (hy : c.OnChain x y)
      (hstuck : c.Stuck y s) : Obstructed c id (.missingBasis s)

variable {c : Chart π α} {id before child : StateId} {basis : Basis} {bases bases' : List Basis}
  {r : Record π α}

theorem Stepped.knowsLinks (h : c.Stepped) : c.KnowsLinks := by
  intro id r hr link hmem
  obtain ⟨⟨w, hw, -⟩, hchild⟩ := h id r hr link hmem
  exact ⟨lt_size_of_record? hw, hchild⟩

theorem firstLink?_eq (hr : c.record? id = some r) : c.firstLink? id = r.links.head? := by
  rw [firstLink?, hr, Option.bind_some]

/-- A step back is over the first link. -/
theorem Back.exists_firstLink? (h : c.Back id basis before) :
    ∃ link, c.firstLink? id = some link ∧ link.predecessor = before ∧
      ∀ child, link.completed? = some child ↔ basis = .completed child := by
  cases h with
  | completed hr hdot hlink =>
    refine ⟨_, (firstLink?_eq hr).trans hlink, rfl, fun child' => ?_⟩
    simp [Link.completed]
  | scanned hr hdot hlink hw hactive =>
    refine ⟨_, (firstLink?_eq hr).trans hlink, rfl, fun child' => ?_⟩
    simp [Link.scanned]

/-- The dot goes back by one. -/
theorem Stepped.exists_dot (h : c.Stepped) (hback : c.Back id basis before) :
    ∃ r w, c.record? id = some r ∧ c.record? before = some w ∧
      w.state.dot + 1 = r.state.dot := by
  cases hback with
  | completed hr hdot hlink =>
    obtain ⟨⟨w, hw, hstep⟩, -⟩ := h _ _ hr _ (List.mem_of_mem_head? hlink)
    exact ⟨_, w, hr, hw, hstep⟩
  | scanned hr hdot hlink hw hactive =>
    obtain ⟨⟨w, hw, hstep⟩, -⟩ := h _ _ hr _ (List.mem_of_mem_head? hlink)
    exact ⟨_, w, hr, hw, hstep⟩

/-- Walks do not go in circles, since the dot goes back. -/
theorem Stepped.not_circles (h : c.Stepped) (id : StateId) : ¬ c.Circles id := by
  have hlt : ∀ x y, TransGen c.GoesBack x y → ∃ r w, c.record? x = some r ∧
      c.record? y = some w ∧ w.state.dot < r.state.dot := by
    intro x y hxy
    induction hxy with
    | single hback =>
      obtain ⟨r, w, hr, hw, hstep⟩ := h.exists_dot hback.choose_spec
      exact ⟨r, w, hr, hw, by omega⟩
    | tail _ hback ih =>
      obtain ⟨r, w, hr, hw, hlt⟩ := ih
      obtain ⟨w', v, hw', hv, hstep⟩ := h.exists_dot hback.choose_spec
      obtain rfl := Option.some.inj (hw.symm.trans hw')
      exact ⟨r, v, hr, hv, by omega⟩
  rintro ⟨x, -, haround⟩
  obtain ⟨r, w, hr, hw, hdot⟩ := hlt x x haround
  obtain rfl := Option.some.inj (hr.symm.trans hw)
  exact Nat.lt_irrefl _ hdot

/-- A state with its dot in front has no first link. -/
theorem Stepped.firstLink?_eq_none (h : c.Stepped) (hr : c.record? id = some r)
    (hdot : r.state.dot = 0) : c.firstLink? id = none := by
  rw [firstLink?_eq hr, List.head?_eq_none_iff, List.eq_nil_iff_forall_not_mem]
  intro link hmem
  obtain ⟨⟨w, -, hstep⟩, -⟩ := h id r hr link hmem
  omega

/-! ## Chains -/

theorem onChain_of_reflTransGen {x : StateId} (h : ReflTransGen c.GoesBack id x) :
    c.OnChain id x := by
  refine ReflTransGen.mono (fun id before hback => ?_) _ _ h
  obtain ⟨link, hlink, hpredecessor, -⟩ := hback.choose_spec.exists_firstLink?
  rw [hlink, Option.map_some, hpredecessor]

/-- The chain back from a state is the state and the chain back from its predecessor. -/
theorem onChain_iff {x : StateId} {link : Link} (hlink : c.firstLink? id = some link) :
    c.OnChain id x ↔ x = id ∨ c.OnChain link.predecessor x := by
  rw [OnChain, ReflTransGen.cases_head_iff]
  simp [hlink, eq_comm]

theorem onChain_iff_eq {x : StateId} (hlink : c.firstLink? id = none) :
    c.OnChain id x ↔ x = id := by
  rw [OnChain, ReflTransGen.cases_head_iff]
  simp [hlink, eq_comm]

/-- The children of a state are the completed states among its bases. -/
theorem Unwinds.hasChild_iff (h : c.Stepped) (hunwinds : c.Unwinds id bases) :
    c.HasChild id child ↔ .completed child ∈ bases := by
  induction hunwinds with
  | front hr hdot =>
    have hnone := h.firstLink?_eq_none hr hdot
    simp [HasChild, onChain_iff_eq hnone, hnone]
  | @back id before basis bases hback hunwinds ih =>
    obtain ⟨link, hlink, rfl, hbasis⟩ := hback.exists_firstLink?
    have hsplit : c.HasChild id child ↔
        link.completed? = some child ∨ c.HasChild link.predecessor child := by
      simp [HasChild, onChain_iff hlink, or_and_right, exists_or, hlink]
    rw [hsplit, ih, hbasis, List.mem_append, List.mem_singleton, or_comm, eq_comm]

/-- On a walk that comes to the front no state is one where it is stuck. -/
theorem Unwinds.not_stuck (h : c.Stepped) (hunwinds : c.Unwinds id bases) {x : StateId}
    (hx : c.OnChain id x) (s : State π) : ¬ c.Stuck x s := by
  induction hunwinds with
  | front hr hdot =>
    obtain rfl := (onChain_iff_eq (h.firstLink?_eq_none hr hdot)).1 hx
    rintro (⟨hr', hdot', -⟩ | ⟨hr', hdot', -, -, -⟩)
    · exact hdot' (Option.some.inj (hr.symm.trans hr') ▸ hdot)
    · exact hdot' (Option.some.inj (hr.symm.trans hr') ▸ hdot)
  | back hback hunwinds ih =>
    obtain ⟨link, hlink, rfl, -⟩ := hback.exists_firstLink?
    rcases (onChain_iff hlink).1 hx with rfl | hx
    · exact hback.not_stuck s
    · exact ih hx

/-- The bases that were found are those that the walk comes upon. -/
theorem Stepped.unwinds (h : c.Stepped) (hid : id < c.size) (hbases : c.bases id = .ok bases) :
    c.Unwinds id bases := by
  rcases h.knowsLinks.bases_cases hid with ⟨bases', hunwinds, -, heq⟩ | ⟨_, _, -, -, heq⟩ | hcircles
  · obtain rfl : bases = bases' := Except.ok.inj (hbases.symm.trans heq)
    exact hunwinds
  · simp [hbases] at heq
  · exact absurd hcircles (h.not_circles id)

/-! ## Unfolding -/

variable {leaf : Category → Forest} {f g : Forest}

theorem Unfolds.unique (h : c.Unfolds leaf bases f) (h' : c.Unfolds leaf bases g) : f = g := by
  induction h generalizing g with
  | nil =>
    cases h'
    rfl
  | scanned _ ih =>
    cases h' with
    | scanned hbeside => rw [ih hbeside]
  | completed hr hunwinds _ _ ihBelow ihBeside =>
    cases h' with
    | completed hr' hunwinds' hbelow hbeside =>
      obtain rfl := Option.some.inj (hr.symm.trans hr')
      obtain rfl := hunwinds.unique hunwinds'
      rw [ihBelow hbelow, ihBeside hbeside]

/-- What a state unfolds to are its trees with what its bases unfold to. -/
theorem unfoldsTo_iff : c.UnfoldsTo id f ↔ ∃ r bases below, c.record? id = some r ∧
    c.Unwinds id bases ∧ c.Unfolds r.state.leaf bases below ∧ f = r.state.node below := by
  constructor
  · rintro (_ | _ | ⟨hr, hunwinds, hbelow, ⟨⟩⟩)
    exact ⟨_, _, _, hr, hunwinds, hbelow, Forest.append_nil _⟩
  · rintro ⟨r, bases, below, hr, hunwinds, hbelow, rfl⟩
    have hunfolds : c.UnfoldsTo id (r.state.node below ++ .nil) :=
      .completed hr hunwinds hbelow .nil
    rwa [Forest.append_nil] at hunfolds

/-- What is gathered is what bases unfold to if it is so for the completed states among them. -/
theorem unfolds_of_gather_eq_ok {below : StateId → Except (TreeFailure π) Forest}
    (hbelow : ∀ child g, below child = .ok g → c.UnfoldsTo child g)
    (h : gather below leaf bases = .ok f) : c.Unfolds leaf bases f := by
  induction bases generalizing f with
  | nil =>
    obtain rfl : Forest.nil = f := by simpa [gather] using h
    exact .nil
  | cons basis bases ih =>
    cases basis with
    | scanned category =>
      obtain ⟨beside, hbeside, rfl⟩ := gather_scanned_eq_ok.1 h
      exact .scanned (ih hbeside)
    | completed child =>
      obtain ⟨first, beside, hfirst, hbeside, rfl⟩ := gather_completed_eq_ok.1 h
      obtain ⟨r, bases', g, hr, hunwinds, hg, rfl⟩ := unfoldsTo_iff.1 (hbelow child first hfirst)
      exact .completed hr hunwinds hg (ih hbeside)

variable {depth : Nat} {path : List StateId}

/-- The trees for a state are what it unfolds to. -/
theorem Stepped.unfoldsTo (h : c.Stepped) (htrees : c.trees depth path id = .ok f) :
    c.UnfoldsTo id f := by
  induction depth generalizing path id f with
  | zero => simp [trees] at htrees
  | succ depth ih =>
    obtain ⟨_, r, bases, below, ⟨⟩, hr, -, -, hbases, hgather, rfl⟩ := exists_of_trees_eq_ok htrees
    have hunwinds := h.unwinds (lt_size_of_record? hr) hbases
    exact unfoldsTo_iff.2 ⟨r, bases, below, hr, hunwinds,
      unfolds_of_gather_eq_ok (fun child g => ih) hgather, rfl⟩

/-- All states below are of the top rule, so that none leaves a node. -/
def OnlyTop (c : Chart π α) (id : StateId) : Prop :=
  ∀ x r, c.Below id x → c.record? x = some r → r.state.rule.left = .start

theorem onlyTop_iff (hr : c.record? id = some r) : c.OnlyTop id ↔
    r.state.rule.left = .start ∧ ∀ child, c.HasChild id child → c.OnlyTop child := by
  constructor
  · intro htop
    exact ⟨htop id r .refl hr, fun child hchild x r hx => htop x r (.head hchild hx)⟩
  · rintro ⟨hstart, hchildren⟩ x r' hx hr'
    rcases ReflTransGen.cases_head hx with rfl | ⟨child, hchild, hx⟩
    · exact Option.some.inj (hr.symm.trans hr') ▸ hstart
    · exact hchildren child hchild x r' hx hr'

/-- What bases unfold to has no node if tokens leave nothing and all states below are of the top
rule. -/
theorem Unfolds.eq_nil_iff (h : c.Stepped) (hunfolds : c.Unfolds leaf bases f) : f = .nil ↔
    (∀ category, .scanned category ∈ bases → leaf category = .nil) ∧
      ∀ child, .completed child ∈ bases → c.OnlyTop child := by
  induction hunfolds with
  | nil => simp
  | @scanned leaf category bases beside _ ih =>
    simp only [Forest.append_eq_nil_iff, ih, List.mem_cons, Basis.scanned.injEq,
      forall_eq_or_imp, reduceCtorEq, false_or, and_assoc]
  | @completed leaf id r bases bases' below beside hr hunwinds _ _ ihBelow ihBeside =>
    have hbelow : r.state.node below = .nil ↔ c.OnlyTop id := by
      rw [onlyTop_iff hr, State.node_eq_nil_iff, ihBelow]
      refine and_congr_right fun hstart => ?_
      simp only [State.leaf_of_start hstart, hunwinds.hasChild_iff h, implies_true, true_and]
    simp only [Forest.append_eq_nil_iff, hbelow, ihBeside, List.mem_cons, Basis.completed.injEq,
      forall_eq_or_imp, reduceCtorEq, false_or, and_left_comm]

/-! ## Where there are trees -/

variable {x : StateId} {e : TreeError π}

/-- Where there are trees for a state, its children are the completed states among its bases. -/
theorem Stepped.child_of_hasChild (h : c.Stepped) (htrees : c.trees depth path id = .ok f)
    (hchild : c.HasChild id child) : c.Child id child := by
  obtain ⟨_, r, bases, _, -, hr, -, -, hbases, -⟩ := exists_of_trees_eq_ok htrees
  exact ⟨bases, hbases, ((h.unwinds (lt_size_of_record? hr) hbases).hasChild_iff h).1 hchild⟩

theorem Stepped.reflTransGen_child (h : c.Stepped) (htrees : c.trees depth path id = .ok f)
    (hx : c.Below id x) : ReflTransGen c.Child id x := by
  induction hx with
  | refl => exact .refl
  | tail _ hchild ih =>
    obtain ⟨_, _, g, hg, -⟩ := exists_trees_eq_ok htrees ih
    exact ih.tail (h.child_of_hasChild hg hchild)

/-- With the states below a state for which there is a tree nothing is amiss. -/
theorem Stepped.unfoldable (h : c.Stepped) (htrees : c.trees depth path id = .ok f)
    (hne : f ≠ .nil) : c.Unfoldable id := by
  have hbelow : ∀ x, c.Below id x → ∃ depth' path' g, c.trees depth' path' x = .ok g := by
    intro x hx
    obtain ⟨depth', path', g, hg, -⟩ := exists_trees_eq_ok htrees (h.reflTransGen_child htrees hx)
    exact ⟨depth', path', g, hg⟩
  have hstuck : ∀ x, c.Below id x → ∀ y, c.OnChain x y → ∀ s, ¬ c.Stuck y s := by
    intro x hx y hy s
    obtain ⟨_, _, g, hg⟩ := hbelow x hx
    obtain ⟨_, r, bases, _, -, hr, -, -, hbases, -⟩ := exists_of_trees_eq_ok hg
    exact (h.unwinds (lt_size_of_record? hr) hbases).not_stuck h hy s
  refine ⟨fun x hx => ?_, fun x hx y hy r hr hdot hnil => ?_, fun x hx y hy before w hlink hw => ?_,
    fun x hx haround => ?_, ?_⟩
  · obtain ⟨_, _, g, hg⟩ := hbelow x hx
    obtain ⟨_, r, _, _, -, hr, hcompleted, -⟩ := exists_of_trees_eq_ok hg
    exact ⟨r, hr, hcompleted⟩
  · exact hstuck x hx y hy _ (.unlinked hr (Nat.ne_of_gt hdot) (by rw [hnil, List.head?_nil]))
  · obtain ⟨r, hr, hhead⟩ := Option.bind_eq_some_iff.1 hlink
    have hdot : r.state.dot ≠ 0 := by
      intro hdot
      simp [h.firstLink?_eq_none hr hdot] at hlink
    by_contra hnone
    exact hstuck x hx y hy _ (.unread hr hdot hhead hw
      (Option.eq_none_iff_forall_ne_some.2 fun category heq => hnone ⟨category, heq⟩))
  · obtain ⟨_, _, g, hg⟩ := hbelow x hx
    obtain ⟨y, hchild, hto⟩ := TransGen.head'_iff.1 haround
    obtain ⟨_, _, g', hg'⟩ := hbelow y (hx.tail hchild)
    have haround' : TransGen c.Child x x :=
      TransGen.head'_iff.2 ⟨y, h.child_of_hasChild hg hchild, h.reflTransGen_child hg' hto⟩
    exact trees_ne_ok (h.reflTransGen_child htrees hx) haround' f htrees
  · by_contra hnone
    refine hne (((h.unfoldsTo htrees).eq_nil_iff h).2 ⟨by simp, fun child hmem => ?_⟩)
    obtain rfl : child = id := by simpa using hmem
    exact fun x r hx hr => by_contra fun hleft => hnone ⟨x, r, hx, hr, hleft⟩

/-! ## Where there are none -/

/-- What is amiss below a child is amiss below the state. -/
theorem Obstructed.of_hasChild (hchild : c.HasChild id child) (h : c.Obstructed child e) :
    c.Obstructed id e := by
  cases h with
  | active hx hr hactive => exact .active (.head hchild hx) hr hactive
  | cyclicDerivation hx hr haround => exact .cyclicDerivation (.head hchild hx) hr haround
  | missingBasis hx hy hstuck => exact .missingBasis (.head hchild hx) hy hstuck

theorem Unfoldable.not_obstructed (h : c.Unfoldable id) : ¬ c.Obstructed id e := by
  intro hobstructed
  cases hobstructed with
  | active hx hr hactive =>
    obtain ⟨r', hr', hcompleted⟩ := h.completed _ hx
    obtain rfl := Option.some.inj (hr.symm.trans hr')
    exact Bool.false_ne_true (hactive.symm.trans hcompleted)
  | cyclicDerivation hx hr haround => exact h.acyclic _ hx haround
  | missingBasis hx hy hstuck =>
    cases hstuck with
    | unlinked hr hdot hlink =>
      exact h.linked _ hx _ hy _ hr (Nat.pos_of_ne_zero hdot) (List.head?_eq_none_iff.1 hlink)
    | unread hr hdot hlink hw hactive =>
      obtain ⟨category, hcategory⟩ := h.read _ hx _ hy _ _ ((firstLink?_eq hr).trans hlink) hw
      simp [hactive] at hcategory

/-- **An error names what is amiss.** The states on the path are those that the state is below, so
one that is on the path is below itself. -/
theorem Stepped.obstructed (h : c.Stepped) (hid : id < c.size)
    (hpath : ∀ p ∈ path, TransGen c.HasChild p id)
    (htrees : c.trees depth path id = .error (.error e)) : c.Obstructed id e := by
  induction depth generalizing path id with
  | zero => simp [trees] at htrees
  | succ depth ih =>
    cases h.knowsLinks.fails hid htrees with
    | active hr hactive => exact .active .refl hr hactive
    | cyclicDerivation hr hmem => exact .cyclicDerivation .refl hr (hpath id hmem)
    | missingBasis hx hstuck => exact .missingBasis .refl (onChain_of_reflTransGen hx) hstuck
    | below _ _ hunwinds hmem hlt herror =>
      have hchild := (hunwinds.hasChild_iff h).2 hmem
      exact .of_hasChild hchild (ih hlt
        (List.forall_mem_cons.2 ⟨.single hchild, fun p hp => (hpath p hp).tail hchild⟩) herror)

/-- An error in place of a tree is one in place of its trees, or there is none among them. -/
theorem Stepped.obstructed_of_tree_eq_error (h : c.Stepped) (hr : c.record? id = some r)
    (htree : c.tree id = .error (.error e)) :
    c.Obstructed id e ∨ e = .missingBasis r.state ∧ c.OnlyTop id := by
  rcases tree_eq_cases hr with ⟨e', htrees, heq⟩ | ⟨htrees, heq⟩ | ⟨t, -, heq⟩
  · obtain rfl : e' = .error e := Except.error.inj (heq.symm.trans htree)
    exact .inl (h.obstructed (lt_size_of_record? hr) (List.forall_mem_nil _) htrees)
  · have htop := (((h.unfoldsTo htrees).eq_nil_iff h).1 rfl).2 id (List.mem_singleton_self _)
    obtain rfl : e = .missingBasis r.state := by simpa [htree] using heq
    exact .inr ⟨rfl, htop⟩
  · simp [htree] at heq

/-- **What comes of a state.** The builder ends, with a tree or an error. It is a tree exactly if
nothing is amiss with the states below, and then the one that the state unfolds to. A derivation is
called cyclic only where a state below is below itself, and a state active only where one below
is. -/
theorem Stepped.tree_outcome (h : c.Stepped) (hid : id < c.size) :
    (((∃ t, c.tree id = .ok t) ∨ ∃ e, c.tree id = .error (.error e)) ∧
      ∃ n, ∀ fuel, c.arena (fuel + n) id = some ((c.tree id).map fun t => t.nodes.toArray)) ∧
    ((∃ t, c.tree id = .ok t) ↔ c.Unfoldable id) ∧
    (∀ t, c.tree id = .ok t → ∀ f, c.UnfoldsTo id f ↔ f = t.forest) ∧
    (∀ s, c.tree id = .error (.error (.cyclicDerivation s)) →
      ∃ x r, c.Below id x ∧ c.record? x = some r ∧ r.state = s ∧ TransGen c.HasChild x x) ∧
    ∀ s, c.tree id = .error (.error (.active s)) →
      ∃ x r, c.Below id x ∧ c.record? x = some r ∧ r.state = s ∧ r.state.isCompleted = false := by
  obtain ⟨r, hr⟩ := exists_record?_of_lt_size hid
  have hends : (∃ t, c.tree id = .ok t) ∨ ∃ e, c.tree id = .error (.error e) := by
    rcases h.knowsLinks.tree_cases hid with htree | herror | ⟨-, x, -, -, hcircles⟩
    · exact .inl htree
    · exact .inr herror
    · exact absurd hcircles (h.not_circles x)
  refine ⟨⟨hends, c.exists_arena_eq id⟩, ⟨?_, fun hunfoldable => ?_⟩, fun t htree f => ?_,
    fun s htree => ?_, fun s htree => ?_⟩
  · rintro ⟨t, htree⟩
    exact h.unfoldable (trees_of_tree_eq_ok htree) nofun
  · refine hends.resolve_right ?_
    rintro ⟨e, htree⟩
    rcases h.obstructed_of_tree_eq_error hr htree with hobstructed | ⟨-, htop⟩
    · exact hunfoldable.not_obstructed hobstructed
    · obtain ⟨x, r, hx, hr, hleft⟩ := hunfoldable.node
      exact hleft (htop x r hx hr)
  · have hunfolds := h.unfoldsTo (trees_of_tree_eq_ok htree)
    exact ⟨fun hf => hf.unique hunfolds, fun hf => hf ▸ hunfolds⟩
  · rcases h.obstructed_of_tree_eq_error hr htree with hobstructed | ⟨heq, -⟩
    · cases hobstructed with
      | cyclicDerivation hx hr haround => exact ⟨_, _, hx, hr, rfl, haround⟩
    · simp at heq
  · rcases h.obstructed_of_tree_eq_error hr htree with hobstructed | ⟨heq, -⟩
    · cases hobstructed with
      | active hx hr hactive => exact ⟨_, _, hx, hr, rfl, hactive⟩
    · simp at heq

end Chart

/-! ## A state that comes twice -/

namespace Examples

/-- A rule that expands a category to two of another. -/
def twiceRule : Rule Exact :=
  ⟨⟨.nonterminal "S", [.nonterminal "A", .nonterminal "A"]⟩, 1⟩

/-- A rule that expands that category to a token. -/
def onceRule : Rule Exact :=
  ⟨⟨.nonterminal "A", [.terminal "a"]⟩, 1⟩

/-- A rule matched up to a dot from the beginning of the input to a position. -/
def matchedTo (rule : Rule Exact) (position dot : Nat) (h : dot ≤ rule.length) : State Exact where
  rule := rule
  position := position
  origin := 0
  dot := dot
  dot_le := h
  origin_le := Nat.zero_le position

/-- A chart where the same completed state moved the dot twice. -/
def twiceChart : Chart Exact Exact :=
  let add (c : Chart Exact Exact) (s : State Exact) (link? : Option Link) :=
    (c.add .probability s 1 1 link?).chart
  let c := add .empty (.begin onceRule 0) none
  let c := add c (matchedTo onceRule 1 1 (by decide)) (some (.scanned 0))
  let c := add c (.begin twiceRule 0) none
  let c := add c (matchedTo twiceRule 1 1 (by decide)) (some (.completed 2 1))
  add c (matchedTo twiceRule 1 2 (by decide)) (some (.completed 3 1))

end Examples

/-- The same state twice beside itself is not below itself. It is unfolded twice. -/
theorem Chart.Stepped.tree_outcome_twiceChart :
    Examples.twiceChart.Stepped ∧ Examples.twiceChart.Unfoldable 4 ∧
      Examples.twiceChart.UnfoldsTo 4 (.cons (.nonterminal "S")
        (.cons (.nonterminal "A") (.leaf (.terminal "a"))
          (.cons (.nonterminal "A") (.leaf (.terminal "a")) .nil)) .nil) := by
  have hstepped : Examples.twiceChart.Stepped := by decide
  have htree : Examples.twiceChart.tree 4 = .ok ⟨.nonterminal "S",
      .cons (.nonterminal "A") (.leaf (.terminal "a"))
        (.cons (.nonterminal "A") (.leaf (.terminal "a")) .nil), .nil⟩ := rfl
  have hid : 4 < Examples.twiceChart.size := by decide
  obtain ⟨-, hok, hunfolds, -⟩ := Chart.Stepped.tree_outcome hstepped hid
  exact ⟨hstepped, hok.1 ⟨_, htree⟩, (hunfolds _ htree _).2 rfl⟩

end SemiringParsing
