import SemiringParsing.Proofs.Tree.Circles
import SemiringParsing.Proofs.Tree.Derivation
import SemiringParsing.Tree.Arena

/-!
# Building trees with a stack

The recursion of `Chart.trees` and the stack of a `TreeBuilder` do the same. What is on the stack
under the entering of a state is untouched until the state is left, and by then the nodes of its
trees have been added under the parent that the step names (`Arena.graft`), or the error that the
recursion ends in was found (`TreeBuilder.leads_enter`). The path is the path of the recursion, since
a state is taken from it when it is left.

So the builder ends for each state of each chart, with the nodes of the tree in preorder or with the
error that there is no tree for (`Chart.exists_arena_eq`).
-/

namespace SemiringParsing

/-! ## Adding forests to an array of nodes -/

namespace Forest

variable {f g : Forest} {first : Nat} {parent? : Option Nat}

theorem rootIds_append (f g : Forest) (first : Nat) :
    (f ++ g).rootIds first = f.rootIds first ++ g.rootIds (first + f.size) := by
  induction f generalizing first with
  | nil => rfl
  | cons c below beside _ ih =>
    rw [cons_append, rootIds, ih, rootIds, List.cons_append, size,
      show first + below.size + 1 + beside.size = first + (below.size + beside.size + 1) by omega]

theorem nodes_append (f g : Forest) (first : Nat) (parent? : Option Nat) :
    (f ++ g).nodes first parent? = f.nodes first parent? ++ g.nodes (first + f.size) parent? := by
  induction f generalizing first with
  | nil => rfl
  | cons c below beside _ ih =>
    rw [cons_append, nodes, ih, nodes, List.cons_append, List.append_assoc, size,
      show first + below.size + 1 + beside.size = first + (below.size + beside.size + 1) by omega]

end Forest

namespace Arena

variable {nodes more : Arena} {parent? : Option Nat} {ids ids' : List Nat} {f g : Forest}
  {category : Category}

/-- The parent is a node, if there is one. -/
def Holds (nodes : Arena) (parent? : Option Nat) : Prop :=
  ∀ parent, parent? = some parent → parent < nodes.size

/-- The nodes with those of a forest behind them, its roots as the last children of a parent. -/
def graft (nodes : Arena) (parent? : Option Nat) (f : Forest) : Arena :=
  nodes.adopt parent? (f.rootIds nodes.size) ++ (f.nodes nodes.size parent?).toArray

@[simp] theorem size_adopt : (nodes.adopt parent? ids).size = nodes.size := by
  cases parent? <;> simp [adopt]

@[simp] theorem size_graft : (nodes.graft parent? f).size = nodes.size + f.size := by
  simp [graft]

theorem holds_none (nodes : Arena) : nodes.Holds none := by
  rintro _ ⟨⟩

theorem Holds.graft (h : nodes.Holds parent?) : (nodes.graft parent? f).Holds parent? := by
  intro parent hparent
  rw [size_graft]
  exact Nat.lt_add_right _ (h parent hparent)

@[simp] theorem adopt_nil : nodes.adopt parent? [] = nodes := by
  cases parent? with
  | none => rfl
  | some parent =>
    refine Array.ext_getElem? fun i => ?_
    simp [adopt, Array.getElem?_modify]

theorem adopt_adopt :
    (nodes.adopt parent? ids).adopt parent? ids' = nodes.adopt parent? (ids ++ ids') := by
  cases parent? with
  | none => rfl
  | some parent =>
    refine Array.ext_getElem? fun i => ?_
    simp only [adopt, Array.getElem?_modify]
    split
    · simp [Function.comp_def]
    · rfl

/-- Nodes behind that of the parent do not matter. -/
theorem adopt_append (h : nodes.Holds parent?) :
    Arena.adopt (nodes ++ more) parent? ids = nodes.adopt parent? ids ++ more := by
  cases parent? with
  | none => rfl
  | some parent =>
    have hlt := h parent rfl
    refine Array.ext_getElem? fun i => ?_
    simp only [adopt, Array.getElem?_modify, Array.getElem?_append, Array.size_modify]
    by_cases hi : i < nodes.size
    · simp only [hi, if_true]
    · rw [if_neg hi, if_neg hi, if_neg]
      omega

/-- Children of the last node. -/
theorem adopt_push_size (nodes : Arena) (node : Node) (ids : List Nat) :
    Arena.adopt (nodes.push node) (some nodes.size) ids =
      nodes.push { node with children := node.children ++ ids } := by
  refine Array.ext_getElem? fun i => ?_
  simp only [adopt, Array.getElem?_modify, Array.getElem?_push]
  by_cases hi : i = nodes.size
  · simp only [hi, if_true, Option.map_some]
  · rw [if_neg (Ne.symm hi), if_neg hi, if_neg hi]

theorem addNode_eq_push (h : nodes.Holds parent?) :
    nodes.addNode category parent? =
      (nodes.adopt parent? [nodes.size]).push ⟨nodes.size, category, parent?, []⟩ := by
  rw [addNode, Array.push_eq_append, adopt_append h, ← Array.push_eq_append]

@[simp] theorem graft_nil : nodes.graft parent? .nil = nodes := by
  simp [graft, Forest.rootIds, Forest.nodes]

/-- The roots of two forests, one after the other, are those of the two together. -/
theorem graft_graft (h : nodes.Holds parent?) :
    (nodes.graft parent? f).graft parent? g = nodes.graft parent? (f ++ g) := by
  have hadopt : (nodes.adopt parent? (f.rootIds nodes.size)).Holds parent? := by
    simpa [Holds] using h
  rw [graft, size_graft, graft, adopt_append hadopt, adopt_adopt, Array.append_assoc, graft,
    Forest.rootIds_append, Forest.nodes_append, ← List.append_toArray]

theorem addNode_eq_graft (h : nodes.Holds parent?) :
    nodes.addNode category parent? = nodes.graft parent? (.leaf category) := by
  rw [addNode_eq_push h, Array.push_eq_append]
  rfl

/-- A node and then a forest below it are the tree of the two. -/
theorem graft_addNode (h : nodes.Holds parent?) :
    (nodes.addNode category parent?).graft (some nodes.size) f =
      nodes.graft parent? (.cons category f .nil) := by
  have hsize : (nodes.addNode category parent?).size = nodes.size + 1 := by simp [addNode]
  have hadopt : (nodes.addNode category parent?).adopt (some nodes.size)
      (f.rootIds (nodes.size + 1)) = (nodes.adopt parent? [nodes.size]).push
        ⟨nodes.size, category, parent?, f.rootIds (nodes.size + 1)⟩ := by
    rw [addNode_eq_push h]
    simpa using adopt_push_size (nodes.adopt parent? [nodes.size])
      ⟨nodes.size, category, parent?, []⟩ (f.rootIds (nodes.size + 1))
  rw [graft, hsize, hadopt, graft, Array.push_eq_append, Array.append_assoc]
  simp [Forest.nodes, Forest.rootIds]

end Arena

/-! ## The steps of a builder -/

variable {π α : Type}

namespace TreeBuilder

variable {c : Chart π α} {b b' : TreeBuilder} {outcome : Except (TreeFailure π) TreeBuilder}
  {nodes : Arena} {path : List StateId} {stack : List TreeStep} {parent? : Option Nat}

/-- Some steps lead from a builder to another one, or to an error. -/
def Leads (c : Chart π α) (b : TreeBuilder) : Except (TreeFailure π) TreeBuilder → Prop
  | .ok b' => ∃ n, ∀ fuel, run c (fuel + n) b = run c fuel b'
  | .error e => ∃ n, ∀ fuel, run c (fuel + n) b = some (.error e)

theorem Leads.refl (c : Chart π α) (b : TreeBuilder) : Leads c b (.ok b) :=
  ⟨0, fun _ => rfl⟩

theorem Leads.trans (h : Leads c b (.ok b')) (h' : Leads c b' outcome) : Leads c b outcome := by
  obtain ⟨n, hn⟩ := h
  cases outcome with
  | ok b'' =>
    obtain ⟨n', hn'⟩ := h'
    exact ⟨n' + n, fun fuel => by rw [← Nat.add_assoc, hn, hn']⟩
  | error e =>
    obtain ⟨n', hn'⟩ := h'
    exact ⟨n' + n, fun fuel => by rw [← Nat.add_assoc, hn, hn']⟩

/-- To what comes of it more steps can be added. -/
theorem Leads.map {β : Type} {result : Except (TreeFailure π) β} {g g' : β → TreeBuilder}
    (h : Leads c b (result.map g)) (h' : ∀ x, Leads c (g x) (.ok (g' x))) :
    Leads c b (result.map g') := by
  cases result with
  | error e => exact h
  | ok x => exact Leads.trans h (h' x)

/-- One step. -/
theorem Leads.perform (c : Chart π α) (nodes : Arena) (path : List StateId) (step : TreeStep)
    (stack : List TreeStep) :
    Leads c ⟨nodes, path, step :: stack⟩ (perform c ⟨nodes, path, stack⟩ step) := by
  cases h : TreeBuilder.perform c ⟨nodes, path, stack⟩ step with
  | ok b => exact ⟨1, fun fuel => by simp only [run, h]⟩
  | error e => exact ⟨1, fun fuel => by simp only [run, h]⟩

/-- A leaf is added. -/
theorem Leads.leaf (hholds : nodes.Holds parent?) (category : Category) :
    Leads c ⟨nodes, path, .leaf category parent? :: stack⟩
      (.ok ⟨nodes.graft parent? (.leaf category), path, stack⟩) := by
  rw [← Arena.addNode_eq_graft hholds]
  exact Leads.perform c nodes path (.leaf category parent?) stack

/-- A state is left. -/
theorem Leads.leave (c : Chart π α) (nodes : Arena) (path : List StateId) (id : StateId)
    (stack : List TreeStep) :
    Leads c ⟨nodes, id :: path, .leave id :: stack⟩ (.ok ⟨nodes, path, stack⟩) := by
  have hstep := Leads.perform c nodes (id :: path) (.leave id) stack
  rwa [TreeBuilder.perform, List.erase_cons_head] at hstep

section Below

variable {s : State π} {push : Basis → List TreeStep → List TreeStep}
  {below : StateId → Except (TreeFailure π) Forest} {bases : List Basis}

/-- What is put on the stack for a basis of a state is to enter it if it is a state, and otherwise
what adds the leaf of the token. -/
structure Pushes (c : Chart π α) (s : State π) (parent? : Option Nat)
    (push : Basis → List TreeStep → List TreeStep) : Prop where
  completed : ∀ id stack, push (.completed id) stack = .enter id parent? :: stack
  scanned : ∀ category nodes path stack, nodes.Holds parent? →
    Leads c ⟨nodes, path, push (.scanned category) stack⟩
      (.ok ⟨nodes.graft parent? (s.leaf category), path, stack⟩)

theorem pushTop_pushes (hstart : s.rule.left = .start) :
    Pushes c s parent? (pushTop parent?) where
  completed _ _ := rfl
  scanned category nodes path stack _ := by
    rw [State.leaf_of_start hstart, Arena.graft_nil]
    exact .refl c _

theorem pushBelow_pushes (hstart : s.rule.left ≠ .start) (node : Nat) :
    Pushes c s (some node) (pushBelow node) where
  completed _ _ := rfl
  scanned category nodes path stack hholds := by
    rw [State.leaf_of_ne_start hstart]
    exact .leaf hholds category

/-- What was put on the stack for some bases adds their trees, one after the other. -/
theorem leads_foldr (bases : List Basis) (stack : List TreeStep) (hpush : Pushes c s parent? push)
    (hbelow : ∀ id nodes stack, nodes.Holds parent? →
      Leads c ⟨nodes, path, .enter id parent? :: stack⟩
        ((below id).map fun f => ⟨nodes.graft parent? f, path, stack⟩))
    (hholds : nodes.Holds parent?) :
    Leads c ⟨nodes, path, bases.foldr push stack⟩
      ((Chart.gather below s.leaf bases).map fun f => ⟨nodes.graft parent? f, path, stack⟩) := by
  induction bases generalizing nodes with
  | nil =>
    rw [Chart.gather, Except.map, Arena.graft_nil]
    exact .refl c _
  | cons basis bases ih =>
    -- The trees of the other bases stand beside those of the first.
    have hbeside : ∀ first, Leads c ⟨nodes.graft parent? first, path, bases.foldr push stack⟩
        ((Chart.gather below s.leaf bases).map fun f =>
          ⟨nodes.graft parent? (first ++ f), path, stack⟩) := by
      intro first
      simpa only [Arena.graft_graft hholds] using ih (hholds.graft (f := first))
    rw [List.foldr_cons]
    cases basis with
    | scanned category =>
      have hleaf := hpush.scanned category nodes path (bases.foldr push stack) hholds
      have h := hleaf.trans (hbeside (s.leaf category))
      rw [Chart.gather]
      cases hgather : Chart.gather below s.leaf bases with
      | error e => simpa only [hgather, Except.map] using h
      | ok beside => simpa only [hgather, Except.map] using h
    | completed id =>
      have hfirst := hbelow id nodes (bases.foldr push stack) hholds
      rw [hpush.completed, Chart.gather]
      cases hid : below id with
      | error e => simpa only [hid, Except.map] using hfirst
      | ok first =>
        rw [hid] at hfirst
        have h := Leads.trans hfirst (hbeside first)
        cases hgather : Chart.gather below s.leaf bases with
        | error e => simpa only [hgather, Except.map] using h
        | ok beside => simpa only [hgather, Except.map] using h

end Below

variable {id : StateId} {r : Record π α} {bases : List Basis}

/-- What entering a state puts on the stack adds the trees below it under the node that its trees
need, or under the parent if they need none. -/
theorem enter_eq_ok (hr : c.record? id = some r) (hcompleted : r.state.isCompleted = true)
    (hmem : id ∉ path) (hbases : c.bases id = .ok bases) (hholds : nodes.Holds parent?)
    (stack : List TreeStep) :
    ∃ nodes' parent' push,
      enter c ⟨nodes, path, stack⟩ id parent? =
        .ok ⟨nodes', id :: path, bases.foldr push (.leave id :: stack)⟩ ∧
      nodes'.Holds parent' ∧ Pushes c r.state parent' push ∧
      ∀ f, nodes'.graft parent' f = nodes.graft parent? (r.state.node f) := by
  have hrecord := (c.record_eq_ok id).2 hr
  by_cases hstart : r.state.rule.left = .start
  · refine ⟨nodes, parent?, pushTop parent?, ?_, hholds, pushTop_pushes hstart, fun f => ?_⟩
    · simp only [enter, hrecord, hcompleted, hmem, hbases, hstart, Bool.not_true,
        Bool.false_eq_true, if_false, if_true]
    · rw [State.node_of_start hstart, id_eq]
  · refine ⟨nodes.addNode r.state.rule.left parent?, some nodes.size, pushBelow nodes.size, ?_, ?_,
      pushBelow_pushes hstart nodes.size, fun f => ?_⟩
    · simp only [enter, hrecord, hcompleted, hmem, hbases, hstart, Bool.not_true,
        Bool.false_eq_true, if_false]
    · rintro _ ⟨⟩
      simp [Arena.addNode]
    · rw [State.node_of_ne_start hstart, Arena.graft_addNode hholds]

/-- **The stack does what the recursion does.** Entering a state leads to where it is left, with its
trees under the parent, or to the error that the recursion ends in. -/
theorem leads_enter (depth : Nat) (hdepth : c.size < depth + path.length) (hnodup : path.Nodup)
    (hpath : ∀ x ∈ path, x < c.size) (hholds : nodes.Holds parent?) :
    Leads c ⟨nodes, path, .enter id parent? :: stack⟩
      ((c.trees depth path id).map fun f => ⟨nodes.graft parent? f, path, stack⟩) := by
  induction depth generalizing path id nodes parent? stack with
  | zero =>
    have := Chart.length_le_size hnodup hpath
    omega
  | succ depth ih =>
    have hstep := Leads.perform c nodes path (.enter id parent?) stack
    rw [TreeBuilder.perform] at hstep
    cases hrecord : c.record id with
    | error e =>
      rw [Chart.trees, hrecord]
      simpa only [enter, hrecord, Except.map] using hstep
    | ok r =>
      have hr := (c.record_eq_ok id).1 hrecord
      rcases c.trees_cases hr depth path with
        ⟨hactive, htrees⟩ | ⟨hcompleted, hmem, htrees⟩ | ⟨hcompleted, hmem, htrees⟩
      · simpa only [htrees, enter, hrecord, hactive, Bool.not_false, if_true, Except.map] using hstep
      · simpa only [htrees, enter, hrecord, hcompleted, hmem, Bool.not_true, Bool.false_eq_true,
          if_false, if_true, Except.map] using hstep
      · cases hbases : c.bases id with
        | error e =>
          simpa only [htrees, enter, hrecord, hcompleted, hmem, hbases, Bool.not_true,
            Bool.false_eq_true, if_false, Except.map, Except.bind] using hstep
        | ok bases =>
          obtain ⟨nodes', parent', push, henter, hholds', hpush, hgraft⟩ :=
            enter_eq_ok hr hcompleted hmem hbases hholds stack
          rw [henter] at hstep
          have hbelow := leads_foldr bases (.leave id :: stack) hpush
            (fun child nodes stack hholds =>
              ih (by rw [List.length_cons]; omega) (List.nodup_cons.2 ⟨hmem, hnodup⟩)
                (List.forall_mem_cons.2 ⟨Chart.lt_size_of_record? hr, hpath⟩) hholds) hholds'
          have hleft := (hstep.trans hbelow).map fun f => Leads.leave c _ path id stack
          rw [htrees]
          simp only [hgraft] at hleft
          cases hgather : Chart.gather (c.trees depth (id :: path)) r.state.leaf bases with
          | error e => simpa only [hgather, hbases, Except.map, Except.bind] using hleft
          | ok f => simpa only [hgather, hbases, Except.map, Except.bind] using hleft

theorem run_add {fuel : Nat} {outcome : Except (TreeFailure π) Arena}
    (h : run c fuel b = some outcome) (more : Nat) : run c (fuel + more) b = some outcome := by
  induction fuel generalizing b with
  | zero => simp [run] at h
  | succ fuel ih =>
    obtain ⟨nodes, path, stack⟩ := b
    rw [Nat.succ_add]
    cases stack with
    | nil => exact h
    | cons step stack =>
      rw [run] at h ⊢
      split at h
      · exact h
      · exact ih h

end TreeBuilder

namespace Chart

/-- **The builder ends.** For each state of each chart, and indeed each number, it comes to the
nodes of the tree, or to the error that there is no tree for. -/
theorem exists_arena_eq (c : Chart π α) (id : StateId) :
    ∃ n, ∀ fuel, c.arena (fuel + n) id = some ((c.tree id).map fun t => t.nodes.toArray) := by
  cases hrecord : c.record id with
  | error e =>
    refine ⟨0, fun fuel => ?_⟩
    rw [arena, tree, hrecord]
    rfl
  | ok r =>
    have hleads : TreeBuilder.Leads c ⟨#[], [], [.enter id none]⟩ _ :=
      TreeBuilder.leads_enter (c.size + 1) (by simp) List.nodup_nil
        (List.forall_mem_nil _) (Arena.holds_none _)
    cases htrees : c.trees (c.size + 1) [] id with
    | error e =>
      rw [htrees] at hleads
      obtain ⟨n, hn⟩ := hleads
      refine ⟨n, fun fuel => ?_⟩
      rw [arena, tree, hrecord]
      simp only [hn, htrees, Option.map_some]
      rfl
    | ok f =>
      rw [htrees] at hleads
      obtain ⟨n, hn⟩ := hleads
      refine ⟨n + 1, fun fuel => ?_⟩
      rw [arena, tree, hrecord, Nat.add_comm n, ← Nat.add_assoc]
      simp only [hn, htrees, Option.map_some, TreeBuilder.run]
      have hgraft : Arena.graft #[] none f = (f.nodes 0 none).toArray := by
        simp [Arena.graft, Arena.adopt]
      rw [hgraft]
      cases f <;> rfl

/-- What the builder comes to are the nodes of the tree, or why there is none. -/
theorem eq_of_arena_eq_some {c : Chart π α} {fuel : Nat} {id : StateId}
    {outcome : Except (TreeFailure π) Arena} (h : c.arena fuel id = some outcome) :
    outcome = (c.tree id).map fun t => t.nodes.toArray := by
  obtain ⟨n, hn⟩ := c.exists_arena_eq id
  have hmore : c.arena (fuel + n) id = some outcome := by
    rw [arena] at h ⊢
    split at h
    · exact h
    · obtain ⟨outcome', hrun, hequal⟩ := Option.map_eq_some_iff.1 h
      rw [TreeBuilder.run_add hrun, Option.map_some, hequal]
  rwa [hn, Option.some.injEq, eq_comm] at hmore

theorem exists_tree_of_arena {c : Chart π α} {fuel : Nat} {id : StateId} {nodes : Arena}
    (h : c.arena fuel id = some (.ok nodes)) : ∃ t, c.tree id = .ok t ∧ nodes = t.nodes.toArray := by
  have htree := c.eq_of_arena_eq_some h
  cases ht : c.tree id with
  | error e => simp [ht, Except.map] at htree
  | ok t => exact ⟨t, rfl, by simpa [ht, Except.map] using htree⟩

end Chart

end SemiringParsing
