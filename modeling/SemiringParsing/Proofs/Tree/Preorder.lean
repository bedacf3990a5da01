import SemiringParsing.Proofs.Tree.Arena
import SemiringParsing.Proofs.Tree.FirstLinks

/-!
# Arrays of nodes in preorder

In the array of a tree the parent of a node comes before it, and the children of a node are those
whose parent it is, in increasing order (`Arena.WellFormed`). Going through the array depth first,
along the children, comes to the nodes in the order of their numbers (`Arena.Preorder`).

A forest takes up a block of the array (`Arena.Block`): its first node, the block of what is below
it, and that of what is beside it. The parents of the nodes in a block are in the block, or are the
parent of the roots (`Arena.Block.parent?_cases`). So of the nodes with a given parent it can be
said block by block where they are.
-/

namespace SemiringParsing

open Relation

namespace Arena

/-- The number of the parent of a node. -/
def parent? (nodes : Arena) (id : Nat) : Option Nat :=
  nodes[id]?.bind Node.parent?

/-- The numbers in a block of the nodes with a given parent or, for `none`, without one. -/
def under (nodes : Arena) (parent? : Option Nat) (first size : Nat) : List Nat :=
  (List.range' first size).filter fun id => nodes.parent? id = parent?

/-- One node is among the children of another. -/
def IsChild (nodes : Arena) (id child : Nat) : Prop :=
  ∃ node, nodes[id]? = some node ∧ child ∈ node.children

/-- Going through an array depth first. The first number on the agenda is visited, and its children
are put in front of the others. -/
inductive Preorder (nodes : Arena) : (agenda visited : List Nat) → Prop
  | nil : Preorder nodes [] []
  | cons {id : Nat} {node : Node} {agenda visited : List Nat} (hnode : nodes[id]? = some node)
      (h : Preorder nodes (node.children ++ agenda) visited) :
      Preorder nodes (id :: agenda) (id :: visited)

/-- What holds of the nodes of a tree. -/
structure WellFormed (nodes : Arena) : Prop where
  size_pos : 0 < nodes.size
  id_eq : ∀ (id : Nat) (node : Node), nodes[id]? = some node → node.id = id
  /-- The first node has no parent, and the parent of another is before it. -/
  parent?_zero : nodes.parent? 0 = none
  parent?_lt : ∀ id parent, nodes.parent? id = some parent → parent < id
  /-- The children of a node are those whose parent it is, in increasing order. -/
  children_eq : ∀ (id : Nat) (node : Node), nodes[id]? = some node →
    node.children = (List.range nodes.size).filter fun child => nodes.parent? child = some id
  /-- Depth first from the nodes without a parent, each comes when it is its turn. -/
  preorder : Preorder nodes ((List.range nodes.size).filter fun id => nodes.parent? id = none)
    (List.range nodes.size)

/-! ## Blocks -/

/-- A forest takes up the nodes from a number on. -/
def Block (nodes : Arena) (f : Forest) (first : Nat) (parent? : Option Nat) : Prop :=
  ∀ k < f.size, nodes[first + k]? = (f.nodes first parent?)[k]?

variable {nodes : Arena} {f below beside : Forest} {category : Category} {first id : Nat}
  {above? : Option Nat}

theorem block_nodes (f : Forest) : Block (f.nodes 0 none).toArray f 0 none := by
  intro k _
  rw [Nat.zero_add, List.getElem?_toArray]

/-- The block of a first node with what is below and beside it. -/
theorem block_cons (h : nodes.Block (.cons category below beside) first above?) :
    nodes[first]? = some ⟨first, category, above?, below.rootIds (first + 1)⟩ ∧
      nodes.Block below (first + 1) (some first) ∧
      nodes.Block beside (first + below.size + 1) above? := by
  have hlength : (below.nodes (first + 1) (some first)).length = below.size :=
    Forest.length_nodes ..
  refine ⟨h 0 (Nat.succ_pos _), fun k hk => ?_, fun k hk => ?_⟩
  · have := h (k + 1) (by rw [Forest.size]; omega)
    rw [Forest.nodes, List.getElem?_cons_succ, List.getElem?_append_left (by omega)] at this
    rwa [show first + 1 + k = first + (k + 1) by omega]
  · have := h (below.size + k + 1) (by rw [Forest.size]; omega)
    rw [Forest.nodes, List.getElem?_cons_succ, List.getElem?_append_right (by omega),
      show below.size + k - (below.nodes (first + 1) (some first)).length = k by omega] at this
    rwa [show first + below.size + 1 + k = first + (below.size + k + 1) by omega]

namespace Block

/-- A number in the block of a forest is that of the first node, or in the block below or beside
it. -/
theorem cases_cons (hge : first ≤ id)
    (hlt : id < first + (Forest.cons category below beside).size) :
    id = first ∨ first + 1 ≤ id ∧ id < first + 1 + below.size ∨
      first + below.size + 1 ≤ id ∧ id < first + below.size + 1 + beside.size := by
  rw [Forest.size] at hlt
  omega

/-- The parent of a node in a block is that of the roots, or before the node in the block. -/
theorem parent?_cases (h : nodes.Block f first above?) (hge : first ≤ id)
    (hlt : id < first + f.size) :
    nodes.parent? id = above? ∨ ∃ parent, nodes.parent? id = some parent ∧
      first ≤ parent ∧ parent < id := by
  induction f generalizing first above? with
  | nil =>
    rw [Forest.size] at hlt
    omega
  | cons category below beside ihBelow ihBeside =>
    obtain ⟨hfirst, hbelow, hbeside⟩ := block_cons h
    rcases cases_cons hge hlt with rfl | ⟨hge, hlt⟩ | ⟨hge, hlt⟩
    · left
      rw [parent?, hfirst, Option.bind_some]
    · right
      rcases ihBelow hbelow hge hlt with heq | ⟨parent, heq, hle, hparent⟩
      · exact ⟨first, heq, Nat.le_refl _, hge⟩
      · exact ⟨parent, heq, by omega, hparent⟩
    · rcases ihBeside hbeside hge hlt with heq | ⟨parent, heq, hle, hparent⟩
      · exact .inl heq
      · exact .inr ⟨parent, heq, by omega, hparent⟩

/-- In a block there are no nodes under a parent outside, unless it is that of the roots. -/
theorem under_eq_nil (h : nodes.Block f first above?) {parent? : Option Nat}
    (hne : above? ≠ parent?)
    (hout : ∀ parent, parent? = some parent → parent < first ∨ first + f.size ≤ parent) :
    nodes.under parent? first f.size = [] := by
  rw [under, List.filter_eq_nil_iff]
  intro id hmem hparent
  obtain ⟨hge, hlt⟩ := List.mem_range'_1.1 hmem
  simp only [decide_eq_true_eq] at hparent
  rcases h.parent?_cases hge hlt with heq | ⟨parent, heq, hle, hparentLt⟩
  · exact hne (heq.symm.trans hparent)
  · have := hout parent (hparent.symm.trans heq)
    omega

end Block

theorem range'_size_cons (first : Nat) (category : Category) (below beside : Forest) :
    List.range' first (Forest.cons category below beside).size =
      first :: (List.range' (first + 1) below.size ++
        List.range' (first + below.size + 1) beside.size) := by
  rw [Forest.size, List.range'_succ, ← List.range'_append_1, Nat.add_right_comm]

/-- The nodes under a parent in the block of a first node with what is below and beside it. -/
theorem under_cons (parent? : Option Nat) (first : Nat) (category : Category)
    (below beside : Forest) :
    nodes.under parent? first (Forest.cons category below beside).size =
      (if nodes.parent? first = parent? then [first] else []) ++
        (nodes.under parent? (first + 1) below.size ++
          nodes.under parent? (first + below.size + 1) beside.size) := by
  rw [under, range'_size_cons, List.filter_cons, List.filter_append]
  by_cases h : nodes.parent? first = parent? <;> simp [h, under]

namespace Block

/-- The roots of a forest are the nodes under their parent, which is not in the block. -/
theorem under_eq_rootIds (h : nodes.Block f first above?)
    (habove : ∀ parent, above? = some parent → parent < first) :
    nodes.under above? first f.size = f.rootIds first := by
  induction f generalizing first above? with
  | nil => rfl
  | cons category below beside _ ih =>
    obtain ⟨hfirst, hbelow, hbeside⟩ := block_cons h
    have hparent : nodes.parent? first = above? := by rw [parent?, hfirst, Option.bind_some]
    have hne : some first ≠ above? := by
      rintro rfl
      exact Nat.lt_irrefl _ (habove first rfl)
    have hnil : nodes.under above? (first + 1) below.size = [] :=
      hbelow.under_eq_nil hne fun parent heq => .inl (Nat.lt_succ_of_lt (habove parent heq))
    have hrest : nodes.under above? (first + below.size + 1) beside.size =
        beside.rootIds (first + below.size + 1) :=
      ih hbeside fun parent heq => by
        have := habove parent heq
        omega
    rw [under_cons, if_pos hparent, hnil, hrest]
    rfl

/-- The children of a node are the nodes under it. -/
theorem children_eq (h : nodes.Block f first above?)
    (habove : ∀ parent, above? = some parent → parent < first) (hge : first ≤ id)
    (hlt : id < first + f.size) {node : Node} (hnode : nodes[id]? = some node) :
    node.children = nodes.under (some id) first f.size := by
  induction f generalizing first above? with
  | nil =>
    rw [Forest.size] at hlt
    omega
  | cons category below beside ihBelow ihBeside =>
    obtain ⟨hfirst, hbelow, hbeside⟩ := block_cons h
    have hparent : nodes.parent? first = above? := by rw [parent?, hfirst, Option.bind_some]
    have hne : nodes.parent? first ≠ some id := by
      rw [hparent]
      intro heq
      have := habove id heq
      omega
    have hbelowLt : ∀ parent, some first = some parent → parent < first + 1 := by
      rintro _ ⟨⟩
      exact Nat.lt_succ_self _
    have hbesideLt : ∀ parent, above? = some parent → parent < first + below.size + 1 := by
      intro parent heq
      have := habove parent heq
      omega
    rw [under_cons, if_neg hne, List.nil_append]
    rcases cases_cons hge hlt with rfl | ⟨hge', hlt'⟩ | ⟨hge', hlt'⟩
    · obtain rfl := Option.some.inj (hfirst.symm.trans hnode)
      rw [hbelow.under_eq_rootIds hbelowLt, hbeside.under_eq_nil (hparent ▸ hne), List.append_nil]
      rintro _ ⟨⟩
      omega
    · rw [ihBelow hbelow hbelowLt hge' hlt', hbeside.under_eq_nil (hparent ▸ hne), List.append_nil]
      rintro _ ⟨⟩
      omega
    · rw [ihBeside hbeside hbesideLt hge' hlt', hbelow.under_eq_nil, List.nil_append]
      · simp only [ne_eq, Option.some.injEq]
        omega
      · rintro _ ⟨⟩
        omega

theorem id_eq (h : nodes.Block f first above?) (hge : first ≤ id) (hlt : id < first + f.size)
    {node : Node} (hnode : nodes[id]? = some node) : node.id = id := by
  induction f generalizing first above? with
  | nil =>
    rw [Forest.size] at hlt
    omega
  | cons category below beside ihBelow ihBeside =>
    obtain ⟨hfirst, hbelow, hbeside⟩ := block_cons h
    rcases cases_cons hge hlt with rfl | ⟨hge, hlt⟩ | ⟨hge, hlt⟩
    · obtain rfl := Option.some.inj (hfirst.symm.trans hnode)
      rfl
    · exact ihBelow hbelow hge hlt
    · exact ihBeside hbeside hge hlt

/-- Going through an array depth first from the roots of a forest visits its block in order. -/
theorem preorder (h : nodes.Block f first above?) {agenda visited : List Nat}
    (hrest : Preorder nodes agenda visited) :
    Preorder nodes (f.rootIds first ++ agenda) (List.range' first f.size ++ visited) := by
  induction f generalizing first above? agenda visited with
  | nil => exact hrest
  | cons category below beside ihBelow ihBeside =>
    obtain ⟨hfirst, hbelow, hbeside⟩ := block_cons h
    have hvisited := ihBelow hbelow (ihBeside hbeside hrest)
    rw [range'_size_cons, List.cons_append, List.append_assoc]
    exact .cons hfirst hvisited

end Block

/-! ## The array of a tree -/

@[simp] theorem size_nodes (t : ParseTree) : Array.size t.nodes.toArray = t.forest.size := by
  simp [ParseTree.nodes]

/-- The nodes without a parent are the roots. -/
theorem filter_nodes_eq_rootIds (t : ParseTree) :
    ((List.range (Array.size t.nodes.toArray)).filter fun id =>
      Arena.parent? t.nodes.toArray id = none) = t.forest.rootIds 0 := by
  rw [size_nodes, List.range_eq_range']
  exact (block_nodes t.forest).under_eq_rootIds nofun

theorem wellFormed_nodes (t : ParseTree) : WellFormed t.nodes.toArray := by
  have hblock : Block t.nodes.toArray t.forest 0 none := block_nodes t.forest
  have hlt : ∀ id node, t.nodes.toArray[id]? = some node → id < 0 + t.forest.size := by
    intro id node hnode
    rw [Nat.zero_add, ← size_nodes]
    exact (Array.getElem?_eq_some_iff.1 hnode).1
  refine ⟨?_, ?_, rfl, ?_, ?_, ?_⟩
  · rw [size_nodes]
    exact Nat.succ_pos _
  · intro id node hnode
    exact hblock.id_eq (Nat.zero_le _) (hlt id node hnode) hnode
  · intro id parent hparent
    obtain ⟨node, hnode, -⟩ := Option.bind_eq_some_iff.1 hparent
    rcases hblock.parent?_cases (Nat.zero_le _) (hlt id node hnode) with heq | ⟨_, heq, -, hparentLt⟩
    · simp [hparent] at heq
    · rw [hparent, Option.some.injEq] at heq
      exact heq ▸ hparentLt
  · intro id node hnode
    rw [size_nodes, List.range_eq_range']
    exact hblock.children_eq nofun (Nat.zero_le _) (hlt id node hnode) hnode
  · rw [filter_nodes_eq_rootIds, size_nodes, List.range_eq_range']
    simpa only [List.append_nil] using hblock.preorder .nil

namespace WellFormed

theorem lt_size_of_parent? (h : nodes.WellFormed) {node : Node} (hnode : nodes[id]? = some node)
    {parent : Nat} (hparent : node.parent? = some parent) : parent < nodes.size := by
  have hlt : parent < id := h.parent?_lt id parent (by rw [parent?, hnode, Option.bind_some, hparent])
  exact hlt.trans (Array.getElem?_eq_some_iff.1 hnode).1

theorem lt_size_of_mem_children (h : nodes.WellFormed) {node : Node}
    (hnode : nodes[id]? = some node) {child : Nat} (hchild : child ∈ node.children) :
    child < nodes.size := by
  rw [h.children_eq id node hnode] at hchild
  exact List.mem_range.1 (List.mem_of_mem_filter hchild)

end WellFormed

/-- Everything visited can be reached from the agenda. -/
theorem Preorder.exists_reflTransGen {agenda visited : List Nat}
    (h : Preorder nodes agenda visited) (hmem : id ∈ visited) :
    ∃ start ∈ agenda, ReflTransGen nodes.IsChild start id := by
  induction h with
  | nil => exact absurd hmem List.not_mem_nil
  | @cons first node agenda visited hnode _ ih =>
    rcases List.mem_cons.1 hmem with rfl | hmem
    · exact ⟨_, List.mem_cons_self, .refl⟩
    · obtain ⟨start, hstart, hto⟩ := ih hmem
      rcases List.mem_append.1 hstart with hchild | hrest
      · exact ⟨first, List.mem_cons_self, .head ⟨node, hnode, hchild⟩ hto⟩
      · exact ⟨start, List.mem_cons_of_mem _ hrest, hto⟩

/-- Where only the first node has no parent, all nodes are reached from it. -/
theorem WellFormed.reflTransGen_iff (h : nodes.WellFormed)
    (hroot : ∀ n < nodes.size, nodes.parent? n = none ↔ n = 0) :
    ReflTransGen nodes.IsChild 0 id ↔ id < nodes.size := by
  constructor
  · intro hreach
    cases hreach with
    | refl => exact h.size_pos
    | tail _ hchild =>
      obtain ⟨node, hnode, hmem⟩ := hchild
      exact h.lt_size_of_mem_children hnode hmem
  · intro hlt
    obtain ⟨start, hstart, hreach⟩ := h.preorder.exists_reflTransGen (List.mem_range.2 hlt)
    rw [List.mem_filter, List.mem_range, decide_eq_true_eq] at hstart
    obtain rfl := (hroot start hstart.1).1 hstart.2
    exact hreach

end Arena

variable {π α : Type}

/-- A tree of a parse has nothing beside its root. -/
theorem Parser.Finished.beside_eq_nil {τ : Type} [Number π] {p : Parser π α}
    {tokens : List (Token τ)} {c : Chart π α} (h : p.Finished tokens c) {id : StateId}
    {t : ParseTree} (ht : c.tree id = .ok t) : t.beside = .nil := by
  obtain ⟨r, hr⟩ := Chart.exists_record?_of_tree_eq_ok ht
  cases hcompleted : r.state.isCompleted with
  | false => simp [Chart.tree_eq_error hr hcompleted] at ht
  | true =>
    obtain ⟨t', ht', hderivation⟩ := h.tree_eq_ok hr hcompleted
    obtain rfl : t = t' := Except.ok.inj (ht.symm.trans ht')
    exact hderivation.single

/-- **The array of a tree.** When a tree is built from a chart, parents and children in the array
agree with each other, and the nodes come in preorder. So all numbers in the array are of nodes. In
a parse only the first node has no parent, and all others are below it. -/
theorem Chart.arena_wellFormed [Number π] {c : Chart π α} {fuel : Nat} {id : StateId}
    {nodes : Arena} (h : c.arena fuel id = some (.ok nodes)) :
    nodes.WellFormed ∧
    (∀ (n : Nat) (node : Node), nodes[n]? = some node →
      (∀ parent, node.parent? = some parent → parent < nodes.size) ∧
        ∀ child ∈ node.children, child < nodes.size) ∧
    (∃ t, c.tree id = .ok t ∧ nodes = t.nodes.toArray) ∧
    ∀ {τ : Type} (p : Parser π α) (options : ParseOptions τ α) (fuel : Nat)
      (tokens : List (Token τ)) (result : ParseResult π α),
      p.parse options fuel tokens = some result → result.chart = c →
        (∀ n < nodes.size, nodes.parent? n = none ↔ n = 0) ∧
          ∀ n, ReflTransGen nodes.IsChild 0 n ↔ n < nodes.size := by
  have htree := c.eq_of_arena_eq_some h
  cases ht : c.tree id with
  | error e => simp [ht, Except.map] at htree
  | ok t =>
    obtain rfl : nodes = t.nodes.toArray := by simpa [ht, Except.map] using htree
    have hwellFormed := Arena.wellFormed_nodes t
    refine ⟨hwellFormed, fun n node hnode => ⟨fun parent hparent =>
      hwellFormed.lt_size_of_parent? hnode hparent, fun child hchild =>
      hwellFormed.lt_size_of_mem_children hnode hchild⟩, ⟨t, rfl, rfl⟩, ?_⟩
    rintro τ p options fuel tokens result hparse rfl
    have hbeside := (Parser.finished_of_parse hparse).beside_eq_nil ht
    have hroot : ∀ n < Array.size t.nodes.toArray,
        Arena.parent? t.nodes.toArray n = none ↔ n = 0 := by
      intro n hn
      have hmem := Eq.to_iff (congrArg (n ∈ ·) (Arena.filter_nodes_eq_rootIds t))
      rw [List.mem_filter, List.mem_range, and_iff_right hn, decide_eq_true_eq] at hmem
      rw [hmem, ParseTree.forest, hbeside, Forest.rootIds, Forest.rootIds, List.mem_singleton]
    exact ⟨hroot, fun n => hwellFormed.reflTransGen_iff hroot⟩

/-- The tree over two tokens is an array of five nodes. The second child of the first node comes
behind what is below the first child. -/
theorem Chart.arena_wellFormed_ambiguous :
    ∃ (result : ParseResult Exact Exact) (id : StateId) (nodes : Arena),
      (Parser.new Examples.ambiguousGrammar .probability).parse {} 40
          [Token.literal "a", Token.literal "a"] = some result ∧
        result.chart.arena 12 id = some (.ok nodes) ∧
        nodes.map Node.children = #[[1, 3], [2], [], [4], []] ∧ nodes.WellFormed ∧
        ∀ n, ReflTransGen nodes.IsChild 0 n ↔ n < nodes.size := by
  have hparse : ((Parser.new Examples.ambiguousGrammar .probability).parse {} 40
      [Token.literal "a", Token.literal "a"]).any (fun result => result.root?.any fun id =>
        (result.chart.arena 12 id).any fun outcome => outcome.toOption.any fun nodes =>
          nodes.map Node.children == #[[1, 3], [2], [], [4], []]) = true := by
    decide +kernel
  simp only [Option.any_eq_true, beq_iff_eq] at hparse
  obtain ⟨result, hresult, id, -, outcome, harena, nodes, hnodes, hchildren⟩ := hparse
  cases outcome with
  | error e => simp [Except.toOption] at hnodes
  | ok nodes' =>
    obtain rfl : nodes' = nodes := by simpa [Except.toOption] using hnodes
    obtain ⟨hwellFormed, -, -, hparsed⟩ := Chart.arena_wellFormed harena
    exact ⟨result, id, nodes', hresult, harena, hchildren, hwellFormed,
      (hparsed _ {} 40 _ result hresult rfl).2⟩

end SemiringParsing
