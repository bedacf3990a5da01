import Std.Data.HashSet.Lemmas
import SemiringParsing.Tree.View
import SemiringParsing.Proofs.Tree.Preorder

/-!
# Equality of trees

Two nodes are equal if their parents have the same category, or both have none, and the same tree is
below them (`Subtree.beq_iff`). That the categories of the parents are compared at every level of
the trees makes no difference: below the first level the parents are nodes that were compared
before.

That is how equality is computed on trees. Going down two arrays in the numbers of the children
comes to the same (`Arena.Block.agreeAll?_rootIds`), and so does what is put together for a text or
a hash (`Arena.Block.mapM_fold?`), since a forest takes up a block of the array and what is below a
node a block of that.
-/

namespace SemiringParsing

/-! ## Trees -/

/-- Only the parents of the roots make a difference. -/
theorem Forest.agree_iff {f g : Forest} {above? other? : Option Category} :
    f.agree above? other? g = true ↔ f = g ∧ (f = nil ∨ above? = other?) := by
  induction f generalizing g above? other? with
  | nil => cases g <;> simp [agree]
  | cons c below beside ihBelow ihBeside =>
    cases g with
    | nil => simp [agree]
    | cons c' below' beside' =>
      simp only [agree, Bool.and_eq_true, beq_iff_eq, ihBelow, ihBeside, cons.injEq, reduceCtorEq,
        false_or]
      constructor
      · rintro ⟨⟨⟨hc, habove⟩, hbelow, -⟩, hbeside, -⟩
        exact ⟨⟨hc, hbelow, hbeside⟩, habove⟩
      · rintro ⟨⟨hc, hbelow, hbeside⟩, habove⟩
        exact ⟨⟨⟨hc, habove⟩, hbelow, .inr (congrArg some hc)⟩, hbeside, .inr habove⟩

namespace Subtree

/-- A node with what is below it, without numbers and parent. -/
def tree (x : Subtree) : Forest :=
  .cons x.category x.below .nil

theorem size_tree (x : Subtree) : x.tree.size = x.below.size + 1 := by
  rw [tree, Forest.size, Forest.size, Nat.add_zero]

variable {x y : Subtree}

/-- **Equality of nodes.** What counts is the category of the parent and the tree below. -/
theorem beq_iff : (x == y) = true ↔ x.parent? = y.parent? ∧ x.tree = y.tree := by
  show x.beq y = true ↔ _
  simp only [beq, tree, Bool.and_eq_true, beq_iff_eq, Forest.agree_iff, Forest.cons.injEq,
    and_true]
  constructor
  · rintro ⟨⟨hcategory, hparent⟩, hbelow, -⟩
    exact ⟨hparent, hcategory, hbelow⟩
  · rintro ⟨hparent, hcategory, hbelow⟩
    exact ⟨⟨hcategory, hparent⟩, hbelow, .inr (congrArg some hcategory)⟩

instance : EquivBEq Subtree where
  rfl := beq_iff.2 ⟨rfl, rfl⟩
  symm h := beq_iff.2 ⟨(beq_iff.1 h).1.symm, (beq_iff.1 h).2.symm⟩
  trans h h' := beq_iff.2 ⟨(beq_iff.1 h).1.trans (beq_iff.1 h').1,
    (beq_iff.1 h).2.trans (beq_iff.1 h').2⟩

theorem equivalence_beq : Equivalence fun x y : Subtree => (x == y) = true :=
  ⟨fun _ => BEq.rfl, BEq.symm, BEq.trans⟩

theorem text_eq_of_beq (h : (x == y) = true) : x.text = y.text :=
  congrArg Forest.text (beq_iff.1 h).2

theorem hashed_eq_of_beq (h : (x == y) = true) : x.hashed = y.hashed := by
  obtain ⟨hparent, htree⟩ := beq_iff.1 h
  obtain ⟨hcategory, hbelow, -⟩ := Forest.cons.inj htree
  rw [hashed, hashed, hparent, hcategory, hbelow]

instance : LawfulHashable Subtree where
  hash_eq x y h := by
    show hash x.hashed = hash y.hashed
    rw [hashed_eq_of_beq h]

end Subtree

namespace ParseTree

instance : EquivBEq ParseTree where
  rfl {t} := BEq.rfl (a := t.root)
  symm {t u} h := BEq.symm (a := t.root) (b := u.root) h
  trans {t u v} h h' := BEq.trans (a := t.root) (b := u.root) (c := v.root) h h'

instance : LawfulHashable ParseTree where
  hash_eq t u h := LawfulHashable.hash_eq t.root u.root h

end ParseTree

/-! ## Arrays -/

namespace Forest

/-- What is put together from the nodes of a forest. -/
def fold {β : Type} (combine : Option Category → Category → List β → β)
    (parent? : Option Category) : Forest → List β
  | nil => []
  | cons c below beside =>
    combine parent? c (below.fold combine (some c)) :: beside.fold combine parent?

/-- A tree from those below its node. -/
def plant (_ : Option Category) (c : Category) (below : List Forest) : Forest :=
  cons c (below.foldr (· ++ ·) nil) nil

/-- The text of a tree from those of the trees below its node. -/
def write (_ : Option Category) (c : Category) (below : List String) : String :=
  "[" ++ c.text ++ String.join below ++ "]"

/-- The values for the hash of a tree, from those of the trees below its node. -/
def feed (parent? : Option Category) (c : Category)
    (below : List (List (Category × Option Category))) : List (Category × Option Category) :=
  (c, parent?) :: below.flatten

theorem foldr_fold_plant (f : Forest) (parent? : Option Category) :
    (f.fold plant parent?).foldr (· ++ ·) nil = f := by
  induction f generalizing parent? with
  | nil => rfl
  | cons c below beside ihBelow ihBeside =>
    rw [fold, List.foldr_cons, ihBeside, plant, ihBelow]
    rfl

theorem join_fold_write (f : Forest) (parent? : Option Category) :
    String.join (f.fold write parent?) = f.text := by
  induction f generalizing parent? with
  | nil => rfl
  | cons c below beside ihBelow ihBeside =>
    rw [fold, String.join_cons, ihBeside, write, ihBelow, text]

theorem flatten_fold_feed (f : Forest) (parent? : Option Category) :
    (f.fold feed parent?).flatten = f.hashed parent? := by
  induction f generalizing parent? with
  | nil => rfl
  | cons c below beside ihBelow ihBeside =>
    rw [fold, List.flatten_cons, ihBeside, feed, ihBelow, hashed, List.cons_append]

@[simp] theorem length_subtrees (f : Forest) (first : Nat) (parent? : Option Category) :
    (f.subtrees first parent?).length = f.size := by
  induction f generalizing first parent? with
  | nil => rfl
  | cons c below beside ihBelow ihBeside => simp [subtrees, size, ihBelow, ihBeside]

end Forest

namespace Arena

variable {nodes others : Arena} {c : Category} {f g below beside : Forest} {first first' : Nat}
  {above? other? : Option Nat} {parent? parent'? : Option Category}

theorem agreeAll?_singleton (agree? : Nat → Nat → Option Bool) (n m : Nat) :
    agreeAll? agree? [n] [m] = agree? n m := by
  rw [agreeAll?]
  cases agree? n m with
  | none => rfl
  | some b => cases b <;> rfl

theorem mapM_singleton {β : Type} (h : Nat → Option β) (n : Nat) {value : β} :
    [n].mapM h = some [value] ↔ h n = some value := by
  rw [List.mapM_cons, List.mapM_nil]
  cases h n <;> simp

namespace Block

theorem label?_first (h : nodes.Block (.cons c below beside) first above?) :
    nodes.label? (some first) = some (some c) := by
  rw [label?, (block_cons h).1, Option.map_some]

/-- The first tree of a forest takes up a block. -/
theorem first_tree (h : nodes.Block (.cons c below beside) first above?) :
    nodes.Block (.cons c below .nil) first above? := by
  intro k hk
  rw [h k (by simp only [Forest.size] at hk ⊢; omega), Forest.nodes, Forest.nodes]
  cases k with
  | zero => rfl
  | succ k =>
    have hlength : k < (below.nodes (first + 1) (some first)).length := by
      simp only [Forest.size] at hk
      rw [Forest.length_nodes]
      omega
    rw [List.getElem?_cons_succ, List.getElem?_cons_succ, List.getElem?_append_left hlength,
      List.getElem?_append_left hlength]

/-- What is put together along the children of nodes is put together from the forest. -/
theorem mapM_fold? {β : Type} {put : Node → List β → Option β}
    {combine : Option Category → Category → List β → β}
    (hput : ∀ node values label, nodes.label? node.parent? = some label →
      put node values = some (combine label node.category values))
    (h : nodes.Block f first above?) (hlabel : nodes.label? above? = some parent?) {depth : Nat}
    (hdepth : f.size ≤ depth) :
    (f.rootIds first).mapM (nodes.fold? put depth) = some (f.fold combine parent?) := by
  induction f generalizing first above? parent? depth with
  | nil => rfl
  | cons c below beside ihBelow ihBeside =>
    rw [Forest.size] at hdepth
    -- one level is left for what is below, which has at least one node less
    obtain ⟨depth, rfl⟩ : ∃ d, depth = d + 1 := ⟨depth - 1, by omega⟩
    obtain ⟨hfirst, hbelow, hbeside⟩ := block_cons h
    have hvalues : (below.rootIds (first + 1)).mapM (nodes.fold? put depth) =
        some (below.fold combine (some c)) :=
      ihBelow hbelow h.label?_first (by omega)
    have hnode := hput ⟨first, c, above?, below.rootIds (first + 1)⟩
      (below.fold combine (some c)) parent? hlabel
    have hvalue : nodes.fold? put (depth + 1) first =
        some (combine parent? c (below.fold combine (some c))) := by
      simp only [fold?, hfirst, Option.bind_eq_bind, Option.bind_some, hvalues, hnode]
    rw [Forest.rootIds, List.mapM_cons, hvalue, ihBeside hbeside hlabel (by omega)]
    rfl

/-- Going down two arrays at once compares two forests. -/
theorem agreeAll?_rootIds (h : nodes.Block f first above?)
    (hlabel : nodes.label? above? = some parent?) (h' : others.Block g first' other?)
    (hlabel' : others.label? other? = some parent'?) {depth : Nat} (hdepth : f.size ≤ depth) :
    agreeAll? (nodes.agree? others depth) (f.rootIds first) (g.rootIds first') =
      some (f.agree parent? parent'? g) := by
  induction f generalizing g first first' above? other? parent? parent'? depth with
  | nil => cases g <;> rfl
  | cons c below beside ihBelow ihBeside =>
    cases g with
    | nil => rfl
    | cons c' below' beside' =>
      rw [Forest.size] at hdepth
      obtain ⟨depth, rfl⟩ : ∃ d, depth = d + 1 := ⟨depth - 1, by omega⟩
      obtain ⟨hfirst, hbelow, hbeside⟩ := block_cons h
      obtain ⟨hfirst', hbelow', hbeside'⟩ := block_cons h'
      have hagree : nodes.agree? others (depth + 1) first first' =
          some (c == c' && parent? == parent'? && below.agree (some c) (some c') below') := by
        simp only [agree?, hfirst, hfirst', Option.bind_eq_bind, Option.bind_some, hlabel, hlabel',
          ihBelow hbelow h.label?_first hbelow' h'.label?_first (show below.size ≤ depth by omega)]
        cases hcategory : c == c' with
        | false => simp [bne, hcategory]
        | true => cases hparent : parent? == parent'? <;> simp [bne, hcategory, hparent]
      rw [Forest.rootIds, Forest.rootIds, agreeAll?, hagree, Forest.agree,
        ihBeside hbeside hlabel hbeside' hlabel' (by omega), Option.bind_eq_bind,
        Option.bind_some]
      split
      · next heq => rw [heq, Bool.true_and]
      · next hne => rw [Bool.not_eq_true] at hne; rw [hne, Bool.false_and]

/-- Each tree of a forest takes up a block, below a parent with the category that it should have. -/
theorem exists_block_tree (h : nodes.Block f first above?)
    (hlabel : nodes.label? above? = some parent?) {k : Nat} {x : Subtree}
    (hx : (f.subtrees first parent?)[k]? = some x) :
    ∃ above?, nodes.Block x.tree (first + k) above? ∧ nodes.label? above? = some x.parent? := by
  induction f generalizing first above? parent? k with
  | nil => simp [Forest.subtrees] at hx
  | cons c below beside ihBelow ihBeside =>
    obtain ⟨-, hbelow, hbeside⟩ := block_cons h
    cases k with
    | zero =>
      obtain rfl := Option.some.inj hx
      exact ⟨above?, h.first_tree, hlabel⟩
    | succ k =>
      rw [Forest.subtrees, List.getElem?_cons_succ] at hx
      rcases lt_or_ge k below.size with hk | hk
      · rw [List.getElem?_append_left (by rwa [Forest.length_subtrees])] at hx
        have := ihBelow hbelow h.label?_first hx
        rwa [show first + (k + 1) = first + 1 + k by omega]
      · rw [List.getElem?_append_right (by rwa [Forest.length_subtrees]),
          Forest.length_subtrees] at hx
        have := ihBeside hbeside hlabel hx
        rwa [show first + (k + 1) = first + below.size + 1 + (k - below.size) by omega]

/-- A block ends within the array. -/
theorem size_le (h : nodes.Block f first above?) (hpos : 0 < f.size) :
    first + f.size ≤ nodes.size := by
  have hlast := h (f.size - 1) (by omega)
  rw [List.getElem?_eq_getElem (by rw [Forest.length_nodes]; omega)] at hlast
  have hlt := (Array.getElem?_eq_some_iff.1 hlast).1
  omega

end Block

/-- What an array says of the node with a number, down to a depth, is what is said of a tree. -/
structure Shows (nodes : Arena) (depth n : Nat) (x : Subtree) : Prop where
  above : nodes.above? n = some x.parent?
  tree : nodes.tree? depth n = some x.tree
  text : nodes.text? depth n = some x.text
  hashed : nodes.hashed? depth n = some x.hashed

section Node

variable {x y : Subtree} {n m depth : Nat}

/-- What is put together from a node is put together from the tree below it. -/
theorem Block.fold?_eq {β : Type} {put : Node → List β → Option β}
    (combine : Option Category → Category → List β → β)
    (hput : ∀ node values label, nodes.label? node.parent? = some label →
      put node values = some (combine label node.category values))
    (h : nodes.Block x.tree n above?) (hlabel : nodes.label? above? = some x.parent?)
    (hdepth : x.tree.size ≤ depth) :
    nodes.fold? put depth n =
      some (combine x.parent? x.category (x.below.fold combine (some x.category))) :=
  (mapM_singleton _ n).1 (h.mapM_fold? hput hlabel hdepth)

theorem Block.shows (h : nodes.Block x.tree n above?)
    (hlabel : nodes.label? above? = some x.parent?) (hdepth : x.tree.size ≤ depth) :
    nodes.Shows depth n x where
  above := by
    rw [Arena.above?, (block_cons h).1]
    exact hlabel
  tree := by
    rw [Subtree.tree, ← x.below.foldr_fold_plant (some x.category)]
    exact h.fold?_eq Forest.plant (fun _ _ _ _ => rfl) hlabel hdepth
  text := by
    rw [Subtree.text, Forest.text, Forest.text, String.append_empty,
      ← x.below.join_fold_write (some x.category)]
    exact h.fold?_eq Forest.write (fun _ _ _ _ => rfl) hlabel hdepth
  hashed := by
    rw [Subtree.hashed, ← x.below.flatten_fold_feed (some x.category)]
    refine h.fold?_eq Forest.feed (fun node values label hlabel => ?_) hlabel hdepth
    rw [hlabel]
    rfl

theorem Block.agree?_eq (h : nodes.Block x.tree n above?)
    (hlabel : nodes.label? above? = some x.parent?) (h' : others.Block y.tree m other?)
    (hlabel' : others.label? other? = some y.parent?) (hdepth : x.tree.size ≤ depth) :
    nodes.agree? others depth n m = some (x == y) := by
  have hagree := h.agreeAll?_rootIds hlabel h' hlabel' hdepth
  rw [← agreeAll?_singleton (nodes.agree? others depth) n m]
  refine hagree.trans (congrArg some ?_)
  rw [Subtree.tree, Subtree.tree, Forest.agree, Forest.agree, Bool.and_true]
  rfl

end Node

/-- The nodes of a tree are those that a number leads to. -/
theorem exists_get {t : ParseTree} {n : Nat} (hn : n < Array.size t.nodes.toArray) :
    ∃ x above?, t.get n = .ok x ∧ Block t.nodes.toArray x.tree n above? ∧
      label? t.nodes.toArray above? = some x.parent? := by
  rw [size_nodes, ← Forest.length_subtrees t.forest 0 none] at hn
  have hx := List.getElem?_eq_getElem hn
  obtain ⟨above?, hblock, hlabel⟩ := (block_nodes t.forest).exists_block_tree rfl hx
  rw [Nat.zero_add] at hblock
  exact ⟨_, above?, by rw [ParseTree.get, hx], hblock, hlabel⟩

end Arena

variable {π π' α α' : Type} {c : Chart π α} {c' : Chart π' α'} {fuel fuel' : Nat}
  {id id' : StateId} {nodes others : Arena}

/-- **Equality of the nodes of trees.** Take any two trees that are built from charts, and a node of
each. Comparing the nodes along the two arrays ends and tells whether they are equal. They are
exactly if their parents have the same category, or both have none, and the same tree is below them,
whatever the numbers of the nodes and the rest of the arrays. Equality of nodes is an equivalence,
equal nodes have the same text and give the same values for a hash, and a set that holds one of them
holds the other. The same goes for whole trees, which are equal exactly if the trees below their
first nodes are. -/
theorem Chart.nodes_beq_iff (h : c.arena fuel id = some (.ok nodes))
    (h' : c'.arena fuel' id' = some (.ok others)) {n m : Nat} (hn : n < nodes.size)
    (hm : m < others.size) :
    ∃ t u x y, c.tree id = .ok t ∧ c'.tree id' = .ok u ∧ t.get n = .ok x ∧ u.get m = .ok y ∧
      (∀ depth, nodes.size ≤ depth → nodes.Shows depth n x ∧
        nodes.agree? others depth n m = some (x == y)) ∧
      (∀ depth, others.size ≤ depth → others.Shows depth m y) ∧
      ((x == y) = true ↔ x.parent? = y.parent? ∧ x.tree = y.tree) ∧
      (Equivalence fun v w : Subtree => (v == w) = true) ∧
      ((x == y) = true → x.text = y.text ∧ x.hashed = y.hashed ∧ hash x = hash y ∧
        ∀ s : Std.HashSet Subtree, x ∈ s ↔ y ∈ s) ∧
      ((t == u) = true ↔ t.root.tree = u.root.tree) ∧
      ((t == u) = true → t.text = u.text ∧ hash t = hash u ∧
        ∀ s : Std.HashSet ParseTree, t ∈ s ↔ u ∈ s) := by
  obtain ⟨t, ht, rfl⟩ := exists_tree_of_arena h
  obtain ⟨u, hu, rfl⟩ := exists_tree_of_arena h'
  obtain ⟨x, above?, hx, hblock, hlabel⟩ := Arena.exists_get hn
  obtain ⟨y, other?, hy, hblock', hlabel'⟩ := Arena.exists_get hm
  have hsize := hblock.size_le (by rw [Subtree.size_tree]; omega)
  have hsize' := hblock'.size_le (by rw [Subtree.size_tree]; omega)
  refine ⟨t, u, x, y, ht, hu, hx, hy, fun depth hdepth => ⟨?_, ?_⟩, fun depth hdepth => ?_,
    Subtree.beq_iff, Subtree.equivalence_beq, fun heq => ⟨Subtree.text_eq_of_beq heq,
      Subtree.hashed_eq_of_beq heq, LawfulHashable.hash_eq x y heq, fun s => ?_⟩, ?_,
      fun heq => ⟨Subtree.text_eq_of_beq heq, LawfulHashable.hash_eq t u heq, fun s => ?_⟩⟩
  · exact hblock.shows hlabel (by omega)
  · exact hblock.agree?_eq hlabel hblock' hlabel' (by omega)
  · exact hblock'.shows hlabel' (by omega)
  · exact Std.HashSet.mem_congr heq
  · exact Subtree.beq_iff.trans (and_iff_right rfl)
  · exact Std.HashSet.mem_congr heq

/-- In the tree over two equal tokens the two branches are equal, though they have different
numbers, and none of them equals the whole tree. -/
theorem Chart.nodes_beq_iff_ambiguous :
    ∃ (result : ParseResult Exact Exact) (id : StateId) (nodes : Arena) (t : ParseTree)
      (x y : Subtree),
      (Parser.new Examples.ambiguousGrammar .probability).parse {} 40
          [Token.literal "a", Token.literal "a"] = some result ∧
        result.chart.arena 12 id = some (.ok nodes) ∧ 1 < nodes.size ∧ 3 < nodes.size ∧
        t.get 1 = .ok x ∧ t.get 3 = .ok y ∧ (x == y) = true ∧
        nodes.agree? nodes 5 0 1 = some false ∧ x.text = y.text ∧
        ∀ s : Std.HashSet Subtree, x ∈ s ↔ y ∈ s := by
  have hparse : ((Parser.new Examples.ambiguousGrammar .probability).parse {} 40
      [Token.literal "a", Token.literal "a"]).any (fun result => result.root?.any fun id =>
        (result.chart.arena 12 id).any fun outcome => outcome.toOption.any fun nodes =>
          nodes.size == 5 && nodes.agree? nodes 5 1 3 == some true &&
            nodes.agree? nodes 5 0 1 == some false) = true := by
    decide +kernel
  simp only [Option.any_eq_true, Bool.and_eq_true, beq_iff_eq] at hparse
  obtain ⟨result, hresult, id, -, outcome, harena, nodes, hnodes, ⟨hsize, hequal⟩, hunequal⟩ :=
    hparse
  cases outcome with
  | error e => simp [Except.toOption] at hnodes
  | ok nodes' =>
    obtain rfl : nodes' = nodes := by simpa [Except.toOption] using hnodes
    have hone : 1 < nodes'.size := by omega
    have hthree : 3 < nodes'.size := by omega
    obtain ⟨t, u, x, y, ht, hu, hx, hy, hshows, -, -, -, hsame, -⟩ :=
      Chart.nodes_beq_iff harena harena hone hthree
    obtain rfl : t = u := Except.ok.inj (ht.symm.trans hu)
    have hbeq : (x == y) = true := by
      have hagree := (hshows 5 (by omega)).2
      rw [hequal] at hagree
      exact (Option.some.inj hagree).symm
    obtain ⟨htext, -, -, hmem⟩ := hsame hbeq
    exact ⟨result, id, nodes', t, x, y, hresult, harena, hone, hthree, hx, hy, hbeq, hunequal,
      htext, hmem⟩

end SemiringParsing
