import SemiringParsing.Proofs.Grammar.Accepted
import SemiringParsing.Token
import SemiringParsing.Tree.Basic

/-!
# Derivation trees

What a derivation tree is can be said of its nodes: each node with children spells a rule, and the
leaves can be read as the tokens, one after the other. `ParseTree.IsDerivation` says it so.

For proofs the same is said by recursion. A forest *spans* the tokens between two positions when
its first tree spans those up to some position between, and the trees beside it the rest
(`Forest.Spans`). The two agree (`ParseTree.isDerivation_iff`).
-/

namespace SemiringParsing

variable {π τ : Type} [Number π]

/-- A production is that of a rule of the grammar, the implicit one apart. -/
def Grammar.Has (G : Grammar π) (production : Production) : Prop :=
  ∃ r ∈ G.rules, r.toProduction = production

theorem Grammar.Has.right_ne_nil {G : Grammar π} {p : Production} (h : G.Has p) : p.right ≠ [] := by
  obtain ⟨r, hr, rfl⟩ := h
  exact Grammar.right_ne_nil hr

theorem Grammar.Has.left_ne_start {G : Grammar π} {p : Production} (h : G.Has p) :
    p.left ≠ .start := by
  obtain ⟨r, hr, rfl⟩ := h
  exact Grammar.left_ne_start hr

/-- The tokens from a position on can be read as some categories. -/
def Token.Reads (tokens : List (Token τ)) (position : Nat) (categories : List Category) : Prop :=
  ∀ (k : Nat) (category : Category), categories[k]? = some category →
    ∃ token, tokens[position + k]? = some token ∧ token.isA category = true

namespace Token

variable {tokens : List (Token τ)} {position : Nat} {category : Category}
  {xs ys : List Category}

theorem reads_nil (tokens : List (Token τ)) (position : Nat) : Reads tokens position [] :=
  fun k category h => by simp at h

theorem reads_singleton : Reads tokens position [category] ↔
    ∃ token, tokens[position]? = some token ∧ token.isA category = true := by
  constructor
  · intro h
    exact h 0 category rfl
  · intro h k category' hk
    cases k with
    | zero =>
      cases hk
      exact h
    | succ k => simp at hk

theorem reads_append : Reads tokens position (xs ++ ys) ↔
    Reads tokens position xs ∧ Reads tokens (position + xs.length) ys := by
  constructor
  · refine fun h => ⟨fun k category hk => h k category ?_, fun k category hk => ?_⟩
    · have hlt := (List.getElem?_eq_some_iff.1 hk).1
      rw [List.getElem?_append_left hlt, hk]
    · have := h (xs.length + k) category (by
        rw [List.getElem?_append_right (Nat.le_add_right ..), Nat.add_sub_cancel_left, hk])
      rwa [← Nat.add_assoc] at this
  · rintro ⟨hxs, hys⟩ k category hk
    rcases Nat.lt_or_ge k xs.length with hlt | hge
    · rw [List.getElem?_append_left hlt] at hk
      exact hxs k category hk
    · rw [List.getElem?_append_right hge] at hk
      have := hys (k - xs.length) category hk
      rwa [show position + xs.length + (k - xs.length) = position + k by omega] at this

theorem isA_start (token : Token τ) : token.isA .start = false := rfl

theorem isA_nonterminal (token : Token τ) (name : String) :
    token.isA (.nonterminal name) = false := rfl

variable {token : Token τ} {category : Category}

theorem ne_start_of_isA (h : token.isA category = true) : category ≠ .start := by
  rintro rfl
  rw [isA_start] at h
  exact Bool.false_ne_true h

theorem ne_nonterminal_of_isA (h : token.isA category = true) (name : String) :
    category ≠ .nonterminal name := by
  rintro rfl
  rw [isA_nonterminal] at h
  exact Bool.false_ne_true h

end Token

/-! ## Forests by recursion -/

namespace Forest

/-- The categories of the leaves from left to right. -/
def leaves : Forest → List Category
  | nil => []
  | cons c below beside => (if below.isEmpty then [c] else below.leaves) ++ beside.leaves

/-- The productions that nodes with children spell, in preorder. -/
def productions : Forest → List Production
  | nil => []
  | cons c below beside =>
    (if below.isEmpty then [] else ⟨c, below.roots⟩ :: below.productions) ++ beside.productions

theorem isEmpty_eq_true {f : Forest} : f.isEmpty = true ↔ f = nil := by
  cases f <;> simp [isEmpty]

@[simp] theorem nil_append (f : Forest) : nil ++ f = f := rfl

@[simp] theorem cons_append (c : Category) (below beside f : Forest) :
    cons c below beside ++ f = cons c below (beside ++ f) := rfl

@[simp] theorem append_nil (f : Forest) : f ++ nil = f := by
  induction f with
  | nil => rfl
  | cons c below beside _ ih => rw [cons_append, ih]

theorem append_eq_nil_iff {f g : Forest} : f ++ g = nil ↔ f = nil ∧ g = nil := by
  cases f <;> simp

@[simp] theorem roots_append (f g : Forest) : (f ++ g).roots = f.roots ++ g.roots := by
  induction f with
  | nil => rfl
  | cons c below beside _ ih => rw [cons_append, roots, ih, roots, List.cons_append]

@[simp] theorem roots_eq_nil {f : Forest} : f.roots = [] ↔ f = nil := by
  cases f <;> simp [roots]

theorem map_category_rootSubtrees (f : Forest) (first : Nat) (parent? : Option Category) :
    (f.rootSubtrees first parent?).map Subtree.category = f.roots := by
  induction f generalizing first with
  | nil => rfl
  | cons c below beside _ ih => rw [rootSubtrees, List.map_cons, ih, roots]

/-- The leaves among the numbered nodes. -/
theorem map_category_filter_isLeaf (f : Forest) (first : Nat) (parent? : Option Category) :
    ((f.subtrees first parent?).filter Subtree.isLeaf).map Subtree.category = f.leaves := by
  induction f generalizing first parent? with
  | nil => rfl
  | cons c below beside ihBelow ihBeside =>
    rw [subtrees, leaves, List.filter_cons, ← ihBeside (first + below.size + 1) parent?,
      ← ihBelow (first + 1) (some c), Subtree.isLeaf]
    cases below with
    | nil => simp [isEmpty, subtrees]
    | cons c' below' beside' => simp [isEmpty]

/-- The other ones. -/
theorem map_filter_not_isLeaf (f : Forest) (first : Nat) (parent? : Option Category) :
    ((f.subtrees first parent?).filter fun s => !s.isLeaf).map
      (fun s => ⟨s.category, s.children.map Subtree.category⟩) = f.productions := by
  induction f generalizing first parent? with
  | nil => rfl
  | cons c below beside ihBelow ihBeside =>
    rw [subtrees, productions, List.filter_cons, ← ihBeside (first + below.size + 1) parent?,
      ← ihBelow (first + 1) (some c), Subtree.isLeaf]
    cases below with
    | nil => simp [isEmpty, subtrees]
    | cons c' below' beside' =>
      simp [isEmpty, Subtree.children, map_category_rootSubtrees]

/-! ## Spans -/

/-- A forest derives the tokens between two positions, from left to right. -/
inductive Spans (G : Grammar π) (tokens : List (Token τ)) : Forest → Nat → Nat → Prop
  | nil (i : Nat) : Spans G tokens .nil i i
  | leaf {category : Category} {beside : Forest} {i j : Nat} {token : Token τ}
      (htoken : tokens[i]? = some token) (hcategory : token.isA category = true)
      (hbeside : Spans G tokens beside (i + 1) j) : Spans G tokens (.cons category .nil beside) i j
  | node {category : Category} {below beside : Forest} {i j k : Nat}
      (hproduction : G.Has ⟨category, below.roots⟩) (hbelow : Spans G tokens below i k)
      (hbeside : Spans G tokens beside k j) : Spans G tokens (.cons category below beside) i j

namespace Spans

variable {G : Grammar π} {tokens : List (Token τ)} {f g : Forest} {i j k : Nat}

theorem append (hf : f.Spans G tokens i k) (hg : g.Spans G tokens k j) :
    (f ++ g).Spans G tokens i j := by
  induction hf with
  | nil => exact hg
  | leaf htoken hcategory _ ih => exact .leaf htoken hcategory (ih hg)
  | node hproduction hbelow _ _ ih => exact .node hproduction hbelow (ih hg)

theorem le (h : f.Spans G tokens i j) : i ≤ j := by
  induction h with
  | nil => exact Nat.le_refl _
  | leaf _ _ _ ih => omega
  | node _ _ _ ihBelow ihBeside => exact Nat.le_trans ihBelow ihBeside

/-- Trees have leaves, so that a forest with trees spans some tokens. -/
theorem lt (h : f.Spans G tokens i j) (hne : f ≠ .nil) : i < j := by
  induction h with
  | nil => exact absurd rfl hne
  | leaf _ _ hbeside _ => exact hbeside.le
  | node hproduction _ hbeside ihBelow _ =>
    refine Nat.lt_of_lt_of_le (ihBelow fun hnil => ?_) hbeside.le
    rw [hnil] at hproduction
    exact hproduction.right_ne_nil rfl

end Spans

variable {G : Grammar π} {tokens : List (Token τ)}

theorem Spans.isEmpty_eq_false {category : Category} {below : Forest}
    (h : G.Has ⟨category, below.roots⟩) : below.isEmpty = false := by
  rw [← Bool.not_eq_true, isEmpty_eq_true]
  rintro rfl
  exact h.right_ne_nil rfl

/-- The nodes of a forest spell productions of the grammar and its leaves can be read as the
tokens. -/
theorem Spans.productions_leaves {f : Forest} {i j : Nat} (h : f.Spans G tokens i j) :
    (∀ p ∈ f.productions, G.Has p) ∧ Token.Reads tokens i f.leaves ∧ i + f.leaves.length = j := by
  induction h with
  | nil i => simp [productions, leaves, Token.reads_nil]
  | leaf htoken hcategory hbeside ih =>
    obtain ⟨hproductions, hreads, hlength⟩ := ih
    simp only [productions, leaves, isEmpty, if_pos, List.nil_append]
    refine ⟨hproductions, Token.reads_append.2 ⟨?_, hreads⟩, ?_⟩
    · exact Token.reads_singleton.2 ⟨_, htoken, hcategory⟩
    · rw [List.length_append, List.length_singleton]
      omega
  | node hproduction hbelow hbeside ihBelow ihBeside =>
    obtain ⟨hproductions, hreads, hlength⟩ := ihBelow
    obtain ⟨hproductions', hreads', hlength'⟩ := ihBeside
    simp only [productions, leaves, isEmpty_eq_false hproduction, Bool.false_eq_true, if_false]
    refine ⟨?_, Token.reads_append.2 ⟨hreads, hlength ▸ hreads'⟩, ?_⟩
    · simp only [List.cons_append, List.mem_cons, List.mem_append, forall_eq_or_imp]
      exact ⟨hproduction, fun p hp => hp.elim (hproductions p) (hproductions' p)⟩
    · rw [List.length_append]
      omega

/-- A forest spans the tokens between two positions when its nodes spell productions of the grammar
and its leaves can be read as the tokens. -/
theorem spans_iff {f : Forest} {i j : Nat} : f.Spans G tokens i j ↔
    (∀ p ∈ f.productions, G.Has p) ∧ Token.Reads tokens i f.leaves ∧ i + f.leaves.length = j := by
  refine ⟨Spans.productions_leaves, ?_⟩
  rintro ⟨hproductions, hreads, hlength⟩
  induction f generalizing i j with
  | nil =>
    obtain rfl : i = j := hlength
    exact .nil i
  | cons c below beside ihBelow ihBeside =>
    cases hempty : below.isEmpty with
    | true =>
      simp only [productions, leaves, hempty, if_true, List.nil_append, Token.reads_append,
        List.length_append, List.length_singleton] at hproductions hreads hlength
      obtain rfl := isEmpty_eq_true.1 hempty
      obtain ⟨token, htoken, hcategory⟩ := Token.reads_singleton.1 hreads.1
      exact .leaf htoken hcategory (ihBeside hproductions hreads.2 (by omega))
    | false =>
      simp only [productions, leaves, hempty, Bool.false_eq_true, if_false, List.cons_append,
        List.mem_cons, List.mem_append, forall_eq_or_imp, Token.reads_append,
        List.length_append] at hproductions hreads hlength
      have hbelow := ihBelow (fun p hp => hproductions.2 p (.inl hp)) hreads.1 rfl
      have hbeside := ihBeside (j := j) (fun p hp => hproductions.2 p (.inr hp)) hreads.2 (by omega)
      exact .node hproductions.1 hbelow hbeside

theorem Spans.category_ne_start {f : Forest} {i j first : Nat} {parent? : Option Nat}
    (h : f.Spans G tokens i j) : ∀ n ∈ f.nodes first parent?, n.category ≠ .start := by
  induction h generalizing first parent? with
  | nil => simp [nodes]
  | leaf _ hcategory _ ih =>
    simp only [nodes, List.nil_append, List.mem_cons, forall_eq_or_imp]
    refine ⟨?_, ih⟩
    rintro rfl
    simp [Token.isA_start] at hcategory
  | node hproduction _ _ ihBelow ihBeside =>
    simp only [nodes, List.mem_cons, List.mem_append, forall_eq_or_imp]
    exact ⟨hproduction.left_ne_start, fun n hn => hn.elim (ihBelow n) (ihBeside n)⟩

end Forest

/-! ## Derivation trees -/

/-- The category at the root of a tree for a left side. The top rule leaves no node. -/
def Grammar.rootCategory (G : Grammar π) (left : Category) : Category :=
  if left = .start then .nonterminal G.start else left

theorem Forest.exists_tree_of_roots {f : Forest} {category : Category}
    (h : f.roots = [category]) : ∃ t : ParseTree, f = t.forest := by
  cases f with
  | nil => simp [roots] at h
  | cons c below beside => exact ⟨⟨c, below, beside⟩, rfl⟩

namespace ParseTree

/-- A tree derives the tokens between two positions from a category. -/
structure IsDerivation (G : Grammar π) (tokens : List (Token τ)) (category : Category) (i j : Nat)
    (t : ParseTree) : Prop where
  root : t.root.category = category
  single : t.beside = .nil
  /-- A node with the categories of its children spells a rule. -/
  inner : ∀ s ∈ t.forest.subtrees 0 none, s.isLeaf = false →
    G.Has ⟨s.category, s.children.map Subtree.category⟩
  /-- There is a leaf for each token. -/
  length : i + ((t.forest.subtrees 0 none).filter Subtree.isLeaf).length = j
  /-- The leaves can be read as the tokens, from left to right. -/
  reads : Token.Reads tokens i
    (((t.forest.subtrees 0 none).filter Subtree.isLeaf).map Subtree.category)
  ne_start : ∀ n ∈ t.nodes, n.category ≠ .start

variable {G : Grammar π} {tokens : List (Token τ)} {category : Category} {i j : Nat}
  {t : ParseTree}

theorem isDerivation_iff : t.IsDerivation G tokens category i j ↔
    t.forest.roots = [category] ∧ t.forest.Spans G tokens i j := by
  have hleaves := t.forest.map_category_filter_isLeaf 0 none
  have hinner : (∀ s ∈ t.forest.subtrees 0 none, s.isLeaf = false →
      G.Has ⟨s.category, s.children.map Subtree.category⟩) ↔
      ∀ p ∈ t.forest.productions, G.Has p := by
    rw [← t.forest.map_filter_not_isLeaf 0 none, List.forall_mem_map]
    simp
  have hroots : t.forest.roots = [category] ↔ t.category = category ∧ t.beside = .nil := by
    simp [forest, Forest.roots]
  constructor
  · rintro ⟨hroot, hsingle, hspells, hlength, hreads, -⟩
    rw [← List.length_map Subtree.category, hleaves] at hlength
    rw [hleaves] at hreads
    exact ⟨hroots.2 ⟨hroot, hsingle⟩, Forest.spans_iff.2 ⟨hinner.1 hspells, hreads, hlength⟩⟩
  · rintro ⟨hroot, hspans⟩
    obtain ⟨hproductions, hreads, hlength⟩ := Forest.spans_iff.1 hspans
    refine ⟨(hroots.1 hroot).1, (hroots.1 hroot).2, hinner.2 hproductions, ?_, ?_,
      hspans.category_ne_start⟩
    · rw [← List.length_map Subtree.category, hleaves, hlength]
    · rw [hleaves]
      exact hreads

end ParseTree

end SemiringParsing
