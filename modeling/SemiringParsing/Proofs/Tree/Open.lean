import SemiringParsing.Proofs.Chart.Items
import SemiringParsing.Proofs.Tree.Inside

/-!
# Open derivation trees

An open tree is what is known of a derivation tree when its first tokens have been read. The last
leaf has been read at the end of a path from the root. What stands before the path is complete, and
what stands behind it is not expanded (`OpenTree.Spans`).

From the inside out the path is a `Spine`: a list of rules, each with the complete trees before the
path. A spine leads to an item, which says how far its innermost rule has been matched
(`Spine.LeadsTo`). Open trees are the spines that lead to an item that reads the last token
(`OpenTree.image_spine`).
-/

namespace SemiringParsing

/-- A derivation tree in which the last of some tokens has just been read. The rule at the root has
complete trees for the children before the path to the last leaf, and none behind it. -/
inductive OpenTree
  /-- The last leaf is a child of the root. -/
  | leaf (production : Production) (before : Forest)
  /-- It is further below. -/
  | node (production : Production) (before : Forest) (child : OpenTree)
  deriving DecidableEq, Repr

namespace OpenTree

/-- The category at the root. -/
def root : OpenTree → Category
  | leaf q _ => q.left
  | node q _ _ => q.left

/-- The productions of the path and of all complete trees. -/
def productions : OpenTree → List Production
  | leaf q before => q :: before.productions
  | node q before child => q :: (before.productions ++ child.productions)

variable {π α τ : Type} [Number π]

/-- An open tree reads the tokens between two positions: complete trees before the path, and the
last token at its end. -/
inductive Spans (G : Grammar π) (tokens : List (Token τ)) : OpenTree → Nat → Nat → Prop
  | leaf {q : Production} {before : Forest} {i j : Nat} {token : Token τ} {category : Category}
      (hproduction : G.Has q) (hbefore : before.Spans G tokens i j)
      (hroots : before.roots ++ [category] <+: q.right) (htoken : tokens[j]? = some token)
      (hcategory : token.isA category = true) : Spans G tokens (.leaf q before) i (j + 1)
  | node {q : Production} {before : Forest} {child : OpenTree} {i j k : Nat}
      (hproduction : G.Has q) (hbefore : before.Spans G tokens i j)
      (hroots : before.roots ++ [child.root] <+: q.right) (hchild : Spans G tokens child j k) :
      Spans G tokens (.node q before child) i k

/-- An open tree with a category at its root reads the first tokens up to a position. -/
structure IsOpenDerivation (G : Grammar π) (tokens : List (Token τ)) (category : Category)
    (position : Nat) (t : OpenTree) : Prop where
  root : t.root = category
  spans : t.Spans G tokens 0 position

/-- The scores of all rules of an open tree and of the tokens before a position, composed. -/
def weight (S : ScoreAlgebra π α) (G : Grammar π) (options : ParseOptions τ α)
    (tokens : List (Token τ)) (position : Nat) (t : OpenTree) : α :=
  S.product (t.productions.map (G.score S) ++ (tokens.take position).mapIdx (options.tokenScore S))

end OpenTree

/-! ## Spines -/

/-- Rules with the complete trees before a path, from the inside out. -/
abbrev Spine := List (Production × Forest)

/-- The path of an open tree. -/
def OpenTree.spine : OpenTree → Spine
  | leaf q before => [(q, before)]
  | node q before child => child.spine ++ [(q, before)]

theorem OpenTree.spine_ne_nil (t : OpenTree) : t.spine ≠ [] := by
  cases t with
  | leaf => exact List.cons_ne_nil _ _
  | node => exact List.append_ne_nil_of_right_ne_nil _ (List.cons_ne_nil _ _)

/-- The path tells the tree. -/
theorem OpenTree.spine_injective : Function.Injective OpenTree.spine := by
  intro t
  induction t with
  | leaf q before =>
    intro t' h
    cases t' with
    | leaf q' before' =>
      cases h
      rfl
    | node q' before' child' =>
      have hlast := (List.append_eq_singleton_iff.1 h.symm).resolve_right fun hsplit =>
        absurd hsplit.2 (List.cons_ne_nil _ _)
      exact absurd hlast.1 child'.spine_ne_nil
  | node q before child ih =>
    intro t' h
    cases t' with
    | leaf q' before' =>
      have hlast := (List.append_eq_singleton_iff.1 h).resolve_right fun hsplit =>
        absurd hsplit.2 (List.cons_ne_nil _ _)
      exact absurd hlast.1 child.spine_ne_nil
    | node q' before' child' =>
      obtain ⟨hchild, hframe⟩ := List.append_inj' h rfl
      cases hframe
      rw [ih hchild]

namespace Spine

variable {π τ : Type} [Number π] {G : Grammar π} {tokens : List (Token τ)} {spine : Spine}
  {i : Item}

/-- A spine leads to an item: its innermost rule, matched up to the dot by the complete trees before
the path. The empty spine leads to the top rule at the beginning. -/
inductive LeadsTo (G : Grammar π) (tokens : List (Token τ)) : Spine → Item → Prop
  | top : LeadsTo G tokens [] ⟨G.topRule.toProduction, 0, 0, 0⟩
  | rule {spine : Spine} {i : Item} {name : String} {q : Production} {before : Forest}
      {position dot : Nat} (h : LeadsTo G tokens spine i)
      (hactive : i.active? = some (.nonterminal name)) (hq : q ∈ G.productionsFor name)
      (hdot : dot ≤ q.length)
      (hbefore : before ∈ G.forests tokens (q.right.take dot) i.position position) :
      LeadsTo G tokens ((q, before) :: spine) ⟨q, position, i.position, dot⟩

namespace LeadsTo

theorem proper (h : LeadsTo G tokens spine i) : G.Proper i := by
  cases h with
  | top => exact ⟨Nat.le_refl 0, iff_of_true rfl rfl, fun _ => rfl⟩
  | @rule _ i _ q before position dot _ _ hq hdot hbefore =>
    obtain ⟨hproduction, hleft⟩ := Grammar.mem_productionsFor.1 hq
    refine ⟨hbefore.2.le, ⟨fun hzero => ?_, fun hposition => ?_⟩, fun htop => ?_⟩
    · obtain rfl : dot = 0 := hzero
      have hempty : before = .nil := Forest.roots_eq_nil.1 hbefore.1
      have hspans := hbefore.2
      rw [hempty] at hspans
      cases hspans
      rfl
    · obtain rfl : i.position = position := hposition
      by_contra hne
      refine Nat.lt_irrefl i.position (hbefore.2.lt fun hnil => hne ?_)
      rw [← Forest.roots_eq_nil, hbefore.1, List.take_eq_nil_iff] at hnil
      exact hnil.resolve_right hproduction.right_ne_nil
    · have hq : q = G.topRule.toProduction := htop
      exact absurd (hleft.symm.trans (congrArg Production.left hq)) (by simp)

theorem mem_items (h : LeadsTo G tokens spine i) : i ∈ G.items i.position := by
  have hproper := h.proper
  rw [Grammar.mem_items]
  cases h with
  | top => exact ⟨⟨G.topRule, List.mem_cons_self, rfl⟩, rfl, hproper.origin_le, Nat.zero_le _⟩
  | rule _ _ hq hdot _ =>
    obtain ⟨⟨r, hr, hproduction⟩, -⟩ := Grammar.mem_productionsFor.1 hq
    exact ⟨⟨r, List.mem_cons_of_mem _ hr, hproduction⟩, rfl, hproper.origin_le, hdot⟩

/-- A spine leads to one item only. -/
theorem item_unique {i' : Item} (h : LeadsTo G tokens spine i) (h' : LeadsTo G tokens spine i') :
    i = i' := by
  induction h generalizing i' with
  | top =>
    cases h'
    rfl
  | @rule _ i _ q before position dot _ _ _ hdot hbefore ih =>
    cases h' with
    | @rule _ i₂ _ _ _ position₂ dot₂ h₂ _ _ hdot₂ hbefore₂ =>
      obtain rfl : i = i₂ := ih h₂
      obtain rfl : position = position₂ := hbefore.2.end_unique hbefore₂.2
      have hlength : (q.right.take dot).length = (q.right.take dot₂).length :=
        congrArg List.length (hbefore.1.symm.trans hbefore₂.1)
      rw [List.length_take_of_le hdot, List.length_take_of_le hdot₂] at hlength
      rw [hlength]

end LeadsTo

/-! ## Open trees as spines -/

/-- What stands before a path is what its rule begins with. -/
theorem take_roots {q : Production} {before : Forest} {category : Category}
    (h : before.roots ++ [category] <+: q.right) :
    before.roots.length ≤ q.length ∧ before.roots = q.right.take before.roots.length ∧
      q.right[before.roots.length]? = some category := by
  obtain ⟨behind, hright⟩ := h
  rw [Production.length, ← hright]
  simp

/-- Conversely. -/
theorem prefix_right_of_roots {q : Production} {before : Forest} {category : Category} {dot : Nat}
    (hroots : before.roots = q.right.take dot) (hcategory : q.right[dot]? = some category) :
    before.roots ++ [category] <+: q.right := by
  rw [hroots, ← Production.take_add_one hcategory]
  exact List.take_prefix _ _

/-- An open tree below a spine goes on with it, to an item that reads the last token. -/
theorem LeadsTo.of_spans {t : OpenTree} {position end' : Nat} {name : String}
    (h : LeadsTo G tokens spine i) (hactive : i.active? = some (.nonterminal name))
    (hroot : t.root = .nonterminal name) (hposition : i.position = position)
    (ht : t.Spans G tokens position end') : ∃ j, LeadsTo G tokens (t.spine ++ spine) j ∧
      j.position + 1 = end' ∧ j.reads tokens = true := by
  induction ht generalizing spine i name with
  | @leaf q before _ position token category hproduction hbefore hroots htoken hcategory =>
    obtain ⟨hdot, htake, hcategory'⟩ := take_roots hroots
    subst hposition
    exact ⟨⟨q, position, i.position, before.roots.length⟩,
      .rule h hactive (Grammar.mem_productionsFor.2 ⟨hproduction, hroot⟩) hdot ⟨htake, hbefore⟩,
      rfl, Item.reads_iff.2 ⟨token, category, htoken, hcategory', hcategory⟩⟩
  | @node q before child _ position _ hproduction hbefore hroots hchild ih =>
    obtain ⟨hdot, htake, hcategory⟩ := take_roots hroots
    subst hposition
    obtain ⟨child', hchild'⟩ : ∃ name, child.root = .nonterminal name := by
      have hleft : ∀ {q : Production}, G.Has q → ∃ name, q.left = .nonterminal name := by
        rintro q ⟨r, hr, rfl⟩
        exact Grammar.left_eq_nonterminal hr
      cases hchild with
      | leaf hproduction => exact hleft hproduction
      | node hproduction => exact hleft hproduction
    have hleads : LeadsTo G tokens ((q, before) :: spine)
        ⟨q, position, i.position, before.roots.length⟩ :=
      .rule h hactive (Grammar.mem_productionsFor.2 ⟨hproduction, hroot⟩) hdot ⟨htake, hbefore⟩
    obtain ⟨j, hj, hreads⟩ := ih hleads (hchild' ▸ hcategory) hchild' rfl
    rw [OpenTree.spine, List.append_assoc]
    exact ⟨j, hj, hreads⟩

/-- A spine above an open tree makes it one from the start symbol. -/
theorem LeadsTo.exists_tree (h : LeadsTo G tokens spine i) {t : OpenTree} {end' : Nat}
    (hactive : i.active? = some t.root) (ht : t.Spans G tokens i.position end') :
    ∃ t' : OpenTree, t'.spine = t.spine ++ spine ∧
      t'.IsOpenDerivation G tokens (.nonterminal G.start) end' := by
  induction h generalizing t with
  | top => exact ⟨t, (List.append_nil _).symm, (Option.some.inj hactive).symm, ht⟩
  | @rule spine i name q before position dot _ hactive' hq _ hbefore ih =>
    obtain ⟨hproduction, hleft⟩ := Grammar.mem_productionsFor.1 hq
    have hnode : (OpenTree.node q before t).Spans G tokens i.position end' :=
      .node hproduction hbefore.2 (prefix_right_of_roots hbefore.1 hactive) ht
    obtain ⟨t', hspine, hderivation⟩ :=
      ih (t := .node q before t) (hactive'.trans (congrArg some hleft.symm)) hnode
    exact ⟨t', hspine.trans (List.append_assoc ..), hderivation⟩

end Spine

/-- **Open trees are spines** that lead to an item that reads the last token. -/
theorem OpenTree.image_spine {π τ : Type} [Number π] (G : Grammar π) (tokens : List (Token τ))
    (position : Nat) :
    OpenTree.spine '' {t | t.IsOpenDerivation G tokens (.nonterminal G.start) (position + 1)} =
      {spine | ∃ i, Spine.LeadsTo G tokens spine i ∧ i.position = position ∧
        i.reads tokens = true} := by
  ext spine
  constructor
  · rintro ⟨t, ⟨hroot, hspans⟩, rfl⟩
    obtain ⟨j, hj, hposition, hreads⟩ := Spine.LeadsTo.of_spans .top rfl hroot rfl hspans
    rw [List.append_nil] at hj
    exact ⟨j, hj, Nat.succ.inj hposition, hreads⟩
  · rintro ⟨i, hleads, rfl, hreads⟩
    obtain ⟨token, category, htoken, hactive, hisA⟩ := Item.reads_iff.1 hreads
    cases hleads with
    | top => exact absurd rfl (Grammar.production_ne_of_reads hreads)
    | @rule spine i name q before position dot h hactive' hq _ hbefore =>
      obtain ⟨hproduction, hleft⟩ := Grammar.mem_productionsFor.1 hq
      have hleaf : (OpenTree.leaf q before).Spans G tokens i.position (position + 1) :=
        .leaf hproduction hbefore.2 (Spine.prefix_right_of_roots hbefore.1 hactive) htoken hisA
      obtain ⟨t, hspine, hderivation⟩ := h.exists_tree (t := .leaf q before)
        (hactive'.trans (congrArg some hleft.symm)) hleaf
      exact ⟨t, hderivation, hspine⟩

/-! ## Weights -/

section Weight

variable {π α τ : Type} [Number π] (S : ScoreAlgebra π α) (G : Grammar π)

/-- The weight of the rules of an open tree. -/
def OpenTree.ruleWeight [S.IsSemiring] (t : OpenTree) : S.Members :=
  (t.productions.map fun q => S.lift (G.score S q)).prod

/-- The weight of the rules of a spine and of the complete trees before it. -/
def Spine.ruleWeight [S.IsSemiring] (spine : Spine) : S.Members :=
  (spine.map fun x => S.lift (G.score S x.1) * x.2.ruleWeight S G).prod

variable {S G} [S.IsCommSemiring]

theorem OpenTree.ruleWeight_spine (t : OpenTree) :
    Spine.ruleWeight S G t.spine = t.ruleWeight S G := by
  induction t with
  | leaf q before => simp [Spine.ruleWeight, spine, ruleWeight, productions, Forest.ruleWeight]
  | node q before child ih =>
    have hspine : Spine.ruleWeight S G (child.spine ++ [(q, before)]) =
        Spine.ruleWeight S G child.spine * (S.lift (G.score S q) * before.ruleWeight S G) := by
      simp [Spine.ruleWeight]
    have htree : (node q before child).ruleWeight S G =
        S.lift (G.score S q) * (before.ruleWeight S G * child.ruleWeight S G) := by
      simp [ruleWeight, productions, Forest.ruleWeight]
    rw [spine, hspine, htree, ih]
    ring

/-- An open tree weighs what its rules weigh times what the tokens before its end weigh. -/
theorem OpenTree.weight_mem {options : ParseOptions τ α} {tokens : List (Token τ)} {position : Nat}
    (hoptions : options.WeighsIn S) (hposition : position ≤ tokens.length) (t : OpenTree) :
    S.member (t.weight S G options tokens position) = true ∧
      S.lift (t.weight S G options tokens position) =
        t.ruleWeight S G * tokensWeight S options tokens 0 position := by
  have htokens : tokensWeight S options (tokens.take position) 0 (tokens.take position).length =
      tokensWeight S options tokens 0 position := by
    rw [List.length_take_of_le hposition]
    refine Finset.prod_congr rfl fun k hk => ?_
    rw [tokenWeight, tokenWeight, List.getElem?_take_of_lt (Finset.mem_Ico.1 hk).2]
  have hproduct := product_mem (G := G) (tokens.take position) hoptions t.productions
  exact ⟨hproduct.1, hproduct.2.trans (congrArg _ htokens)⟩

end Weight

end SemiringParsing
