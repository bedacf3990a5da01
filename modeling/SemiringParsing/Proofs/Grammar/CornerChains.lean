import SemiringParsing.Proofs.Grammar.CornerWeights
import SemiringParsing.Proofs.Grammar.LeftRecursion

/-!
# Chains of left corners

A chain of rules leads from one nonterminal to another when each of its rules expands the
nonterminal that stands in the first place of the rule before it (`Grammar.CornerChain`). If a
grammar does not recurse on the left, there are finitely many chains between two nonterminals
(`CornerAcyclic.exists_listsChains`), and the weight of a left corner is what they weigh together
(`CornerAcyclic.lift_weightTo_eq_sum`).

A chain is empty, or it has a first rule. The lists of all chains are made along this
(`extendChains`), and so are their weights.
-/

namespace SemiringParsing

variable {π α : Type}

/-- What is filed under keys can be added up key by key. -/
theorem sum_filter_key_mul {ι κ M : Type} [DecidableEq κ] [Semiring M] {keys : Finset κ}
    {key? : ι → Option κ} (a : ι → M) (f : κ → M) {xs : List ι}
    (hkeys : ∀ x ∈ xs, ∀ k, key? x = some k → k ∈ keys) :
    ∑ k ∈ keys, ((xs.filter fun x => key? x == some k).map a).sum * f k =
      (xs.map fun x => a x * (key? x).elim 0 f).sum := by
  induction xs with
  | nil => simp
  | cons x xs ih =>
    have hsplit : ∀ k, (((x :: xs).filter fun x => key? x == some k).map a).sum * f k =
        (if key? x = some k then a x * f k else 0) +
          ((xs.filter fun x => key? x == some k).map a).sum * f k := by
      intro k
      rw [List.filter_cons]
      by_cases hk : key? x = some k <;> simp [hk, add_mul]
    have hhead : ∑ k ∈ keys, (if key? x = some k then a x * f k else 0) =
        a x * (key? x).elim 0 f := by
      cases hx : key? x with
      | none => simp
      | some k => simp [hkeys x List.mem_cons_self k hx]
    simp only [hsplit, Finset.sum_add_distrib, List.map_cons, List.sum_cons, hhead]
    rw [ih fun y hy => hkeys y (List.mem_cons_of_mem _ hy)]

variable [Number π]

namespace Grammar

variable {G : Grammar π} {source target : String} {chain : List (Rule π)}
  {chains : String → List (List (Rule π))}

/-- A list of rules leads from a nonterminal to the target through first places. -/
inductive CornerChain (G : Grammar π) (target : String) : String → List (Rule π) → Prop
  | nil : CornerChain G target target []
  | cons {source name : String} {r : Rule π} {rest : List (Rule π)} (hr : r ∈ G.rules)
      (hleft : r.left = .nonterminal source) (hfirst : r.categoryAt? 0 = some (.nonterminal name))
      (hrest : CornerChain G target name rest) : CornerChain G target source (r :: rest)

theorem CornerChain.mem_rules (h : G.CornerChain target source chain) : ∀ r ∈ chain, r ∈ G.rules := by
  induction h with
  | nil => simp
  | cons hr _ _ _ ih => exact List.forall_mem_cons.2 ⟨hr, ih⟩

/-- A list consists of the chains from a nonterminal to the target, each of them once. -/
structure ListsChains (G : Grammar π) (target source : String) (chains : List (List (Rule π))) :
    Prop where
  nodup : chains.Nodup
  mem_iff : ∀ chain, chain ∈ chains ↔ G.CornerChain target source chain

/-- The chains from a nonterminal to the target, when those from the nonterminals in first places
are given. -/
def extendChains (G : Grammar π) (target : String) (chains : String → List (List (Rule π)))
    (source : String) : List (List (Rule π)) :=
  (if source = target then [[]] else []) ++
    (G.rulesFor (.nonterminal source)).flatMap fun r => (r.corner?.elim [] chains).map (r :: ·)

theorem mem_extendChains : chain ∈ G.extendChains target chains source ↔
    (chain = [] ∧ source = target) ∨ ∃ r name rest, r ∈ G.rules ∧ r.left = .nonterminal source ∧
      r.categoryAt? 0 = some (.nonterminal name) ∧ rest ∈ chains name ∧ chain = r :: rest := by
  rw [extendChains, List.mem_append, List.mem_flatMap]
  refine or_congr ?_ ⟨?_, ?_⟩
  · split <;> simp_all
  · rintro ⟨r, hr, hchain⟩
    obtain ⟨rest, hrest, rfl⟩ := List.mem_map.1 hchain
    obtain ⟨hrule, hleft⟩ := mem_rulesFor_nonterminal.1 hr
    cases hcorner : r.corner? with
    | none => simp [hcorner] at hrest
    | some name =>
      rw [hcorner] at hrest
      exact ⟨r, name, rest, hrule, hleft, Production.corner?_eq_some.1 hcorner, hrest, rfl⟩
  · rintro ⟨r, name, rest, hr, hleft, hfirst, hrest, rfl⟩
    refine ⟨r, mem_rulesFor_nonterminal.2 ⟨hr, hleft⟩, List.mem_map.2 ⟨rest, ?_, rfl⟩⟩
    rw [Production.corner?_eq_some.2 hfirst]
    exact hrest

theorem nodup_rulesFor (G : Grammar π) (name : String) :
    (G.rulesFor (.nonterminal name)).Nodup :=
  List.Nodup.of_map _ (nodup_productions_rulesFor G _)

theorem ListsChains.extend
    (h : ∀ name, G.CornerStep source name → G.ListsChains target name (chains name)) :
    G.ListsChains target source (G.extendChains target chains source) where
  nodup := by
    refine List.nodup_append.2 ⟨?_, List.nodup_flatMap.2 ⟨fun r hr => ?_, ?_⟩, ?_⟩
    · split <;> simp
    · refine List.Nodup.map (List.cons_injective) ?_
      cases hcorner : r.corner? with
      | none => exact List.nodup_nil
      | some name =>
        obtain ⟨hrule, hleft⟩ := mem_rulesFor_nonterminal.1 hr
        exact (h name ⟨r, hrule, hleft, Production.corner?_eq_some.1 hcorner⟩).nodup
    · refine (G.nodup_rulesFor source).imp fun {r r'} hne chain hchain hchain' => hne ?_
      obtain ⟨rest, -, rfl⟩ := List.mem_map.1 hchain
      obtain ⟨rest', -, heq⟩ := List.mem_map.1 hchain'
      exact (List.cons.inj heq).1.symm
    · rintro chain hchain _ hchain' rfl
      obtain ⟨r, -, hr⟩ := List.mem_flatMap.1 hchain'
      obtain ⟨rest, -, rfl⟩ := List.mem_map.1 hr
      split at hchain <;> simp at hchain
  mem_iff chain := by
    rw [mem_extendChains]
    constructor
    · rintro (⟨rfl, rfl⟩ | ⟨r, name, rest, hr, hleft, hfirst, hrest, rfl⟩)
      · exact .nil
      · exact .cons hr hleft hfirst (((h name ⟨r, hr, hleft, hfirst⟩).mem_iff rest).1 hrest)
    · intro hchain
      cases hchain with
      | nil => exact .inl ⟨rfl, rfl⟩
      | @cons _ name r rest hr hleft hfirst hrest =>
        exact .inr ⟨r, name, rest, hr, hleft, hfirst,
          ((h name ⟨r, hr, hleft, hfirst⟩).mem_iff rest).2 hrest, rfl⟩

/-- **Finitely many chains** lead from a nonterminal to another, if the grammar does not recurse on
the left. -/
theorem CornerAcyclic.exists_listsChains (h : G.CornerAcyclic) (target source : String) :
    ∃ chains, G.ListsChains target source chains := by
  induction source using h.wellFounded_swap.induction with
  | _ source ih =>
    choose! chains hchains using ih
    exact ⟨_, .extend hchains⟩

/-! ## What chains weigh -/

section Weight

variable {S : ScoreAlgebra π α} [S.IsCommSemiring]

variable (S) in
/-- The weight of a chain: the scores of its rules, composed. -/
def chainWeight (chain : List (Rule π)) : S.Members :=
  (chain.map fun r => S.lift (S.ofProbability r.probability)).prod

theorem ListsChains.sum_eq {listed listed' : List (List (Rule π))}
    (h : G.ListsChains target source listed) (h' : G.ListsChains target source listed') :
    (listed.map (chainWeight S)).sum = (listed'.map (chainWeight S)).sum := by
  have hperm : listed.Perm listed' := (List.perm_ext_iff_of_nodup h.nodup h'.nodup).2 fun chain =>
    (h.mem_iff chain).trans (h'.mem_iff chain).symm
  exact (hperm.map _).sum_eq

/-- Chains weigh what their first rules weigh and what goes on from these. -/
theorem sum_extendChains :
    ((G.extendChains target chains source).map (chainWeight S)).sum =
      (if source = target then 1 else 0) + ((G.rulesFor (.nonterminal source)).map fun r =>
        S.lift (S.ofProbability r.probability) *
          r.corner?.elim 0 fun name => ((chains name).map (chainWeight S)).sum).sum := by
  rw [extendChains, List.map_append, List.sum_append, List.map_flatMap,
    List.flatMap_def, List.sum_flatten, List.map_map]
  congr 1
  · split <;> simp [chainWeight]
  · refine congrArg List.sum (List.map_congr_left fun r _ => ?_)
    rw [Function.comp_apply, List.map_map]
    cases r.corner? with
    | none => simp
    | some name =>
      rw [Option.elim_some, Option.elim_some, ← List.sum_map_mul_left]
      rfl

/-- The rules of a nonterminal are the steps to the nonterminals in their first places. -/
theorem sum_rulesFor_corner (source : String) (f : String → S.Members) :
    ((G.rulesFor (.nonterminal source)).map fun r =>
        S.lift (S.ofProbability r.probability) * r.corner?.elim 0 f).sum =
      (G.nonterminals.map fun name =>
        S.lift (LeftCorners.stepScore S G.rules source name) * f name).sum := by
  rw [← List.sum_toFinset _ G.nodup_nonterminals, ← sum_filter_key_mul]
  · refine Finset.sum_congr rfl fun name _ => ?_
    have hrules : ((G.rulesFor (.nonterminal source)).filter fun r => r.corner? == some name) =
        G.rules.filter fun r => r.left == .nonterminal source &&
          r.categoryAt? 0 == some (.nonterminal name) := by
      rw [rulesFor_eq_filter, List.filter_cons_of_neg (by simp), List.filter_filter]
      refine List.filter_congr fun r _ => ?_
      rw [Bool.and_comm, Bool.eq_iff_iff]
      simp only [Bool.and_eq_true, beq_iff_eq, Production.corner?_eq_some]
    rw [hrules, LeftCorners.lift_stepScore_eq_sum_rules]
  · intro r hr name hcorner
    obtain ⟨hrule, -⟩ := mem_rulesFor_nonterminal.1 hr
    have hfirst := Production.corner?_eq_some.1 hcorner
    exact List.mem_toFinset.2 (mem_nonterminals_of_mem_right hrule (List.mem_of_getElem? hfirst))

/-- **The weight of a left corner** is what the chains that lead to it weigh, if the grammar does not
recurse on the left. -/
theorem CornerAcyclic.lift_weightTo_eq_sum (h : G.CornerAcyclic)
    (hsource : source ∈ G.nonterminals) (htarget : target ∈ G.nonterminals)
    {listed : List (List (Rule π))} (hlisted : G.ListsChains target source listed) :
    S.lift ((LeftCorners.ofGrammar S G).weightTo S source target) =
      (listed.map (chainWeight S)).sum := by
  choose chains hchains using h.exists_listsChains target
  rw [hlisted.sum_eq (hchains source)]
  clear hlisted
  induction source using h.wellFounded_swap.induction with
  | _ source ih =>
    rw [(hchains source).sum_eq (.extend fun name _ => hchains name), sum_extendChains,
      LeftCorners.lift_weightTo_first hsource htarget, ← sum_rulesFor_corner]
    congr 2
    refine List.map_congr_left fun r hr => ?_
    obtain ⟨hrule, hleft⟩ := mem_rulesFor_nonterminal.1 hr
    cases hcorner : r.corner? with
    | none => rfl
    | some name =>
      have hstep : G.CornerStep source name :=
        ⟨r, hrule, hleft, Production.corner?_eq_some.1 hcorner⟩
      rw [Option.elim_some, Option.elim_some, ih name hstep hstep.target_mem_nonterminals]

end Weight

end Grammar

end SemiringParsing
