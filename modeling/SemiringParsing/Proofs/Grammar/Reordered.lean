import Mathlib.Data.List.Nodup
import Mathlib.Data.List.Perm.Basic
import SemiringParsing.Proofs.Chart.Items
import SemiringParsing.Proofs.Grammar.UnitRank
import SemiringParsing.Proofs.Tree.Weight
import SemiringParsing.Grammar.LeftCorners

/-!
# Rules in another order

What is taken from the rules of a grammar does not depend on their order: whether they are accepted
(`GrammarError.find?_eq_none_of_perm`), which nonterminals there are, the score of a production and
the left corners (`Grammar.Reorders.ofGrammar_eq`). Names are sorted before they are used. What adds
up rules adds up members, or there is one of them at most.
-/

namespace SemiringParsing

/-! ## Lists -/

/-- What sorted names are is decided by which names there are. -/
theorem Names.sorted_congr {xs ys : List String} (h : ∀ x, x ∈ xs ↔ x ∈ ys) :
    sorted xs = sorted ys := by
  have hxs := pairwise_sorted xs
  have hys := pairwise_sorted ys
  have hperm : (sorted xs).Perm (sorted ys) :=
    (List.perm_ext_iff_of_nodup (hxs.imp fun h => Std.ne_of_lt h)
      (hys.imp fun h => Std.ne_of_lt h)).2 fun x => by simp [h]
  exact hperm.eq_of_pairwise (fun _ _ _ _ hab hba => absurd (Std.lt_trans hab hba) (Std.lt_irrefl))
    hxs hys

/-- A selection of one entry at most is the same in any order. -/
theorem filter_eq_of_perm {β : Type} {xs ys : List β} {p : β → Bool} (hperm : xs.Perm ys)
    (hone : (xs.filter p).length ≤ 1) : xs.filter p = ys.filter p := by
  have hfilter := hperm.filter p
  cases hxs : xs.filter p with
  | nil =>
    rw [hxs] at hfilter
    exact hfilter.nil_eq
  | cons x rest =>
    rw [hxs] at hone hfilter
    obtain rfl : rest = [] := List.eq_nil_of_length_eq_zero (by simpa using hone)
    exact (List.singleton_perm.1 hfilter)

variable {π : Type} [Number π] {rules rules' : List (Rule π)}

/-- A sum of members is the same in any order. -/
theorem ScoreAlgebra.sum_eq_of_perm {α : Type} {S : ScoreAlgebra π α} [S.IsSemiring]
    {xs ys : List α} (hmembers : ∀ x ∈ xs, S.member x = true) (hperm : xs.Perm ys) :
    S.sum xs = S.sum ys := by
  obtain ⟨hxs, hlift⟩ := sum_mem hmembers
  obtain ⟨hys, hlift'⟩ := sum_mem fun y hy => hmembers y (hperm.mem_iff.2 hy)
  rw [← lift_inj hxs hys, hlift, hlift', (hperm.map _).sum_eq]

/-! ## Acceptance -/

namespace GrammarError

theorem inRules?_eq_none_of_perm (hperm : rules.Perm rules') (h : inRules? [] rules = none) :
    inRules? [] rules' = none := by
  obtain ⟨hrules, hnodup⟩ := inRules?_eq_none.1 h
  exact inRules?_eq_none.2 ⟨fun r hr => hrules r (hperm.mem_iff.2 hr),
    (hperm.map _).nodup_iff.1 hnodup⟩

omit [Number π] in
theorem defined_eq_of_perm (hperm : rules.Perm rules') : defined rules = defined rules' :=
  Names.sorted_congr fun _ => (hperm.filterMap _).mem_iff

omit [Number π] in
theorem used_eq_of_perm (start : String) (hperm : rules.Perm rules') :
    used start rules = used start rules' :=
  Names.sorted_congr fun _ => ((hperm.flatMap_right _).cons start).mem_iff

end GrammarError

theorem UnitCycle.isStep_eq (p : Production) (source target : String) :
    isStep p source target = (p == ⟨.nonterminal source, [.nonterminal target]⟩) := by
  rw [Bool.eq_iff_iff, isStep, Bool.and_eq_true, beq_iff_eq, beq_iff_eq, beq_iff_eq]
  constructor
  · rintro ⟨hleft, hright⟩
    cases p
    simp_all
  · rintro rfl
    exact ⟨rfl, rfl⟩

/-- Each entry of the table of unit productions comes from one rule at most. -/
theorem UnitCycle.system_eq_of_perm (names : List String) (hperm : rules.Perm rules')
    (hnodup : (rules.map Rule.toProduction).Nodup) : system names rules = system names rules' := by
  have hfilter : ∀ source target,
      rules.filter (fun r => isStep r.toProduction source target) =
        rules'.filter fun r => isStep r.toProduction source target := by
    intro source target
    refine filter_eq_of_perm hperm ?_
    have hcount := List.nodup_iff_count_le_one.1 hnodup
      ⟨.nonterminal source, [.nonterminal target]⟩
    rw [List.count, List.countP_map] at hcount
    rw [← List.countP_eq_length_filter]
    simpa only [isStep_eq, Function.comp_def] using hcount
  simp only [system, hfilter]

namespace GrammarError

/-- A grammar is accepted in whatever order its rules are given. -/
theorem find?_eq_none_of_perm {start : String} (hperm : rules.Perm rules')
    (h : find? start rules = none) : find? start rules' = none := by
  obtain ⟨hrules, hused, hcycles⟩ := find?_eq_none.1 h
  have hsystem := UnitCycle.system_eq_of_perm (defined rules) hperm (inRules?_eq_none.1 hrules).2
  refine find?_eq_none.2 ⟨inRules?_eq_none_of_perm hperm hrules, ?_, ?_⟩
  · rw [← used_eq_of_perm start hperm, ← defined_eq_of_perm hperm]
    exact hused
  · rw [← defined_eq_of_perm hperm, UnitCycle.divergent?, ← hsystem]
    exact hcycles

end GrammarError

namespace Grammar

/-! ## Grammars with the same rules -/

/-- Two grammars have the same rules, perhaps in another order. -/
structure Reorders (G G' : Grammar π) : Prop where
  start_eq : G.start = G'.start
  perm : G.rules.Perm G'.rules

namespace Reorders

variable {G G' : Grammar π}

theorem of_build {start : String} {definitions definitions' : List (Definition π)}
    (hperm : definitions.Perm definitions') (h : build start definitions = .ok G)
    (h' : build start definitions' = .ok G') : G.Reorders G' := by
  obtain ⟨hstart, hdefinitions⟩ := of_build_eq_ok h
  obtain ⟨hstart', hdefinitions'⟩ := of_build_eq_ok h'
  refine ⟨hstart.trans hstart'.symm, ?_⟩
  rw [rules, hdefinitions, rules, hdefinitions']
  exact hperm.map _

theorem refl (G : Grammar π) : G.Reorders G :=
  ⟨rfl, .refl _⟩

theorem symm (h : G.Reorders G') : G'.Reorders G :=
  ⟨h.start_eq.symm, h.perm.symm⟩

theorem mem_rules (h : G.Reorders G') {r : Rule π} : r ∈ G.rules ↔ r ∈ G'.rules :=
  h.perm.mem_iff

theorem topRule_eq (h : G.Reorders G') : G.topRule = G'.topRule := by
  rw [topRule, topRule, h.start_eq]

theorem mem_rulesFor (h : G.Reorders G') {left : Category} {r : Rule π} :
    r ∈ G.rulesFor left ↔ r ∈ G'.rulesFor left := by
  rw [Grammar.mem_rulesFor, Grammar.mem_rulesFor, h.topRule_eq, h.mem_rules]

theorem productionsFor_eq (h : G.Reorders G') : G.productionsFor = G'.productionsFor := by
  funext name
  ext q
  simp only [productionsFor, List.mem_toFinset, List.mem_map, h.mem_rulesFor]

theorem items_eq (h : G.Reorders G') : G.items = G'.items := by
  funext position
  ext i
  simp only [mem_items, List.mem_cons, h.topRule_eq, h.mem_rules]

theorem nonterminals_eq (h : G.Reorders G') : G.nonterminals = G'.nonterminals :=
  GrammarError.defined_eq_of_perm h.perm

theorem unitAcyclic (h : G.Reorders G') (hacyclic : G.UnitAcyclic) : G'.UnitAcyclic := by
  have hstep : G.UnitStep = G'.UnitStep := by
    funext source target
    simp only [UnitStep, h.mem_rules]
  rwa [UnitAcyclic, hstep] at hacyclic

section Scores

variable {α : Type} (S : ScoreAlgebra π α)

theorem score_eq (h : G.Reorders G') : G.score S = G'.score S := by
  funext q
  by_cases hq : ∃ r ∈ G.rules, r.toProduction = q
  · obtain ⟨r, hr, rfl⟩ := hq
    rw [score_toProduction hr, score_toProduction (h.mem_rules.1 hr)]
  · have hnone : ∀ {G : Grammar π}, (¬ ∃ r ∈ G.rules, r.toProduction = q) →
        G.score S q = S.zero := fun {G} hq => by
      have hfind : G.rules.find? (fun r => r.toProduction == q) = none :=
        List.find?_eq_none.2 fun r hr hbeq => hq ⟨r, hr, beq_iff_eq.1 hbeq⟩
      rw [score, hfind]
    rw [hnone hq, hnone fun ⟨r, hr, hproduction⟩ => hq ⟨r, h.mem_rules.2 hr, hproduction⟩]

theorem stepScore_eq [S.IsSemiring] (h : G.Reorders G') (source target : String) :
    LeftCorners.stepScore S G.rules source target =
      LeftCorners.stepScore S G'.rules source target := by
  have hsum : ∀ rules : List (Rule π), LeftCorners.stepScore S rules source target =
      S.sum ((rules.filter fun r => r.left == .nonterminal source &&
        r.categoryAt? 0 == some (.nonterminal target)).map fun r =>
          S.ofProbability r.probability) := fun rules => by
    rw [LeftCorners.stepScore, ScoreAlgebra.sum, List.foldl_map]
  rw [hsum, hsum]
  refine ScoreAlgebra.sum_eq_of_perm (S := S) (fun x hx => ?_) ((h.perm.filter _).map _)
  obtain ⟨r, hr, rfl⟩ := List.mem_map.1 hx
  exact ofProbability_mem (List.mem_of_mem_filter hr)

/-- Left corners do not depend on the order of the rules. -/
theorem ofGrammar_eq [S.IsSemiring] (h : G.Reorders G') :
    LeftCorners.ofGrammar S G = LeftCorners.ofGrammar S G' := by
  have hsteps : LeftCorners.steps S G.rules = LeftCorners.steps S G'.rules := by
    funext names
    simp only [LeftCorners.steps, h.stepScore_eq S]
  rw [LeftCorners.ofGrammar, LeftCorners.ofGrammar, h.nonterminals_eq, LeftCorners.ofRules,
    LeftCorners.ofRules, hsteps]

end Scores

end Reorders

end Grammar

end SemiringParsing
