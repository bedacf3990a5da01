import Mathlib.Data.List.Nodup
import SemiringParsing.Grammar.Basic

/-!
# What an accepted grammar satisfies

A value of `Grammar` carries the proof that no fault was found. This module reads off what that
means for its rules: right sides are not empty, probabilities lie between 0 and 1, no production
occurs twice, and every nonterminal that is used has a rule. The category `start` heads the
implicit top rule and stands nowhere else.
-/

namespace SemiringParsing

theorem Production.take_add_one {p : Production} {index : Nat} {category : Category}
    (h : p.categoryAt? index = some category) :
    p.right.take (index + 1) = p.right.take index ++ [category] := by
  rw [categoryAt?] at h
  rw [List.take_add_one, h, Option.toList_some]

variable {π : Type} [Number π]

namespace GrammarError

/-- No rule is faulty by itself exactly when all are non-empty, have a probability, and are
distinct from each other and from those seen before. -/
theorem inRules?_eq_none {seen : List Production} {rules : List (Rule π)} :
    inRules? seen rules = none ↔
      (∀ r ∈ rules, r.right ≠ [] ∧ isProbability r.probability = true ∧ r.toProduction ∉ seen) ∧
        (rules.map Rule.toProduction).Nodup := by
  induction rules generalizing seen with
  | nil => simp [inRules?]
  | cons r rs ih =>
    unfold inRules?
    split
    · next h => simp_all
    · next hempty =>
      split
      · next h => simp_all
      · next hprob =>
        split
        · next h => simp [h]
        · next hseen =>
          rw [ih]
          simp only [List.isEmpty_iff, Bool.not_eq_eq_eq_not, Bool.not_true,
            Bool.not_eq_false] at hempty hprob
          simp only [List.mem_cons, not_or, List.map_cons, List.nodup_cons, List.mem_map,
            not_exists, not_and, forall_eq_or_imp]
          constructor
          · rintro ⟨h, hnodup⟩
            exact ⟨⟨⟨hempty, hprob, hseen⟩, fun r' hr' => ⟨(h r' hr').1, (h r' hr').2.1,
              (h r' hr').2.2.2⟩⟩, fun r' hr' => (h r' hr').2.2.1, hnodup⟩
          · rintro ⟨⟨-, h⟩, hne, hnodup⟩
            exact ⟨fun r' hr' => ⟨(h r' hr').1, (h r' hr').2.1, hne r' hr', (h r' hr').2.2⟩, hnodup⟩

/-- Nothing is wrong with a grammar exactly when all three checks pass. -/
theorem find?_eq_none {start : String} {rules : List (Rule π)} : find? start rules = none ↔
    inRules? [] rules = none ∧ (∀ name ∈ used start rules, name ∈ defined rules) ∧
      UnitCycle.divergent? (defined rules) rules = none := by
  unfold find?
  cases inRules? [] rules with
  | some e => simp
  | none =>
    simp only [true_and]
    cases hused : (used start rules).find? fun name => !(defined rules).contains name with
    | some name =>
      have hname := List.find?_some hused
      have hmem := List.mem_of_find?_eq_some hused
      simp only [reduceCtorEq, false_iff, not_and]
      intro hdefined
      simp [hdefined name hmem] at hname
    | none =>
      have hdefined : ∀ name ∈ used start rules, name ∈ defined rules := fun name hname => by
        simpa using List.find?_eq_none.1 hused name hname
      simpa using fun _ => hdefined

end GrammarError

namespace Grammar

/-! ## Building -/

theorem exists_build_iff {start : String} {definitions : List (Definition π)} :
    (∃ G, build start definitions = .ok G) ↔
      GrammarError.find? start (definitions.map Definition.rule) = none := by
  unfold build
  split
  · next e h => simp [h]
  · next h => simp [h]

theorem of_build_eq_ok {start : String} {definitions : List (Definition π)} {G : Grammar π}
    (h : build start definitions = .ok G) : G.start = start ∧ G.definitions = definitions := by
  unfold build at h
  split at h
  · cases h
  · cases h
    exact ⟨rfl, rfl⟩

theorem build_eq_ok (G : Grammar π) : build G.start G.definitions = .ok G := by
  obtain ⟨G', hG'⟩ := exists_build_iff.2 G.accepted
  obtain ⟨hstart, hdefinitions⟩ := of_build_eq_ok hG'
  rw [hG']
  cases G
  cases G'
  simp_all

/-! ## Rules -/

variable (G : Grammar π)

/-- The checks of the single rules have passed. -/
theorem inRules?_rules : GrammarError.inRules? [] G.rules = none :=
  (GrammarError.find?_eq_none.1 G.accepted).1

variable {G} {r r' : Rule π}

theorem right_ne_nil (h : r ∈ G.rules) : r.right ≠ [] :=
  ((GrammarError.inRules?_eq_none.1 G.inRules?_rules).1 r h).1

theorem length_pos (h : r ∈ G.rules) : 0 < r.length :=
  List.length_pos_iff.2 (right_ne_nil h)

theorem isProbability_probability (h : r ∈ G.rules) :
    GrammarError.isProbability r.probability = true :=
  ((GrammarError.inRules?_eq_none.1 G.inRules?_rules).1 r h).2.1

variable (G) in
theorem nodup_productions : (G.rules.map Rule.toProduction).Nodup :=
  (GrammarError.inRules?_eq_none.1 G.inRules?_rules).2

/-- The production of a rule determines its probability. -/
theorem eq_of_toProduction_eq (h : r ∈ G.rules) (h' : r' ∈ G.rules)
    (heq : r.toProduction = r'.toProduction) : r = r' :=
  List.inj_on_of_nodup_map G.nodup_productions h h' heq

theorem left_eq_nonterminal (h : r ∈ G.rules) : ∃ name, r.left = .nonterminal name := by
  obtain ⟨d, -, rfl⟩ := List.mem_map.1 h
  exact ⟨d.head, rfl⟩

theorem left_ne_start (h : r ∈ G.rules) : r.left ≠ .start := by
  obtain ⟨name, hname⟩ := left_eq_nonterminal h
  simp [hname]

theorem start_notMem_right (h : r ∈ G.rules) : .start ∉ r.right := by
  obtain ⟨d, -, rfl⟩ := List.mem_map.1 h
  simp [Definition.rule, Definition.production]

/-! ## Rules by left side -/

@[simp] theorem left_topRule : G.topRule.left = .start := rfl

@[simp] theorem right_topRule : G.topRule.right = [.nonterminal G.start] := rfl

theorem mem_rulesFor {left : Category} :
    r ∈ G.rulesFor left ↔ (r = G.topRule ∨ r ∈ G.rules) ∧ r.left = left := by
  simp [rulesFor_eq_filter]

@[simp] theorem mem_rulesFor_nonterminal {name : String} :
    r ∈ G.rulesFor (.nonterminal name) ↔ r ∈ G.rules ∧ r.left = .nonterminal name := by
  rw [mem_rulesFor]
  constructor
  · rintro ⟨rfl | h, hleft⟩
    · simp at hleft
    · exact ⟨h, hleft⟩
  · rintro ⟨h, hleft⟩
    exact ⟨.inr h, hleft⟩

variable (G) in
/-- No left side has two rules with the same production. -/
theorem nodup_productions_rulesFor (left : Category) :
    ((G.rulesFor left).map Rule.toProduction).Nodup := by
  rw [rulesFor_eq_filter]
  refine List.Nodup.sublist (List.filter_sublist.map _) ?_
  rw [List.map_cons, List.nodup_cons]
  refine ⟨fun hmem => ?_, G.nodup_productions⟩
  obtain ⟨r, hr, heq⟩ := List.mem_map.1 hmem
  refine left_ne_start hr ?_
  rw [heq, left_topRule]

/-! ## Defined names -/

theorem mem_nonterminals {name : String} :
    name ∈ G.nonterminals ↔ ∃ r ∈ G.rules, r.left = .nonterminal name := by
  simp [nonterminals, GrammarError.defined]

variable (G) in
theorem nodup_nonterminals : G.nonterminals.Nodup :=
  (Names.pairwise_sorted _).imp fun h => Std.ne_of_lt h

variable (G) in
/-- Every name that is used is defined. -/
theorem mem_nonterminals_of_mem_used {name : String}
    (h : name ∈ GrammarError.used G.start G.rules) : name ∈ G.nonterminals :=
  (GrammarError.find?_eq_none.1 G.accepted).2.1 name h

variable (G) in
theorem start_mem_nonterminals : G.start ∈ G.nonterminals :=
  G.mem_nonterminals_of_mem_used (by simp [GrammarError.used])

theorem mem_nonterminals_of_mem_right {name : String} (h : r ∈ G.rules)
    (hname : .nonterminal name ∈ r.right) : name ∈ G.nonterminals := by
  refine G.mem_nonterminals_of_mem_used ?_
  simp only [GrammarError.used, Names.mem_sorted, List.mem_cons, List.mem_flatMap,
    List.mem_filterMap, Category.nonterminal?_eq_some, exists_eq_right]
  exact .inr ⟨r, h, hname⟩

end Grammar

end SemiringParsing
