import SemiringParsing.Proofs.Grammar.Accepted
import SemiringParsing.Proofs.Grammar.ByteOrder
import SemiringParsing.Proofs.Number.Ordered

/-!
# Which grammars are accepted

A start symbol and definitions are accepted if they are well-formed (`WellFormed`), and otherwise one
fault is reported, which is fixed by an order on all faults (`GrammarError.Reported`). The first
definition that is faulty by itself or by what comes before it goes first, whatever else is wrong.
Within the definition an empty body goes before a bad probability, and that before a repetition. Then
come names that are used and not defined, by the order of their bytes, and last a cycle of unit
productions. The main statement is `build_validates`.
-/

namespace SemiringParsing

variable {π : Type}

namespace Definition

/-- Symbols are told apart by their categories, so that the production of a definition is its head
and body. -/
theorem production_eq_iff {d d' : Definition π} :
    d.production = d'.production ↔ d.head = d'.head ∧ d.body = d'.body := by
  have hinjective : Function.Injective Symbol.category := fun s s' h => by
    have hs := Symbol.ofCategory?_eq_some.2 (rfl : s.category = s.category)
    have hs' := Symbol.ofCategory?_eq_some.2 (rfl : s'.category = s'.category)
    rw [h] at hs
    exact Option.some.inj (hs.symm.trans hs')
  rw [production, production, Production.mk.injEq, Category.nonterminal.injEq,
    hinjective.list_map.eq_iff]

theorem nonterminal_mem_right {d : Definition π} {name : String} :
    .nonterminal name ∈ d.production.right ↔ .nonterminal name ∈ d.body := by
  rw [production, List.mem_map]
  constructor
  · rintro ⟨s, hs, heq⟩
    cases s <;> cases heq
    exact hs
  · exact fun h => ⟨_, h, rfl⟩

/-- The probability of a definition is a number from zero to one. -/
def HasProbability [Number π] (d : Definition π) : Prop :=
  Number.isNaN d.probability = false ∧ Number.le 0 d.probability = true ∧
    Number.le d.probability 1 = true

/-- A name heads a definition. -/
def Defines (definitions : List (Definition π)) (name : String) : Prop :=
  ∃ d ∈ definitions, d.head = name

/-- A name is the start symbol or stands in a body. -/
def Uses (start : String) (definitions : List (Definition π)) (name : String) : Prop :=
  name = start ∨ ∃ d ∈ definitions, .nonterminal name ∈ d.body

/-- The cycle of unit productions that the elimination finds, if there is one. -/
def divergent? [Number π] (definitions : List (Definition π)) : Option String :=
  UnitCycle.divergent? (GrammarError.defined (definitions.map rule)) (definitions.map rule)

end Definition

open Definition

/-- A start symbol and definitions that are a grammar. -/
structure WellFormed [Number π] (start : String) (definitions : List (Definition π)) : Prop where
  body_ne_nil : ∀ d ∈ definitions, d.body ≠ []
  hasProbability : ∀ d ∈ definitions, d.HasProbability
  distinct : definitions.Pairwise fun d d' => ¬ (d.head = d'.head ∧ d.body = d'.body)
  defines : ∀ name, Uses start definitions name → Defines definitions name
  converges : divergent? definitions = none

namespace GrammarError

variable {start name : String} {definitions earlier : List (Definition π)} {d : Definition π}
  {e e' : GrammarError π}

/-! ## Names -/

theorem mem_used : name ∈ used start (definitions.map rule) ↔ Uses start definitions name := by
  simp only [used, Names.mem_sorted, List.mem_cons, List.mem_flatMap, List.mem_filterMap,
    Category.nonterminal?_eq_some, exists_eq_right, List.mem_map, exists_exists_and_eq_and]
  exact or_congr Iff.rfl (exists_congr fun d => and_congr_right fun _ => nonterminal_mem_right)

theorem mem_defined : name ∈ defined (definitions.map rule) ↔ Defines definitions name := by
  simp only [defined, Names.mem_sorted, List.mem_filterMap, Category.nonterminal?_eq_some,
    List.mem_map, exists_exists_and_eq_and]
  exact exists_congr fun d => and_congr_right fun _ => Category.nonterminal.injEq .. ▸ Iff.rfl

/-- The name that is found is the least one that is used and not defined. -/
theorem find?_used_eq_some : ((used start (definitions.map rule)).find? fun name =>
      !(defined (definitions.map rule)).contains name) = some name ↔
    Uses start definitions name ∧ ¬ Defines definitions name ∧
      ∀ other, Uses start definitions other → ¬ Defines definitions other →
        Names.bytes name ≤ Names.bytes other := by
  have hundefined : ∀ name, (!(defined (definitions.map rule)).contains name) = true ↔
      ¬ Defines definitions name := fun name => by
    rw [Bool.not_eq_true', ← Bool.not_eq_true, List.contains_iff_mem, mem_defined]
  unfold used
  rw [Names.find?_sorted_eq_some, hundefined]
  simp only [hundefined]
  exact and_congr (Names.mem_sorted.symm.trans mem_used) (and_congr_right fun _ =>
    forall_congr' fun other => imp_congr_left (Names.mem_sorted.symm.trans mem_used))

theorem find?_used_eq_none : ((used start (definitions.map rule)).find? fun name =>
      !(defined (definitions.map rule)).contains name) = none ↔
    ∀ name, Uses start definitions name → Defines definitions name := by
  rw [List.find?_eq_none]
  refine forall_congr' fun name => imp_congr mem_used ?_
  rw [Bool.not_eq_true', Bool.not_eq_false, List.contains_iff_mem, mem_defined]

/-! ## Faults of single definitions -/

variable [Number π]

/-- What is wrong with a definition that comes after some others. -/
inductive Faulty (earlier : List (Definition π)) (d : Definition π) : GrammarError π → Prop
  | empty (hbody : d.body = []) : Faulty earlier d (.emptyProduction (.nonterminal d.head))
  | invalid (hbody : d.body ≠ []) (hprobability : ¬ d.HasProbability) :
      Faulty earlier d (.invalidProbability d.production d.probability)
  | duplicate (hbody : d.body ≠ []) (hprobability : d.HasProbability)
      (hrepeats : ∃ d' ∈ earlier, d'.head = d.head ∧ d'.body = d.body) :
      Faulty earlier d (.duplicateRule d.production)

/-- What is wrong with the definition at an index. -/
def FaultyAt (definitions : List (Definition π)) (k : Nat) (e : GrammarError π) : Prop :=
  ∃ d, definitions[k]? = some d ∧ Faulty (definitions.take k) d e

variable [ComparesNumbers π] {seen : List Production} {rules : List (Rule π)}

/-- A fault of the first rule is the one that is found. -/
theorem Faulty.inRules? (h : Faulty earlier d e)
    (hseen : ∀ q, q ∈ seen ↔ ∃ d' ∈ earlier, d'.production = q) :
    inRules? seen (d.rule :: rules) = some e := by
  rw [GrammarError.inRules?]
  cases h with
  | empty hbody => simp [rule, production, hbody]
  | invalid hbody hprobability =>
    have hinvalid : isProbability d.rule.probability = false :=
      Bool.eq_false_iff.2 fun hp => hprobability (isProbability_iff.1 hp)
    rw [if_neg (by simp [rule, production, hbody]), hinvalid, if_pos (by simp)]
    rfl
  | duplicate hbody hprobability hrepeats =>
    obtain ⟨d', hd', hsame⟩ := hrepeats
    have hvalid : isProbability d.rule.probability = true := isProbability_iff.2 hprobability
    have hmem : d.rule.toProduction ∈ seen :=
      (hseen _).2 ⟨d', hd', production_eq_iff.2 hsame⟩
    rw [if_neg (by simp [rule, production, hbody]), hvalid, if_neg (by simp), if_pos hmem]
    rfl

/-- If the first rule has no fault the others are gone through. -/
theorem inRules?_cons_of_not_faulty (h : ∀ e, ¬ Faulty earlier d e)
    (hseen : ∀ q, q ∈ seen ↔ ∃ d' ∈ earlier, d'.production = q) :
    inRules? seen (d.rule :: rules) = inRules? (d.production :: seen) rules := by
  have hbody : d.body ≠ [] := fun hbody => h _ (.empty hbody)
  have hprobability : d.HasProbability := by
    by_contra hprobability
    exact h _ (.invalid hbody hprobability)
  have hvalid : isProbability d.rule.probability = true := isProbability_iff.2 hprobability
  have hmem : d.rule.toProduction ∉ seen := by
    intro hmem
    obtain ⟨d', hd', hsame⟩ := (hseen _).1 hmem
    exact h _ (.duplicate hbody hprobability ⟨d', hd', production_eq_iff.1 hsame⟩)
  rw [inRules?, if_neg (by simp [rule, production, hbody]), hvalid, if_neg (by simp), if_neg hmem]
  rfl

/-- A definition has one fault at most, by the order in which they are looked for. -/
theorem Faulty.unique (h : Faulty earlier d e) (h' : Faulty earlier d e') : e = e' := by
  have hseen : ∀ q, q ∈ earlier.map production ↔ ∃ d' ∈ earlier, d'.production = q :=
    fun q => List.mem_map
  have heq : GrammarError.inRules? (earlier.map production) [d.rule] = some e := h.inRules? hseen
  exact Option.some.inj (heq.symm.trans (h'.inRules? hseen))

/-- What is found is the first fault, when some definitions without one have been gone through. -/
theorem inRules?_eq_some_iff {rest : List (Definition π)}
    (hseen : ∀ q, q ∈ seen ↔ ∃ d' ∈ earlier, d'.production = q)
    (hearlier : ∀ k < earlier.length, ∀ e, ¬ FaultyAt (earlier ++ rest) k e) :
    inRules? seen (rest.map rule) = some e ↔ ∃ k, FaultyAt (earlier ++ rest) k e ∧
      ∀ j < k, ∀ e', ¬ FaultyAt (earlier ++ rest) j e' := by
  induction rest generalizing earlier seen with
  | nil =>
    rw [List.append_nil] at hearlier ⊢
    refine ⟨fun h => by simp [inRules?] at h, ?_⟩
    rintro ⟨k, ⟨d, hd, hfaulty⟩, -⟩
    exact absurd ⟨d, hd, hfaulty⟩ (hearlier k (List.getElem?_eq_some_iff.1 hd).1 e)
  | cons d rest ih =>
    have hat : ∀ e, FaultyAt (earlier ++ d :: rest) earlier.length e ↔ Faulty earlier d e := by
      intro e
      simp [FaultyAt]
    rw [List.map_cons]
    by_cases hfaulty : ∃ e', Faulty earlier d e'
    · obtain ⟨e', he'⟩ := hfaulty
      rw [he'.inRules? hseen, Option.some.injEq]
      constructor
      · rintro rfl
        exact ⟨earlier.length, (hat _).2 he', hearlier⟩
      · rintro ⟨k, hk, hfirst⟩
        obtain rfl : k = earlier.length := by
          refine Nat.le_antisymm (Nat.le_of_not_lt fun hlt => ?_)
            (Nat.le_of_not_lt fun hlt => hearlier k hlt e hk)
          exact hfirst _ hlt e' ((hat _).2 he')
        exact he'.unique ((hat _).1 hk)
    · have hnone : ∀ e, ¬ Faulty earlier d e := fun e he => hfaulty ⟨e, he⟩
      have happend : earlier ++ d :: rest = earlier ++ [d] ++ rest := by simp
      rw [inRules?_cons_of_not_faulty hnone hseen, happend]
      refine ih (fun q => ?_) fun k hk e => ?_
      · simp only [List.mem_cons, hseen, List.mem_append, List.not_mem_nil, or_false, or_and_right,
          exists_or, exists_eq_left]
        exact or_comm.trans (or_congr_right eq_comm)
      · rw [← happend]
        rcases Nat.lt_or_eq_of_le (Nat.le_of_lt_succ (by simpa using hk)) with hlt | rfl
        · exact hearlier k hlt e
        · exact fun h => hnone e ((hat e).1 h)

/-- The fault that is found is that of the first faulty definition. -/
theorem inRules?_nil_eq_some_iff : inRules? [] (definitions.map rule) = some e ↔
    ∃ k, FaultyAt definitions k e ∧ ∀ j < k, ∀ e', ¬ FaultyAt definitions j e' := by
  rw [← List.nil_append definitions]
  exact inRules?_eq_some_iff (by simp) (by simp)

theorem inRules?_nil_eq_none_iff :
    inRules? [] (definitions.map rule) = none ↔ ∀ k e, ¬ FaultyAt definitions k e := by
  constructor
  · intro h k
    induction k using Nat.strong_induction_on with
    | _ k ih =>
      intro e hk
      have hsome := inRules?_nil_eq_some_iff.2 ⟨k, hk, ih⟩
      rw [h] at hsome
      cases hsome
  · intro h
    rw [Option.eq_none_iff_forall_ne_some]
    intro e he
    obtain ⟨k, hk, -⟩ := inRules?_nil_eq_some_iff.1 he
    exact h k e hk

/-! ## All faults -/

/-- The fault that is reported of a start symbol and definitions. -/
inductive Reported (start : String) (definitions : List (Definition π)) : GrammarError π → Prop
  /-- The first faulty definition goes before all else. -/
  | faulty {k : Nat} {e : GrammarError π} (hfaulty : FaultyAt definitions k e)
      (hfirst : ∀ j < k, ∀ e', ¬ FaultyAt definitions j e') : Reported start definitions e
  /-- Of the names without a definition the least in the order of bytes is reported. -/
  | undefined {name : String} (hsound : ∀ k e, ¬ FaultyAt definitions k e)
      (huses : Uses start definitions name) (hundefined : ¬ Defines definitions name)
      (hleast : ∀ other, Uses start definitions other → ¬ Defines definitions other →
        Names.bytes name ≤ Names.bytes other) :
      Reported start definitions (.undefinedNonterminal name)
  | unitCycle {name : String} (hsound : ∀ k e, ¬ FaultyAt definitions k e)
      (hdefines : ∀ name, Uses start definitions name → Defines definitions name)
      (hdivergent : divergent? definitions = some name) :
      Reported start definitions (.unitCycle name)

/-- **The fault that is found** is the one that goes before all others. -/
theorem find?_eq_some_iff :
    find? start (definitions.map rule) = some e ↔ Reported start definitions e := by
  unfold find?
  cases hrules : inRules? [] (definitions.map rule) with
  | some e' =>
    obtain ⟨k, hk, hfirst⟩ := inRules?_nil_eq_some_iff.1 hrules
    dsimp only
    rw [Option.some.injEq]
    constructor
    · rintro rfl
      exact .faulty hk hfirst
    · intro h
      cases h with
      | faulty hfaulty hfirst' =>
        have hsome := inRules?_nil_eq_some_iff.2 ⟨_, hfaulty, hfirst'⟩
        exact Option.some.inj (hrules.symm.trans hsome)
      | undefined hsound => exact absurd hk (hsound k e')
      | unitCycle hsound => exact absurd hk (hsound k e')
  | none =>
    have hsound := inRules?_nil_eq_none_iff.1 hrules
    dsimp only
    cases hused : (used start (definitions.map rule)).find? fun name =>
        !(defined (definitions.map rule)).contains name with
    | some name =>
      obtain ⟨huses, hundefined, hleast⟩ := find?_used_eq_some.1 hused
      dsimp only
      rw [Option.some.injEq]
      constructor
      · rintro rfl
        exact .undefined hsound huses hundefined hleast
      · intro h
        cases h with
        | faulty hfaulty => exact absurd hfaulty (hsound _ _)
        | undefined _ huses' hundefined' hleast' =>
          have hsome := find?_used_eq_some.2 ⟨huses', hundefined', hleast'⟩
          rw [Option.some.inj (hused.symm.trans hsome)]
        | unitCycle _ hdefines => exact absurd (hdefines name huses) hundefined
    | none =>
      have hdefines := find?_used_eq_none.1 hused
      dsimp only
      rw [Option.map_eq_some_iff]
      constructor
      · rintro ⟨name, hname, rfl⟩
        exact .unitCycle hsound hdefines hname
      · intro h
        cases h with
        | faulty hfaulty => exact absurd hfaulty (hsound _ _)
        | undefined _ huses hundefined => exact absurd (hdefines _ huses) hundefined
        | unitCycle _ _ hdivergent => exact ⟨_, hdivergent, rfl⟩

/-- **Nothing is found** in what is well-formed, and only there. -/
theorem find?_eq_none_iff :
    find? start (definitions.map rule) = none ↔ WellFormed start definitions := by
  have hrules : inRules? [] (definitions.map rule) = none ↔
      (∀ d ∈ definitions, d.body ≠ [] ∧ d.HasProbability) ∧
        definitions.Pairwise fun d d' => ¬ (d.head = d'.head ∧ d.body = d'.body) := by
    rw [inRules?_eq_none, List.map_map]
    refine and_congr ?_ ?_
    · simp [rule, production, isProbability_iff, HasProbability]
    · rw [List.Nodup, List.pairwise_map]
      exact ⟨fun h => h.imp fun hne heq => hne (production_eq_iff.2 heq),
        fun h => h.imp fun hne heq => hne (production_eq_iff.1 heq)⟩
  rw [find?_eq_none, hrules]
  simp only [mem_used, mem_defined]
  constructor
  · rintro ⟨⟨hdefinitions, hdistinct⟩, hdefines, hconverges⟩
    exact ⟨fun d hd => (hdefinitions d hd).1, fun d hd => (hdefinitions d hd).2, hdistinct,
      hdefines, hconverges⟩
  · intro h
    exact ⟨⟨fun d hd => ⟨h.body_ne_nil d hd, h.hasProbability d hd⟩, h.distinct⟩, h.defines,
      h.converges⟩

end GrammarError

namespace Grammar

variable [Number π]

theorem build_eq_error_iff {start : String} {definitions : List (Definition π)}
    {e : GrammarError π} : build start definitions = .error e ↔
      GrammarError.find? start (definitions.map rule) = some e := by
  unfold build
  split
  · next e' h => rw [h, Except.error.injEq, Option.some.injEq]
  · next h => simp [h]

/-- The rules of a nonterminal are those of its definitions, in their order. -/
theorem rulesFor_nonterminal (G : Grammar π) (name : String) : G.rulesFor (.nonterminal name) =
    (G.definitions.filter fun d => d.head == name).map rule := by
  have hleft : ∀ d : Definition π, (d.rule.left == .nonterminal name) = (d.head == name) := by
    intro d
    rw [Bool.eq_iff_iff, beq_iff_eq, beq_iff_eq]
    exact Category.nonterminal.injEq .. ▸ Iff.rfl
  rw [rulesFor_eq_filter, List.filter_cons_of_neg (by simp), rules, List.filter_map]
  exact congrArg _ (List.filter_congr fun d _ => hleft d)

theorem rulesFor_start (G : Grammar π) : G.rulesFor .start = [G.topRule] := by
  rw [rulesFor_eq_filter, List.filter_cons_of_pos (by simp),
    List.filter_eq_nil_iff.2 fun r hr => by simpa using left_ne_start hr]

/-- **What is accepted and what is reported otherwise.** A grammar is built of what is well-formed,
and an error is given exactly if it is the fault that goes before all others. The rules of a
nonterminal in the grammar are those of its definitions, in their order, and the top has the one rule
to the start symbol. -/
theorem build_validates [ComparesNumbers π] (start : String) (definitions : List (Definition π)) :
    ((∃ G, build start definitions = .ok G) ↔ WellFormed start definitions) ∧
    (∀ e, build start definitions = .error e ↔ GrammarError.Reported start definitions e) ∧
    ∀ G, build start definitions = .ok G → G.start = start ∧ G.definitions = definitions ∧
      (∀ name, G.rulesFor (.nonterminal name) =
        (definitions.filter fun d => d.head == name).map rule) ∧
      G.rulesFor .start = [.top start] := by
  refine ⟨exists_build_iff.trans GrammarError.find?_eq_none_iff,
    fun e => build_eq_error_iff.trans GrammarError.find?_eq_some_iff, fun G h => ?_⟩
  obtain ⟨rfl, rfl⟩ := of_build_eq_ok h
  exact ⟨rfl, rfl, G.rulesFor_nonterminal, G.rulesFor_start⟩

end Grammar

namespace Examples

/-- The second definition has a bad probability and repeats the first, and the third is empty. The
start symbol is not defined, and neither is any other name but `S`. -/
def faultyDefinitions : List (Definition Float) :=
  [weighted "S" 0.5 [.nonterminal "Z", .nonterminal "Y"],
    weighted "S" 1.5 [.nonterminal "Z", .nonterminal "Y"],
    weighted "S" 0.5 []]

/-- Two definitions of the start symbol about one of another. -/
def soundDefinitions : List (Definition Float) :=
  [weighted "É" 0.5 [.nonterminal "Z"],
    weighted "Z" 1 [.terminal "z"],
    weighted "É" 0.5 [.error]]

end Examples

namespace Grammar

/-- Over doubles. Of three faults and three names that are not defined the bad probability is
reported. Where the first definition is the only one, it is the name `Y`, since `É` comes last in the
order of bytes. -/
theorem build_validates_doubles :
    (∃ e, build "É" Examples.faultyDefinitions = .error e ∧
      e = .invalidProbability ⟨.nonterminal "S", [.nonterminal "Z", .nonterminal "Y"]⟩ 1.5 ∧
      GrammarError.Reported "É" Examples.faultyDefinitions e) ∧
    (∃ e, build "É" (Examples.faultyDefinitions.take 1) = .error e ∧
      e = .undefinedNonterminal "Y" ∧
      GrammarError.Reported "É" (Examples.faultyDefinitions.take 1) e) ∧
    ∃ G, build "É" Examples.soundDefinitions = .ok G ∧
      WellFormed "É" Examples.soundDefinitions ∧
      (G.rulesFor (.nonterminal "É")).map Rule.toProduction =
        [⟨.nonterminal "É", [.nonterminal "Z"]⟩, ⟨.nonterminal "É", [.error]⟩] := by
  have hfaulty : build "É" Examples.faultyDefinitions = .error (.invalidProbability
      ⟨.nonterminal "S", [.nonterminal "Z", .nonterminal "Y"]⟩ 1.5) :=
    build_eq_error_iff.2 (by decide +kernel)
  have hundefined : build "É" (Examples.faultyDefinitions.take 1) =
      .error (.undefinedNonterminal "Y") :=
    build_eq_error_iff.2 (by decide +kernel)
  obtain ⟨G, hG⟩ : ∃ G, build "É" Examples.soundDefinitions = .ok G :=
    exists_build_iff.2 (by decide +kernel)
  have hrules := ((build_validates "É" Examples.soundDefinitions).2.2 G hG).2.2.1 "É"
  refine ⟨⟨_, hfaulty, rfl, ((build_validates _ _).2.1 _).1 hfaulty⟩,
    ⟨_, hundefined, rfl, ((build_validates _ _).2.1 _).1 hundefined⟩,
    G, hG, (build_validates _ _).1.1 ⟨G, hG⟩, ?_⟩
  rw [hrules]
  decide +kernel

end Grammar

end SemiringParsing
