import Mathlib.Computability.StateTransition
import SemiringParsing.Proofs.Chart.Rescored
import SemiringParsing.Proofs.Number.Exact
import SemiringParsing.Proofs.Sweep.Links

/-!
# Scores do not steer a parse

Two parses of the same tokens with the same grammar may score differently and weigh tokens
differently. If their left corners are the same, apart from weights, they come to the same states,
numbers, links and trees (`alike_of_parse`).

The two do not go in step. Whether a state that is reached again is passed on once more depends on
whether a score has changed. What they have in common is the `Outline`, a parse without scores that
passes on every state once, in the order of the numbers. A parse with scores follows it
(`Reaches.exists_outline`): when a state comes up for the first time the outline takes a step, and
when a state comes up again all that it leads to is there already, so nothing but scores can change.
Since the next step of an outline is a function of what it is at, it has one end only.
-/

namespace SemiringParsing

variable {π α β τ : Type}

/-! ## Charts without scores -/

/-- The algebra in which nothing is scored. -/
def ScoreAlgebra.blank [Number π] : ScoreAlgebra π Unit where
  plus _ _ := ()
  times _ _ := ()
  zero := ()
  one := ()
  star _ := ()
  member _ := true
  properties := .empty
  ofProbability _ := ()
  toProbability _ := 0
  eq _ _ := true
  isNaN _ := false

/-- The contribution without its scores. -/
abbrev Contribution.shape (x : Contribution π α) : Contribution π Unit :=
  x.rescore fun _ _ => ((), ())

/-- The chart without its scores. -/
abbrev Chart.shape (c : Chart π α) : Chart π Unit :=
  c.rescore fun _ _ => ((), ())

theorem ScoreAlgebra.agrees_blank [Number π] (S : ScoreAlgebra π α) :
    S.Agrees .blank fun _ _ => ((), ()) :=
  fun _ _ _ _ => rfl

theorem Record.addLink_eq_self {link? : Option Link} {links : List Link}
    (h : ∀ link, link? = some link → link ∈ links) : addLink link? links = links := by
  cases link? with
  | none => rfl
  | some link => exact if_pos (h link rfl)

/-- Where a chart has a state and the link, another derivation of the state changes scores only. -/
theorem Ledger.shape_add_of_holds {S : ScoreAlgebra π α} {l : Ledger π α} {x : Contribution π α}
    (hindexed : l.chart.Indexed) (h : l.chart.Holds x.state x.link?) :
    (l.add S x).chart.shape = l.chart.shape := by
  obtain ⟨id, r, hr, hstate, hlinks⟩ := h
  rw [add_eq_combine hindexed hr (congrArg State.item hstate)]
  unfold Chart.shape Chart.rescore Chart.combine
  congr 1
  refine Array.ext_getElem? fun other => ?_
  rw [Array.getElem?_map, Array.getElem?_map, Array.getElem?_modify]
  split
  · next hid =>
    rw [← hid, show l.chart.records[id]? = some r from hr]
    simp [Record.rescore, Record.combine, Record.addLink_eq_self hlinks]
  · rfl

theorem Ledger.shape_addAll_of_holds {S : ScoreAlgebra π α} {l : Ledger π α}
    {xs : List (Contribution π α)} (hindexed : l.chart.Indexed)
    (h : ∀ x ∈ xs, l.chart.Holds x.state x.link?) :
    (l.addAll S xs).chart.shape = l.chart.shape := by
  refine (Ledger.addAll_induction (motive := fun l' => l'.chart.Indexed ∧
    l.chart.Extends l'.chart ∧ l'.chart.shape = l.chart.shape)
    ⟨hindexed, .refl _, rfl⟩ fun l' x hx ⟨hindexed', hextends, hshape⟩ => ?_).2.2
  refine ⟨indexed_add hindexed', hextends.trans (extends_add hindexed'), ?_⟩
  rw [shape_add_of_holds hindexed' ((h x hx).mono hextends), hshape]

/-- The charts hold the same states under the same numbers and with the same links, and answer
alike. -/
structure Chart.Alike (c : Chart π α) (c' : Chart π β) : Prop where
  records : ∀ id, (c.record? id).map (fun r => (r.state, r.links)) =
    (c'.record? id).map fun r => (r.state, r.links)
  id? : ∀ s, c.id? s = c'.id? s
  statesAt : ∀ position, c.statesAt position = c'.statesAt position
  activeOn : ∀ position category, c.activeOn position category = c'.activeOn position category
  completed : c.completed = c'.completed
  completedIds : ∀ position left, c.completedIds position left = c'.completedIds position left
  positions : c.positions = c'.positions

theorem Chart.alike_shape (c : Chart π α) : c.Alike c.shape where
  records id := by
    rw [record?_rescore, Option.map_map]
    rfl
  id? _ := rfl
  statesAt _ := rfl
  activeOn _ _ := rfl
  completed := rfl
  completedIds _ _ := rfl
  positions := rfl

theorem Chart.alike_of_shape_eq {c : Chart π α} {c' : Chart π β} (h : c.shape = c'.shape) :
    c.Alike c' := by
  have hc := c.alike_shape
  have hc' := c'.alike_shape
  rw [h] at hc
  exact {
    records := fun id => (hc.records id).trans (hc'.records id).symm
    id? := fun s => (hc.id? s).trans (hc'.id? s).symm
    statesAt := fun k => (hc.statesAt k).trans (hc'.statesAt k).symm
    activeOn := fun k category => (hc.activeOn k category).trans (hc'.activeOn k category).symm
    completed := hc.completed.trans hc'.completed.symm
    completedIds := fun k left => (hc.completedIds k left).trans (hc'.completedIds k left).symm
    positions := hc.positions.trans hc'.positions.symm }

variable [Number π]

/-! ## Outlines -/

/-- How far a parse without scores has come: to which position, with which chart, and how many
states have been passed on. -/
structure Outline (π : Type) where
  position : Nat
  chart : Chart π Unit
  passed : Nat

namespace Outline

variable (G : Grammar π) (listed : String → List Category)

/-- What passing on a state adds, when these left corners are predicted from. -/
def consequences (position : Nat) (c : Chart π Unit) (id : StateId) :
    List (Contribution π Unit) :=
  match (c.record? id).map Record.state with
  | none => []
  | some s =>
    match s.active? with
    | none => c.completions .blank id s ()
    | some (.nonterminal name) =>
      if s.isPredicted then []
      else (listed name).flatMap fun corner =>
        (G.rulesFor corner).map fun rule => ⟨.begin rule position, (), (), none⟩
    | some _ => []

/-- The chart with further contributions. -/
def grow (c : Chart π Unit) (xs : List (Contribution π Unit)) : Chart π Unit :=
  (Ledger.addAll .blank ⟨c, []⟩ xs).chart

theorem shape_addAll (S : ScoreAlgebra π α) (l : Ledger π α) (xs : List (Contribution π α)) :
    (l.addAll S xs).chart.shape = grow l.chart.shape (xs.map Contribution.shape) :=
  Ledger.rescore_addAll S.agrees_blank l xs []

/-- The outline with nothing but the top rule. -/
def begin : Outline π :=
  ⟨0, grow .empty [⟨.begin G.topRule 0, (), (), none⟩], 0⟩

/-- The next outline: one more state is passed on or, when there is none, a token is scanned. -/
def next? (tokens : List (Token τ)) (o : Outline π) : Option (Outline π) :=
  if o.passed < o.chart.size then
    some ⟨o.position, grow o.chart (consequences G listed o.position o.chart o.passed),
      o.passed + 1⟩
  else
    tokens[o.position]?.map fun token =>
      ⟨o.position + 1, grow o.chart (o.chart.readings .blank {} o.position token), o.passed⟩

end Outline

namespace Chart

variable (c : Chart π α) (S : ScoreAlgebra π α)

theorem completions_shape (id : StateId) (completed : State π) (inner : α) :
    (c.completions S id completed inner).map Contribution.shape =
      c.shape.completions .blank id completed () := by
  unfold completions completion
  rw [List.map_filterMap, activeOn_rescore]
  congr 1
  funext waiting
  exact (moved_rescore (fun _ _ => rfl) ..).symm

theorem readings_shape (options : ParseOptions τ α) (position : Nat) (token : Token τ) :
    (c.readings S options position token).map Contribution.shape =
      c.shape.readings .blank {} position token := by
  have hexpects : Sweep.expects c.shape token = Sweep.expects c token := by
    funext id
    exact expects_rescore token id
  unfold readings reading
  rw [List.map_filterMap, statesAt_rescore, hexpects]
  congr 1
  funext id
  exact (moved_rescore (fun _ _ => rfl) ..).symm

end Chart

namespace Parser

variable {p : Parser π α} {q : Parser π β} {tokens : List (Token τ)} {options : ParseOptions τ α}
  {position : Nat}

/-- The left corners of a nonterminal that a parser predicts from, without their weights. -/
def listed (p : Parser π α) (name : String) : List Category :=
  (p.corners.reachableFrom (.nonterminal name)).map Prod.fst

theorem listed_eq_nil {name : String} (h : name ∉ p.grammar.nonterminals) : p.listed name = [] := by
  unfold listed
  rw [p.corners_eq, LeftCorners.ofGrammar, LeftCorners.reachableFrom_ofRules_eq_nil]
  · rfl
  · intro i hi
    rw [Category.nonterminal.inj hi] at h
    exact h (List.get_mem ..)

/-- The left corners are listed in an order that the grammar fixes. -/
theorem listed_eq (hgrammar : p.grammar = q.grammar)
    (h : ∀ name category, category ∈ p.listed name ↔ category ∈ q.listed name) :
    p.listed = q.listed := by
  funext name
  have hname := h name
  unfold listed at hname ⊢
  rw [p.corners_eq, q.corners_eq, hgrammar] at hname ⊢
  exact LeftCorners.map_fst_reachableFrom_eq hname

theorem consequences_shape (c : Chart π α) (d : Delta α) :
    (p.consequences position c d).map Contribution.shape =
      Outline.consequences p.grammar p.listed position c.shape d.id := by
  unfold consequences Outline.consequences
  rw [Chart.record?_rescore]
  cases c.record? d.id with
  | none => rfl
  | some r =>
    simp only [Option.map_some, Record.rescore]
    cases r.state.active? with
    | none => exact c.completions_shape ..
    | some category =>
      cases category with
      | nonterminal name =>
        dsimp only
        split
        · rfl
        · simp only [LeftCorners.openings, listed, List.map_flatMap, List.map_map,
            List.flatMap_map]
          rfl
      | start => rfl
      | error => rfl
      | terminal name => rfl

/-- A parse with scores follows the outline. -/
theorem Reaches.exists_outline {l : Ledger π α} (h : p.Reaches options tokens position l) :
    ∃ n, p.Settled tokens position l n ∧
      StateTransition.Reaches (Outline.next? p.grammar p.listed tokens)
        (Outline.begin p.grammar) ⟨position, l.chart.shape, n⟩ := by
  induction h with
  | begin =>
    have hempty : (Chart.empty : Chart π α).shape = .empty := by
      simp [Chart.rescore, Chart.empty]
    have hbegin : (Ledger.empty.add p.algebra p.seed).chart.shape =
        (Outline.begin p.grammar).chart := by
      refine (Outline.shape_addAll p.algebra .empty [p.seed]).trans ?_
      rw [Ledger.empty, hempty]
      rfl
    refine ⟨0, .begin p tokens, ?_⟩
    rw [hbegin]
    exact .refl
  | @pass position c d ds h ih =>
    obtain ⟨n, hn, hreaches⟩ := ih
    have hc := h.consistent
    rcases hn.pass_cases hc with ⟨rfl, hpassed⟩ | ⟨hid, hpassed⟩
    · refine ⟨d.id + 1, hpassed, hreaches.tail ?_⟩
      obtain ⟨r, hr, -⟩ := hc.pending d List.mem_cons_self
      have hlt : d.id < c.shape.size := by
        rw [Chart.size_rescore]
        exact Chart.lt_size_of_record? hr
      rw [Outline.shape_addAll, consequences_shape]
      exact if_pos hlt
    · -- The state was settled, so all that it leads to is there and the outline stays.
      refine ⟨n, hpassed, ?_⟩
      have hholds : ∀ x ∈ p.consequences position c d, c.Holds x.state x.link? := by
        intro x hx
        obtain ⟨hleads, hposition⟩ : p.LeadsTo tokens c d.id x.state x.link? ∧
            x.state.position = position :=
          leadsTo_of_mem_consequences hc.indexed (fun r hr => hc.position_eq hr) hx
        exact hn.holds hid hleads (Nat.le_of_eq hposition)
      rw [Ledger.shape_addAll_of_holds (l := ⟨c, ds⟩) hc.indexed hholds]
      exact hreaches
  | @scan position c token h htoken ih =>
    obtain ⟨n, hn, hreaches⟩ := ih
    refine ⟨n, hn.scan h.consistent htoken, hreaches.tail ?_⟩
    have hsize : ¬ n < c.shape.size := by
      cases hn.due
      rw [Chart.size_rescore]
      exact Nat.lt_irrefl _
    rw [Outline.shape_addAll, Chart.readings_shape]
    refine (if_neg hsize).trans ?_
    rw [htoken]
    rfl

/-- The outline of a parse that returns ends with its chart, without the scores. -/
theorem mem_eval_of_parse {fuel : Nat} {result : ParseResult π α}
    (h : p.parse options fuel tokens = some result) :
    ⟨tokens.length, result.chart.shape, result.chart.size⟩ ∈
      StateTransition.eval (Outline.next? p.grammar p.listed tokens) (.begin p.grammar) := by
  obtain ⟨n, hn, hreaches⟩ := (reaches_of_parse h).1.exists_outline
  obtain rfl : n = result.chart.size := by
    cases hn.due
    rfl
  refine StateTransition.mem_eval.2 ⟨hreaches, ?_⟩
  simp [Outline.next?]

/-- **Scores do not steer the parse.** Take two parsers of one grammar that predict from the same left
corners. When both return for a list of tokens, whatever weights they give to tokens, the charts
differ in scores only: the states, their numbers and their links are the same, and so are all
answers. The roots and the trees are the same too. -/
theorem alike_of_parse {options' : ParseOptions τ β} {fuel fuel' : Nat}
    {result : ParseResult π α} {result' : ParseResult π β} (hgrammar : p.grammar = q.grammar)
    (hlisted : ∀ name category, category ∈ p.listed name ↔ category ∈ q.listed name)
    (h : p.parse options fuel tokens = some result)
    (h' : q.parse options' fuel' tokens = some result') :
    result.chart.Alike result'.chart ∧ result.root? = result'.root? ∧ result.tree = result'.tree := by
  have hend := mem_eval_of_parse h
  rw [hgrammar, listed_eq hgrammar hlisted] at hend
  have hshape : result.chart.shape = result'.chart.shape :=
    congrArg Outline.chart (Part.mem_unique hend (mem_eval_of_parse h'))
  have hroot : result.root? = result'.root? := by
    have hgoal : p.goal tokens.length = q.goal tokens.length := by
      rw [goal, goal, hgrammar]
    rw [(reaches_of_parse h).2.1, (reaches_of_parse h').2.1, hgoal]
    exact (Chart.alike_of_shape_eq hshape).id? _
  refine ⟨Chart.alike_of_shape_eq hshape, hroot, ?_⟩
  unfold ParseResult.tree
  rw [hroot]
  cases result'.root? with
  | none => rfl
  | some root =>
    have htree : result.chart.shape.tree root = result'.chart.shape.tree root := by
      rw [hshape]
    rw [Chart.tree_rescore, Chart.tree_rescore] at htree
    exact htree

/-- The ambiguous grammar with probabilities, where tokens are weighed, and with truth values, where
they are not. Of the first scores more are passed on, since more of them change. -/
theorem alike_of_parse_ambiguous : ∃ result result',
    (Parser.new Examples.ambiguousGrammar (.probability : ScoreAlgebra Exact Exact)).parse
        ⟨some fun _ _ => 0.5⟩ 40
        [Token.literal "a", Token.literal "a", Token.literal "a"] = some result ∧
      (Parser.new Examples.ambiguousGrammar (.boolean : ScoreAlgebra Exact Exact)).parse {} 40
        [Token.literal "a", Token.literal "a", Token.literal "a"] = some result' ∧
      result'.events.size < result.events.size ∧ result.chart.Alike result'.chart ∧
      result.root? = result'.root? ∧ result.tree = result'.tree := by
  have hparse : ((Parser.new Examples.ambiguousGrammar (.probability : ScoreAlgebra Exact Exact)).parse
      ⟨some fun _ _ => 0.5⟩ 40
      [Token.literal "a", Token.literal "a", Token.literal "a"]).any (fun result =>
        ((Parser.new Examples.ambiguousGrammar (.boolean : ScoreAlgebra Exact Exact)).parse {} 40
          [Token.literal "a", Token.literal "a", Token.literal "a"]).any fun result' =>
            decide (result'.events.size < result.events.size)) = true := by
    decide +kernel
  simp only [Option.any_eq_true, decide_eq_true_eq] at hparse
  obtain ⟨result, hresult, result', hresult', hsize⟩ := hparse
  have hsame : ∀ name ∈ Examples.ambiguousGrammar.nonterminals,
      (Parser.new Examples.ambiguousGrammar (.probability : ScoreAlgebra Exact Exact)).listed name =
        (Parser.new Examples.ambiguousGrammar (.boolean : ScoreAlgebra Exact Exact)).listed name := by
    decide +kernel
  have hgrammar : (Parser.new Examples.ambiguousGrammar (.probability : ScoreAlgebra Exact Exact)).grammar =
      (Parser.new Examples.ambiguousGrammar (.boolean : ScoreAlgebra Exact Exact)).grammar := rfl
  have hlisted : ∀ name category,
      category ∈ (Parser.new Examples.ambiguousGrammar
        (.probability : ScoreAlgebra Exact Exact)).listed name ↔
      category ∈ (Parser.new Examples.ambiguousGrammar
        (.boolean : ScoreAlgebra Exact Exact)).listed name := by
    intro name category
    by_cases hname : name ∈ Examples.ambiguousGrammar.nonterminals
    · rw [hsame name hname]
    · rw [listed_eq_nil hname, listed_eq_nil hname]
  exact ⟨result, result', hresult, hresult', hsize,
    alike_of_parse hgrammar hlisted hresult hresult'⟩

end Parser

end SemiringParsing
