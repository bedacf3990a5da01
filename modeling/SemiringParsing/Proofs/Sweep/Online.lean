import SemiringParsing.Proofs.Chart.Represented
import SemiringParsing.Proofs.Grammar.Accepted
import SemiringParsing.Proofs.Number.Exact
import SemiringParsing.Proofs.Sweep.Run

/-!
# Later tokens change nothing before them

A sweep never goes back. While it closes a position it adds states that end there, and scanning a
token adds states that end one position further. So what a chart holds up to a position is settled
when that position is closed, and a parse of an input is also a parse of each of its beginnings:
the chart of the beginning is the first part of the chart of the whole (`parse_append`).

The comparison is `Chart.IsUpTo`. It is kept by every contribution to a later position
(`IsUpTo.addAll`), which is all that a parse adds from then on.
-/

namespace SemiringParsing

variable {π α τ : Type}

/-! ## Contributions to other positions -/

/-- Completed states are found where they end. -/
def CompletedStates.Filed (c : CompletedStates π) : Prop :=
  ∀ position left, ∀ s ∈ (c.forLeft position left).states, s.position = position

namespace Ledger

variable {S : ScoreAlgebra π α} {l : Ledger π α} {x : Contribution π α} {position : Nat}

theorem statesAt_add_of_ne (hne : x.state.position ≠ position) :
    (l.add S x).chart.statesAt position = l.chart.statesAt position := by
  unfold add Chart.add
  cases l.chart.id? x.state with
  | some id => rfl
  | none => exact (Chart.statesAt_insert ..).trans (if_neg hne)

theorem activeOn_add_of_ne (hne : x.state.position ≠ position) (category : Category) :
    (l.add S x).chart.activeOn position category = l.chart.activeOn position category := by
  unfold add Chart.add
  cases l.chart.id? x.state with
  | some id => rfl
  | none => exact (Chart.activeOn_insert ..).trans (if_neg fun h => hne h.1)

/-- A contribution to a new state is recorded with the completed states, and others are not. -/
theorem completed_add (S : ScoreAlgebra π α) (l : Ledger π α) (x : Contribution π α) :
    (l.add S x).chart.completed =
      if (l.chart.id? x.state).isSome then l.chart.completed
      else (l.chart.completed.add x.state).1 := by
  unfold add Chart.add
  cases l.chart.id? x.state <;> rfl

theorem endingAt_add_of_ne (hne : x.state.position ≠ position) :
    (l.add S x).chart.completed.endingAt position = l.chart.completed.endingAt position := by
  rw [completed_add]
  split
  · rfl
  · exact CompletedStates.endingAt_add_of_ne hne

end Ledger

/-! ## Charts up to a position -/

/-- One chart is another up to a position. It has the same records of the states that end there
or before, under the same numbers, and no others. What it answers about these positions is the
same. -/
structure Chart.IsUpTo (position : Nat) (c c' : Chart π α) : Prop where
  record?_iff : ∀ id r, c.record? id = some r ↔ c'.record? id = some r ∧ r.state.position ≤ position
  id?_eq : ∀ s : State π, s.position ≤ position → c.id? s = c'.id? s
  statesAt_eq : ∀ k ≤ position, c.statesAt k = c'.statesAt k
  activeOn_eq : ∀ k ≤ position, ∀ category, c.activeOn k category = c'.activeOn k category
  endingAt_eq : ∀ k ≤ position, c.completed.endingAt k = c'.completed.endingAt k

namespace Chart.IsUpTo

variable {S : ScoreAlgebra π α} {c c' : Chart π α} {position : Nat}

theorem refl (h : ∀ id r, c.record? id = some r → r.state.position ≤ position) :
    c.IsUpTo position c where
  record?_iff id r := ⟨fun hr => ⟨hr, h id r hr⟩, And.left⟩
  id?_eq _ _ := rfl
  statesAt_eq _ _ := rfl
  activeOn_eq _ _ _ := rfl
  endingAt_eq _ _ := rfl

/-- The records of the one chart come first in the other, in the same order. -/
theorem records_prefix (h : c.IsUpTo position c') : c.records.toList <+: c'.records.toList := by
  refine List.prefix_iff_getElem?.2 fun id hid => ?_
  have hr : c.record? id = some c.records.toList[id] := by
    rw [record?, ← Array.getElem?_toList]
    exact List.getElem?_eq_getElem hid
  rw [Array.getElem?_toList]
  exact ((h.record?_iff _ _).1 hr).1

theorem completedIds_eq (h : c.IsUpTo position c') (hfiled : c'.completed.Filed) {k : Nat}
    (hk : k ≤ position) (left : Category) : c.completedIds k left = c'.completedIds k left := by
  have hforLeft : c.completed.forLeft k left = c'.completed.forLeft k left := by
    rw [CompletedStates.forLeft, h.endingAt_eq k hk, CompletedStates.forLeft]
  rw [completedIds, completedIds, hforLeft]
  refine List.filterMap_congr fun s hs => h.id?_eq s ?_
  rw [hfiled k left s hs]
  exact hk

theorem add {l : Ledger π α} {x : Contribution π α} (h : c.IsUpTo position l.chart)
    (hindexed : l.chart.Indexed) (hx : position < x.state.position) :
    c.IsUpTo position (l.add S x).chart := by
  have hne : ∀ {s : State π}, s.position ≤ position → s.item ≠ x.state.item := by
    intro s hs hitem
    have : s.position = x.state.position := congrArg Item.position hitem
    omega
  refine ⟨fun id r => ?_, fun s hs => ?_, fun k hk => ?_, fun k hk category => ?_, fun k hk => ?_⟩
  · rw [h.record?_iff]
    constructor
    · rintro ⟨hr, hle⟩
      exact ⟨Ledger.record?_add_of_ne hindexed hr (hne hle), hle⟩
    · rintro ⟨hr, hle⟩
      rcases Ledger.record?_add hindexed hr with ⟨hr, -⟩ | ⟨r', -, hitem, rfl⟩ | ⟨-, -, rfl⟩
      · exact ⟨hr, hle⟩
      · exact absurd hitem (hne hle)
      · exact absurd rfl (hne hle)
  · rw [h.id?_eq s hs, Ledger.id?_add_of_ne hindexed (hne hs).symm]
  · rw [h.statesAt_eq k hk, Ledger.statesAt_add_of_ne (by omega)]
  · rw [h.activeOn_eq k hk, Ledger.activeOn_add_of_ne (by omega)]
  · rw [h.endingAt_eq k hk, Ledger.endingAt_add_of_ne (by omega)]

theorem addAll {l : Ledger π α} {xs : List (Contribution π α)} (h : c.IsUpTo position l.chart)
    (hindexed : l.chart.Indexed) (hxs : ∀ x ∈ xs, position < x.state.position) :
    c.IsUpTo position (l.addAll S xs).chart :=
  (Ledger.addAll_induction
    (motive := fun l => l.chart.Indexed ∧ c.IsUpTo position l.chart) ⟨hindexed, h⟩
    fun _ x hx h => ⟨Ledger.indexed_add h.1, h.2.add h.1 (hxs x hx)⟩).2

end Chart.IsUpTo

namespace Parser

variable [Number π] {p : Parser π α} {options : ParseOptions τ α} {fuel position : Nat}
  {tokens more : List (Token τ)}

/-! ## Parses of longer inputs -/

namespace Reaches

variable {l : Ledger π α}

/-- What a parse goes through it also goes through when the input is longer. -/
theorem append (h : p.Reaches options tokens position l) (more : List (Token τ)) :
    p.Reaches options (tokens ++ more) position l := by
  induction h with
  | begin => exact .begin
  | pass _ ih => exact ih.pass
  | scan _ htoken ih =>
    refine ih.scan ?_
    rw [List.getElem?_append_left (List.getElem?_eq_some_iff.1 htoken).1, htoken]

theorem faithful (h : p.Reaches options tokens position l) : l.chart.Faithful := by
  refine h.chart_induction ?_ fun c ds xs _ _ _ hc => Ledger.faithful_addAll (l := ⟨c, ds⟩) hc
  show (Ledger.empty.addAll p.algebra [p.seed]).chart.Faithful
  exact Ledger.faithful_addAll .empty

theorem filed (h : p.Reaches options tokens position l) : l.chart.completed.Filed :=
  fun position left _ hs => (((h.faithful.completed position).forLeft left).mem_states.1 hs).1.2.2

end Reaches

/-- Sweeping over a longer input is sweeping over its beginning, then scanning the next token and
sweeping over the rest. -/
theorem sweep_append (token : Token τ) (w : Sweep π α) :
    p.sweep options fuel position (tokens ++ token :: more) w =
      (p.sweep options fuel position tokens w).bind fun w =>
        p.sweep options fuel (position + tokens.length + 1) more
          (w.scan p.algebra options (position + tokens.length) token) := by
  induction tokens generalizing position w with
  | nil =>
    simp only [List.nil_append, sweep, List.length_nil, Nat.add_zero]
    cases p.close fuel position w <;> rfl
  | cons first tokens ih =>
    simp only [List.cons_append, sweep]
    cases p.close fuel position w with
    | none => rfl
    | some w =>
      dsimp only
      rw [ih, List.length_cons, Nat.add_right_comm position 1, Nat.add_assoc position]

/-- Once a position is closed, a parse of a longer input adds to later positions only. -/
theorem isUpTo_of_sweep {token : Token τ} {w w' : Sweep π α}
    (h : p.Reaches options tokens tokens.length w.ledger) (hpending : w.ledger.pending = [])
    (hsweep : p.sweep options fuel (tokens.length + 1) more
      (w.scan p.algebra options tokens.length token) = some w') :
    w.chart.IsUpTo tokens.length w'.chart := by
  have hledger : w.ledger = ⟨w.chart, []⟩ := by
    rw [← hpending]
    rfl
  have htoken : (tokens ++ token :: more)[tokens.length]? = some token := by simp
  have hlength : tokens.length + 1 ≤ (tokens ++ token :: more).length := by simp
  have hdrop : (tokens ++ token :: more).drop (tokens.length + 1) = more := by simp
  let motive (position : Nat) (l : Ledger π α) : Prop :=
    p.Reaches options (tokens ++ token :: more) position l ∧ tokens.length < position ∧
      w.chart.IsUpTo tokens.length l.chart
  have hscan : ∀ position c token', (tokens ++ token :: more)[position]? = some token' →
      p.Reaches options (tokens ++ token :: more) position ⟨c, []⟩ → tokens.length ≤ position →
      w.chart.IsUpTo tokens.length c → motive (position + 1)
        (Ledger.addAll p.algebra ⟨c, []⟩ (c.readings p.algebra options position token')) := by
    intro position c token' htoken' hreaches hle hc
    refine ⟨hreaches.scan htoken', Nat.lt_succ_of_le hle,
      hc.addAll (l := ⟨c, []⟩) hreaches.consistent.indexed fun x hx => ?_⟩
    obtain ⟨-, -, hposition⟩ :=
      leadsTo_of_mem_readings (p := p) hreaches.consistent.indexed htoken' hx
    omega
  refine (sweep_induction (motive := motive) (fun _ _ h => h.1.consistent) ?_ ?_ ?_
    hdrop hlength hsweep).1.2.2
  · rintro position c d ds ⟨hreaches, hlt, hc⟩
    refine ⟨hreaches.pass, hlt, hc.addAll (l := ⟨c, ds⟩) hreaches.consistent.indexed fun x hx => ?_⟩
    obtain ⟨-, -, hposition⟩ := hreaches.consistent.consequences (tokens ++ token :: more) x hx
    omega
  · rintro position c token' htoken' ⟨hreaches, hlt, hc⟩
    exact hscan position c token' htoken' hreaches (Nat.le_of_lt hlt) hc
  · rw [h.consistent.ledger_scan hpending]
    have hreaches := h.append (token :: more)
    rw [hledger] at hreaches
    exact hscan tokens.length w.chart token htoken hreaches (Nat.le_refl _)
      (.refl h.consistent.position_le)

/-- **Later tokens change nothing before them.** When the parse of an input returns, so does that
of each of its beginnings, within the same bound. The chart of the beginning is the first part of
the chart of the whole: it has the same records up to its end, and answers the same about all
positions up to there. -/
theorem parse_append {result : ParseResult π α}
    (h : p.parse options fuel (tokens ++ more) = some result) :
    ∃ before, p.parse options fuel tokens = some before ∧
      before.chart.IsUpTo tokens.length result.chart ∧
      before.chart.records.toList <+: result.chart.records.toList ∧
      ∀ position ≤ tokens.length, ∀ left,
        before.chart.completedIds position left = result.chart.completedIds position left := by
  suffices ∃ before, p.parse options fuel tokens = some before ∧
      before.chart.IsUpTo tokens.length result.chart by
    obtain ⟨before, hbefore, hupTo⟩ := this
    exact ⟨before, hbefore, hupTo, hupTo.records_prefix, fun position hle left =>
      hupTo.completedIds_eq (reaches_of_parse h).1.filed hle left⟩
  cases more with
  | nil =>
    rw [List.append_nil] at h
    exact ⟨result, h, .refl (reaches_of_parse h).1.consistent.position_le⟩
  | cons token more =>
    obtain ⟨w', hsweep, rfl⟩ := Option.map_eq_some_iff.1 h
    rw [sweep_append, Nat.zero_add] at hsweep
    obtain ⟨w, hbefore, hafter⟩ := Option.bind_eq_some_iff.1 hsweep
    obtain ⟨hreaches, hpending⟩ :=
      reaches_of_sweep (p.reaches_begin options tokens) rfl (Nat.zero_le _) hbefore
    refine ⟨p.result tokens.length w, ?_, ?_⟩
    · rw [parse, hbefore, Option.map_some]
    · rw [chart_result, chart_result]
      exact isUpTo_of_sweep hreaches hpending hafter

/-- Two tokens in front of a third with the ambiguous grammar. -/
theorem parse_append_ambiguous : ∃ before result,
    (Parser.new Examples.ambiguousGrammar (.probability : ScoreAlgebra Exact Exact)).parse {} 40
        [Token.literal "a", Token.literal "a", Token.literal "a"] = some result ∧
      (Parser.new Examples.ambiguousGrammar .probability).parse {} 40
        [Token.literal "a", Token.literal "a"] = some before ∧
      before.chart.size < result.chart.size ∧ before.chart.IsUpTo 2 result.chart ∧
      before.chart.records.toList <+: result.chart.records.toList ∧
      ∀ position ≤ 2, ∀ left,
        before.chart.completedIds position left = result.chart.completedIds position left := by
  have hsizes : ((Parser.new Examples.ambiguousGrammar (.probability : ScoreAlgebra Exact Exact)).parse
      {} 40 [Token.literal "a", Token.literal "a", Token.literal "a"]).any (fun result =>
        ((Parser.new Examples.ambiguousGrammar (.probability : ScoreAlgebra Exact Exact)).parse {} 40
          [Token.literal "a", Token.literal "a"]).all fun before =>
            decide (before.chart.size < result.chart.size)) = true := by
    decide +kernel
  obtain ⟨result, hresult, hsize⟩ := (Option.any_eq_true _ _).1 hsizes
  have happend : (Parser.new Examples.ambiguousGrammar .probability).parse {} 40
      ([Token.literal "a", Token.literal "a"] ++ [Token.literal "a"]) = some result := hresult
  obtain ⟨before, hbefore, hrest⟩ := parse_append happend
  rw [hbefore, Option.all_some, decide_eq_true_eq] at hsize
  exact ⟨before, result, hresult, hbefore, hsize, hrest⟩

end Parser

end SemiringParsing
