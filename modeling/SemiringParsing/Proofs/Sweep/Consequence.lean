import SemiringParsing.Proofs.Sweep.Ledger
import SemiringParsing.Proofs.Grammar.Corners
import SemiringParsing.Parser

/-!
# The steps of a sweep as contributions

Each step of a sweep adds contributions, one after the other. Which they are is settled by the
chart before the step: passing on a contribution adds its `consequences`, scanning a token adds
the `readings` of it. For none of the additions of a step changes what a later one of the same
step looks at. Predictions are for distinct states, and what is moved over a completed state or a
token ends at another position than what it is moved to.

The statements are about ledgers: `ledger_predict`, `ledger_complete` and `ledger_scan`.
-/

namespace SemiringParsing

variable {π α τ : Type}

/-! ## Moving the dot -/

namespace State

/-- A state is moved to a position by putting the dot one further. -/
theorem advance_eq_some_iff {s t : State π} {next : Nat} : s.advance next = .ok (some t) ↔
    t.rule = s.rule ∧ t.position = next ∧ t.origin = s.origin ∧ t.dot = s.dot + 1 := by
  obtain ⟨rule, position, origin, dot, hdot, horigin⟩ := t
  unfold advance create
  constructor
  · intro h
    split at h
    · simp at h
    · split at h
      · split at h
        · simp only [Except.map, Except.ok.injEq, Option.some.injEq, State.mk.injEq] at h
          obtain ⟨rfl, rfl, rfl, rfl⟩ := h
          exact ⟨rfl, rfl, rfl, rfl⟩
        · simp [Except.map] at h
      · simp [Except.map] at h
  · rintro ⟨h₁, h₂, h₃, h₄⟩
    dsimp only at h₁ h₂ h₃ h₄
    subst h₁ h₂ h₃ h₄
    have hlt : s.isCompleted = false := by
      simp only [isCompleted, beq_eq_false_iff_ne]
      omega
    rw [hlt, dif_pos hdot, dif_pos horigin]
    rfl

theorem active?_eq_none_iff {s : State π} : s.active? = none ↔ s.isCompleted = true := by
  have := s.dot_le
  simp only [active?, Production.categoryAt?, List.getElem?_eq_none_iff, isCompleted, beq_iff_eq,
    Production.length] at *
  omega

theorem isCompleted_eq_false {s : State π} {category : Category}
    (h : s.active? = some category) : s.isCompleted = false := by
  rw [← Bool.not_eq_true, ← active?_eq_none_iff, h]
  exact Option.some_ne_none category

theorem dot_lt_of_active? {s : State π} {category : Category} (h : s.active? = some category) :
    s.dot < s.rule.length := by
  simp only [active?, Production.categoryAt?, List.getElem?_eq_some_iff] at h
  exact h.1

/-- A state that expects something can be moved to any later position. -/
theorem exists_advance {s : State π} {category : Category} (h : s.active? = some category)
    {next : Nat} (hle : s.position ≤ next) : ∃ t, s.advance next = .ok (some t) :=
  ⟨⟨s.rule, next, s.origin, s.dot + 1, dot_lt_of_active? h, Nat.le_trans s.origin_le hle⟩,
    advance_eq_some_iff.2 ⟨rfl, rfl, rfl, rfl⟩⟩

end State

/-! ## Contributions -/

namespace Chart

variable (S : ScoreAlgebra π α) (c : Chart π α)

/-- The prediction of a rule at a position, reached with some score. -/
def prediction (position : Nat) (x : α × Rule π) : Contribution π α where
  state := .begin x.2 position
  forward := S.times x.1 (S.ofProbability x.2.probability)
  inner := if (c.id? (.begin x.2 position)).isSome then S.zero else S.ofProbability x.2.probability
  link? := none

/-- What moving the dot of a state to a later position contributes. -/
def moved (next : Nat) (compose : α → α) (link : StateId → Link) (id : StateId) :
    Option (Contribution π α) :=
  match c.record? id with
  | none => none
  | some r =>
    match r.state.advance next with
    | .ok (some s) => some ⟨s, compose r.forward, compose r.inner, some (link id)⟩
    | _ => none

/-- What moving the dot of a waiting state over a completed one contributes. -/
def completion (id : StateId) (completed : State π) (inner : α) :
    StateId → Option (Contribution π α) :=
  c.moved completed.position (S.times · inner) (.completed · id)

/-- What moving the dot of a state over a token contributes. -/
def reading (weight? : Option α) (next : Nat) : StateId → Option (Contribution π α) :=
  c.moved next (Scan.reweigh S weight?) .scanned

/-- What a contribution to a completed state contributes to those that waited for it. -/
def completions (id : StateId) (completed : State π) (inner : α) : List (Contribution π α) :=
  (c.activeOn completed.origin completed.rule.left).toList.filterMap
    (c.completion S id completed inner)

/-- What a token contributes. -/
def readings (options : ParseOptions τ α) (position : Nat) (token : Token τ) :
    List (Contribution π α) :=
  ((c.statesAt position).toList.filter (Sweep.expects c token)).filterMap
    (c.reading S (options.weightOf? position token) (position + 1))

variable {S c}

theorem moved_eq_some {next : Nat} {compose : α → α} {link : StateId → Link} {id : StateId}
    {x : Contribution π α} : c.moved next compose link id = some x ↔
      ∃ r s, c.record? id = some r ∧ r.state.advance next = .ok (some s) ∧
        x = ⟨s, compose r.forward, compose r.inner, some (link id)⟩ := by
  unfold moved
  cases c.record? id with
  | none => simp
  | some r =>
    dsimp only
    split
    · next h => simp [h, eq_comm]
    · next h =>
      constructor
      · simp
      · rintro ⟨_, s, ⟨⟩, hs, -⟩
        exact absurd hs (h s)

theorem completion_eq_some {id waiting : StateId} {completed : State π} {inner : α}
    {x : Contribution π α} : c.completion S id completed inner waiting = some x ↔
      ∃ r next, c.record? waiting = some r ∧ r.state.advance completed.position = .ok (some next) ∧
        x = ⟨next, S.times r.forward inner, S.times r.inner inner, some (.completed waiting id)⟩ :=
  moved_eq_some

theorem reading_eq_some {weight? : Option α} {next : Nat} {id : StateId} {x : Contribution π α} :
    c.reading S weight? next id = some x ↔
      ∃ r s, c.record? id = some r ∧ r.state.advance next = .ok (some s) ∧
        x = ⟨s, Scan.reweigh S weight? r.forward, Scan.reweigh S weight? r.inner,
          some (.scanned id)⟩ :=
  moved_eq_some

theorem expects_eq_true {token : Token τ} {id : StateId} : Sweep.expects c token id = true ↔
    ∃ r category, c.record? id = some r ∧ r.state.active? = some category ∧
      token.isA category = true := by
  unfold Sweep.expects
  cases c.record? id with
  | none => simp
  | some r => cases h : r.state.active? <;> simp [h]

end Chart

namespace LeftCorners

variable [Number π]

/-- The rules that can begin a category, each with the score of getting to its left side. -/
def openings (S : ScoreAlgebra π α) (G : Grammar π) (corners : LeftCorners α)
    (category : Category) (forward : α) : List (α × Rule π) :=
  (corners.reachableFrom category).flatMap fun corner =>
    (G.rulesFor corner.1).map fun rule => (S.times forward corner.2, rule)

variable {S : ScoreAlgebra π α} {G : Grammar π}

theorem mem_openings {corners : LeftCorners α} {category : Category} {forward : α}
    {x : α × Rule π} : x ∈ corners.openings S G category forward ↔
      ∃ corner ∈ corners.reachableFrom category, x.2 ∈ G.rulesFor corner.1 ∧
        x.1 = S.times forward corner.2 := by
  obtain ⟨reach, rule⟩ := x
  simp only [openings, List.mem_flatMap, List.mem_map, Prod.mk.injEq]
  refine exists_congr fun corner => and_congr_right fun _ => ?_
  constructor
  · rintro ⟨r, hr, hreach, rfl⟩
    exact ⟨hr, hreach.symm⟩
  · rintro ⟨hr, hreach⟩
    exact ⟨rule, hr, hreach.symm, rfl⟩

/-- No production can begin a category in two ways. -/
theorem nodup_openings {corners : LeftCorners α} {category : Category}
    (h : ((corners.reachableFrom category).map Prod.fst).Nodup) (forward : α) :
    ((corners.openings S G category forward).map fun x => x.2.toProduction).Nodup := by
  have hleft : ∀ corner : Category × α, ∀ p ∈ (G.rulesFor corner.1).map Rule.toProduction,
      p.left = corner.1 := by
    intro corner p hp
    obtain ⟨r, hr, rfl⟩ := List.mem_map.1 hp
    exact (Grammar.mem_rulesFor.1 hr).2
  rw [openings, List.map_flatMap]
  simp only [List.map_map, Function.comp_def]
  refine List.nodup_flatMap.2 ⟨fun corner _ => G.nodup_productions_rulesFor _, ?_⟩
  refine (List.pairwise_map.1 h).imp fun hne p hp hp' => hne ?_
  exact (hleft _ p hp).symm.trans (hleft _ p hp')

end LeftCorners

/-! ## The steps on ledgers -/

namespace Ledger

variable {S : ScoreAlgebra π α} {l : Ledger π α} {x : Contribution π α}

theorem id?_add_of_ne {t : State π} (h : l.chart.Indexed) (hne : x.state.item ≠ t.item) :
    (l.add S x).chart.id? t = l.chart.id? t := by
  rcases known_or_new h x with ⟨id, r, hr, hitem⟩ | hnew
  · rw [add_eq_combine h hr hitem]
    rfl
  · rw [add_eq_insert hnew]
    simp only [Chart.id?_insert]
    rw [if_neg hne]

end Ledger

namespace Sweep

variable {S : ScoreAlgebra π α}

theorem ledger_predictRule (w : Sweep π α) (position : Nat) (x : α × Rule π) :
    (w.predictRule S position x.1 x.2).ledger =
      w.ledger.add S (w.chart.prediction S position x) := by
  rw [predictRule, ← ledger_note w (.predicted (.begin x.2 position)), ← ledger_add]
  rfl

theorem ledger_foldl_predictRule {c : Chart π α} {position : Nat} {xs : List (α × Rule π)}
    (hdistinct : (xs.map fun x => x.2.toProduction).Nodup) {w : Sweep π α}
    (hindexed : w.chart.Indexed)
    (hc : ∀ x ∈ xs, w.chart.id? (.begin x.2 position) = c.id? (.begin x.2 position)) :
    (xs.foldl (fun w x => predictRule S position x.1 w x.2) w).ledger =
      w.ledger.addAll S (xs.map (c.prediction S position)) := by
  induction xs generalizing w with
  | nil => rfl
  | cons x xs ih =>
    rw [List.map_cons, List.nodup_cons] at hdistinct
    have hprediction : w.chart.prediction S position x = c.prediction S position x := by
      simp only [Chart.prediction, hc x List.mem_cons_self]
    have hstep := ledger_predictRule (S := S) w position x
    rw [hprediction] at hstep
    have hchart : (w.predictRule S position x.1 x.2).chart =
        (w.ledger.add S (c.prediction S position x)).chart :=
      congrArg Ledger.chart hstep
    rw [List.foldl_cons, ih hdistinct.2, hstep]
    · rfl
    · rw [hchart]
      exact Ledger.indexed_add hindexed
    · intro y hy
      rw [hchart, ← hc y (List.mem_cons_of_mem _ hy)]
      refine Ledger.id?_add_of_ne hindexed fun hitem => hdistinct.1 ?_
      exact List.mem_map.2 ⟨y, hy, (congrArg Item.production hitem).symm⟩

/-- Predicting goes over all that can begin the category. -/
theorem predict_eq_foldl [Number π] {G : Grammar π} {corners : LeftCorners α} {position : Nat}
    {category : Category} {forward : α} {w : Sweep π α} :
    w.predict S G corners position category forward =
      (corners.openings S G category forward).foldl
        (fun w x => predictRule S position x.1 w x.2) w := by
  rw [LeftCorners.openings, List.foldl_flatMap, predict]
  congr 1
  funext w corner
  rw [List.foldl_map]
  rfl

/-- Predicting adds the predictions of all that can begin the category. -/
theorem ledger_predict [Number π] {G : Grammar π} {corners : LeftCorners α} {position : Nat}
    {category : Category} {forward : α} {w : Sweep π α} (hindexed : w.chart.Indexed)
    (hcorners : ((corners.reachableFrom category).map Prod.fst).Nodup) :
    (w.predict S G corners position category forward).ledger = w.ledger.addAll S
      ((corners.openings S G category forward).map (w.chart.prediction S position)) := by
  rw [← ledger_foldl_predictRule (LeftCorners.nodup_openings hcorners forward) hindexed
    fun _ _ => rfl, predict_eq_foldl]

/-- Moving a dot adds what the move contributes. -/
theorem ledger_moveOver (w : Sweep π α) (id : StateId) (completed : State π) (inner : α)
    (waiting : StateId) : (w.moveOver S id completed inner waiting).ledger =
      w.ledger.addAll S (w.chart.completion S id completed inner waiting).toList := by
  unfold moveOver Chart.completion Chart.moved
  cases w.chart.record? waiting with
  | none => rfl
  | some r =>
    dsimp only
    cases r.state.advance completed.position with
    | error e => rfl
    | ok s? =>
      cases s? with
      | none => rfl
      | some s =>
        simp only [Option.toList_some, Ledger.addAll_cons, Ledger.addAll_nil]
        rw [← ledger_note w (.completed s completed), ← ledger_add]

theorem ledger_scanState (w : Sweep π α) (weight? : Option α) (next : Nat) (id : StateId) :
    (w.scanState S weight? next id).ledger =
      w.ledger.addAll S (w.chart.reading S weight? next id).toList := by
  unfold scanState Chart.reading Chart.moved Scan.scan
  cases w.chart.record? id with
  | none => rfl
  | some r =>
    dsimp only
    cases r.state.advance next with
    | error e => rfl
    | ok s? =>
      cases s? with
      | none => rfl
      | some s =>
        simp only [Except.map, Option.map_some, Option.toList_some, Ledger.addAll_cons,
          Ledger.addAll_nil]
        rw [← ledger_note w (.scanned r.state s), ← ledger_add]

/-- A step that goes over the numbers of states and for each adds a contribution at a position
where none of these states ends can look them all up beforehand. -/
theorem ledger_foldl {c : Chart π α} {f : Chart π α → StateId → Option (Contribution π α)}
    {step : Sweep π α → StateId → Sweep π α} {ids : List StateId} {w : Sweep π α} (position : Nat)
    (hstep : ∀ w id, (step w id).ledger = w.ledger.addAll S (f w.chart id).toList)
    (hf : ∀ c c' : Chart π α, ∀ id, c.record? id = c'.record? id → f c id = f c' id)
    (hposition : ∀ c id x, f c id = some x → x.state.position = position)
    (hids : ∀ id ∈ ids, ∃ r, c.record? id = some r ∧ r.state.position ≠ position)
    (hindexed : w.chart.Indexed) (hc : ∀ id ∈ ids, w.chart.record? id = c.record? id) :
    (ids.foldl step w).ledger = w.ledger.addAll S (ids.filterMap (f c)) := by
  induction ids generalizing w with
  | nil => rfl
  | cons id ids ih =>
    have hchart : (step w id).chart = (w.ledger.addAll S (f w.chart id).toList).chart :=
      congrArg Ledger.chart (hstep w id)
    have hfid : f w.chart id = f c id := hf _ _ _ (hc id List.mem_cons_self)
    rw [List.foldl_cons, ih (fun id hid => hids id (List.mem_cons_of_mem _ hid)), hstep, hfid,
      ← Ledger.addAll_append]
    · cases h : f c id <;> simp [h]
    · rw [hchart]
      exact Ledger.indexed_addAll hindexed
    · intro other hother
      obtain ⟨r, hr, hne⟩ := hids other (List.mem_cons_of_mem _ hother)
      have hc := hc other (List.mem_cons_of_mem _ hother)
      rw [hr, hchart]
      refine Ledger.record?_addAll_of_forall_ne hindexed (hc.trans hr) fun x hx hitem => hne ?_
      exact (congrArg Item.position hitem).trans (hposition _ _ x (Option.mem_toList.1 hx))

theorem ledger_complete {id : StateId} {completed : State π} {inner : α} {w : Sweep π α}
    (hindexed : w.chart.Indexed) (horigin : completed.origin ≠ completed.position) :
    (w.complete S id completed inner).ledger =
      w.ledger.addAll S (w.chart.completions S id completed inner) := by
  rw [complete, ← Array.foldl_toList, Chart.completions]
  refine ledger_foldl (f := fun c => c.completion S id completed inner) completed.position
    (fun w id' => ledger_moveOver ..) ?_ ?_ ?_ hindexed fun _ _ => rfl
  · intro c c' id' h
    simp only [Chart.completion, Chart.moved, h]
  · intro c id' x hx
    obtain ⟨r, next, -, hnext, rfl⟩ := Chart.completion_eq_some.1 hx
    exact (State.advance_eq_some_iff.1 hnext).2.1
  · intro id' hid'
    obtain ⟨r, hr, hposition, -⟩ := hindexed.mem_activeOn.1 (Array.mem_toList_iff.1 hid')
    exact ⟨r, hr, hposition ▸ horigin⟩

theorem ledger_scan {options : ParseOptions τ α} {position : Nat} {token : Token τ}
    {w : Sweep π α} (hindexed : w.chart.Indexed) :
    (w.scan S options position token).ledger =
      w.ledger.addAll S (w.chart.readings S options position token) := by
  rw [scan, ← Array.foldl_toList, Array.toList_filter, Chart.readings]
  refine ledger_foldl (f := fun c => c.reading S (options.weightOf? position token) (position + 1))
    (position + 1) (fun w id => ledger_scanState ..) ?_ ?_ ?_ hindexed fun _ _ => rfl
  · intro c c' id h
    simp only [Chart.reading, Chart.moved, h]
  · intro c id x hx
    obtain ⟨r, next, -, hnext, rfl⟩ := Chart.reading_eq_some.1 hx
    exact (State.advance_eq_some_iff.1 hnext).2.1
  · intro id hid
    obtain ⟨r, hr, hposition⟩ :=
      hindexed.mem_statesAt.1 (Array.mem_toList_iff.1 (List.mem_of_mem_filter hid))
    exact ⟨r, hr, by omega⟩

end Sweep

/-! ## Passing on -/

/-- What passing on a contribution adds. States that expect a terminal wait for the scan, and
what was predicted predicts nothing itself. -/
def Parser.consequences [Number π] (p : Parser π α) (position : Nat) (c : Chart π α)
    (d : Delta α) : List (Contribution π α) :=
  match (c.record? d.id).map Record.state with
  | none => []
  | some s =>
    match s.active? with
    | none => c.completions p.algebra d.id s d.inner
    | some (.nonterminal name) =>
      if s.isPredicted then []
      else (p.corners.openings p.algebra p.grammar (.nonterminal name) d.forward).map
        (c.prediction p.algebra position)
    | some _ => []

/-- Passing on moves dots over a completed state, predicts what is expected, or does nothing. -/
theorem Parser.consequences_cases [Number π] (p : Parser π α) (position : Nat) {c : Chart π α}
    {d : Delta α} {r : Record π α} (hr : c.record? d.id = some r) :
    (r.state.isCompleted = true ∧
      p.consequences position c d = c.completions p.algebra d.id r.state d.inner) ∨
    (∃ name, r.state.active? = some (.nonterminal name) ∧ r.state.isPredicted = false ∧
      p.consequences position c d =
        (p.corners.openings p.algebra p.grammar (.nonterminal name) d.forward).map
          (c.prediction p.algebra position)) ∨
    (r.state.isCompleted = false ∧ p.consequences position c d = []) := by
  unfold consequences
  rw [hr, Option.map_some]
  dsimp only
  cases hactive : r.state.active? with
  | none => exact .inl ⟨State.active?_eq_none_iff.1 hactive, rfl⟩
  | some category =>
    have hopen := State.isCompleted_eq_false hactive
    cases category with
    | nonterminal name =>
      dsimp only
      split
      · exact .inr (.inr ⟨hopen, rfl⟩)
      · next hpredicted => exact .inr (.inl ⟨name, rfl, Bool.eq_false_iff.2 hpredicted, rfl⟩)
    | start => exact .inr (.inr ⟨hopen, rfl⟩)
    | error => exact .inr (.inr ⟨hopen, rfl⟩)
    | terminal name => exact .inr (.inr ⟨hopen, rfl⟩)

theorem Parser.nodup_reachableFrom [Number π] (p : Parser π α) (category : Category) :
    ((p.corners.reachableFrom category).map Prod.fst).Nodup := by
  rw [p.corners_eq]
  exact LeftCorners.nodup_reachableFrom ..

/-- Passing on a contribution adds its consequences, if completed states have a length. -/
theorem Sweep.ledger_pass [Number π] {p : Parser π α} {position : Nat} {d : Delta α}
    {w : Sweep π α} (hindexed : w.chart.Indexed)
    (hcompleted : ∀ r, w.chart.record? d.id = some r → r.state.isCompleted = true →
      r.state.origin ≠ r.state.position) :
    (w.pass p.algebra p.grammar p.corners position d).ledger =
      w.ledger.addAll p.algebra (p.consequences position w.chart d) := by
  unfold pass Parser.consequences
  cases h : w.chart.record? d.id with
  | none => rfl
  | some r =>
    simp only [Option.map_some]
    cases hactive : r.state.active? with
    | none => exact ledger_complete hindexed (hcompleted r h (State.active?_eq_none_iff.1 hactive))
    | some category =>
      cases category with
      | nonterminal name =>
        dsimp only
        split
        · rfl
        · exact ledger_predict hindexed (p.nodup_reachableFrom _)
      | start => rfl
      | error => rfl
      | terminal name => rfl

end SemiringParsing
