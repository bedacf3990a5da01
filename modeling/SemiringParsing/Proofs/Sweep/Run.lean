import SemiringParsing.Proofs.Sweep.Consequence

/-!
# What a parse goes through

`Parser.Reaches` relates a position to the ledgers a parse goes through while it is there. A parse
begins with the top rule, passes on contributions in the order of the agenda, and scans a token
when the agenda is empty. Parsing with the program's own functions ends in one of these ledgers,
at the end of the input and with nothing left to pass on (`reaches_of_parse`).

Each state comes from states of the chart in one of three ways, which `LeadsTo` lists. From this
one inversion the invariants of a parse follow: `Reaches.consistent` says where states and their
rules come from, and `Reaches.states_satisfy` is the induction over all states of a chart.
-/

namespace SemiringParsing

variable {π α τ : Type} [Number π]

/-! ## States and what leads to them -/

/-- A state that a parse may hold. Its rule is one of the grammar, or the top rule matched from
the beginning of the input. Since rules have a length, the dot is in front exactly when nothing
has been matched. -/
structure Grammar.Admits (G : Grammar π) (s : State π) : Prop where
  rule : s.rule ∈ G.rules ∨ s.rule = G.topRule ∧ s.origin = 0
  dot_eq_zero_iff : s.dot = 0 ↔ s.origin = s.position

namespace Grammar.Admits

variable {G : Grammar π} {s : State π}

theorem origin_lt_position (h : G.Admits s) (hdot : s.dot ≠ 0) : s.origin < s.position := by
  have horigin := s.origin_le
  have := mt h.dot_eq_zero_iff.2 hdot
  omega

theorem length_pos (h : G.Admits s) : 0 < s.rule.length := by
  rcases h.rule with hr | ⟨hr, -⟩
  · exact Grammar.length_pos hr
  · rw [hr]
    exact Nat.one_pos

theorem origin_lt_position_of_isCompleted (h : G.Admits s) (hcompleted : s.isCompleted = true) :
    s.origin < s.position := by
  have hlength := h.length_pos
  simp only [State.isCompleted, beq_iff_eq] at hcompleted
  exact h.origin_lt_position (by omega)

theorem start_notMem_right (h : G.Admits s) : .start ∉ s.rule.right := by
  rcases h.rule with hr | ⟨hr, -⟩
  · exact Grammar.start_notMem_right hr
  · simp [hr]

theorem active?_ne_start (h : G.Admits s) : s.active? ≠ some .start :=
  fun hactive => h.start_notMem_right (List.mem_of_getElem? hactive)

/-- Only the top rule stands for the start of the input. -/
theorem mem_rules (h : G.Admits s) (hleft : s.rule.left ≠ .start) : s.rule ∈ G.rules := by
  rcases h.rule with hr | ⟨hr, -⟩
  · exact hr
  · rw [hr] at hleft
    exact absurd rfl hleft

/-- What completes another state is a rule of the grammar. -/
theorem mem_rules_of_active? {w : State π} (h : G.Admits s) (hw : G.Admits w)
    (hactive : w.active? = some s.rule.left) : s.rule ∈ G.rules := by
  refine h.mem_rules fun hleft => hw.active?_ne_start ?_
  rw [hactive, hleft]

theorem begin_of_mem {r : Rule π} (hr : r ∈ G.rules) (position : Nat) :
    G.Admits (.begin r position) where
  rule := .inl hr
  dot_eq_zero_iff := ⟨fun _ => rfl, fun _ => rfl⟩

theorem begin_topRule : G.Admits (.begin G.topRule 0) where
  rule := .inr ⟨rfl, rfl⟩
  dot_eq_zero_iff := ⟨fun _ => rfl, fun _ => rfl⟩

/-- Moving the dot to a later position. -/
theorem advance (h : G.Admits s) {t : State π} {next : Nat} (hnext : s.advance next = .ok (some t))
    (hlt : s.origin < next) : G.Admits t := by
  obtain ⟨hrule, hposition, horigin, hdot⟩ := State.advance_eq_some_iff.1 hnext
  refine ⟨?_, ?_⟩
  · rw [hrule, horigin]
    exact h.rule
  · rw [hdot, horigin, hposition]
    omega

/-- Two states of a parse that are identified the same way are the same. -/
theorem eq_of_item_eq {t : State π} (h : G.Admits s) (ht : G.Admits t) (hitem : s.item = t.item) :
    s = t := by
  have hproduction : s.rule.toProduction = t.rule.toProduction := congrArg Item.production hitem
  have hrule : s.rule = t.rule := by
    rcases h.rule with hs | ⟨hs, -⟩
    · rcases ht.rule with ht | ⟨ht, -⟩
      · exact Grammar.eq_of_toProduction_eq hs ht hproduction
      · refine absurd (congrArg Production.left hproduction) ?_
        rw [ht, Grammar.left_topRule]
        exact Grammar.left_ne_start hs
    · rcases ht.rule with ht | ⟨ht, -⟩
      · refine absurd (congrArg Production.left hproduction).symm ?_
        rw [hs, Grammar.left_topRule]
        exact Grammar.left_ne_start ht
      · rw [hs, ht]
  obtain ⟨rule, position, origin, dot, _, _⟩ := s
  obtain ⟨rule', position', origin', dot', _, _⟩ := t
  simp only [State.item, Item.mk.injEq] at hitem hrule
  obtain ⟨-, rfl, rfl, rfl⟩ := hitem
  subst hrule
  rfl

end Grammar.Admits

namespace Parser

/-- The ways in which a state of a chart leads to a state, with the link that tells of it. A
completed state needs another one that waited for it. -/
inductive LeadsTo (p : Parser π α) (tokens : List (Token τ)) (c : Chart π α) :
    StateId → State π → Option Link → Prop
  /-- A state that expects a nonterminal leads to the rules of its left corners. -/
  | predict {id : StateId} {r : Record π α} {name : String} {corner : Category × α}
      {rule : Rule π} (hr : c.record? id = some r)
      (hactive : r.state.active? = some (.nonterminal name))
      (hpredicted : r.state.isPredicted = false)
      (hcorner : corner ∈ p.corners.reachableFrom (.nonterminal name))
      (hrule : rule ∈ p.grammar.rulesFor corner.1) :
      LeadsTo p tokens c id (.begin rule r.state.position) none
  /-- A completed state moves the dot of those that waited for it. -/
  | complete {waiting id : StateId} {w r : Record π α} {next : State π}
      (hw : c.record? waiting = some w) (hr : c.record? id = some r)
      (hcompleted : r.state.isCompleted = true) (hposition : w.state.position = r.state.origin)
      (hactive : w.state.active? = some r.state.rule.left)
      (hnext : w.state.advance r.state.position = .ok (some next)) :
      LeadsTo p tokens c id next (some (.completed waiting id))
  /-- A token moves the dot of those that expect it. -/
  | scan {id : StateId} {r : Record π α} {token : Token τ} {category : Category} {next : State π}
      (hr : c.record? id = some r) (htoken : tokens[r.state.position]? = some token)
      (hactive : r.state.active? = some category) (hcategory : token.isA category = true)
      (hnext : r.state.advance (r.state.position + 1) = .ok (some next)) :
      LeadsTo p tokens c id next (some (.scanned id))

variable {p : Parser π α} {tokens : List (Token τ)} {c c' : Chart π α} {id : StateId}
  {s : State π} {link? : Option Link}

/-- What leads to a state still does so when the chart has grown. -/
theorem LeadsTo.mono (h : p.LeadsTo tokens c id s link?) (hc : c.Extends c') :
    p.LeadsTo tokens c' id s link? := by
  cases h with
  | predict hr hactive hpredicted hcorner hrule =>
    obtain ⟨r', hr', hstate, -⟩ := hc _ _ hr
    rw [← hstate] at hactive hpredicted ⊢
    exact .predict hr' hactive hpredicted hcorner hrule
  | complete hw hr hcompleted hposition hactive hnext =>
    obtain ⟨w', hw', hwstate, -⟩ := hc _ _ hw
    obtain ⟨r', hr', hstate, -⟩ := hc _ _ hr
    rw [← hwstate, ← hstate] at hnext hactive hposition
    rw [← hstate] at hcompleted
    exact .complete hw' hr' hcompleted hposition hactive hnext
  | scan hr htoken hactive hcategory hnext =>
    obtain ⟨r', hr', hstate, -⟩ := hc _ _ hr
    rw [← hstate] at htoken hactive hnext
    exact .scan hr' htoken hactive hcategory hnext

theorem mem_rules_of_mem_reachableFrom {category : Category} {corner : Category × α}
    {rule : Rule π} (hcorner : corner ∈ p.corners.reachableFrom category)
    (hrule : rule ∈ p.grammar.rulesFor corner.1) : rule ∈ p.grammar.rules := by
  rw [p.corners_eq] at hcorner
  obtain ⟨name, -, hname⟩ := LeftCorners.exists_name_of_mem_reachableFrom hcorner
  rw [hname] at hrule
  exact (Grammar.mem_rulesFor_nonterminal.1 hrule).1

/-- States that a parse may hold lead to such states only. -/
theorem LeadsTo.admits (h : p.LeadsTo tokens c id s link?)
    (hc : ∀ id r, c.record? id = some r → p.grammar.Admits r.state) : p.grammar.Admits s := by
  cases h with
  | predict _ _ _ hcorner hrule =>
    exact .begin_of_mem (mem_rules_of_mem_reachableFrom hcorner hrule) _
  | @complete _ _ w r _ hw hr hcompleted hposition _ hnext =>
    refine (hc _ _ hw).advance hnext ?_
    have horigin := (hc _ _ hr).origin_lt_position_of_isCompleted hcompleted
    have := w.state.origin_le
    omega
  | @scan _ r _ _ _ hr _ _ _ hnext =>
    exact (hc _ _ hr).advance hnext (Nat.lt_succ_of_le r.state.origin_le)

/-- What passing on a contribution adds comes from states of the chart, at the same position. -/
theorem leadsTo_of_mem_consequences {position : Nat} {d : Delta α} {x : Contribution π α}
    (hindexed : c.Indexed) (hd : ∀ r, c.record? d.id = some r → r.state.position = position)
    (hx : x ∈ p.consequences position c d) :
    p.LeadsTo tokens c d.id x.state x.link? ∧ x.state.position = position := by
  cases hr : c.record? d.id with
  | none => simp [consequences, hr] at hx
  | some r =>
    obtain rfl := hd r hr
    rcases p.consequences_cases r.state.position hr with
      ⟨hcompleted, heq⟩ | ⟨name, hactive, hpredicted, heq⟩ | ⟨-, heq⟩
    · rw [heq, Chart.completions] at hx
      obtain ⟨waiting, hwaiting, hx⟩ := List.mem_filterMap.1 hx
      obtain ⟨w, next, hw, hnext, rfl⟩ := Chart.completion_eq_some.1 hx
      obtain ⟨w', hw', hposition, hactive⟩ :=
        hindexed.mem_activeOn.1 (Array.mem_toList_iff.1 hwaiting)
      obtain rfl : w' = w := Option.some.inj (hw'.symm.trans hw)
      exact ⟨.complete hw hr hcompleted hposition hactive hnext,
        (State.advance_eq_some_iff.1 hnext).2.1⟩
    · rw [heq] at hx
      obtain ⟨y, hy, rfl⟩ := List.mem_map.1 hx
      obtain ⟨corner, hcorner, hrule, -⟩ := LeftCorners.mem_openings.1 hy
      exact ⟨.predict hr hactive hpredicted hcorner hrule, rfl⟩
    · simp [heq] at hx

/-- What a token adds comes from states of the chart, one position before. -/
theorem leadsTo_of_mem_readings {S : ScoreAlgebra π α} {options : ParseOptions τ α}
    {position : Nat} {token : Token τ} {x : Contribution π α} (hindexed : c.Indexed)
    (htoken : tokens[position]? = some token) (hx : x ∈ c.readings S options position token) :
    ∃ id, p.LeadsTo tokens c id x.state x.link? ∧ x.state.position = position + 1 := by
  simp only [Chart.readings, List.mem_filterMap, List.mem_filter] at hx
  obtain ⟨id, ⟨hid, hexpects⟩, hx⟩ := hx
  obtain ⟨r, next, hr, hnext, rfl⟩ := Chart.reading_eq_some.1 hx
  obtain ⟨r', category, hr', hactive, hcategory⟩ := Chart.expects_eq_true.1 hexpects
  obtain rfl : r' = r := Option.some.inj (hr'.symm.trans hr)
  obtain ⟨r'', hr'', rfl⟩ := hindexed.mem_statesAt.1 (Array.mem_toList_iff.1 hid)
  obtain rfl : r'' = r' := Option.some.inj (hr''.symm.trans hr)
  exact ⟨id, .scan hr htoken hactive hcategory hnext, (State.advance_eq_some_iff.1 hnext).2.1⟩

/-! ## Reachable ledgers -/

/-- The contribution that a parse begins with: the top rule at the beginning of the input. -/
def seed (p : Parser π α) : Contribution π α :=
  ⟨.begin p.grammar.topRule 0, p.algebra.one, p.algebra.one, none⟩

/-- The ledgers that a parse goes through, each with the position it is at. -/
inductive Reaches (p : Parser π α) (options : ParseOptions τ α) (tokens : List (Token τ)) :
    Nat → Ledger π α → Prop
  | begin : Reaches p options tokens 0 (Ledger.empty.add p.algebra p.seed)
  | pass {position : Nat} {c : Chart π α} {d : Delta α} {ds : List (Delta α)}
      (h : Reaches p options tokens position ⟨c, d :: ds⟩) :
      Reaches p options tokens position
        (Ledger.addAll p.algebra ⟨c, ds⟩ (p.consequences position c d))
  | scan {position : Nat} {c : Chart π α} {token : Token τ}
      (h : Reaches p options tokens position ⟨c, []⟩) (htoken : tokens[position]? = some token) :
      Reaches p options tokens (position + 1)
        (Ledger.addAll p.algebra ⟨c, []⟩ (c.readings p.algebra options position token))

/-- What holds of every ledger that a parse goes through. -/
structure Consistent (p : Parser π α) (position : Nat) (l : Ledger π α) : Prop where
  indexed : l.chart.Indexed
  admits : ∀ id r, l.chart.record? id = some r → p.grammar.Admits r.state
  position_le : ∀ id r, l.chart.record? id = some r → r.state.position ≤ position
  pending : ∀ d ∈ l.pending, ∃ r, l.chart.record? d.id = some r ∧ r.state.position = position

namespace Consistent

variable {position : Nat} {ds : List (Delta α)} {xs : List (Contribution π α)}

variable {l : Ledger π α} {x : Contribution π α}

theorem empty (p : Parser π α) (position : Nat) : p.Consistent position .empty where
  indexed := Ledger.indexed_empty
  admits id r hr := by simp at hr
  position_le id r hr := by simp at hr
  pending d hd := by simp at hd

/-- Adding a state that ends at the position keeps a ledger consistent. -/
theorem add (h : p.Consistent position l) (hadmits : p.grammar.Admits x.state)
    (hposition : x.state.position = position) : p.Consistent position (l.add p.algebra x) where
  indexed := Ledger.indexed_add h.indexed
  admits id r hr := by
    rcases Ledger.record?_add h.indexed hr with ⟨hr, -⟩ | ⟨r', hr', -, rfl⟩ | ⟨-, -, rfl⟩
    · exact h.admits id r hr
    · exact h.admits id r' hr'
    · exact hadmits
  position_le id r hr := by
    rcases Ledger.record?_add h.indexed hr with ⟨hr, -⟩ | ⟨r', hr', -, rfl⟩ | ⟨-, -, rfl⟩
    · exact h.position_le id r hr
    · exact h.position_le id r' hr'
    · exact Nat.le_of_eq hposition
  pending d hd := by
    rcases Ledger.mem_pending_add h.indexed hd with hd | ⟨id, r, rfl, hr, hitem⟩
    · obtain ⟨r, hr, hr_position⟩ := h.pending d hd
      obtain ⟨r', hr', hstate, -⟩ := Ledger.extends_add (S := p.algebra) h.indexed d.id r hr
      exact ⟨r', hr', hstate ▸ hr_position⟩
    · exact ⟨r, hr, (congrArg Item.position hitem).trans hposition⟩

/-- With nothing left to pass on, a parse can go on to a later position. -/
theorem later (h : p.Consistent position l) (hpending : l.pending = []) {next : Nat}
    (hle : position ≤ next) : p.Consistent next l where
  indexed := h.indexed
  admits := h.admits
  position_le id r hr := Nat.le_trans (h.position_le id r hr) hle
  pending d hd := by simp [hpending] at hd

/-- Adding what states of the chart lead to keeps a ledger consistent. -/
theorem addAll (h : p.Consistent position ⟨c, ds⟩) {next : Nat} (hle : position ≤ next)
    (hds : ds = [] ∨ position = next)
    (hxs : ∀ x ∈ xs, ∃ id, p.LeadsTo tokens c id x.state x.link? ∧ x.state.position = next) :
    p.Consistent next (Ledger.addAll p.algebra ⟨c, ds⟩ xs) := by
  have hnext : p.Consistent next ⟨c, ds⟩ := by
    rcases hds with rfl | rfl
    · exact h.later rfl hle
    · exact h
  refine Ledger.addAll_induction hnext fun l x hx hl => ?_
  obtain ⟨_, hleads, hposition⟩ := hxs x hx
  exact hl.add (hleads.admits h.admits) hposition

/-- Taking from the agenda keeps a ledger consistent. -/
theorem of_suffix (h : p.Consistent position l) (hds : ds <:+ l.pending) :
    p.Consistent position ⟨l.chart, ds⟩ where
  indexed := h.indexed
  admits := h.admits
  position_le := h.position_le
  pending d hd := h.pending d (hds.subset hd)

theorem tail {d : Delta α} (h : p.Consistent position ⟨c, d :: ds⟩) :
    p.Consistent position ⟨c, ds⟩ :=
  h.of_suffix (List.suffix_cons d ds)

/-- What is passed on is passed on at the position that is being closed. -/
theorem position_eq {d : Delta α} (h : p.Consistent position ⟨c, d :: ds⟩) {r : Record π α}
    (hr : c.record? d.id = some r) : r.state.position = position := by
  obtain ⟨r', hr', hposition⟩ := h.pending d List.mem_cons_self
  obtain rfl : r' = r := Option.some.inj (hr'.symm.trans hr)
  exact hposition

/-- Nothing is there behind the position that a parse is at. -/
theorem forall_ne {i : Item} (h : p.Consistent position ⟨c, ds⟩) (hi : position < i.position) :
    ∀ id r, c.record? id = some r → r.state.item ≠ i := by
  intro id r hr hitem
  have hle : r.state.position ≤ position := h.position_le id r hr
  have hposition : r.state.position = i.position := congrArg Item.position hitem
  omega

variable (tokens) in
theorem consequences {d : Delta α} (h : p.Consistent position ⟨c, d :: ds⟩) :
    ∀ x ∈ p.consequences position c d,
      ∃ id, p.LeadsTo tokens c id x.state x.link? ∧ x.state.position = position := by
  intro x hx
  exact ⟨d.id, leadsTo_of_mem_consequences h.indexed (fun r hr => h.position_eq hr) hx⟩

theorem seed (p : Parser π α) : p.Consistent 0 (Ledger.empty.add p.algebra p.seed) :=
  (empty p 0).add .begin_topRule rfl

end Consistent

namespace Reaches

variable {options : ParseOptions τ α} {position : Nat} {l : Ledger π α}

/-- Every ledger that a parse goes through is consistent. -/
theorem consistent (h : p.Reaches options tokens position l) : p.Consistent position l := by
  induction h with
  | begin => exact .seed p
  | pass _ ih => exact ih.tail.addAll (Nat.le_refl _) (.inr rfl) (ih.consequences tokens)
  | scan _ htoken ih =>
    exact ih.addAll (Nat.le_succ _) (.inl rfl) fun x hx =>
      leadsTo_of_mem_readings ih.indexed htoken hx

/-- What holds of the chart with the top rule only, and is kept by adding what states of a chart
lead to, holds of every chart of a parse. -/
theorem chart_induction {motive : Chart π α → Prop} (h : p.Reaches options tokens position l)
    (begin : motive (Ledger.empty.add p.algebra p.seed).chart)
    (addAll : ∀ (c : Chart π α) (ds : List (Delta α)) (xs : List (Contribution π α)), c.Indexed →
      (∀ id r, c.record? id = some r → p.grammar.Admits r.state) →
      (∀ x ∈ xs, ∃ id, p.LeadsTo tokens c id x.state x.link?) → motive c →
      motive (Ledger.addAll p.algebra ⟨c, ds⟩ xs).chart) : motive l.chart := by
  induction h with
  | begin => exact begin
  | @pass position c d ds h ih =>
    have hxs : ∀ x ∈ p.consequences position c d,
        ∃ id, p.LeadsTo tokens c id x.state x.link? := fun x hx =>
      (h.consistent.consequences tokens x hx).imp fun _ => And.left
    exact addAll c ds _ h.consistent.indexed h.consistent.admits hxs ih
  | @scan position c token h htoken ih =>
    have hxs : ∀ x ∈ c.readings p.algebra options position token,
        ∃ id, p.LeadsTo tokens c id x.state x.link? := fun x hx =>
      (leadsTo_of_mem_readings h.consistent.indexed htoken hx).imp fun _ => And.left
    exact addAll c [] _ h.consistent.indexed h.consistent.admits hxs ih

/-- What holds of the top rule, and of every state that states with it lead to, holds of all
states of a parse. -/
theorem states_satisfy {P : State π → Prop} (h : p.Reaches options tokens position l)
    (top : P (.begin p.grammar.topRule 0))
    (step : ∀ (c : Chart π α) (id : StateId) (s : State π) (link? : Option Link),
      (∀ id r, c.record? id = some r → p.grammar.Admits r.state ∧ P r.state) →
      p.LeadsTo tokens c id s link? → P s) :
    ∀ id r, l.chart.record? id = some r → P r.state := by
  refine h.chart_induction (motive := fun c => ∀ id r, c.record? id = some r → P r.state) ?_ ?_
  · intro id r hr
    rw [Ledger.eq_record_of_add_empty hr]
    exact top
  · intro c ds xs hindexed hadmits hxs hP id r hr
    rcases Ledger.record?_addAll hindexed hr with ⟨r', hr', hstate⟩ | ⟨⟨x, hx, hstate⟩, -⟩
    · exact hstate ▸ hP id r' hr'
    · obtain ⟨_, hleads⟩ := hxs x hx
      exact hstate ▸ step c _ _ _ (fun id r hr => ⟨hadmits id r hr, hP id r hr⟩) hleads

/-- The top rule is in every chart of a parse. -/
theorem exists_top (h : p.Reaches options tokens position l) :
    ∃ id r, l.chart.record? id = some r ∧ r.state = .begin p.grammar.topRule 0 := by
  refine h.chart_induction (motive := fun c => ∃ id r, c.record? id = some r ∧
    r.state = .begin p.grammar.topRule 0) ?_ ?_
  · have hnew : (Ledger.empty : Ledger π α).chart.id? p.seed.state = none :=
      Ledger.indexed_empty.id?_eq_none.2 fun id r hr => by simp at hr
    exact ⟨_, _, Ledger.record?_add_of_new hnew, rfl⟩
  · rintro c ds xs hindexed - - ⟨id, r, hr, hstate⟩
    obtain ⟨r', hr', hstate', -⟩ :=
      Ledger.extends_addAll (l := ⟨c, ds⟩) p.algebra xs hindexed id r hr
    exact ⟨id, r', hr', hstate'.trans hstate⟩

end Reaches

/-! ## From the program's functions to reachable ledgers -/

section Parse

variable {options : ParseOptions τ α} {position fuel : Nat} {w w' : Sweep π α}

theorem reaches_begin (p : Parser π α) (options : ParseOptions τ α) (tokens : List (Token τ)) :
    p.Reaches options tokens 0 p.begin.ledger := by
  rw [Parser.begin, show Sweep.empty.add p.algebra (.begin p.grammar.topRule 0) p.algebra.one
    p.algebra.one none = Sweep.empty.add p.algebra p.seed.state p.seed.forward p.seed.inner
      p.seed.link? from rfl, Sweep.ledger_add]
  exact .begin

theorem Consistent.ledger_pass (h : p.Consistent position w.ledger) (d : Delta α)
    (agenda : Agenda (Delta α)) :
    (Sweep.pass p.algebra p.grammar p.corners position d { w with agenda := agenda }).ledger =
      Ledger.addAll p.algebra ⟨w.chart, agenda.toList⟩ (p.consequences position w.chart d) :=
  Sweep.ledger_pass h.indexed fun r hr hcompleted =>
    Nat.ne_of_lt ((h.admits _ r hr).origin_lt_position_of_isCompleted hcompleted)

theorem Consistent.ledger_scan (h : p.Consistent position w.ledger)
    (hpending : w.ledger.pending = []) (options : ParseOptions τ α) (token : Token τ) :
    (w.scan p.algebra options position token).ledger =
      Ledger.addAll p.algebra ⟨w.chart, []⟩ (w.chart.readings p.algebra options position token) := by
  rw [Sweep.ledger_scan h.indexed, ← hpending]
  rfl

/-- What passing on keeps is kept while a position is closed. Then nothing is left to pass on. -/
theorem close_induction {motive : Ledger π α → Prop}
    (hconsistent : ∀ l, motive l → p.Consistent position l)
    (pass : ∀ c d ds, motive ⟨c, d :: ds⟩ →
      motive (Ledger.addAll p.algebra ⟨c, ds⟩ (p.consequences position c d)))
    (h : motive w.ledger)
    (hclose : w.close p.algebra p.grammar p.corners position fuel = some w') :
    motive w'.ledger ∧ w'.ledger.pending = [] := by
  induction fuel generalizing w with
  | zero => simp [Sweep.close] at hclose
  | succ fuel ih =>
    rw [Sweep.close] at hclose
    split at hclose
    · next hpop =>
      cases hclose
      exact ⟨h, Agenda.pop?_eq_none.1 hpop⟩
    · next d agenda hpop =>
      refine ih ?_ hclose
      have hledger : w.ledger = ⟨w.chart, d :: agenda.toList⟩ := by
        rw [Sweep.ledger, Agenda.pop?_eq_some hpop]
      rw [(hconsistent _ h).ledger_pass]
      rw [hledger] at h
      exact pass _ _ _ h

theorem getElem?_of_drop {token : Token τ} {rest : List (Token τ)}
    (hrest : tokens.drop position = token :: rest) :
    tokens[position]? = some token ∧ tokens.drop (position + 1) = rest := by
  rw [← List.head?_drop, ← List.drop_drop, hrest]
  exact ⟨rfl, rfl⟩

/-- What passing on and scanning keep is kept from any position to the end of the input. -/
theorem sweep_induction {motive : Nat → Ledger π α → Prop}
    (hconsistent : ∀ position l, motive position l → p.Consistent position l)
    (pass : ∀ position c d ds, motive position ⟨c, d :: ds⟩ →
      motive position (Ledger.addAll p.algebra ⟨c, ds⟩ (p.consequences position c d)))
    (scan : ∀ position c token, tokens[position]? = some token → motive position ⟨c, []⟩ →
      motive (position + 1)
        (Ledger.addAll p.algebra ⟨c, []⟩ (c.readings p.algebra options position token)))
    {rest : List (Token τ)} (h : motive position w.ledger)
    (hrest : tokens.drop position = rest) (hle : position ≤ tokens.length)
    (hsweep : p.sweep options fuel position rest w = some w') :
    motive tokens.length w'.ledger ∧ w'.ledger.pending = [] := by
  induction rest generalizing position w with
  | nil =>
    obtain rfl : position = tokens.length :=
      Nat.le_antisymm hle (List.drop_eq_nil_iff.1 hrest)
    obtain ⟨w₁, hclose, rfl⟩ := Option.map_eq_some_iff.1 hsweep
    have hclosed := close_induction (hconsistent tokens.length) (pass tokens.length) h hclose
    exact hclosed
  | cons token rest ih =>
    rw [Parser.sweep] at hsweep
    split at hsweep
    · simp at hsweep
    · next w₂ hclose₂ =>
      obtain ⟨w₁, hclose, rfl⟩ := Option.map_eq_some_iff.1 hclose₂
      obtain ⟨hclosed, hpending⟩ := close_induction (hconsistent position) (pass position) h hclose
      obtain ⟨htoken, hrest⟩ := getElem?_of_drop hrest
      have hlt : position < tokens.length := (List.getElem?_eq_some_iff.1 htoken).1
      refine ih ?_ hrest hlt hsweep
      rw [Consistent.ledger_scan (w := summarize position w₁) (hconsistent position _ hclosed) hpending]
      refine scan position w₁.chart token htoken ?_
      rw [← hpending]
      exact hclosed

/-- Closing a position leads to a reachable ledger with nothing left to pass on. -/
theorem reaches_of_close (h : p.Reaches options tokens position w.ledger)
    (hclose : w.close p.algebra p.grammar p.corners position fuel = some w') :
    p.Reaches options tokens position w'.ledger ∧ w'.ledger.pending = [] :=
  close_induction (fun _ h => h.consistent) (fun _ _ _ h => h.pass) h hclose

/-- Scanning the next token of a closed position leads to a reachable ledger. -/
theorem reaches_of_scan {token : Token τ} (h : p.Reaches options tokens position w.ledger)
    (hpending : w.ledger.pending = []) (htoken : tokens[position]? = some token) :
    p.Reaches options tokens (position + 1)
      (w.scan p.algebra options position token).ledger := by
  rw [h.consistent.ledger_scan hpending]
  refine Reaches.scan ?_ htoken
  rw [← hpending]
  exact h

theorem reaches_of_sweep {rest : List (Token τ)} (h : p.Reaches options tokens position w.ledger)
    (hrest : tokens.drop position = rest) (hle : position ≤ tokens.length)
    (hsweep : p.sweep options fuel position rest w = some w') :
    p.Reaches options tokens tokens.length w'.ledger ∧ w'.ledger.pending = [] :=
  sweep_induction (fun _ _ h => h.consistent) (fun _ _ _ _ h => h.pass)
    (fun _ _ _ htoken h => h.scan htoken) h hrest hle hsweep

theorem chart_result (p : Parser π α) (length : Nat) (w : Sweep π α) :
    (p.result length w).chart = w.chart := by
  unfold result
  dsimp only
  split <;> rfl

/-- **A parse that returns** has gone through reachable ledgers to the end of the input, with
nothing left to pass on. Its root is the state that derives the whole input. -/
theorem reaches_of_parse {result : ParseResult π α}
    (h : p.parse options fuel tokens = some result) :
    p.Reaches options tokens tokens.length ⟨result.chart, []⟩ ∧
      result.root? = result.chart.id? (p.goal tokens.length) ∧ result.algebra = p.algebra := by
  obtain ⟨w, hsweep, rfl⟩ := Option.map_eq_some_iff.1 h
  obtain ⟨hreaches, hpending⟩ :=
    reaches_of_sweep (p.reaches_begin options tokens) rfl (Nat.zero_le _) hsweep
  have hledger : w.ledger = ⟨w.chart, []⟩ := by
    rw [← hpending]
    rfl
  rw [chart_result, ← hledger]
  exact ⟨hreaches, rfl, rfl⟩

end Parse

end Parser

end SemiringParsing
