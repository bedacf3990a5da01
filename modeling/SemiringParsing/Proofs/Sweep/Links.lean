import SemiringParsing.Proofs.Sweep.Run

/-!
# The links of a finished chart

Two invariants of a parse meet in the finished chart. Every record is `Linked`: its links tell of
ways in which the chart leads to its state, and the first of them only of earlier records. And
whatever a state of the chart leads to is there, with its link, as soon as nothing of the state is
left to pass on (`Reaches.holds_or_pending`). When a parse returns nothing is left, so the links
are all the ways in which a state is derived (`finished_of_parse`).

Why no way is missed: states come from the agenda for the first time in the order of their numbers
(`Due`), so those that have come are the ones below some number (`Settled`). A completed state began
before the position that is being closed, so the states that waited for it were all there when it
was first passed on. Adding to the chart later brings no further ones, since it adds states that end
at the current position or the next.
-/

namespace SemiringParsing

variable {π α τ : Type}

/-- The chart has a state, with a link if one is given. -/
def Chart.Holds (c : Chart π α) (s : State π) (link? : Option Link) : Prop :=
  ∃ id r, c.record? id = some r ∧ r.state = s ∧ ∀ link, link? = some link → link ∈ r.links

theorem Chart.Holds.mono {c c' : Chart π α} {s : State π} {link? : Option Link}
    (h : c.Holds s link?) (hc : c.Extends c') : c'.Holds s link? := by
  obtain ⟨id, r, hr, hstate, hlinks⟩ := h
  obtain ⟨r', hr', hstate', hprefix⟩ := hc id r hr
  exact ⟨id, r', hr', hstate'.trans hstate, fun link hlink => hprefix.subset (hlinks link hlink)⟩

/-! ## The order of the agenda -/

/-- How far the states have been taken from an agenda. They come for the first time in the order
of their numbers: those below `n` have come, next come `n`, `n + 1` and so on to the last. In
between there are only states that come again. -/
inductive Due : Nat → List StateId → Nat → Prop
  | done {n : Nat} : Due n [] n
  | first {n size : Nat} {ids : List StateId} (h : Due (n + 1) ids size) : Due n (n :: ids) size
  | again {n size : Nat} {id : StateId} {ids : List StateId} (hid : id < n) (h : Due n ids size) :
      Due n (id :: ids) size

namespace Due

variable {n size id : Nat} {ids : List StateId}

theorem le (h : Due n ids size) : n ≤ size := by
  induction h with
  | done => exact Nat.le_refl _
  | first _ ih => exact Nat.le_of_succ_le ih
  | again _ _ ih => exact ih

/-- What has not come yet is on the agenda. -/
theorem mem (h : Due n ids size) (hle : n ≤ id) (hlt : id < size) : id ∈ ids := by
  induction h with
  | done => exact absurd hlt (Nat.not_lt.2 hle)
  | @first n _ _ _ ih =>
    rcases Nat.eq_or_lt_of_le hle with rfl | hlt'
    · exact List.mem_cons_self
    · exact List.mem_cons_of_mem _ (ih hlt' hlt)
  | again _ _ ih => exact List.mem_cons_of_mem _ (ih hle hlt)

theorem append_new (h : Due n ids size) : Due n (ids ++ [size]) (size + 1) := by
  induction h with
  | done => exact .first .done
  | first _ ih => exact .first ih
  | again hid _ ih => exact .again hid ih

theorem append_known (h : Due n ids size) (hid : id < size) : Due n (ids ++ [id]) size := by
  induction h with
  | done => exact .again hid .done
  | first _ ih => exact .first (ih hid)
  | again hid' _ ih => exact .again hid' (ih hid)

theorem add {S : ScoreAlgebra π α} {l : Ledger π α} {x : Contribution π α}
    (h : Due n (l.pending.map Delta.id) l.chart.size) (hindexed : l.chart.Indexed) :
    Due n ((l.add S x).pending.map Delta.id) (l.add S x).chart.size := by
  rcases Ledger.known_or_new hindexed x with ⟨id, r, hr, hitem⟩ | hnew
  · rw [Ledger.add_eq_combine hindexed hr hitem, Chart.size_combine]
    split
    · rw [List.append_nil]
      exact h
    · rw [List.map_append]
      exact h.append_known (Chart.lt_size_of_record? hr)
  · rw [Ledger.add_eq_insert hnew, Chart.size_insert, List.map_append]
    exact h.append_new

theorem addAll {S : ScoreAlgebra π α} {l : Ledger π α} {xs : List (Contribution π α)}
    (h : Due n (l.pending.map Delta.id) l.chart.size) (hindexed : l.chart.Indexed) :
    Due n ((l.addAll S xs).pending.map Delta.id) (l.addAll S xs).chart.size :=
  (Ledger.addAll_induction (motive := fun l => l.chart.Indexed ∧
    Due n (l.pending.map Delta.id) l.chart.size) ⟨hindexed, h⟩
    fun _ _ _ h => ⟨Ledger.indexed_add h.1, h.2.add h.1⟩).2

end Due

namespace Parser

variable [Number π] {p : Parser π α} {tokens : List (Token τ)} {options : ParseOptions τ α}
  {position : Nat} {c : Chart π α} {id : StateId} {r : Record π α} {s : State π}
  {link? : Option Link}

/-! ## What links tell -/

theorem LeadsTo.link?_eq_none_iff (h : p.LeadsTo tokens c id s link?) :
    link? = none ↔ s.dot = 0 := by
  cases h with
  | predict => exact ⟨fun _ => rfl, fun _ => rfl⟩
  | complete _ _ _ _ _ hnext => simp [(State.advance_eq_some_iff.1 hnext).2.2.2]
  | scan _ _ _ _ hnext => simp [(State.advance_eq_some_iff.1 hnext).2.2.2]

/-- A link names records of the chart. -/
theorem LeadsTo.lt_size {link : Link} (h : p.LeadsTo tokens c id s (some link)) :
    link.predecessor < c.size ∧ ∀ child, link.completed? = some child → child < c.size := by
  cases h with
  | complete hw hr => exact ⟨Chart.lt_size_of_record? hw, fun _ h => by
      cases h
      exact Chart.lt_size_of_record? hr⟩
  | scan hr => exact ⟨Chart.lt_size_of_record? hr, fun _ h => by cases h⟩

/-- The links of a record tell of ways in which the chart leads to its state, each once. There
are none exactly when the dot is in front, and the first names earlier records only. -/
structure Linked (p : Parser π α) (tokens : List (Token τ)) (c : Chart π α) (id : StateId)
    (r : Record π α) : Prop where
  leadsTo : ∀ link ∈ r.links, ∃ cause, p.LeadsTo tokens c cause r.state (some link)
  nodup : r.links.Nodup
  eq_nil_iff : r.links = [] ↔ r.state.dot = 0
  head_lt : ∀ link, r.links.head? = some link →
    link.predecessor < id ∧ ∀ child, link.completed? = some child → child < id

theorem Linked.mono {c' : Chart π α} (h : p.Linked tokens c id r) (hc : c.Extends c') :
    p.Linked tokens c' id r where
  leadsTo link hlink := (h.leadsTo link hlink).imp fun _ hleads => hleads.mono hc
  nodup := h.nodup
  eq_nil_iff := h.eq_nil_iff
  head_lt := h.head_lt

/-- The record of a new state is linked. -/
theorem Linked.record {x : Contribution π α} {cause : StateId}
    (hx : p.LeadsTo tokens c cause x.state x.link?) : p.Linked tokens c c.size x.record where
  leadsTo link hlink := by
    rw [Contribution.mem_links_record] at hlink
    rw [hlink] at hx
    exact ⟨cause, hx⟩
  nodup := Chart.nodup_addLink List.nodup_nil
  eq_nil_iff := by
    rw [Contribution.links_record_eq_nil, hx.link?_eq_none_iff]
    rfl
  head_lt link hlink := by
    have hmem : x.link? = some link :=
      Contribution.mem_links_record.1 (List.mem_of_mem_head? hlink)
    rw [hmem] at hx
    exact hx.lt_size

/-- Another derivation of a linked state leaves its record linked. -/
theorem Linked.combined {x : Contribution π α} {cause : StateId} (h : p.Linked tokens c id r)
    (hx : p.LeadsTo tokens c cause r.state x.link?) :
    p.Linked tokens c id (x.combined p.algebra r) := by
  have hprefix : r.links <+: (x.combined p.algebra r).links := Chart.prefix_addLink ..
  have hnil : (x.combined p.algebra r).links = [] ↔ r.links = [] := by
    constructor
    · intro hlinks
      exact List.prefix_nil.1 (hlinks ▸ hprefix)
    · intro hlinks
      have hnone : x.link? = none := hx.link?_eq_none_iff.2 (h.eq_nil_iff.1 hlinks)
      refine List.eq_nil_iff_forall_not_mem.2 fun link hlink => ?_
      simp [Contribution.mem_links_combined, hlinks, hnone] at hlink
  refine ⟨fun link hlink => ?_, Chart.nodup_addLink h.nodup, hnil.trans h.eq_nil_iff,
    fun link hlink => h.head_lt link ?_⟩
  · rcases Contribution.mem_links_combined.1 hlink with hlink | hlink
    · exact h.leadsTo link hlink
    · rw [hlink] at hx
      exact ⟨_, hx⟩
  · -- A state without links takes none, so the first link is the one that was there.
    cases hlinks : r.links with
    | nil => simp [hnil.2 hlinks] at hlink
    | cons first links =>
      obtain ⟨more, hmore⟩ := hprefix
      rw [← hmore, hlinks] at hlink
      exact hlink

/-- What holds of the records of a chart as long as only what it leads to is added. -/
structure Sound (p : Parser π α) (tokens : List (Token τ)) (c : Chart π α) : Prop where
  indexed : c.Indexed
  admits : ∀ id r, c.record? id = some r → p.grammar.Admits r.state
  linked : ∀ id r, c.record? id = some r → p.Linked tokens c id r

namespace Sound

variable {l : Ledger π α} {x : Contribution π α} {cause : StateId}

theorem add (h : p.Sound tokens l.chart) (hx : p.LeadsTo tokens l.chart cause x.state x.link?) :
    p.Sound tokens (l.add p.algebra x).chart := by
  have hextends := Ledger.extends_add (S := p.algebra) (x := x) h.indexed
  have hadmits : p.grammar.Admits x.state := hx.admits h.admits
  refine ⟨Ledger.indexed_add h.indexed, fun id r hr => ?_, fun id r hr => ?_⟩
  · rcases Ledger.record?_add h.indexed hr with ⟨hr', -⟩ | ⟨r', hr', -, rfl⟩ | ⟨-, -, rfl⟩
    · exact h.admits id r hr'
    · exact h.admits id r' hr'
    · exact hadmits
  · rcases Ledger.record?_add h.indexed hr with ⟨hr', -⟩ | ⟨r', hr', hitem, rfl⟩ | ⟨rfl, -, rfl⟩
    · exact (h.linked id r hr').mono hextends
    · have hstate : r'.state = x.state := (h.admits id r' hr').eq_of_item_eq hadmits hitem
      rw [← hstate] at hx
      exact ((h.linked id r' hr').combined hx).mono hextends
    · exact (Linked.record hx).mono hextends

theorem addAll {xs : List (Contribution π α)} (h : p.Sound tokens l.chart)
    (hxs : ∀ x ∈ xs, ∃ cause, p.LeadsTo tokens l.chart cause x.state x.link?) :
    p.Sound tokens (l.addAll p.algebra xs).chart := by
  refine (Ledger.addAll_induction
    (motive := fun l' => p.Sound tokens l'.chart ∧ l.chart.Extends l'.chart)
    ⟨h, .refl _⟩ fun l' x hx hl' => ?_).1
  obtain ⟨cause, hleads⟩ := hxs x hx
  exact ⟨hl'.1.add (hleads.mono hl'.2), hl'.2.trans (Ledger.extends_add hl'.1.indexed)⟩

end Sound

theorem Reaches.sound {l : Ledger π α} (h : p.Reaches options tokens position l) :
    p.Sound tokens l.chart := by
  refine h.chart_induction ?_ fun c ds xs _ _ hxs hc => Sound.addAll (l := ⟨c, ds⟩) hc hxs
  have hconsistent := Consistent.seed p
  refine ⟨hconsistent.indexed, hconsistent.admits, fun id r hr => ?_⟩
  rw [Ledger.eq_record_of_add_empty hr]
  constructor <;> simp [seed, Contribution.record, Record.addLink, State.begin]

/-! ## No way is missed -/

theorem LeadsTo.exists_record? (h : p.LeadsTo tokens c id s link?) :
    ∃ r, c.record? id = some r := by
  cases h with
  | predict hr => exact ⟨_, hr⟩
  | complete _ hr => exact ⟨_, hr⟩
  | scan hr => exact ⟨_, hr⟩

/-- What a state leads to after some additions, it led to before. -/
theorem LeadsTo.of_addAll {ds : List (Delta α)} {xs : List (Contribution π α)} {next : Nat}
    (hc : p.Consistent position ⟨c, ds⟩) (hle : position ≤ next)
    (hxs : ∀ x ∈ xs, x.state.position = next) (hid : id < c.size)
    (h : p.LeadsTo tokens (Ledger.addAll p.algebra ⟨c, ds⟩ xs).chart id s link?) :
    p.LeadsTo tokens c id s link? := by
  obtain ⟨r', hr'⟩ := Chart.exists_record?_of_lt_size hid
  have hstate : ∀ {r}, (Ledger.addAll p.algebra ⟨c, ds⟩ xs).chart.record? id = some r →
      r.state = r'.state := by
    intro r hr
    obtain ⟨r'', hr'', hstate, -⟩ :=
      Ledger.extends_addAll (l := ⟨c, ds⟩) p.algebra xs hc.indexed id r' hr'
    rw [Option.some.inj (hr.symm.trans hr''), hstate]
  cases h with
  | predict hr hactive hpredicted hcorner hrule =>
    rw [hstate hr] at hactive hpredicted ⊢
    exact .predict hr' hactive hpredicted hcorner hrule
  | complete hw hr hcompleted hposition hactive hnext =>
    rw [hstate hr] at hcompleted hposition hactive hnext
    rcases Ledger.record?_addAll hc.indexed hw with ⟨w', hw', hwstate⟩ | ⟨⟨x, hx, hwstate⟩, -⟩
    · rw [hwstate] at hposition hactive hnext
      exact .complete hw' hr' hcompleted hposition hactive hnext
    · -- What is added ends too late for a completed state to have begun there.
      have horigin := (hc.admits _ _ hr').origin_lt_position_of_isCompleted hcompleted
      have hr'le := hc.position_le _ _ hr'
      have hx := hxs x hx
      rw [hwstate] at hposition
      omega
  | scan hr htoken hactive hcategory hnext =>
    rw [hstate hr] at htoken hactive hnext
    exact .scan hr' htoken hactive hcategory hnext

/-- Passing on a contribution to a state adds all that the state leads to at its position. -/
theorem LeadsTo.mem_consequences {d : Delta α} (hindexed : c.Indexed)
    (hd : ∃ r, c.record? d.id = some r ∧ r.state.position = position)
    (h : p.LeadsTo tokens c d.id s link?) (hle : s.position ≤ position) :
    ∃ x ∈ p.consequences position c d, x.state = s ∧ x.link? = link? := by
  obtain ⟨r, hr, rfl⟩ := hd
  cases h with
  | @predict _ _ _ corner rule hr' hactive hpredicted hcorner hrule =>
    obtain rfl := Option.some.inj (hr.symm.trans hr')
    have hx : c.prediction p.algebra r.state.position (p.algebra.times d.forward corner.2, rule) ∈
        p.consequences r.state.position c d := by
      simp only [consequences, hr, Option.map_some, hactive, hpredicted]
      exact List.mem_map_of_mem (LeftCorners.mem_openings.2 ⟨corner, hcorner, hrule, rfl⟩)
    exact ⟨_, hx, rfl, rfl⟩
  | @complete waiting _ w _ _ hw hr' hcompleted hposition hactive hnext =>
    obtain rfl := Option.some.inj (hr.symm.trans hr')
    have hx : ⟨s, p.algebra.times w.forward d.inner, p.algebra.times w.inner d.inner,
        some (.completed waiting d.id)⟩ ∈ p.consequences r.state.position c d := by
      simp only [consequences, hr, Option.map_some, State.active?_eq_none_iff.2 hcompleted,
        Chart.completions, List.mem_filterMap]
      exact ⟨waiting, Array.mem_toList_iff.2 (hindexed.mem_activeOn.2 ⟨w, hw, hposition, hactive⟩),
        Chart.completion_eq_some.2 ⟨w, s, hw, hnext, rfl⟩⟩
    exact ⟨_, hx, rfl, rfl⟩
  | scan hr' _ _ _ hnext =>
    obtain rfl := Option.some.inj (hr.symm.trans hr')
    have hposition := (State.advance_eq_some_iff.1 hnext).2.1
    omega

/-- Scanning a token adds all that states before it lead to behind it. -/
theorem LeadsTo.mem_readings (S : ScoreAlgebra π α) (options : ParseOptions τ α)
    {token : Token τ} (hindexed : c.Indexed)
    (hc : ∀ id r, c.record? id = some r → r.state.position ≤ position)
    (htoken : tokens[position]? = some token) (h : p.LeadsTo tokens c id s link?)
    (hs : s.position = position + 1) :
    ∃ x ∈ c.readings S options position token, x.state = s ∧ x.link? = link? := by
  cases h with
  | predict hr =>
    have := hc _ _ hr
    simp only [State.begin] at hs
    omega
  | complete _ hr _ _ _ hnext =>
    have := hc _ _ hr
    have hposition := (State.advance_eq_some_iff.1 hnext).2.1
    omega
  | @scan _ r token' _ _ hr htoken' hactive hcategory hnext =>
    have hposition := (State.advance_eq_some_iff.1 hnext).2.1
    obtain rfl : r.state.position = position := by omega
    obtain rfl : token' = token := Option.some.inj (htoken'.symm.trans htoken)
    have hid : id ∈ (c.statesAt r.state.position).toList :=
      Array.mem_toList_iff.2 (hindexed.mem_statesAt.2 ⟨r, hr, rfl⟩)
    have hexpects : Sweep.expects c token' id = true :=
      Chart.expects_eq_true.2 ⟨r, _, hr, hactive, hcategory⟩
    exact ⟨_, List.mem_filterMap.2 ⟨id, List.mem_filter.2 ⟨hid, hexpects⟩,
      Chart.reading_eq_some.2 ⟨r, s, hr, hnext, rfl⟩⟩, rfl, rfl⟩

/-- Added contributions are held by the chart. -/
theorem Consistent.holds_of_mem {next : Nat} {ds : List (Delta α)} {xs : List (Contribution π α)}
    {x : Contribution π α} (h : p.Consistent next (Ledger.addAll p.algebra ⟨c, ds⟩ xs))
    (hindexed : c.Indexed) (hx : x ∈ xs) (hadmits : p.grammar.Admits x.state) :
    (Ledger.addAll p.algebra ⟨c, ds⟩ xs).chart.Holds x.state x.link? := by
  obtain ⟨id, r, hr, hitem, hlink⟩ :=
    Ledger.exists_record?_addAll (S := p.algebra) (l := ⟨c, ds⟩) hindexed hx
  exact ⟨id, r, hr, (h.admits id r hr).eq_of_item_eq hadmits hitem, hlink⟩

/-- The first `n` states of a ledger are settled: they have been taken from the agenda, and what
they lead to is there, up to the position that is being closed. -/
structure Settled (p : Parser π α) (tokens : List (Token τ)) (position : Nat) (l : Ledger π α)
    (n : Nat) : Prop where
  due : Due n (l.pending.map Delta.id) l.chart.size
  holds : ∀ {id s link?}, id < n → p.LeadsTo tokens l.chart id s link? →
    s.position ≤ position → l.chart.Holds s link?

namespace Settled

variable {d : Delta α} {ds : List (Delta α)} {n : Nat}

theorem begin (p : Parser π α) (tokens : List (Token τ)) :
    p.Settled tokens 0 (Ledger.empty.add p.algebra p.seed) 0 where
  due := Due.add .done Ledger.indexed_empty
  holds hid := absurd hid (Nat.not_lt_zero _)

/-- Passing on what is taken from the agenda settles its state, and those that were settled stay
so. -/
theorem pass (h : p.Settled tokens position ⟨c, d :: ds⟩ n)
    (hc : p.Consistent position ⟨c, d :: ds⟩) {m : Nat} (hdue : Due m (ds.map Delta.id) c.size)
    (hm : ∀ id < m, id < n ∨ id = d.id) :
    p.Settled tokens position (Ledger.addAll p.algebra ⟨c, ds⟩ (p.consequences position c d)) m := by
  have hxs := hc.consequences tokens
  refine ⟨hdue.addAll hc.indexed, fun {id s link?} hid hleads hle => ?_⟩
  have hbefore := hleads.of_addAll hc.tail (Nat.le_refl _)
    (fun x hx => (hxs x hx).choose_spec.2) (Nat.lt_of_lt_of_le hid hdue.le)
  rcases hm id hid with hid | rfl
  · exact (h.holds hid hbefore hle).mono (Ledger.extends_addAll (l := ⟨c, ds⟩) _ _ hc.indexed)
  · obtain ⟨x, hx, rfl, rfl⟩ :=
      hbefore.mem_consequences hc.indexed (hc.pending d List.mem_cons_self) hle
    exact (hc.tail.addAll (Nat.le_refl _) (.inr rfl) hxs).holds_of_mem hc.indexed hx
      (hbefore.admits hc.admits)

/-- What is taken from the agenda is the next state for the first time, or one that was settled. -/
theorem pass_cases (h : p.Settled tokens position ⟨c, d :: ds⟩ n)
    (hc : p.Consistent position ⟨c, d :: ds⟩) :
    (d.id = n ∧ p.Settled tokens position
      (Ledger.addAll p.algebra ⟨c, ds⟩ (p.consequences position c d)) (n + 1)) ∨
    (d.id < n ∧ p.Settled tokens position
      (Ledger.addAll p.algebra ⟨c, ds⟩ (p.consequences position c d)) n) := by
  cases h.due with
  | first hdue => exact .inl ⟨rfl, h.pass hc hdue fun _ hid => Nat.lt_succ_iff_lt_or_eq.1 hid⟩
  | again hid hdue => exact .inr ⟨hid, h.pass hc hdue fun _ hid => .inl hid⟩

/-- Scanning settles the states once more, for the next position. -/
theorem scan {token : Token τ} (h : p.Settled tokens position ⟨c, []⟩ n)
    (hc : p.Consistent position ⟨c, []⟩) (htoken : tokens[position]? = some token) :
    p.Settled tokens (position + 1)
      (Ledger.addAll p.algebra ⟨c, []⟩ (c.readings p.algebra options position token)) n := by
  have hxs : ∀ x ∈ c.readings p.algebra options position token,
      ∃ id, p.LeadsTo tokens c id x.state x.link? ∧ x.state.position = position + 1 :=
    fun x hx => leadsTo_of_mem_readings hc.indexed htoken hx
  refine ⟨h.due.addAll hc.indexed, fun {id s link?} hid hleads hle => ?_⟩
  have hbefore := hleads.of_addAll hc (Nat.le_succ _)
    (fun x hx => (hxs x hx).choose_spec.2) (Nat.lt_of_lt_of_le hid h.due.le)
  rcases Nat.le_succ_iff.1 hle with hle | hnext
  · exact (h.holds hid hbefore hle).mono (Ledger.extends_addAll _ _ hc.indexed)
  · obtain ⟨x, hx, rfl, rfl⟩ :=
      hbefore.mem_readings p.algebra options hc.indexed hc.position_le htoken hnext
    exact (hc.addAll (Nat.le_succ _) (.inl rfl) hxs).holds_of_mem hc.indexed hx
      (hbefore.admits hc.admits)

end Settled

/-- The states that have been taken from the agenda are settled. -/
theorem Reaches.exists_settled {l : Ledger π α} (h : p.Reaches options tokens position l) :
    ∃ n, p.Settled tokens position l n := by
  induction h with
  | begin => exact ⟨0, .begin p tokens⟩
  | pass h ih =>
    obtain ⟨n, hn⟩ := ih
    rcases hn.pass_cases h.consistent with ⟨-, hpassed⟩ | ⟨-, hpassed⟩
    · exact ⟨n + 1, hpassed⟩
    · exact ⟨n, hpassed⟩
  | scan h htoken ih =>
    obtain ⟨n, hn⟩ := ih
    exact ⟨n, hn.scan h.consistent htoken⟩

/-- What a state leads to is there, up to the position that a parse is at, unless something of the
state is left to pass on. -/
theorem Reaches.holds_or_pending {l : Ledger π α} (h : p.Reaches options tokens position l)
    (hleads : p.LeadsTo tokens l.chart id s link?) (hle : s.position ≤ position) :
    (∃ d ∈ l.pending, d.id = id) ∨ l.chart.Holds s link? := by
  obtain ⟨n, hn⟩ := h.exists_settled
  rcases Nat.lt_or_ge id n with hid | hid
  · exact .inr (hn.holds hid hleads hle)
  · obtain ⟨r, hr⟩ := hleads.exists_record?
    exact .inl (List.mem_map.1 (hn.due.mem hid (Chart.lt_size_of_record? hr)))

/-! ## Finished charts -/

/-- The chart of a parse that has returned. What its states lead to is there, and its links tell
of nothing else. -/
structure Finished (p : Parser π α) (tokens : List (Token τ)) (c : Chart π α) : Prop
    extends p.Sound tokens c where
  position_le : ∀ id r, c.record? id = some r → r.state.position ≤ tokens.length
  top : c.Holds (.begin p.grammar.topRule 0) none
  holds : ∀ {id s link?}, p.LeadsTo tokens c id s link? → c.Holds s link?

theorem finished_of_parse {fuel : Nat} {result : ParseResult π α}
    (h : p.parse options fuel tokens = some result) : p.Finished tokens result.chart := by
  have hreaches := (reaches_of_parse h).1
  have hconsistent := hreaches.consistent
  refine ⟨hreaches.sound, hconsistent.position_le, ?_, fun {id s link?} hleads => ?_⟩
  · obtain ⟨id, r, hr, hstate⟩ := hreaches.exists_top
    exact ⟨id, r, hr, hstate, fun _ hlink => by cases hlink⟩
  · have hle : s.position ≤ tokens.length := by
      cases hleads with
      | predict hr => exact hconsistent.position_le _ _ hr
      | complete _ hr _ _ _ hnext =>
        rw [(State.advance_eq_some_iff.1 hnext).2.1]
        exact hconsistent.position_le _ _ hr
      | scan _ htoken _ _ hnext =>
        rw [(State.advance_eq_some_iff.1 hnext).2.1]
        exact (List.getElem?_eq_some_iff.1 htoken).1
    rcases hreaches.holds_or_pending hleads hle with ⟨_, hd, -⟩ | hholds
    · simp at hd
    · exact hholds

end Parser

end SemiringParsing
