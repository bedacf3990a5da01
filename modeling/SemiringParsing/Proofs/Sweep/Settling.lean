import SemiringParsing.Proofs.Sweep.Run

/-!
# Parses that settle

A parse settles when every position it comes to is closed after finitely many contributions, with
nothing left to pass on (`Parser.Settles`). Then it returns. A bound that is enough may be
larger, and does not change the result.

That a parse settles is shown of one position at a time, by a measure of ledgers that falls
whenever a contribution is passed on (`exists_close_of_wellFounded`).
-/

namespace SemiringParsing

namespace Parser

variable {π α τ : Type} [Number π] {p : Parser π α} {tokens : List (Token τ)}
  {options : ParseOptions τ α} {position : Nat}

/-! ## Larger bounds -/

section Bounds

variable {fuel fuel' : Nat} {w w' : Sweep π α}

/-- A larger bound does not change how a position is closed. -/
theorem close_mono (h : w.close p.algebra p.grammar p.corners position fuel = some w')
    (hle : fuel ≤ fuel') : w.close p.algebra p.grammar p.corners position fuel' = some w' := by
  induction fuel generalizing w fuel' with
  | zero => simp [Sweep.close] at h
  | succ fuel ih =>
    obtain ⟨fuel', rfl⟩ : ∃ n, fuel' = n + 1 := ⟨fuel' - 1, by omega⟩
    rw [Sweep.close] at h ⊢
    split at h
    · exact h
    · exact ih h (by omega)

theorem sweep_mono {rest : List (Token τ)} (h : p.sweep options fuel position rest w = some w')
    (hle : fuel ≤ fuel') : p.sweep options fuel' position rest w = some w' := by
  induction rest generalizing position w with
  | nil =>
    obtain ⟨w₁, hclose, rfl⟩ := Option.map_eq_some_iff.1 h
    exact Option.map_eq_some_iff.2 ⟨w₁, close_mono hclose hle, rfl⟩
  | cons token rest ih =>
    rw [sweep] at h
    split at h
    · simp at h
    · next w₂ hclose₂ =>
      obtain ⟨w₁, hclose, rfl⟩ := Option.map_eq_some_iff.1 hclose₂
      have hclose' : p.close fuel' position w = some (summarize position w₁) :=
        Option.map_eq_some_iff.2 ⟨w₁, close_mono hclose hle, rfl⟩
      rw [sweep, hclose']
      exact ih h

/-- A larger bound does not change the result of a parse. -/
theorem parse_mono {result : ParseResult π α} (h : p.parse options fuel tokens = some result)
    (hle : fuel ≤ fuel') : p.parse options fuel' tokens = some result := by
  obtain ⟨w, hsweep, rfl⟩ := Option.map_eq_some_iff.1 h
  exact Option.map_eq_some_iff.2 ⟨w, sweep_mono hsweep hle, rfl⟩

/-- Two bounds that are enough have the same result. -/
theorem parse_unique {result result' : ParseResult π α}
    (h : p.parse options fuel tokens = some result)
    (h' : p.parse options fuel' tokens = some result') : result = result' := by
  have hmax := parse_mono h (Nat.le_max_left fuel fuel')
  rw [parse_mono h' (Nat.le_max_right fuel fuel')] at hmax
  exact (Option.some.inj hmax).symm

end Bounds

/-! ## Some bound is enough -/

/-- Every position that a parse comes to is closed, with nothing left to pass on, and the parse
returns. -/
structure Settles (p : Parser π α) (options : ParseOptions τ α) (tokens : List (Token τ)) :
    Prop where
  /-- As many contributions as some bound are enough to empty the agenda. -/
  closes : ∀ position (w : Sweep π α), p.Reaches options tokens position w.ledger → ∃ bound w',
    (∀ fuel, bound ≤ fuel → w.close p.algebra p.grammar p.corners position fuel = some w') ∧
      w'.agenda.toList = []
  /-- There is a result, and it is the same with all bounds from some bound on. -/
  returns : ∃ bound result, ∀ fuel, bound ≤ fuel → p.parse options fuel tokens = some result

section Closing

variable {w : Sweep π α}

/-- A position is closed with some bound if passing on lowers ledgers in a well-founded order. -/
theorem exists_close_of_wellFounded {β : Type} {lower : β → β → Prop} (hwf : WellFounded lower)
    (measure : Ledger π α → β)
    (hpass : ∀ c d ds, p.Reaches options tokens position ⟨c, d :: ds⟩ →
      lower (measure (Ledger.addAll p.algebra ⟨c, ds⟩ (p.consequences position c d)))
        (measure ⟨c, d :: ds⟩))
    (h : p.Reaches options tokens position w.ledger) :
    ∃ fuel w', w.close p.algebra p.grammar p.corners position fuel = some w' := by
  generalize hmeasure : measure w.ledger = m
  induction m using hwf.induction generalizing w with
  | _ m ih =>
    cases hpop : w.agenda.pop? with
    | none => exact ⟨1, w, by rw [Sweep.close, hpop]⟩
    | some popped =>
      obtain ⟨d, agenda⟩ := popped
      have hledger : w.ledger = ⟨w.chart, d :: agenda.toList⟩ := by
        rw [Sweep.ledger, Agenda.pop?_eq_some hpop]
      have hpassed := h.consistent.ledger_pass d agenda
      rw [hledger] at h hmeasure
      have hlower := hpass _ _ _ h
      rw [← hpassed, hmeasure] at hlower
      have hreaches := h.pass
      rw [← hpassed] at hreaches
      obtain ⟨fuel, w', hclose⟩ := ih _ hlower hreaches rfl
      refine ⟨fuel + 1, w', ?_⟩
      rw [Sweep.close, hpop]
      exact hclose

variable (hcloses : ∀ position (w : Sweep π α), p.Reaches options tokens position w.ledger →
  ∃ fuel w', w.close p.algebra p.grammar p.corners position fuel = some w')

include hcloses

theorem exists_sweep_of_exists_close {rest : List (Token τ)}
    (h : p.Reaches options tokens position w.ledger) (hrest : tokens.drop position = rest) :
    ∃ fuel w', p.sweep options fuel position rest w = some w' := by
  induction rest generalizing position w with
  | nil =>
    obtain ⟨fuel, w₁, hclose⟩ := hcloses position w h
    exact ⟨fuel, _, Option.map_eq_some_iff.2 ⟨w₁, hclose, rfl⟩⟩
  | cons token rest ih =>
    obtain ⟨fuel, w₁, hclose⟩ := hcloses position w h
    obtain ⟨hreaches, hpending⟩ := reaches_of_close h hclose
    obtain ⟨htoken, hrest⟩ := getElem?_of_drop hrest
    obtain ⟨fuel', w', hsweep⟩ :=
      ih (reaches_of_scan (w := summarize position w₁) hreaches hpending htoken) hrest
    -- The larger of the two bounds is enough for this position and for the rest.
    refine ⟨max fuel fuel', w', ?_⟩
    have hclose' : p.close (max fuel fuel') position w = some (summarize position w₁) :=
      Option.map_eq_some_iff.2 ⟨w₁, close_mono hclose (Nat.le_max_left ..), rfl⟩
    rw [sweep, hclose']
    exact sweep_mono hsweep (Nat.le_max_right ..)

/-- A parse settles if every position it comes to is closed with some bound. -/
theorem Settles.of_exists_close : p.Settles options tokens where
  closes position w h := by
    obtain ⟨bound, w', hclose⟩ := hcloses position w h
    exact ⟨bound, w', fun fuel hle => close_mono hclose hle, (reaches_of_close h hclose).2⟩
  returns := by
    obtain ⟨bound, w, hsweep⟩ :=
      exists_sweep_of_exists_close hcloses (p.reaches_begin options tokens) rfl
    refine ⟨bound, p.result tokens.length w, fun fuel hle => ?_⟩
    exact parse_mono (Option.map_eq_some_iff.2 ⟨w, hsweep, rfl⟩) hle

end Closing

end Parser

end SemiringParsing
