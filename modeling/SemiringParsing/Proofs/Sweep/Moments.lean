import Mathlib.Computability.StateTransition
import SemiringParsing.Proofs.Sweep.Settling

/-!
# The moments of a parse

A parse taken apart into its smallest steps. A `Moment` is the sweep so far with the `Task` at hand,
which holds what is left of the loop that a parse is in. `Parser.next` is one step: it takes a
contribution from the agenda, or adds one derivation of one state, or goes on to another task.

The moments are those that the program's own functions go through (`Parser.traced`). The loop at
hand does what these do (`after_taskOf`, `after_scan`), and a parse returns exactly when its moments
come to an end, with the sweep of the last (`exists_parse_iff`).
-/

namespace SemiringParsing

variable {π α τ : Type}

/-- What a parse is about to do. Lists hold what is left of a loop. -/
inductive Task (π α : Type)
  /-- Adding the top rule. -/
  | begin
  /-- Taking a contribution from the agenda. -/
  | pass
  /-- Predicting rules, each reached with a score. -/
  | predict (openings : List (α × Rule π))
  /-- Moving the dots of states that waited for a completed one. -/
  | complete (id : StateId) (completed : State π) (inner : α) (waiting : List StateId)
  /-- Going on from a position where nothing is left to pass on. -/
  | closed
  /-- Moving the dots of states over a token. -/
  | scan (weight? : Option α) (scannable : List StateId)

/-- The sweep at a position, with the task at hand. -/
structure Moment (π α : Type) where
  position : Nat
  task : Task π α
  sweep : Sweep π α

/-- The moment before anything has been done. -/
def Moment.first : Moment π α :=
  ⟨0, .begin, .empty⟩

namespace Parser

variable [Number π] (p : Parser π α) (options : ParseOptions τ α) (tokens : List (Token τ))

/-- The task that a contribution to a state makes. -/
def taskFor (c : Chart π α) (d : Delta α) (s : State π) : Task π α :=
  match s.active? with
  | none => .complete d.id s d.inner (c.activeOn s.origin s.rule.left).toList
  | some (.nonterminal name) =>
    if s.isPredicted then .pass
    else .predict (p.corners.openings p.algebra p.grammar (.nonterminal name) d.forward)
  | some _ => .pass

/-- The task that a contribution from the agenda makes. -/
def taskOf (c : Chart π α) (d : Delta α) : Task π α :=
  match c.record? d.id with
  | none => .pass
  | some r => p.taskFor c d r.state

/-- The next moment. A parse ends with a closed position behind which there is no token. -/
def next : Moment π α → Option (Moment π α)
  | ⟨k, .begin, w⟩ =>
    some ⟨k, .pass, w.add p.algebra (.begin p.grammar.topRule 0) p.algebra.one p.algebra.one none⟩
  | ⟨k, .pass, w⟩ =>
    match w.agenda.pop? with
    | some (d, agenda) => some ⟨k, p.taskOf w.chart d, { w with agenda := agenda }⟩
    | none => some ⟨k, .closed, summarize k w⟩
  | ⟨k, .predict [], w⟩ => some ⟨k, .pass, w⟩
  | ⟨k, .predict (x :: xs), w⟩ => some ⟨k, .predict xs, w.predictRule p.algebra k x.1 x.2⟩
  | ⟨k, .complete _ _ _ [], w⟩ => some ⟨k, .pass, w⟩
  | ⟨k, .complete id s inner (i :: is), w⟩ =>
    some ⟨k, .complete id s inner is, w.moveOver p.algebra id s inner i⟩
  | ⟨k, .closed, w⟩ =>
    tokens[k]?.map fun token =>
      ⟨k, .scan (options.weightOf? k token)
        ((w.chart.statesAt k).filter (Sweep.expects w.chart token)).toList, w⟩
  | ⟨k, .scan _ [], w⟩ => some ⟨k + 1, .pass, w⟩
  | ⟨k, .scan weight? (i :: is), w⟩ =>
    some ⟨k, .scan weight? is, w.scanState p.algebra weight? (k + 1) i⟩

/-- The moment after some number of steps, unless the parse has ended before. -/
def moment? : Nat → Option (Moment π α)
  | 0 => some .first
  | n + 1 => (moment? n).bind (p.next options tokens)

/-- The moment with the loop at hand done. -/
def after : Moment π α → Moment π α
  | ⟨k, .begin, w⟩ =>
    ⟨k, .pass, w.add p.algebra (.begin p.grammar.topRule 0) p.algebra.one p.algebra.one none⟩
  | ⟨k, .predict xs, w⟩ =>
    ⟨k, .pass, xs.foldl (fun w x => Sweep.predictRule p.algebra k x.1 w x.2) w⟩
  | ⟨k, .complete id s inner is, w⟩ =>
    ⟨k, .pass, is.foldl (Sweep.moveOver p.algebra id s inner) w⟩
  | ⟨k, .scan weight? is, w⟩ =>
    ⟨k + 1, .pass, is.foldl (Sweep.scanState p.algebra weight? (k + 1)) w⟩
  | m => m

variable {p options tokens} {k fuel : Nat} {w w' : Sweep π α} {m m' : Moment π α}

theorem reaches_of_moment? {n : Nat} (h : p.moment? options tokens n = some m) :
    StateTransition.Reaches (p.next options tokens) .first m := by
  induction n generalizing m with
  | zero =>
    cases h
    exact .refl
  | succ n ih =>
    obtain ⟨m₁, hm₁, hnext⟩ := Option.bind_eq_some_iff.1 h
    exact (ih hm₁).tail hnext

/-! ## Loops -/

/-- The loop at hand comes to an end. -/
theorem reaches_after (m : Moment π α) :
    StateTransition.Reaches (p.next options tokens) m (p.after m) := by
  obtain ⟨k, task, w⟩ := m
  cases task with
  | begin => exact .single rfl
  | pass => exact .refl
  | predict xs =>
    induction xs generalizing w with
    | nil => exact .single rfl
    | cons x xs ih => exact .head rfl (ih _)
  | complete id s inner is =>
    induction is generalizing w with
    | nil => exact .single rfl
    | cons i is ih => exact .head rfl (ih _)
  | closed => exact .refl
  | scan weight? is =>
    induction is generalizing w with
    | nil => exact .single rfl
    | cons i is ih => exact .head rfl (ih _)

/-- The loop that a contribution makes passes it on. -/
theorem after_taskOf (p : Parser π α) (k : Nat) (d : Delta α) (w : Sweep π α)
    (agenda : Agenda (Delta α)) :
    p.after ⟨k, p.taskOf w.chart d, { w with agenda := agenda }⟩ =
      ⟨k, .pass, Sweep.pass p.algebra p.grammar p.corners k d { w with agenda := agenda }⟩ := by
  unfold taskOf Sweep.pass
  dsimp only
  cases w.chart.record? d.id with
  | none => rfl
  | some r =>
    simp only [Option.map_some, taskFor]
    cases r.state.active? with
    | none => simp only [after, Sweep.complete, Array.foldl_toList]
    | some category =>
      cases category with
      | nonterminal name =>
        dsimp only
        split
        · rfl
        · simp only [after, Sweep.predict_eq_foldl]
      | start => rfl
      | error => rfl
      | terminal name => rfl

/-- The loop that a token makes scans it. -/
theorem after_scan (token : Token τ) :
    p.after ⟨k, .scan (options.weightOf? k token)
        ((w.chart.statesAt k).filter (Sweep.expects w.chart token)).toList, w⟩ =
      ⟨k + 1, .pass, w.scan p.algebra options k token⟩ := by
  simp only [after, Sweep.scan, Array.foldl_toList]

/-- A step of a loop leaves what comes after the loop as it is. The other steps take a contribution
from the agenda, close a position, or go on to the next token. -/
theorem next_cases (h : p.next options tokens m = some m') :
    p.after m' = p.after m ∨
    (∃ k w d agenda, w.agenda.pop? = some (d, agenda) ∧ m = ⟨k, .pass, w⟩ ∧
      m' = ⟨k, p.taskOf w.chart d, { w with agenda := agenda }⟩) ∨
    (∃ k w, w.agenda.pop? = none ∧ m = ⟨k, .pass, w⟩ ∧ m' = ⟨k, .closed, summarize k w⟩) ∨
    (∃ k w token, tokens[k]? = some token ∧ m = ⟨k, .closed, w⟩ ∧
      m' = ⟨k, .scan (options.weightOf? k token)
        ((w.chart.statesAt k).filter (Sweep.expects w.chart token)).toList, w⟩) := by
  obtain ⟨k, task, w⟩ := m
  cases task with
  | begin =>
    cases h
    exact .inl rfl
  | pass =>
    rw [next] at h
    split at h
    · next d agenda hpop =>
      cases h
      exact .inr (.inl ⟨k, w, d, agenda, hpop, rfl, rfl⟩)
    · next hpop =>
      cases h
      exact .inr (.inr (.inl ⟨k, w, hpop, rfl, rfl⟩))
  | predict xs => cases xs <;> cases h <;> exact .inl rfl
  | complete id s inner is => cases is <;> cases h <;> exact .inl rfl
  | closed =>
    obtain ⟨token, htoken, rfl⟩ := Option.map_eq_some_iff.1 h
    exact .inr (.inr (.inr ⟨k, w, token, htoken, rfl, rfl⟩))
  | scan weight? is => cases is <;> cases h <;> exact .inl rfl

/-- Only at a closed position without a token does a parse come to an end. -/
theorem next_eq_none (h : p.next options tokens m = none) :
    ∃ k w, tokens[k]? = none ∧ m = ⟨k, .closed, w⟩ := by
  obtain ⟨k, task, w⟩ := m
  cases task with
  | begin => cases h
  | pass =>
    rw [next] at h
    split at h <;> cases h
  | predict xs => cases xs <;> cases h
  | complete id s inner is => cases is <;> cases h
  | closed => exact ⟨k, w, Option.map_eq_none_iff.1 h, rfl⟩
  | scan weight? is => cases is <;> cases h

/-! ## From a parse to its moments -/

/-- A contribution is passed on in steps. -/
theorem reaches_pass {d : Delta α} {agenda : Agenda (Delta α)}
    (hpop : w.agenda.pop? = some (d, agenda)) :
    StateTransition.Reaches (p.next options tokens) ⟨k, .pass, w⟩
      ⟨k, .pass, Sweep.pass p.algebra p.grammar p.corners k d { w with agenda := agenda }⟩ := by
  rw [← after_taskOf]
  exact .head (by simp [next, hpop]) (reaches_after _)

/-- A token is scanned in steps. -/
theorem reaches_scanned {token : Token τ} (htoken : tokens[k]? = some token) :
    StateTransition.Reaches (p.next options tokens) ⟨k, .closed, w⟩
      ⟨k + 1, .pass, w.scan p.algebra options k token⟩ := by
  rw [← after_scan]
  exact .head (by simp [next, htoken]) (reaches_after _)

/-- Closing a position goes through moments. -/
theorem reaches_closed (h : w.close p.algebra p.grammar p.corners k fuel = some w') :
    StateTransition.Reaches (p.next options tokens) ⟨k, .pass, w⟩ ⟨k, .closed, summarize k w'⟩ := by
  induction fuel generalizing w with
  | zero => simp [Sweep.close] at h
  | succ fuel ih =>
    rw [Sweep.close] at h
    split at h
    · next hpop =>
      cases h
      exact .single (by simp [next, hpop])
    · next d agenda hpop =>
      exact (reaches_pass hpop).trans (ih h)

/-- Sweeping over the rest of the tokens goes through moments to an end. -/
theorem exists_mem_eval_of_sweep {rest : List (Token τ)}
    (h : p.sweep options fuel k rest w = some w') (hrest : tokens.drop k = rest) :
    ∃ m ∈ StateTransition.eval (p.next options tokens) ⟨k, .pass, w⟩, m.sweep = w' := by
  induction rest generalizing k w with
  | nil =>
    obtain ⟨w₁, hclose, rfl⟩ := Option.map_eq_some_iff.1 h
    refine ⟨_, StateTransition.mem_eval.2 ⟨reaches_closed hclose, ?_⟩, rfl⟩
    simpa [next] using hrest
  | cons token rest ih =>
    rw [sweep] at h
    split at h
    · simp at h
    · next w₂ hclose₂ =>
      obtain ⟨w₁, hclose, rfl⟩ := Option.map_eq_some_iff.1 hclose₂
      obtain ⟨htoken, hrest⟩ := getElem?_of_drop hrest
      obtain ⟨m, hm, hsweep⟩ := ih h hrest
      refine ⟨m, ?_, hsweep⟩
      rw [StateTransition.reaches_eval ((reaches_closed hclose).trans (reaches_scanned htoken))]
      exact hm

/-! ## From the moments to the parse -/

variable (p options tokens) in
/-- The sweep that a parse comes to when it goes on from a closed position. -/
def goOn (fuel k : Nat) (w : Sweep π α) : Option (Sweep π α) :=
  match tokens[k]? with
  | none => some w
  | some token =>
    p.sweep options fuel (k + 1) (tokens.drop (k + 1)) (w.scan p.algebra options k token)

variable (p options tokens) in
/-- The sweep that a parse comes to when it goes on from a moment. -/
def resume (fuel : Nat) (m : Moment π α) : Option (Sweep π α) :=
  match p.after m with
  | ⟨k, .closed, w⟩ => p.goOn options tokens fuel k w
  | ⟨k, _, w⟩ => p.sweep options fuel k (tokens.drop k) w

theorem sweep_drop : p.sweep options fuel k (tokens.drop k) w =
    (p.close fuel k w).bind (p.goOn options tokens fuel k) := by
  cases hrest : tokens.drop k with
  | nil =>
    have htoken : tokens[k]? = none := by simpa using hrest
    have hgoOn : p.goOn options tokens fuel k = some := by
      funext w
      simp only [goOn, htoken]
    rw [hgoOn, Option.bind_fun_some]
    rfl
  | cons token rest =>
    obtain ⟨htoken, hrest⟩ := getElem?_of_drop hrest
    rw [sweep]
    cases p.close fuel k w <;> simp only [Option.bind_none, Option.bind_some, goOn, htoken, hrest]

theorem goOn_succ (h : p.goOn options tokens fuel k w = some w') :
    p.goOn options tokens (fuel + 1) k w = some w' := by
  unfold goOn at h ⊢
  split at h
  · exact h
  · exact sweep_mono h (Nat.le_succ fuel)

theorem resume_succ (h : p.resume options tokens fuel m = some w') :
    p.resume options tokens (fuel + 1) m = some w' := by
  unfold resume at h ⊢
  split at h
  · exact goOn_succ h
  · exact sweep_mono h (Nat.le_succ fuel)

/-- What a parse comes to from the next moment, it comes to from this one. -/
theorem resume_of_next (hnext : p.next options tokens m = some m')
    (h : p.resume options tokens fuel m' = some w') :
    p.resume options tokens (fuel + 1) m = some w' := by
  rcases next_cases hnext with hafter | ⟨k, w, d, agenda, hpop, rfl, rfl⟩ |
    ⟨k, w, hpop, rfl, rfl⟩ | ⟨k, w, token, htoken, rfl, rfl⟩
  · refine resume_succ ?_
    rwa [resume, ← hafter]
  · simp only [resume, after_taskOf] at h
    show p.sweep options (fuel + 1) k (tokens.drop k) w = some w'
    rw [sweep_drop] at h ⊢
    obtain ⟨w₁, hclose, hgoOn⟩ := Option.bind_eq_some_iff.1 h
    refine Option.bind_eq_some_iff.2 ⟨w₁, ?_, goOn_succ hgoOn⟩
    rw [Parser.close, Sweep.close, hpop]
    exact hclose
  · show p.sweep options (fuel + 1) k (tokens.drop k) w = some w'
    rw [sweep_drop]
    refine Option.bind_eq_some_iff.2 ⟨summarize k w, ?_, goOn_succ h⟩
    rw [Parser.close, Sweep.close, hpop]
    rfl
  · refine goOn_succ ?_
    simp only [resume, after_scan] at h
    rw [goOn, htoken]
    exact h

/-- Moments that come to an end are those of a parse that returns. -/
theorem exists_resume_of_mem_eval
    (h : m' ∈ StateTransition.eval (p.next options tokens) m) :
    ∃ fuel, p.resume options tokens fuel m = some m'.sweep := by
  obtain ⟨hreaches, hend⟩ := StateTransition.mem_eval.1 h
  obtain ⟨k, w, htoken, rfl⟩ := next_eq_none hend
  clear h hend
  induction hreaches using Relation.ReflTransGen.head_induction_on with
  | refl => exact ⟨0, by simp [resume, after, goOn, htoken]⟩
  | head hnext _ ih =>
    obtain ⟨fuel, hresume⟩ := ih
    exact ⟨fuel + 1, resume_of_next hnext hresume⟩

theorem exists_parse_iff {result : ParseResult π α} :
    (∃ fuel, p.parse options fuel tokens = some result) ↔
      ∃ m ∈ StateTransition.eval (p.next options tokens) .first,
        p.result tokens.length m.sweep = result := by
  have hbegin : StateTransition.eval (p.next options tokens) .first =
      StateTransition.eval (p.next options tokens) ⟨0, .pass, p.begin⟩ :=
    StateTransition.reaches_eval (.single rfl)
  rw [hbegin]
  constructor
  · rintro ⟨fuel, h⟩
    obtain ⟨w, hsweep, rfl⟩ := Option.map_eq_some_iff.1 h
    obtain ⟨m, hm, rfl⟩ := exists_mem_eval_of_sweep hsweep List.drop_zero
    exact ⟨m, hm, rfl⟩
  · rintro ⟨m, hm, rfl⟩
    obtain ⟨fuel, hresume⟩ := exists_resume_of_mem_eval hm
    exact ⟨fuel, Option.map_eq_some_iff.2 ⟨m.sweep, hresume, rfl⟩⟩

/-- The moments are those that the functions of the program go through. -/
structure Traced (p : Parser π α) (options : ParseOptions τ α) (tokens : List (Token τ)) :
    Prop where
  /-- At first the top rule is added. -/
  begins : p.next options tokens .first = some ⟨0, .pass, p.begin⟩
  /-- Some steps pass on a contribution from the agenda. -/
  passes : ∀ k w d agenda, w.agenda.pop? = some (d, agenda) →
    StateTransition.Reaches (p.next options tokens) ⟨k, .pass, w⟩
      ⟨k, .pass, Sweep.pass p.algebra p.grammar p.corners k d { w with agenda := agenda }⟩
  /-- When none is left the position is closed. -/
  closes : ∀ k w, w.agenda.pop? = none →
    p.next options tokens ⟨k, .pass, w⟩ = some ⟨k, .closed, summarize k w⟩
  /-- Some steps scan a token. -/
  scans : ∀ k w token, tokens[k]? = some token →
    StateTransition.Reaches (p.next options tokens) ⟨k, .closed, w⟩
      ⟨k + 1, .pass, w.scan p.algebra options k token⟩
  /-- A parse returns exactly when its moments come to an end, with the result that the last of
  them gives. -/
  returns : ∀ result, (∃ fuel, p.parse options fuel tokens = some result) ↔
    ∃ m ∈ StateTransition.eval (p.next options tokens) .first,
      p.result tokens.length m.sweep = result

/-- **A parse is traced by its moments**, whether it returns or not. -/
theorem traced (p : Parser π α) (options : ParseOptions τ α) (tokens : List (Token τ)) :
    p.Traced options tokens where
  begins := rfl
  passes _ _ _ _ := reaches_pass
  closes k w hpop := by simp [next, hpop]
  scans _ _ _ := reaches_scanned
  returns _ := exists_parse_iff

end Parser

end SemiringParsing
