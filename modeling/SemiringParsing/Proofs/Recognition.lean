import SemiringParsing.Proofs.Grammar.Sentential
import SemiringParsing.Proofs.Number.Exact
import SemiringParsing.Proofs.Sweep.Links

/-!
# Recognition

Which states does the chart of a parse hold? Those that are `Correct`: what is before the dot spells
the tokens from the origin to the position, and the left side is awaited at the origin. For this the
left corners that are predicted from have to be all there are (`ListsCorners`). They are in the
algebra of reachability when all rules have positive probabilities.

* Every state of a chart is correct (`Reaches.correct`), since each step to a new state extends what
  is spelled or goes inside an awaited category.
* Every correct state is in the chart (`Finished.exists_record?`). What is spelled is moved over one
  tree of a forest after the other. A predicted state predicts nothing, but a state that was not
  predicted has done it in its place: what is awaited is always a left corner of what such a state
  expects (`Finished.Offers`).
-/

namespace SemiringParsing

open Relation

variable {π α τ : Type}

/-- The category behind the dot is the first of what is there. -/
theorem State.active?_of_drop_dot {s : State π} {category : Category} {rest : List Category}
    (h : s.rule.right.drop s.dot = category :: rest) :
    s.active? = some category ∧ s.rule.right.drop (s.dot + 1) = rest := by
  rw [active?, Production.categoryAt?, ← List.head?_drop, ← List.tail_drop, h]
  exact ⟨rfl, rfl⟩

variable [Number π]

/-- A rule of one name has the other in its first place. -/
def Grammar.Corner (G : Grammar π) (source target : String) : Prop :=
  ∃ r ∈ G.rules, r.left = .nonterminal source ∧ r.categoryAt? 0 = some (.nonterminal target)

/-- A state that the tokens justify. Its production is one of the grammar, or the top one from the
beginning of the input. -/
structure Grammar.Correct (G : Grammar π) (tokens : List (Token τ)) (s : State π) : Prop where
  production : G.Has s.rule.toProduction ∨
    s.rule.toProduction = G.topRule.toProduction ∧ s.origin = 0
  position_le : s.position ≤ tokens.length
  /-- What is before the dot spells the tokens that were matched. -/
  spells : G.Spells tokens (s.rule.right.take s.dot) s.origin s.position
  /-- The left side is awaited at the origin. -/
  awaits : s.rule.left ≠ .start → G.Awaits tokens s.rule.left s.origin

namespace Parser

variable {p : Parser π α} {tokens : List (Token τ)} {options : ParseOptions τ α}
  {position : Nat} {c : Chart π α} {id : StateId} {r : Record π α} {s : State π}
  {link? : Option Link}

/-- The left corners that the parser predicts from are all there are. -/
def ListsCorners (p : Parser π α) : Prop :=
  ∀ source ∈ p.grammar.nonterminals, ∀ target,
    (∃ w, (.nonterminal target, w) ∈ p.corners.reachableFrom (.nonterminal source)) ↔
      ReflTransGen p.grammar.Corner source target

/-- No left corner is left out in an algebra in which no rule has the score zero and zero arises
only where it has to. -/
theorem listsCorners {V : α → Prop} (h : p.algebra.Positive V)
    (hV : ∀ r ∈ p.grammar.rules, V (p.algebra.ofProbability r.probability))
    (hrules : ∀ r ∈ p.grammar.rules, p.algebra.NonZero (p.algebra.ofProbability r.probability)) :
    p.ListsCorners := by
  intro source hsource target
  have hstep : LeftCorners.Step p.algebra p.grammar = p.grammar.Corner := by
    funext source target
    refine propext (exists_congr fun r => and_congr_right fun hr => ?_)
    simp [hrules r hr]
  rw [p.corners_eq, LeftCorners.mem_reachableFrom_iff h hV, hstep, and_iff_right hsource]

/-! ## Every state is correct -/

/-- What is before the dot is spelled, and the left side is awaited. -/
def Justified (p : Parser π α) (tokens : List (Token τ)) (s : State π) : Prop :=
  p.grammar.Spells tokens (s.rule.right.take s.dot) s.origin s.position ∧
    (s.rule.left ≠ .start → ReflTransGen (p.grammar.Inside tokens)
      (.nonterminal p.grammar.start, 0) (s.rule.left, s.origin))

/-- The category behind the dot of a justified state is awaited. -/
theorem Justified.inside (h : p.Justified tokens s) (hs : p.grammar.Admits s) {category : Category}
    (hactive : s.active? = some category) :
    ReflTransGen (p.grammar.Inside tokens) (.nonterminal p.grammar.start, 0)
      (category, s.position) := by
  obtain ⟨hdot, hget⟩ := List.getElem?_eq_some_iff.1 hactive
  rcases hs.rule with hmem | ⟨htop, horigin⟩
  · refine (h.2 (Grammar.left_ne_start hmem)).tail ⟨s.rule, hmem, rfl, s.rule.right.take s.dot,
      s.rule.right.drop (s.dot + 1), ?_, h.1⟩
    rw [← hget, List.getElem_cons_drop, List.take_append_drop]
  · have hzero : s.dot = 0 := by
      rw [htop, Grammar.right_topRule, List.length_singleton] at hdot
      omega
    have hcategory : category = .nonterminal p.grammar.start := by
      rw [State.active?, htop, hzero] at hactive
      exact (Option.some.inj hactive).symm
    rw [hcategory, ← hs.dot_eq_zero_iff.1 hzero, horigin]

/-- Names that stand in rules are defined. -/
theorem mem_nonterminals_of_active? (hs : p.grammar.Admits s) {name : String}
    (hactive : s.active? = some (.nonterminal name)) : name ∈ p.grammar.nonterminals := by
  have hmem : .nonterminal name ∈ s.rule.right := List.mem_of_getElem? hactive
  rcases hs.rule with hrule | ⟨htop, -⟩
  · exact Grammar.mem_nonterminals_of_mem_right hrule hmem
  · rw [htop, Grammar.right_topRule, List.mem_singleton, Category.nonterminal.injEq] at hmem
    rw [hmem]
    exact p.grammar.start_mem_nonterminals

/-- A step leads from states that have what is before their dots spelled to others that do. -/
theorem LeadsTo.spells (h : p.LeadsTo tokens c id s link?)
    (hc : ∀ id r, c.record? id = some r → p.grammar.Admits r.state ∧ p.grammar.Spells tokens
      (r.state.rule.right.take r.state.dot) r.state.origin r.state.position) :
    p.grammar.Spells tokens (s.rule.right.take s.dot) s.origin s.position := by
  cases h with
  | predict => exact ⟨[], .refl, Token.reads_nil tokens _, rfl⟩
  | @complete waiting _ w r _ hw hr hcompleted hposition hactive hnext =>
    obtain ⟨hadmits, hspells⟩ := hc _ _ hw
    obtain ⟨hadmits', hspells'⟩ := hc _ _ hr
    obtain ⟨hrule, hend, horigin, hdot⟩ := State.advance_eq_some_iff.1 hnext
    have hmem : r.state.rule ∈ p.grammar.rules := hadmits'.mem_rules_of_active? hadmits hactive
    have htake : r.state.rule.right.take r.state.dot = r.state.rule.right := by
      rw [beq_iff_eq.1 hcompleted]
      exact List.take_length
    have hexpand : p.grammar.Derives [r.state.rule.left] r.state.rule.right :=
      Grammar.Has.derives ⟨r.state.rule, hmem, rfl⟩
    rw [hrule, hend, horigin, hdot, Production.take_add_one hactive]
    rw [hposition] at hspells
    rw [htake] at hspells'
    exact Grammar.spells_append.2 ⟨_, hspells, .of_derives hexpand hspells'⟩
  | @scan _ r token category _ hr htoken hactive hcategory hnext =>
    obtain ⟨-, hspells⟩ := hc _ _ hr
    obtain ⟨hrule, hend, horigin, hdot⟩ := State.advance_eq_some_iff.1 hnext
    rw [hrule, hend, horigin, hdot, Production.take_add_one hactive]
    exact Grammar.spells_append.2 ⟨_, hspells,
      .of_reads (Token.reads_singleton.2 ⟨token, htoken, hcategory⟩)⟩

/-- **What is before a dot is spelled**, whatever the algebra is. -/
theorem Reaches.spells {l : Ledger π α} (h : p.Reaches options tokens position l) :
    ∀ id r, l.chart.record? id = some r → p.grammar.Spells tokens
      (r.state.rule.right.take r.state.dot) r.state.origin r.state.position :=
  h.states_satisfy ⟨[], .refl, Token.reads_nil tokens 0, rfl⟩ fun _ _ _ _ hc hleads =>
    hleads.spells hc

theorem LeadsTo.justified (hcorners : p.ListsCorners) (h : p.LeadsTo tokens c id s link?)
    (hc : ∀ id r, c.record? id = some r → p.grammar.Admits r.state ∧ p.Justified tokens r.state) :
    p.Justified tokens s := by
  refine ⟨h.spells fun id r hr => (hc id r hr).imp_right And.left, ?_⟩
  cases h with
  | @predict _ r name corner rule hr hactive _ hcorner hrule =>
    intro _
    obtain ⟨hadmits, hjustified⟩ := hc _ _ hr
    have hname := mem_nonterminals_of_active? hadmits hactive
    obtain ⟨target, htarget⟩ : ∃ target, corner.1 = .nonterminal target := by
      rw [p.corners_eq] at hcorner
      obtain ⟨target, -, htarget⟩ := LeftCorners.exists_name_of_mem_reachableFrom hcorner
      exact ⟨target, htarget⟩
    rw [htarget, Grammar.mem_rulesFor_nonterminal] at hrule
    have hchain : ReflTransGen p.grammar.Corner name target :=
      (hcorners name hname target).1 ⟨corner.2, htarget ▸ hcorner⟩
    refine (hjustified.inside hadmits hactive).trans ?_
    rw [State.begin, hrule.2]
    -- A left corner stands inside without anything before it.
    refine ReflTransGen.lift (fun name => (Category.nonterminal name, r.state.position)) ?_ _ _
      hchain
    rintro source target ⟨r', hr', hleft, hfirst⟩
    refine ⟨r', hr', hleft, [], r'.right.drop 1, ?_, [], .refl, Token.reads_nil tokens _, rfl⟩
    obtain ⟨hlt, hget⟩ := List.getElem?_eq_some_iff.1 hfirst
    show r'.right = [] ++ .nonterminal target :: r'.right.drop 1
    rw [List.nil_append, ← hget, List.getElem_cons_drop, List.drop_zero]
  | complete hw _ _ _ _ hnext =>
    obtain ⟨hrule, -, horigin, -⟩ := State.advance_eq_some_iff.1 hnext
    rw [hrule, horigin]
    exact (hc _ _ hw).2.2
  | scan hr _ _ _ hnext =>
    obtain ⟨hrule, -, horigin, -⟩ := State.advance_eq_some_iff.1 hnext
    rw [hrule, horigin]
    exact (hc _ _ hr).2.2

/-- **Every state of a chart is justified.** -/
theorem Reaches.justified (hcorners : p.ListsCorners) {l : Ledger π α}
    (h : p.Reaches options tokens position l) :
    ∀ id r, l.chart.record? id = some r → p.Justified tokens r.state := by
  refine h.states_satisfy ⟨⟨[], .refl, Token.reads_nil tokens 0, rfl⟩, fun hne => ?_⟩
    fun c id s link? hc hleads => hleads.justified hcorners hc
  exact absurd rfl hne

/-! ## Every correct state is in the chart -/

/-- A state that was not predicted, at a position of the chart, has a name as a left corner of what
it expects. -/
def Offers (p : Parser π α) (c : Chart π α) (name : String) (position : Nat) : Prop :=
  ∃ id r expected, c.record? id = some r ∧ r.state.isPredicted = false ∧
    r.state.position = position ∧ r.state.active? = some (.nonterminal expected) ∧
    ReflTransGen p.grammar.Corner expected name

namespace Finished

/-- The rules of an offered name are in the chart. -/
theorem exists_begin (h : p.Finished tokens c) (hcorners : p.ListsCorners) {name : String}
    (hoffers : p.Offers c name position) {rule : Rule π} (hrule : rule ∈ p.grammar.rules)
    (hleft : rule.left = .nonterminal name) :
    ∃ id r, c.record? id = some r ∧ r.state = .begin rule position ∧
      ∀ name, r.state.rule.left = .nonterminal name → p.Offers c name r.state.origin := by
  have hholds : c.Holds (.begin rule position) none := by
    obtain ⟨id, r, expected, hr, hpredicted, rfl, hactive, hchain⟩ := hoffers
    have hexpected := mem_nonterminals_of_active? (h.admits id r hr) hactive
    obtain ⟨w, hw⟩ := (hcorners expected hexpected name).2 hchain
    exact h.holds (.predict hr hactive hpredicted hw
      (Grammar.mem_rulesFor_nonterminal.2 ⟨hrule, hleft⟩))
  obtain ⟨id, r, hr, hbegin, -⟩ := hholds
  refine ⟨id, r, hr, hbegin, fun name' hname' => ?_⟩
  rw [hbegin] at hname' ⊢
  obtain rfl := Category.nonterminal.inj (hleft.symm.trans hname')
  exact hoffers

/-- What a state of the chart expects is offered, if its own left side was where it began. -/
theorem offers_of_active? (h : p.Finished tokens c) (hr : c.record? id = some r)
    (hleft : ∀ name, r.state.rule.left = .nonterminal name → p.Offers c name r.state.origin)
    {name : String} (hactive : r.state.active? = some (.nonterminal name)) :
    p.Offers c name r.state.position := by
  cases hpredicted : r.state.isPredicted with
  | false => exact ⟨id, r, name, hr, hpredicted, rfl, hactive, .refl⟩
  | true =>
    simp only [State.isPredicted, Bool.and_eq_true, beq_iff_eq, bne_iff_ne] at hpredicted
    obtain ⟨hdot, hstart⟩ := hpredicted
    have hadmits := h.admits id r hr
    have hmem : r.state.rule ∈ p.grammar.rules := hadmits.mem_rules hstart
    obtain ⟨source, hsource⟩ := Grammar.left_eq_nonterminal hmem
    obtain ⟨id', r', expected, hr', hpredicted', hposition, hactive', hchain⟩ :=
      hleft source hsource
    rw [State.active?, hdot] at hactive
    refine ⟨id', r', expected, hr', hpredicted', ?_, hactive',
      hchain.tail ⟨r.state.rule, hmem, hsource, hactive⟩⟩
    rw [hposition, hadmits.dot_eq_zero_iff.1 hdot]

/-- A state whose dot can be moved has been moved. -/
theorem exists_advanced (h : p.Finished tokens c) {next : State π} {j : Nat}
    (hnext : r.state.advance j = .ok (some next)) (hleads : p.LeadsTo tokens c id next link?) :
    ∃ id' r', c.record? id' = some r' ∧ r'.state.rule = r.state.rule ∧
      r'.state.origin = r.state.origin ∧ r'.state.dot = r.state.dot + 1 ∧ r'.state.position = j := by
  obtain ⟨id', r', hr', rfl, -⟩ := h.holds hleads
  obtain ⟨hrule, hposition, horigin, hdot⟩ := State.advance_eq_some_iff.1 hnext
  exact ⟨id', r', hr', hrule, horigin, hdot, hposition⟩

/-- The dot of a state is moved over a forest that has the categories behind it as roots. -/
theorem exists_moved (h : p.Finished tokens c) (hcorners : p.ListsCorners) {f : Forest} {i j : Nat}
    (hspans : f.Spans p.grammar tokens i j) (hr : c.record? id = some r)
    (hleft : ∀ name, r.state.rule.left = .nonterminal name → p.Offers c name r.state.origin)
    (hposition : r.state.position = i) (hroots : f.roots <+: r.state.rule.right.drop r.state.dot) :
    ∃ id' r', c.record? id' = some r' ∧ r'.state.rule = r.state.rule ∧
      r'.state.origin = r.state.origin ∧ r'.state.dot = r.state.dot + f.roots.length ∧
      r'.state.position = j := by
  induction hspans generalizing id r with
  | nil i => exact ⟨id, r, hr, rfl, rfl, rfl, hposition⟩
  | @leaf category beside i j token htoken hcategory _ ih =>
    obtain ⟨behind, hroots⟩ := hroots
    obtain ⟨hactive, hdrop⟩ := State.active?_of_drop_dot hroots.symm
    obtain ⟨next, hnext⟩ := State.exists_advance hactive (Nat.le_succ r.state.position)
    obtain ⟨id₁, r₁, hr₁, hrule, horigin, hdot, hend⟩ :=
      h.exists_advanced hnext (.scan hr (hposition ▸ htoken) hactive hcategory hnext)
    rw [← hrule, ← horigin] at hleft
    rw [← hrule, ← hdot] at hdrop
    obtain ⟨id', r', hr', hrule', horigin', hdot', hposition'⟩ := ih hr₁ hleft (by omega) ⟨behind, hdrop.symm⟩
    refine ⟨id', r', hr', hrule'.trans hrule, horigin'.trans horigin, ?_, hposition'⟩
    rw [hdot', hdot, Forest.roots, List.length_cons]
    omega
  | @node category below beside i j k hproduction hbelow _ ihBelow ihBeside =>
    obtain ⟨behind, hroots⟩ := hroots
    obtain ⟨hactive, hdrop⟩ := State.active?_of_drop_dot hroots.symm
    obtain ⟨rule, hmem, hproduction⟩ := hproduction
    have hcategory : rule.left = category := congrArg Production.left hproduction
    have hright : rule.right = below.roots := congrArg Production.right hproduction
    obtain ⟨name, hname⟩ := Grammar.left_eq_nonterminal hmem
    obtain rfl : category = .nonterminal name := hcategory.symm.trans hname
    have hoffers : p.Offers c name i := hposition ▸ h.offers_of_active? hr hleft hactive
    -- The rule of the first tree was predicted, and its dot is moved over the forest below.
    obtain ⟨id₀, r₀, hr₀, hbegin, hleft₀⟩ := h.exists_begin hcorners hoffers hmem hname
    obtain ⟨id₁, r₁, hr₁, hrule₁, horigin₁, hdot₁, hposition₁⟩ :=
      ihBelow hr₀ hleft₀ (by rw [hbegin]; rfl) (by rw [hbegin, ← hright]; exact List.prefix_refl _)
    rw [hbegin] at hrule₁ horigin₁ hdot₁
    have hcompleted : r₁.state.isCompleted = true := by
      simp only [State.isCompleted, beq_iff_eq, hdot₁, hrule₁, State.begin, Production.length, hright,
        Nat.zero_add]
    have hwaits : r.state.active? = some r₁.state.rule.left := by
      rw [hactive, hrule₁]
      exact congrArg some hname.symm
    have hle : r.state.position ≤ r₁.state.position := by
      have := hbelow.le
      omega
    obtain ⟨next, hnext⟩ := State.exists_advance hactive hle
    obtain ⟨id₂, r₂, hr₂, hrule, horigin, hdot, hend⟩ := h.exists_advanced hnext
      (.complete hr hr₁ hcompleted (hposition.trans horigin₁.symm) hwaits hnext)
    rw [← hrule, ← horigin] at hleft
    rw [← hrule, ← hdot] at hdrop
    obtain ⟨id', r', hr', hrule', horigin', hdot', hposition'⟩ :=
      ihBeside hr₂ hleft (hend.trans hposition₁) ⟨behind, hdrop.symm⟩
    refine ⟨id', r', hr', hrule'.trans hrule, horigin'.trans horigin, ?_, hposition'⟩
    rw [hdot', hdot, Forest.roots, List.length_cons]
    omega

/-- What is awaited is offered. -/
theorem offers_of_inside (h : p.Finished tokens c) (hcorners : p.ListsCorners) {name : String}
    {i : Nat} (hinside : ReflTransGen (p.grammar.Inside tokens)
      (.nonterminal p.grammar.start, 0) (.nonterminal name, i)) : p.Offers c name i := by
  suffices hstep : ∀ x, ReflTransGen (p.grammar.Inside tokens)
      (.nonterminal p.grammar.start, 0) x → ∀ name, x.1 = .nonterminal name →
      p.Offers c name x.2 from hstep (.nonterminal name, i) hinside name rfl
  intro x hx
  induction hx with
  | refl =>
    intro name hname
    obtain ⟨id, r, hr, hstate, -⟩ := h.top
    refine ⟨id, r, name, hr, ?_, ?_, ?_, .refl⟩
    · rw [hstate]
      rfl
    · rw [hstate]
      rfl
    · rw [hstate, ← hname]
      rfl
  | @tail outer inner _ hinner ih =>
    intro name hname
    obtain ⟨rule, hmem, hleft, before, behind, hright, hspells⟩ := hinner
    obtain ⟨source, hsource⟩ := Grammar.left_eq_nonterminal hmem
    obtain ⟨f, rfl, hspans⟩ := Grammar.spells_iff.1 hspells
    obtain ⟨id, r, hr, hbegin, hoffers⟩ :=
      h.exists_begin hcorners (ih source (hleft.symm.trans hsource)) hmem hsource
    obtain ⟨id', r', hr', hrule', horigin', hdot', hposition'⟩ :=
      h.exists_moved hcorners hspans hr hoffers (by rw [hbegin]; rfl)
        ⟨inner.1 :: behind, by rw [hbegin, ← hright]; rfl⟩
    rw [← hrule', ← horigin'] at hoffers
    rw [← hposition']
    refine h.offers_of_active? hr' hoffers ?_
    rw [State.active?, hrule', hdot', hbegin]
    simp [State.begin, Production.categoryAt?, hright, hname]

/-- **Every correct state is in the chart.** -/
theorem exists_record? (h : p.Finished tokens c) (hcorners : p.ListsCorners)
    (hs : p.grammar.Correct tokens s) : ∃ id r, c.record? id = some r ∧ r.state.item = s.item := by
  obtain ⟨f, hroots, hspans⟩ := Grammar.spells_iff.1 hs.spells
  have hbegin : ∃ id r rule, c.record? id = some r ∧ r.state = .begin rule s.origin ∧
      rule.toProduction = s.rule.toProduction ∧
      ∀ name, r.state.rule.left = .nonterminal name → p.Offers c name r.state.origin := by
    rcases hs.production with ⟨rule, hmem, hproduction⟩ | ⟨htop, horigin⟩
    · obtain ⟨name, hname⟩ := Grammar.left_eq_nonterminal hmem
      have hleft : s.rule.left = .nonterminal name := by rw [← hproduction, hname]
      have hawaits := Grammar.awaits_iff.1 (hs.awaits (by simp [hleft]))
      rw [hleft] at hawaits
      obtain ⟨id, r, hr, hstate, hoffers⟩ :=
        h.exists_begin hcorners (h.offers_of_inside hcorners hawaits) hmem hname
      exact ⟨id, r, rule, hr, hstate, hproduction, hoffers⟩
    · obtain ⟨id, r, hr, hstate, -⟩ := h.top
      refine ⟨id, r, p.grammar.topRule, hr, by rw [hstate, horigin], htop.symm, ?_⟩
      rw [hstate]
      intro name hname
      simp [State.begin] at hname
  obtain ⟨id, r, rule, hr, hstate, hproduction, hoffers⟩ := hbegin
  have hright : f.roots <+: r.state.rule.right.drop r.state.dot := by
    refine ⟨s.rule.right.drop s.dot, ?_⟩
    rw [hroots, List.take_append_drop, hstate]
    exact (congrArg Production.right hproduction).symm
  obtain ⟨id', r', hr', hrule', horigin', hdot', hposition'⟩ :=
    h.exists_moved hcorners hspans hr hoffers (by rw [hstate]; rfl) hright
  refine ⟨id', r', hr', ?_⟩
  have hlength : f.roots.length = s.dot := by
    rw [hroots, List.length_take]
    exact Nat.min_eq_left s.dot_le
  rw [hstate] at hrule' horigin' hdot'
  simp only [State.item, Item.mk.injEq]
  refine ⟨?_, hposition', horigin', ?_⟩
  · rw [hrule']
    exact hproduction
  · rw [hdot', hlength]
    exact Nat.zero_add _

end Finished

/-- A justified state of a parse is correct, and so is whatever is identified in the same way. -/
theorem Justified.correct (h : p.Justified tokens r.state) (hr : p.grammar.Admits r.state)
    (hle : r.state.position ≤ tokens.length) (hitem : r.state.item = s.item) :
    p.grammar.Correct tokens s := by
  simp only [State.item, Item.mk.injEq] at hitem
  obtain ⟨hproduction, hposition, horigin, hdot⟩ := hitem
  refine ⟨?_, hposition ▸ hle, ?_, fun hne => ?_⟩
  · rcases hr.rule with hmem | ⟨htop, hzero⟩
    · exact .inl ⟨r.state.rule, hmem, hproduction⟩
    · exact .inr ⟨by rw [← hproduction, htop], horigin ▸ hzero⟩
  · rw [← hproduction, ← hposition, ← horigin, ← hdot]
    exact h.1
  · rw [← hproduction] at hne ⊢
    rw [← horigin, Grammar.awaits_iff]
    exact h.2 hne

/-- The chart of a parse that lists all left corners holds the correct states. -/
theorem isSome_id?_iff (hcorners : p.ListsCorners) {fuel : Nat} {result : ParseResult π α}
    (h : p.parse options fuel tokens = some result) :
    (result.chart.id? s).isSome = true ↔ p.grammar.Correct tokens s := by
  have hfinished := finished_of_parse h
  have hjustified := (reaches_of_parse h).1.justified hcorners
  constructor
  · intro hsome
    obtain ⟨id, hid⟩ := Option.isSome_iff_exists.1 hsome
    obtain ⟨r, hr, hitem⟩ := hfinished.indexed.id?_eq_some.1 hid
    exact (hjustified id r hr).correct (hfinished.admits id r hr) (hfinished.position_le id r hr)
      hitem
  · intro hs
    obtain ⟨id, r, hr, hitem⟩ := hfinished.exists_record? hcorners hs
    rw [hfinished.indexed.id?_eq_some.2 ⟨r, hr, hitem⟩]
    rfl

theorem correct_goal : p.grammar.Correct tokens (p.goal tokens.length) ↔
    p.grammar.Spells tokens [.nonterminal p.grammar.start] 0 tokens.length :=
  ⟨fun h => h.spells, fun h => ⟨.inr ⟨rfl, rfl⟩, Nat.le_refl _, h, fun hne => absurd rfl hne⟩⟩

end Parser

/-! ## Reachability -/

/-- In the algebra of reachability rules with positive probabilities score one, and no left corner is
left out. -/
theorem Parser.listsCorners_boolean {α : Type} [ExtendedNumber α] [TellsZeroFromOne α]
    {G : Grammar α} (hpositive : ∀ r ∈ G.rules, Number.lt 0 r.probability = true) :
    (Parser.new G .boolean).ListsCorners := by
  have hscore : ∀ r ∈ G.rules, (ScoreAlgebra.boolean : ScoreAlgebra α α).ofProbability
      r.probability = ExtendedNumber.ofTruth true := by
    intro r hr
    show ExtendedNumber.ofTruth (Number.lt 0 r.probability) = _
    rw [hpositive r hr]
  refine listsCorners ScoreAlgebra.positive_boolean (fun r hr => ⟨true, hscore r hr⟩) fun r hr => ?_
  show (ScoreAlgebra.boolean : ScoreAlgebra α α).NonZero
    ((ScoreAlgebra.boolean : ScoreAlgebra α α).ofProbability r.probability)
  rw [hscore r hr, ScoreAlgebra.nonZero_ofTruth]

/-- **Recognition.** Over the algebra of reachability the chart of a parse holds exactly the correct
states, if all rules have positive probabilities. The parse is a success exactly when the start
symbol spells the input, which it does not if there is none. -/
theorem Parser.recognizes {α : Type} [ExtendedNumber α] [TellsZeroFromOne α] {G : Grammar α}
    (hpositive : ∀ r ∈ G.rules, Number.lt 0 r.probability = true) {tokens : List (Token τ)}
    {options : ParseOptions τ α} {fuel : Nat} {result : ParseResult α α}
    (h : (Parser.new G .boolean).parse options fuel tokens = some result) :
    (∀ s : State α, (result.chart.id? s).isSome = true ↔ G.Correct tokens s) ∧
      (result.isSuccess = true ↔ G.Spells tokens [.nonterminal G.start] 0 tokens.length) ∧
      (tokens = [] → result.isSuccess = false) := by
  have hstates : ∀ s : State α, (result.chart.id? s).isSome = true ↔ G.Correct tokens s :=
    fun s => isSome_id?_iff (listsCorners_boolean hpositive) h
  have hsuccess : result.isSuccess = true ↔
      G.Spells tokens [.nonterminal G.start] 0 tokens.length := by
    rw [ParseResult.isSuccess, (reaches_of_parse h).2.1, hstates]
    exact correct_goal (p := Parser.new G .boolean)
  refine ⟨hstates, hsuccess, ?_⟩
  rintro rfl
  rw [← Bool.not_eq_true, hsuccess]
  exact fun hspells => Nat.lt_irrefl 0 (hspells.lt (List.cons_ne_nil _ []))

/-- A left-recursive grammar recognizes a sum, and nothing else is in the chart than what the tokens
justify. -/
theorem Parser.recognizes_leftRecursive : ∃ result,
    (Parser.new Examples.leftRecursiveGrammar .boolean).parse {} 20
        [Token.literal "n", Token.literal "+", Token.literal "n"] = some result ∧
      result.isSuccess = true ∧
      (∀ s : State Exact, (result.chart.id? s).isSome = true ↔
        Examples.leftRecursiveGrammar.Correct
          [Token.literal "n", Token.literal "+", Token.literal "n"] s) ∧
      Examples.leftRecursiveGrammar.Spells
        [Token.literal "n", Token.literal "+", Token.literal "n"] [.nonterminal "E"] 0 3 := by
  have hparse : ((Parser.new Examples.leftRecursiveGrammar .boolean).parse {} 20
      [Token.literal "n", Token.literal "+", Token.literal "n"]).any ParseResult.isSuccess = true := by
    decide +kernel
  obtain ⟨result, hresult, hsuccess⟩ := (Option.any_eq_true _ _).1 hparse
  have hpositive : ∀ r ∈ Examples.leftRecursiveGrammar.rules,
      Number.lt 0 r.probability = true := by decide +kernel
  obtain ⟨hstates, hspells, -⟩ := recognizes hpositive hresult
  exact ⟨result, hresult, hsuccess, hstates, hspells.1 hsuccess⟩

end SemiringParsing
