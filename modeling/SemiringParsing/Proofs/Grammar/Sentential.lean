import Mathlib.Logic.Relation
import SemiringParsing.Proofs.Tree.Derivation

/-!
# Sentential forms

A sentential form is a list of categories; it derives another by expanding its nonterminals one at
a time. A form *spells* the tokens between two positions when it derives categories that can be
read as these tokens, and a category is *awaited* at a position when the start symbol derives a
form in which it stands behind categories that can be read as the tokens before.

Parsing needs both by recursion. A form spells what a forest with its categories as roots spans
(`Grammar.spells_iff`), and a category is awaited when it stands in a rule of an awaited one, behind
categories that spell the tokens between (`Grammar.awaits_iff`).
-/

namespace SemiringParsing

variable {π τ : Type} [Number π]

open Relation

namespace Grammar

/-- Expands one nonterminal of a form by a rule. -/
def Rewrites (G : Grammar π) (form form' : List Category) : Prop :=
  ∃ r ∈ G.rules, ∃ before behind, form = before ++ r.left :: behind ∧
    form' = before ++ r.right ++ behind

/-- Expands nonterminals of a form, one after the other. -/
def Derives (G : Grammar π) (form form' : List Category) : Prop :=
  ReflTransGen G.Rewrites form form'

/-- A form derives categories that can be read as the tokens between two positions. -/
def Spells (G : Grammar π) (tokens : List (Token τ)) (form : List Category) (i j : Nat) : Prop :=
  ∃ word, G.Derives form word ∧ Token.Reads tokens i word ∧ i + word.length = j

/-- The start symbol derives a form with a category in it, and what stands before it can be read as
the tokens up to a position. -/
def Awaits (G : Grammar π) (tokens : List (Token τ)) (category : Category) (i : Nat) : Prop :=
  ∃ word behind, G.Derives [.nonterminal G.start] (word ++ category :: behind) ∧
    Token.Reads tokens 0 word ∧ word.length = i

variable {G : Grammar π} {form form' before behind word : List Category}

/-! ## Forms inside forms -/

theorem Rewrites.context (h : G.Rewrites form form') (before behind : List Category) :
    G.Rewrites (before ++ form ++ behind) (before ++ form' ++ behind) := by
  obtain ⟨r, hr, x, y, rfl, rfl⟩ := h
  exact ⟨r, hr, before ++ x, y ++ behind, by simp, by simp⟩

theorem Derives.context (h : G.Derives form form') (before behind : List Category) :
    G.Derives (before ++ form ++ behind) (before ++ form' ++ behind) :=
  ReflTransGen.lift (fun form => before ++ form ++ behind) (fun _ _ h => h.context before behind)
    _ _ h

theorem Derives.append {form₁ form₂ word₁ word₂ : List Category} (h₁ : G.Derives form₁ word₁)
    (h₂ : G.Derives form₂ word₂) : G.Derives (form₁ ++ form₂) (word₁ ++ word₂) := by
  have hfirst := h₁.context [] form₂
  have hsecond := h₂.context word₁ []
  simp only [List.nil_append, List.append_nil] at hfirst hsecond
  exact hfirst.trans hsecond

theorem Has.derives {category : Category} (h : G.Has ⟨category, form⟩) :
    G.Derives [category] form := by
  obtain ⟨r, hr, hproduction⟩ := h
  refine .single ⟨r, hr, [], [], ?_, ?_⟩
  · rw [List.nil_append, show r.left = category from congrArg Production.left hproduction]
  · rw [List.nil_append, List.append_nil,
      show r.right = form from congrArg Production.right hproduction]

end Grammar

/-! ## Forms and forests -/

namespace Forest

variable {G : Grammar π} {tokens : List (Token τ)} {f g : Forest} {i j : Nat}

theorem spans_append : (f ++ g).Spans G tokens i j ↔
    ∃ k, f.Spans G tokens i k ∧ g.Spans G tokens k j := by
  constructor
  · intro h
    induction f generalizing i with
    | nil => exact ⟨i, .nil i, h⟩
    | cons c below beside _ ih =>
      rw [cons_append] at h
      cases h with
      | leaf htoken hcategory hbeside =>
        obtain ⟨k, hf, hg⟩ := ih hbeside
        exact ⟨k, .leaf htoken hcategory hf, hg⟩
      | node hproduction hbelow hbeside =>
        obtain ⟨k, hf, hg⟩ := ih hbeside
        exact ⟨k, .node hproduction hbelow hf, hg⟩
  · rintro ⟨k, hf, hg⟩
    exact hf.append hg

/-- A forest is divided where its roots are. -/
theorem exists_append_of_roots {before behind : List Category} (h : f.roots = before ++ behind) :
    ∃ g g', f = g ++ g' ∧ g.roots = before ∧ g'.roots = behind := by
  induction before generalizing f with
  | nil => exact ⟨.nil, f, rfl, rfl, h⟩
  | cons c before ih =>
    cases f with
    | nil => simp [roots] at h
    | cons c' below beside =>
      rw [roots, List.cons_append, List.cons.injEq] at h
      obtain ⟨rfl, h⟩ := h
      obtain ⟨g, g', rfl, hg, hg'⟩ := ih h
      exact ⟨.cons c' below g, g', rfl, by rw [roots, hg], hg'⟩

end Forest

namespace Grammar

variable {G : Grammar π} {tokens : List (Token τ)} {form form' word : List Category} {i j k : Nat}

theorem spells_of_reads (h : Token.Reads tokens i word) :
    ∃ f : Forest, f.roots = word ∧ f.Spans G tokens i (i + word.length) := by
  induction word generalizing i with
  | nil => exact ⟨.nil, rfl, .nil i⟩
  | cons c word ih =>
    rw [← List.singleton_append, Token.reads_append, Token.reads_singleton] at h
    obtain ⟨⟨token, htoken, hcategory⟩, hword⟩ := h
    obtain ⟨f, rfl, hf⟩ := ih hword
    refine ⟨.cons c .nil f, rfl, .leaf htoken hcategory ?_⟩
    rw [List.length_cons, Nat.add_comm f.roots.length, ← Nat.add_assoc]
    exact hf

/-- **A form spells what forests with its categories as roots span.** -/
theorem spells_iff : G.Spells tokens form i j ↔
    ∃ f : Forest, f.roots = form ∧ f.Spans G tokens i j := by
  constructor
  · rintro ⟨word, hderives, hreads, rfl⟩
    induction hderives using ReflTransGen.head_induction_on with
    | refl => exact spells_of_reads hreads
    | head hstep _ ih =>
      obtain ⟨r, hr, before, behind, rfl, rfl⟩ := hstep
      obtain ⟨f, hroots, hspans⟩ := ih
      rw [List.append_assoc] at hroots
      obtain ⟨g, g', rfl, rfl, hrest⟩ := Forest.exists_append_of_roots hroots
      obtain ⟨below, beside, rfl, hbelow, rfl⟩ := Forest.exists_append_of_roots hrest
      obtain ⟨k, hg, hrest⟩ := Forest.spans_append.1 hspans
      obtain ⟨l, hbelowSpans, hbeside⟩ := Forest.spans_append.1 hrest
      refine ⟨g ++ .cons r.left below beside, by simp [Forest.roots], hg.append ?_⟩
      exact .node ⟨r, hr, by rw [hbelow]⟩ hbelowSpans hbeside
  · rintro ⟨f, rfl, hspans⟩
    induction hspans with
    | nil i => exact ⟨[], .refl, Token.reads_nil tokens i, rfl⟩
    | @leaf category beside i j token htoken hcategory _ ih =>
      obtain ⟨word, hderives, hreads, rfl⟩ := ih
      refine ⟨category :: word, ?_, ?_, by rw [List.length_cons]; omega⟩
      · have hcategory : G.Derives [category] [category] := .refl
        exact hcategory.append hderives
      · rw [← List.singleton_append, Token.reads_append, Token.reads_singleton]
        exact ⟨⟨token, htoken, hcategory⟩, hreads⟩
    | @node category below beside i j k hproduction _ _ ihBelow ihBeside =>
      obtain ⟨word, hderives, hreads, rfl⟩ := ihBelow
      obtain ⟨word', hderives', hreads', rfl⟩ := ihBeside
      refine ⟨word ++ word', ?_, Token.reads_append.2 ⟨hreads, hreads'⟩, ?_⟩
      · have hcategory : G.Derives [category] word := hproduction.derives.trans hderives
        exact hcategory.append hderives'
      · rw [List.length_append, Nat.add_assoc]

theorem spells_append : G.Spells tokens (form ++ form') i j ↔
    ∃ k, G.Spells tokens form i k ∧ G.Spells tokens form' k j := by
  simp only [spells_iff]
  constructor
  · rintro ⟨f, hroots, hspans⟩
    obtain ⟨g, g', rfl, hg, hg'⟩ := Forest.exists_append_of_roots hroots
    obtain ⟨k, hspans, hspans'⟩ := Forest.spans_append.1 hspans
    exact ⟨k, ⟨g, hg, hspans⟩, g', hg', hspans'⟩
  · rintro ⟨k, ⟨g, rfl, hspans⟩, g', rfl, hspans'⟩
    exact ⟨g ++ g', Forest.roots_append g g', hspans.append hspans'⟩

theorem Spells.of_derives (h : G.Derives form form') (h' : G.Spells tokens form' i j) :
    G.Spells tokens form i j := by
  obtain ⟨word, hderives, hreads⟩ := h'
  exact ⟨word, h.trans hderives, hreads⟩

theorem Spells.of_reads (h : Token.Reads tokens i word) :
    G.Spells tokens word i (i + word.length) :=
  ⟨word, .refl, h, rfl⟩

theorem Spells.lt (h : G.Spells tokens form i j) (hne : form ≠ []) : i < j := by
  obtain ⟨f, rfl, hspans⟩ := spells_iff.1 h
  exact hspans.lt fun hnil => hne (Forest.roots_eq_nil.2 hnil)

/-! ## Awaited categories -/

/-- A category stands in a rule of another, behind categories that spell the tokens between their
positions. -/
def Inside (G : Grammar π) (tokens : List (Token τ)) (outer inner : Category × Nat) : Prop :=
  ∃ r ∈ G.rules, r.left = outer.1 ∧ ∃ before behind, r.right = before ++ inner.1 :: behind ∧
    G.Spells tokens before outer.2 inner.2

/-- A category in a list that was put together from three stands in one of them. -/
theorem append_eq_append_cons {x y z before behind : List Category} {category : Category}
    (h : x ++ y ++ z = before ++ category :: behind) :
    (∃ x', x = before ++ category :: x') ∨
      (∃ before' behind', y = before' ++ category :: behind' ∧ before = x ++ before') ∨
        ∃ before', z = before' ++ category :: behind ∧ before = x ++ y ++ before' := by
  rcases List.append_eq_append_iff.1 h with ⟨z', hbefore, hz⟩ | ⟨y', hxy, hbehind⟩
  · exact .inr (.inr ⟨z', hz, hbefore⟩)
  · cases y' with
    | nil =>
      rw [List.append_nil] at hxy
      exact .inr (.inr ⟨[], hbehind.symm, by rw [hxy, List.append_nil]⟩)
    | cons c y' =>
      obtain ⟨rfl, -⟩ := List.cons.inj hbehind
      rcases List.append_eq_append_iff.1 hxy with ⟨before', hbefore, hy⟩ | ⟨x', hx, hcons⟩
      · exact .inr (.inl ⟨before', y', hy, hbefore⟩)
      · cases x' with
        | nil => exact .inr (.inl ⟨[], y', hcons.symm, by rw [hx, List.append_nil, List.append_nil]⟩)
        | cons c' x' =>
          obtain ⟨rfl, -⟩ := List.cons.inj hcons
          exact .inl ⟨x', hx⟩

/-- A category in a derived form stands inside one of the form it was derived from. -/
theorem Derives.exists_inside {category : Category} {behind : List Category}
    (h : G.Derives form (word ++ category :: behind)) (hreads : Token.Reads tokens i word) :
    ∃ before outer rest k, form = before ++ outer :: rest ∧ G.Spells tokens before i k ∧
      ReflTransGen (G.Inside tokens) (outer, k) (category, i + word.length) := by
  induction h using ReflTransGen.head_induction_on with
  | refl => exact ⟨word, category, behind, _, rfl, .of_reads hreads, .refl⟩
  | head hstep _ ih =>
    obtain ⟨r, hr, x, z, rfl, rfl⟩ := hstep
    have hexpand : G.Derives [r.left] r.right := Has.derives ⟨r, hr, rfl⟩
    obtain ⟨before, outer, rest, k, hform, hbefore, hinside⟩ := ih
    rcases append_eq_append_cons hform with ⟨x', rfl⟩ | ⟨before', behind', hright, rfl⟩ |
      ⟨before', rfl, rfl⟩
    · exact ⟨before, outer, x' ++ r.left :: z, k, by simp, hbefore, hinside⟩
    · obtain ⟨l, hx, hbefore'⟩ := spells_append.1 hbefore
      refine ⟨x, r.left, z, l, rfl, hx, .head ?_ hinside⟩
      exact ⟨r, hr, rfl, before', behind', hright, hbefore'⟩
    · obtain ⟨l, hx, hbefore'⟩ := spells_append.1 hbefore
      obtain ⟨m, hxleft, hright⟩ := spells_append.1 hx
      refine ⟨x ++ r.left :: before', outer, rest, k, by simp, ?_, hinside⟩
      rw [← List.singleton_append, spells_append]
      exact ⟨m, hxleft, spells_append.2 ⟨l, .of_derives hexpand hright, hbefore'⟩⟩

/-- **A category is awaited** when rule after rule leads to it from the start symbol. -/
theorem awaits_iff {category : Category} : G.Awaits tokens category i ↔
    ReflTransGen (G.Inside tokens) (.nonterminal G.start, 0) (category, i) := by
  constructor
  · rintro ⟨word, behind, hderives, hreads, rfl⟩
    obtain ⟨before, outer, rest, k, hform, hbefore, hinside⟩ := hderives.exists_inside hreads
    have hlength := congrArg List.length hform
    simp only [List.length_append, List.length_cons, List.length_nil] at hlength
    obtain rfl : before = [] := List.eq_nil_of_length_eq_zero (by omega)
    obtain ⟨rfl, -⟩ := List.cons.inj hform
    obtain rfl : 0 = k := by
      obtain ⟨f, hroots, hspans⟩ := spells_iff.1 hbefore
      rw [Forest.roots_eq_nil] at hroots
      subst hroots
      cases hspans
      rfl
    rwa [Nat.zero_add] at hinside
  · suffices hstep : ∀ x, ReflTransGen (G.Inside tokens) (.nonterminal G.start, 0) x →
        G.Awaits tokens x.1 x.2 from hstep (category, i)
    intro x h
    induction h with
    | refl => exact ⟨[], [], .refl, Token.reads_nil tokens 0, rfl⟩
    | @tail outer inner _ hinside ih =>
      obtain ⟨word, behind, hderives, hreads, hlength⟩ := ih
      obtain ⟨r, hr, hleft, before, behind', hright, word', hbefore, hreads', hlength'⟩ := hinside
      have hexpand : G.Derives [outer.1] (before ++ inner.1 :: behind') := by
        rw [← hleft, ← hright]
        exact Has.derives ⟨r, hr, rfl⟩
      have hinner : G.Derives [outer.1] (word' ++ inner.1 :: behind') :=
        hexpand.trans (hbefore.context [] (inner.1 :: behind'))
      have hwhole := hinner.context word behind
      simp only [List.append_assoc, List.cons_append, List.nil_append] at hwhole
      refine ⟨word ++ word', behind' ++ behind, ?_, ?_, ?_⟩
      · rw [List.append_assoc]
        exact hderives.trans hwhole
      · rw [Token.reads_append, Nat.zero_add, hlength]
        exact ⟨hreads, hreads'⟩
      · rw [List.length_append, hlength, hlength']

end Grammar

end SemiringParsing
