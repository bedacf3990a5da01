import SemiringParsing.Grammar.Examples
import SemiringParsing.Grammar.Layout
import SemiringParsing.Number.Double
import SemiringParsing.Tree.Layout
import SemiringParsing.Proofs.Grammar.Accepted
import SemiringParsing.Proofs.Layout.Unbroken

/-!
# Rendering changes white space only

Trees and grammars are laid out for a width. The text of a tree comes back from its layout when what
was put in for a break is taken out again, and that of a grammar when a blank is put in its place.
So two layouts differ in nothing but their breaks.

A tree is broken only before the bracket of a node. That is no blank, so whatever a category is
called, it cannot be taken for indentation, but a newline in a name would be taken for a break. A
grammar is broken before names too. They must not be empty, since a blank follows the last one, and
they must not begin with one.
-/

namespace SemiringParsing

open Doc

/-! ## Trees -/

/-- The categories of the nodes in preorder. -/
def Forest.categories : Forest → List Category
  | nil => []
  | cons c below beside => c :: (below.categories ++ beside.categories)

/-- The categories of a node and of all below it. -/
def Subtree.categories (t : Subtree) : List Category :=
  t.category :: t.below.categories

/-- In front of every tree of a forest there is a place to break. -/
theorem Forest.docs_cons (t : Subtree) (beside : Forest) :
    (cons t.category t.below beside).docs = softbreak ++ t.doc ++ beside.docs := by
  obtain ⟨id, parent?, category, below⟩ := t
  cases below with
  | nil => rfl
  | cons => rfl

namespace Subtree

theorem flat_doc_eq (t : Subtree) :
    t.doc.flat = "[" ++ t.category.text ++ t.below.docs.flat ++ "]" := by
  obtain ⟨id, parent?, category, below⟩ := t
  cases below with
  | nil => simp [doc, Forest.docs, flat]
  | cons => rfl

/-- The bracket in front of a node can be told from what stands before it. -/
theorem readable?_doc_of_below {t : Subtree} (hcategory : '\n' ∉ t.category.text.toList)
    (hbelow : t.below.docs.readable? "" false = some false) (b : Bool) :
    t.doc.readable? "" b = some false := by
  have htoList : ("[" ++ t.category.text).toList = '[' :: t.category.text.toList :=
    String.toList_append
  have hopen : ∀ b, (Doc.text ("[" ++ t.category.text)).readable? "" b = some false :=
    readable?_text htoList (by simpa [htoList] using hcategory) (by decide)
  have hclose : ∀ b, (Doc.text "]").readable? "" b = some false :=
    readable?_text rfl (by decide) (by decide)
  obtain ⟨id, parent?, category, below⟩ := t
  cases below with
  | nil => simp only [doc, readable?_append, hopen, Option.bind_some, hclose]
  | cons =>
    simp only [doc, readable?_group, readable?_nest, readable?_append, hopen, hbelow, hclose,
      Option.bind_some]

end Subtree

namespace Forest

theorem flat_docs (f : Forest) : f.docs.flat = f.text := by
  induction f with
  | nil => rfl
  | cons c below beside ihBelow ihBeside =>
    have hnode := Subtree.flat_doc_eq ⟨0, none, c, below⟩
    have hbreak : softbreak.flat = "" := rfl
    rw [docs_cons ⟨0, none, c, below⟩, flat_append, flat_append, hbreak, String.empty_append,
      hnode, ihBelow, ihBeside, text]

theorem readable?_docs {f : Forest} (h : ∀ c ∈ f.categories, '\n' ∉ c.text.toList) :
    f.docs.readable? "" false = some false := by
  induction f with
  | nil => rfl
  | cons c below beside ihBelow ihBeside =>
    rw [categories, List.forall_mem_cons, List.forall_mem_append] at h
    obtain ⟨hc, hbelow, hbeside⟩ := h
    have hnode : ∀ b, (Subtree.doc ⟨0, none, c, below⟩).readable? "" b = some false :=
      Subtree.readable?_doc_of_below hc (ihBelow hbelow)
    rw [docs_cons ⟨0, none, c, below⟩, readable?_append, readable?_append, readable?_softbreak,
      Option.bind_some, hnode, Option.bind_some, ihBeside hbeside]

end Forest

namespace Subtree

/-- The text of a tree is that of its document. -/
theorem flat_doc (t : Subtree) : t.doc.flat = t.text := by
  rw [flat_doc_eq, Forest.flat_docs]
  simp [text, Forest.text]

theorem readable?_doc {t : Subtree} (h : ∀ c ∈ t.categories, '\n' ∉ c.text.toList) (b : Bool) :
    t.doc.readable? "" b = some false :=
  readable?_doc_of_below (h _ List.mem_cons_self)
    (Forest.readable?_docs fun c hc => h c (List.mem_cons_of_mem _ hc)) b

/-- A tree whose text fits is laid out on one line. -/
theorem render_eq_text {t : Subtree} {width : Nat} (h : t.text.utf8ByteSize ≤ width) :
    t.render width = t.text := by
  rw [← flat_doc] at h ⊢
  obtain ⟨id, parent?, category, below⟩ := t
  cases below with
  | nil =>
    rw [render, ← String.toList_inj, toList_render, doc, characters_place_append,
      characters_place_text, characters_place_text]
    simp only [flat_append, flat, String.toList_append]
  | cons => exact render_group h

end Subtree

/-! ## Texts of numbers -/

/-- Digits and a point are no newline. -/
theorem newline_notMem_positional (n : Nat) (tens : Int) :
    '\n' ∉ Decimal.positional n tens := by
  have hdigits : '\n' ∉ Nat.toDigits 10 n := fun h =>
    absurd (Nat.isDigit_of_mem_toDigits (by decide) (by decide) h) (by decide)
  have hzeros : ∀ k, '\n' ∉ List.replicate k '0' := fun k h =>
    absurd (List.eq_of_mem_replicate h) (by decide)
  unfold Decimal.positional
  simp only
  split
  · exact List.not_mem_append hdigits (hzeros _)
  · have hpadded := List.not_mem_append (hzeros ((-tens).toNat + 1 - (Nat.toDigits 10 n).length))
      hdigits
    refine List.not_mem_append (fun h => hpadded (List.mem_of_mem_take h)) ?_
    rintro (_ | ⟨_, h⟩)
    exact hpadded (List.mem_of_mem_drop h)

theorem newline_notMem_signed {digits : List Char} (h : '\n' ∉ digits) (negative : Bool) :
    '\n' ∉ (String.ofList (if negative then '-' :: digits else digits)).toList := by
  rw [String.toList_ofList]
  cases negative with
  | false => exact h
  | true => exact List.not_mem_cons_of_ne_of_not_mem (by decide) h

/-- The text of a double is one line. -/
theorem newline_notMem_shortest (x : Float) : '\n' ∉ (Decimal.shortest x).toList := by
  unfold Decimal.shortest
  cases Decimal.Reading.ofFloat x with
  | nan => decide
  | infinite negative => cases negative <;> decide
  | finite negative significand exponent =>
    refine newline_notMem_signed ?_ negative
    split
    · decide
    · split
      · exact newline_notMem_positional _ _
      · exact List.not_mem_nil

/-! ## Grammars -/

/-- Whether a name is not empty and holds neither a blank nor a newline. -/
def Names.solid (name : String) : Bool :=
  name != "" && !name.toList.contains ' ' && !name.toList.contains '\n'

/-- The name in a symbol. -/
def Symbol.name? : Symbol → Option String
  | error => none
  | terminal name => some name
  | nonterminal name => some name

/-- The names in a grammar. -/
def Grammar.names {π : Type} [Number π] (G : Grammar π) : List String :=
  G.start :: G.definitions.flatMap fun d => d.head :: d.body.filterMap Symbol.name?

theorem readable?_solid {joint name : String} (h : Names.solid name = true) (b : Bool) :
    (Doc.text name).readable? joint b = some false := by
  simp only [Names.solid, Bool.and_eq_true, bne_iff_ne, Bool.not_eq_true',
    List.contains_eq_mem, decide_eq_false_iff_not] at h
  obtain ⟨⟨hempty, hblank⟩, hnewline⟩ := h
  cases hname : name.toList with
  | nil => exact absurd (String.toList_eq_nil_iff.1 hname) hempty
  | cons c cs =>
    refine readable?_text hname hnewline ?_ b
    rintro rfl
    exact hblank (hname ▸ List.mem_cons_self)

theorem Symbol.readable?_doc {s : Symbol} {joint : String}
    (h : ∀ name, s.name? = some name → Names.solid name = true) (b : Bool) :
    s.category.doc.readable? joint b = some false := by
  cases s with
  | error => exact readable?_solid (by decide) b
  | terminal name => exact readable?_solid (h name rfl) b
  | nonterminal name =>
    have hopen : ∀ b, (Doc.text "<").readable? joint b = some false := readable?_solid (by decide)
    have hclose : ∀ b, (Doc.text ">").readable? joint b = some false := readable?_solid (by decide)
    have hname : ∀ b, (Doc.text name).readable? joint b = some false := readable?_solid (h name rfl)
    simp only [category, Category.doc, readable?_append, hopen, hname, hclose, Option.bind_some]

/-- Names with blanks between them. -/
theorem readable?_intersperse {symbols : List Symbol}
    (h : ∀ s ∈ symbols, ∀ name, s.name? = some name → Names.solid name = true)
    (hne : symbols ≠ []) (b : Bool) :
    (intersperse softline (symbols.map fun s => s.category.doc)).readable? " " b = some false := by
  induction symbols generalizing b with
  | nil => exact absurd rfl hne
  | cons s symbols ih =>
    rw [List.forall_mem_cons] at h
    have hs : ∀ b, s.category.doc.readable? " " b = some false := Symbol.readable?_doc h.1
    cases symbols with
    | nil => exact hs b
    | cons s' symbols =>
      have hrest := ih h.2 (List.cons_ne_nil s' symbols) true
      simp only [List.map_cons] at hrest
      simp only [List.map_cons, intersperse, readable?_append, hs, Option.bind_some,
        readable?_softline, hrest]

theorem Definition.readable?_doc {d : Definition Float}
    (hhead : Names.solid d.head = true)
    (hbody : ∀ s ∈ d.body, ∀ name, s.name? = some name → Names.solid name = true)
    (hne : d.body ≠ []) (b : Bool) :
    d.rule.doc.readable? " " b = some false := by
  have hleft : ∀ b, d.rule.left.doc.readable? " " b = some false :=
    Symbol.readable?_doc (s := .nonterminal d.head) fun name h => Option.some.inj h ▸ hhead
  have harrow : (Doc.text " =>").readable? " " false = some false := by decide
  have hright : d.rule.bodyDoc.readable? " " true = some false := by
    have hmap : d.rule.right.map Category.doc = d.body.map fun s => s.category.doc := List.map_map
    rw [Production.bodyDoc, if_neg (by simpa [Definition.rule, Definition.production] using hne),
      hmap]
    exact readable?_intersperse hbody hne true
  have hprobability : (Doc.text (" (" ++ Number.text d.rule.probability ++ ")")).readable? " "
      false = some false := by
    have htext : '\n' ∉ (Number.text d.rule.probability).toList :=
      newline_notMem_shortest d.probability
    exact readable?_text_false (by simpa using htext)
  simp only [Rule.doc, readable?_group, readable?_append, hleft, harrow, readable?_softline, hright,
    hprobability, Option.bind_some]

theorem readable?_rules {definitions : List (Definition Float)}
    (h : ∀ d ∈ definitions, ∀ b, d.rule.doc.readable? " " b = some false) :
    (concat (definitions.map fun d => d.rule.doc ++ .text ";" ++ .softline)).readable? " " true =
      some true := by
  induction definitions with
  | nil => rfl
  | cons d definitions ih =>
    rw [List.forall_mem_cons] at h
    have hend : (Doc.text ";").readable? " " false = some false := by decide
    simp only [List.map_cons, concat, readable?_append, h.1, hend, readable?_softline, ih h.2,
      Option.bind_some]

namespace Grammar

theorem readable?_doc {G : Grammar Float} (h : ∀ name ∈ G.names, Names.solid name = true) :
    G.doc.readable? " " false = some true := by
  rw [names, List.forall_mem_cons, List.forall_mem_flatMap] at h
  obtain ⟨hstart, hdefinitions⟩ := h
  have hrules : ∀ d ∈ G.definitions, ∀ b, d.rule.doc.readable? " " b = some false := by
    intro d hd
    have hnames := hdefinitions d hd
    rw [List.forall_mem_cons] at hnames
    refine d.readable?_doc hnames.1 ?_ ?_
    · exact fun s hs name hname => hnames.2 name (List.mem_filterMap.2 ⟨s, hs, hname⟩)
    · have hright := right_ne_nil (List.mem_map_of_mem hd : d.rule ∈ G.rules)
      simpa [Definition.rule, Definition.production] using hright
  have hstart : (Doc.text G.start).readable? " " true = some false := readable?_solid hstart true
  have hrules := readable?_rules hrules
  have hmap : G.rules.map (fun r => r.doc ++ Doc.text ";" ++ softline) =
    G.definitions.map fun d => d.rule.doc ++ Doc.text ";" ++ softline := List.map_map
  rw [← hmap] at hrules
  have hlabel : (Doc.text "Start =").readable? " " false = some false := by decide
  have hcomma : (Doc.text ",").readable? " " false = some false := by decide
  have hheading : (Doc.text "Rules ").readable? " " true = some false := by decide
  have hopen : (Doc.text "\x7b").readable? " " false = some false := by decide
  have hclose : (Doc.text "\x7d").readable? " " true = some false := by decide
  have hnil : Doc.nil.readable? " " true = some true := rfl
  simp only [doc, List.map_cons, List.map_nil, concat, braces, readable?_append, readable?_group,
    readable?_nest, readable?_softline, hstart, hrules, hlabel, hcomma, hheading, hopen, hclose,
    hnil, Option.bind_some]

end Grammar

/-- **Rendering changes white space only.** Take every newline out of a layout of a tree, with the
blanks behind it, and the text of the tree is left, unless the name of a category holds a newline;
and where that text fits it is the layout. Put a blank in place of every newline and the blanks
behind it, and all layouts of an accepted grammar become the same text, if its names are not empty
and hold no white space. -/
theorem layouts_read_back :
    (∀ (t : ParseTree) (width : ℕ), (∀ c ∈ t.root.categories, '\n' ∉ c.text.toList) →
      unbroken "" (t.render width) = t.text) ∧
    (∀ (t : ParseTree) (width : ℕ), t.text.utf8ByteSize ≤ width → t.render width = t.text) ∧
    (∀ G : Grammar Float, (∀ name ∈ G.names, Names.solid name = true) →
      ∀ width, unbroken " " (G.render width) = G.doc.flat) := by
  refine ⟨fun t width h => ?_, fun t width h => Subtree.render_eq_text h, fun G h width => ?_⟩
  · exact (unbroken_render (Subtree.readable?_doc h false) width).trans (Subtree.flat_doc t.root)
  · exact unbroken_render (Grammar.readable?_doc h) width

/-- A tree with two branches. -/
def Examples.twoBranches : ParseTree where
  category := .nonterminal "S"
  below := .cons (.nonterminal "S") (.leaf (.terminal "a"))
    (.cons (.nonterminal "S") (.leaf (.terminal "a")) .nil)
  beside := .nil

/-- The left-recursive grammar over doubles. -/
def Examples.leftRecursiveDoubles : Grammar Float :=
  ⟨"E", leftRecursive, by decide +kernel, _, rfl⟩

/-- The text of the tree has 15 bytes, so it is broken at width 8 and not at width 15. -/
theorem layouts_read_back_twoBranches :
    Examples.twoBranches.render 8 ≠ Examples.twoBranches.text ∧
      unbroken "" (Examples.twoBranches.render 8) = Examples.twoBranches.text ∧
      Examples.twoBranches.render 15 = Examples.twoBranches.text ∧
      (∀ name ∈ Examples.leftRecursiveDoubles.names, Names.solid name = true) ∧
      ∀ width, unbroken " " (Examples.leftRecursiveDoubles.render width) =
        Examples.leftRecursiveDoubles.doc.flat := by
  have hnames : ∀ name ∈ Examples.leftRecursiveDoubles.names, Names.solid name = true := by decide
  refine ⟨by decide +kernel, ?_, ?_, hnames, ?_⟩
  · exact layouts_read_back.1 Examples.twoBranches 8 (by decide)
  · exact layouts_read_back.2.1 Examples.twoBranches 15 (by decide)
  · exact layouts_read_back.2.2 Examples.leftRecursiveDoubles hnames

end SemiringParsing
