import SemiringParsing.Layout.Render

/-!
# Reading layouts back

A layout is a document with some of its lines broken. Put in place of every newline, with the
blanks behind it, what stands there when the line is not broken, and the text of the document comes
back (`Doc.unbroken_render`). Which lines are broken, and how far the next is indented, is then no
longer seen.

Not every document has that property. A newline may be text, and then it is no break. Two kinds of
lines in one document differ in what they stand for. A blank that begins a text may not be told from
the indentation before it. `Doc.readable?` goes along a document and looks for all this. The only
thing that it has to keep in mind is whether a newline may stand right before.
-/

namespace SemiringParsing

/-- The characters with a joint in place of every newline and the blanks behind it. The flag says
that nothing but blanks stands between the last newline and what comes. -/
def unbreak (joint : List Char) : (behindBreak : Bool) → List Char → List Char
  | _, [] => []
  | behindBreak, c :: cs =>
    if c = '\n' then joint ++ unbreak joint true cs
    else if behindBreak && c = ' ' then unbreak joint true cs
    else c :: unbreak joint false cs

/-- The text with a joint in place of every newline and the blanks behind it. -/
def unbroken (joint s : String) : String :=
  String.ofList (unbreak joint.toList false s.toList)

namespace Doc

/-- Whether the breaks in all layouts of a document can be told from its text, and all of them stand
for the joint. The flag says that the document may come right behind a break, and the answer whether
what follows it may. -/
def readable? (joint : String) : Doc → (behindBreak : Bool) → Option Bool
  | nil, behindBreak => some behindBreak
  | text s, behindBreak =>
    if '\n' ∈ s.toList ∨ behindBreak ∧ s.toList.head? = some ' ' then none
    else some (behindBreak && s.toList.isEmpty)
  | line, behindBreak => if joint = " " ∧ !behindBreak then some true else none
  | lineOrNothing, _ => if joint = "" then some true else none
  | append d e, behindBreak => (d.readable? joint behindBreak).bind (e.readable? joint)
  | nest _ d, behindBreak => d.readable? joint behindBreak
  | group d, behindBreak => d.readable? joint behindBreak

end Doc

/-- The characters of some pieces. -/
def Piece.characters (pieces : List Piece) : List Char :=
  pieces.flatMap fun p => p.toString.toList

@[simp] theorem Piece.characters_append (ps qs : List Piece) :
    characters (ps ++ qs) = characters ps ++ characters qs :=
  List.flatMap_append

variable {joint : List Char} {b : Bool}

/-! ## Characters -/

theorem unbreak_newline (cs : List Char) :
    unbreak joint b ('\n' :: cs) = joint ++ unbreak joint true cs :=
  if_pos rfl

/-- Indentation is dropped. -/
theorem unbreak_blanks (n : Nat) (cs : List Char) :
    unbreak joint true (List.replicate n ' ' ++ cs) = unbreak joint true cs := by
  induction n with
  | zero => rfl
  | succ n ih => exact ih

theorem unbreak_cons {c : Char} (hc : c ≠ '\n') (hb : b = true → c ≠ ' ') (cs : List Char) :
    unbreak joint b (c :: cs) = c :: unbreak joint false cs := by
  rw [unbreak, if_neg hc, if_neg]
  rw [Bool.and_eq_true, decide_eq_true_iff]
  exact fun h => hb h.1 h.2

/-- What holds no newline is kept as it is, unless it begins with a blank behind a break. -/
theorem unbreak_append {t : List Char} (ht : '\n' ∉ t) (hb : b = true → t.head? ≠ some ' ')
    (cs : List Char) :
    unbreak joint b (t ++ cs) = t ++ unbreak joint (b && t.isEmpty) cs := by
  induction t generalizing b with
  | nil => rw [List.nil_append, List.nil_append, List.isEmpty_nil, Bool.and_true]
  | cons c t ih =>
    have hc : c ≠ '\n' := fun h => ht (h ▸ List.mem_cons_self)
    have htail : unbreak joint false (t ++ cs) = t ++ unbreak joint false cs :=
      ih (fun h => ht (List.mem_cons_of_mem c h)) nofun
    rw [List.cons_append, unbreak_cons hc fun h => by simpa using hb h, htail,
      List.isEmpty_cons, Bool.and_false, List.cons_append]

/-- What a broken line is read as. -/
theorem unbreak_brokenLine (indent : Nat) (cs : List Char) :
    unbreak joint b (Piece.characters [.newline indent] ++ cs) =
      joint ++ unbreak joint true cs := by
  have hpiece : Piece.characters [.newline indent] = '\n' :: List.replicate indent ' ' := by
    simp [Piece.characters, Piece.toString]
  rw [hpiece, List.cons_append, unbreak_newline, unbreak_blanks]

/-! ## Documents -/

namespace Doc

variable {joint : String} {b b' : Bool} {d e : Doc}

@[simp] theorem flat_append : (d ++ e).flat = d.flat ++ e.flat := rfl

@[simp] theorem readable?_append :
    (d ++ e).readable? joint b = (d.readable? joint b).bind (e.readable? joint) := rfl

@[simp] theorem readable?_nest {n : Nat} :
    (nest n d).readable? joint b = d.readable? joint b := rfl

@[simp] theorem readable?_group : (group d).readable? joint b = d.readable? joint b := rfl

@[simp] theorem readable?_softline : softline.readable? " " false = some true := rfl

@[simp] theorem readable?_softbreak : softbreak.readable? "" b = some true := rfl

/-- Where there is no break, a text needs only be one line. -/
theorem readable?_text_false {s : String} (hnewline : '\n' ∉ s.toList) :
    (text s).readable? joint false = some false :=
  if_neg fun h => h.elim hnewline fun h => Bool.false_ne_true h.1

/-- A text that begins with anything but a blank may stand anywhere, and no break is right before
what follows it. -/
theorem readable?_text {s : String} {c : Char} {cs : List Char} (hs : s.toList = c :: cs)
    (hnewline : '\n' ∉ s.toList) (hc : c ≠ ' ') (b : Bool) :
    (text s).readable? joint b = some false := by
  rw [readable?, if_neg]
  · rw [hs, List.isEmpty_cons, Bool.and_false]
  · rintro (h | ⟨-, h⟩)
    · exact hnewline h
    · rw [hs] at h
      exact hc (Option.some.inj h)

theorem characters_place_text (width : Nat) (s : String) (onOneLine : Bool) (indent column : Nat)
    (rest : List Doc) :
    Piece.characters ((text s).place width onOneLine indent column rest).1 = s.toList := by
  simp [place, Piece.characters, Piece.toString]

theorem characters_place_append (width : Nat) (d e : Doc) (onOneLine : Bool) (indent column : Nat)
    (rest : List Doc) :
    Piece.characters ((d ++ e).place width onOneLine indent column rest).1 =
      Piece.characters (d.place width onOneLine indent column (e :: rest)).1 ++
        Piece.characters (e.place width onOneLine indent
          (d.place width onOneLine indent column (e :: rest)).2 rest).1 :=
  Piece.characters_append _ _

/-- **What is laid out is read back.** In front of a document there may or may not be a break. If
the document is readable where there may be one, its layout is read as its text, with anything
behind. -/
theorem unbreak_place (width : Nat) (h : d.readable? joint b = some b') {actual : Bool}
    (hactual : actual = true → b = true) (onOneLine : Bool) (indent column : Nat)
    (rest : List Doc) :
    ∃ actual' : Bool, (actual' = true → b' = true) ∧ ∀ cs,
      unbreak joint.toList actual
          (Piece.characters (d.place width onOneLine indent column rest).1 ++ cs) =
        d.flat.toList ++ unbreak joint.toList actual' cs := by
  induction d generalizing b b' actual onOneLine indent column rest with
  | nil =>
    obtain rfl := Option.some.inj h
    exact ⟨actual, hactual, fun cs => rfl⟩
  | text s =>
    rw [readable?] at h
    split at h
    · cases h
    next hs =>
    obtain rfl := Option.some.inj h
    rw [not_or] at hs
    refine ⟨actual && s.toList.isEmpty, ?_, fun cs => ?_⟩
    · simp only [Bool.and_eq_true]
      exact And.imp_left hactual
    · rw [characters_place_text, unbreak_append hs.1 fun ha hhead => hs.2 ⟨hactual ha, hhead⟩,
        flat]
  | line =>
    rw [readable?] at h
    split at h
    · next hjoint =>
      obtain rfl := Option.some.inj h
      obtain ⟨rfl, hb⟩ := hjoint
      -- behind a break the blank of the unbroken line would be dropped, but there is none
      have hactual : actual = false := by
        cases actual with
        | false => rfl
        | true => simp [hactual rfl] at hb
      cases onOneLine with
      | false => exact ⟨true, id, unbreak_brokenLine indent⟩
      | true => exact ⟨false, nofun, unbreak_cons (by decide) (fun h => nomatch hactual ▸ h)⟩
    · cases h
  | lineOrNothing =>
    rw [readable?] at h
    split at h
    · next hjoint =>
      obtain rfl := Option.some.inj h
      subst hjoint
      cases onOneLine with
      | false => exact ⟨true, id, unbreak_brokenLine indent⟩
      | true => exact ⟨actual, fun _ => rfl, fun cs => rfl⟩
    · cases h
  | append d e ihd ihe =>
    obtain ⟨b₁, hd, he⟩ := Option.bind_eq_some_iff.1 h
    obtain ⟨actual₁, hactual₁, hfirst⟩ := ihd hd hactual onOneLine indent column (e :: rest)
    obtain ⟨actual₂, hactual₂, hsecond⟩ := ihe he hactual₁ onOneLine indent
      (d.place width onOneLine indent column (e :: rest)).2 rest
    refine ⟨actual₂, hactual₂, fun cs => ?_⟩
    refine (congrArg (unbreak joint.toList actual <| · ++ cs)
      (characters_place_append ..)).trans ?_
    rw [List.append_assoc, hfirst, hsecond, flat, String.toList_append, List.append_assoc]
  | nest n d ih => exact ih h hactual onOneLine (indent + n) column rest
  | group d ih => exact ih h hactual _ indent column rest

theorem toList_render (width : Nat) (d : Doc) :
    (d.render width).toList = Piece.characters (d.place width false 0 0 []).1 := by
  rw [render, String.toList_join, List.flatMap_map, Piece.characters]

/-- **The text of a readable document is read in all of its layouts.** -/
theorem unbroken_render (h : d.readable? joint false = some b) (width : Nat) :
    unbroken joint (d.render width) = d.flat := by
  obtain ⟨actual, -, hread⟩ := unbreak_place width h (fun ha => ha) false 0 0 []
  have hread := hread []
  rw [List.append_nil, unbreak, List.append_nil] at hread
  rw [unbroken, toList_render, hread, String.ofList_toList]

example : unbroken " " "a\n  b c" = "a b c" := by decide

/-! ## Documents that fit -/

theorem advance_eq_reached {width column bytes : Nat} (h : column + bytes ≤ width) :
    Lookahead.advance width column bytes = .reached (column + bytes) :=
  if_pos h

theorem look_onOneLine {width column : Nat} (h : column + d.flat.utf8ByteSize ≤ width) :
    d.look width true column = .reached (column + d.flat.utf8ByteSize) := by
  induction d generalizing column with
  | nil => rfl
  | text s => exact advance_eq_reached h
  | line => exact advance_eq_reached h
  | lineOrNothing => rfl
  | append d e ihd ihe =>
    rw [flat, String.utf8ByteSize_append] at h
    rw [look, ihd (by omega), Lookahead.andThen, ihe (by omega), flat,
      String.utf8ByteSize_append, Nat.add_assoc]
  | nest n d ih => exact ih h
  | group d ih => exact ih h

/-- On one line a document is its text. -/
theorem place_onOneLine (width indent column : Nat) (rest : List Doc) :
    Piece.characters (d.place width true indent column rest).1 = d.flat.toList := by
  induction d generalizing indent column rest with
  | nil => rfl
  | text s => exact characters_place_text ..
  | line => rfl
  | lineOrNothing => rfl
  | append d e ihd ihe =>
    refine (characters_place_append ..).trans ?_
    rw [ihd, ihe, flat, String.toList_append]
  | nest n d ih => exact ih (indent + n) column rest
  | group d ih => exact ih indent column rest

/-- A group that fits is laid out as its text. -/
theorem render_group {width : Nat} (h : d.flat.utf8ByteSize ≤ width) :
    (group d).render width = d.flat := by
  have hfits : d.fits width 0 [] = true := by
    rw [fits, look_onOneLine (by omega)]
    rfl
  rw [← String.toList_inj, toList_render, place, hfits, Bool.false_or, place_onOneLine]

end Doc

end SemiringParsing
