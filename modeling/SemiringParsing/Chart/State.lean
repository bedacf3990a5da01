import SemiringParsing.Grammar.Rule

/-!
# States

A state says how much of a rule has been matched by the input between two positions. In
`[0, 2] S => NP . VP` an `NP` was matched between positions 0 and 2, and a `VP` is still
expected. The position where the match began is the origin of the state.

The dot is within the rule and the origin is not past the position: both are part of the type.
Scores are not part of a state, and neither is the probability of its rule part of what makes
two states equal: that is the `Item` of a state.
-/

namespace SemiringParsing

/-- What identifies a state. -/
structure Item where
  production : Production
  position : Nat
  origin : Nat
  dot : Nat
  deriving DecidableEq, Repr

namespace Item

/-- Items are compared by their numbers first, which is cheap and mostly decides. -/
def order : Item → Item → Ordering :=
  compareLex (compareOn position) (compareLex (compareOn origin)
    (compareLex (compareOn dot) (compareOn production)))

instance : Ord Item := ⟨order⟩

instance : Std.TransOrd Item :=
  inferInstanceAs (Std.TransCmp (compareLex (compareOn position) (compareLex (compareOn origin)
    (compareLex (compareOn dot) (compareOn production)))))

instance : Std.LawfulEqOrd Item where
  eq_of_compare {i j} h := by
    obtain ⟨hposition, h⟩ := compareLex_eq_eq_iff.1 h
    obtain ⟨horigin, h⟩ := compareLex_eq_eq_iff.1 h
    obtain ⟨hdot, hproduction⟩ := compareLex_eq_eq_iff.1 h
    replace hposition := compareOn_eq_eq_iff.1 hposition
    replace horigin := compareOn_eq_eq_iff.1 horigin
    replace hdot := compareOn_eq_eq_iff.1 hdot
    replace hproduction := compareOn_eq_eq_iff.1 hproduction
    cases i
    cases j
    simp_all

end Item

/-- A rule matched up to a dot by the input from `origin` to `position`. -/
structure State (π : Type) where
  rule : Rule π
  position : Nat
  origin : Nat
  dot : Nat
  dot_le : dot ≤ rule.length
  origin_le : origin ≤ position

/-- Why four numbers and a rule are not a state. -/
inductive StateError
  | dotPastEnd (dot : Nat) (rule : Production)
  | originPastPosition
  deriving DecidableEq, Repr

/-- The text of an error. -/
def StateError.message : StateError → String
  | dotPastEnd dot rule =>
    "dot " ++ toString dot ++ " is past the end of rule \x60" ++ rule.text ++ "\x60"
  | originPastPosition => "assertion failed: rule_start <= position"

namespace State

variable {π : Type}

/-- The state with these parts, if its dot is within the rule and its origin not past its
position. -/
def create (rule : Rule π) (position origin dot : Nat) : Except StateError (State π) :=
  if h : dot ≤ rule.length then
    if h' : origin ≤ position then .ok ⟨rule, position, origin, dot, h, h'⟩
    else .error .originPastPosition
  else .error (.dotPastEnd dot rule.toProduction)

/-- The state that expects all of a rule from a position on. -/
def begin (rule : Rule π) (position : Nat) : State π where
  rule := rule
  position := position
  origin := position
  dot := 0
  dot_le := Nat.zero_le _
  origin_le := Nat.le_refl _

/-- What identifies the state. -/
def item (s : State π) : Item where
  production := s.rule.toProduction
  position := s.position
  origin := s.origin
  dot := s.dot

instance : BEq (State π) := ⟨fun s t => s.item == t.item⟩

/-- Whether the whole rule has been matched. -/
def isCompleted (s : State π) : Bool :=
  s.dot == s.rule.length

/-- The category behind the dot, which is expected next. -/
def active? (s : State π) : Option Category :=
  s.rule.categoryAt? s.dot

/-- The state with its dot moved over one category and matched up to a new position, unless it is
completed. -/
def advance (s : State π) (next : Nat) : Except StateError (Option (State π)) :=
  if s.isCompleted then .ok none
  else (create s.rule next s.origin (s.dot + 1)).map some

/-- Whether the state expects all of a rule below the top, so that it was predicted. -/
def isPredicted (s : State π) : Bool :=
  s.dot == 0 && s.rule.left != .start

/-- The right side of a production with a dot in it. -/
def dotted (dot : Nat) (right : List Category) : String :=
  let names (cs : List Category) := String.join (cs.map fun c => " " ++ c.text)
  names (right.take dot) ++ " ." ++ names (right.drop dot)

/-- The text of a state. -/
def text (s : State π) : String :=
  "[" ++ toString s.origin ++ ", " ++ toString s.position ++ "] " ++ s.rule.left.text ++ " =>" ++
    dotted s.dot s.rule.right

end State

end SemiringParsing
