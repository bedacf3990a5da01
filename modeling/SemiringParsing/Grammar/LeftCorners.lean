import SemiringParsing.Algebra.Basic
import SemiringParsing.Grammar.Basic

/-!
# Left corners

A nonterminal `Y` is a left corner of `Z` with weight `w` when the derivations `Z => Y ...` that
expand only the leftmost nonterminal have the combined score `w`. Predicting from the left
corners reaches every rule that can begin a `Z` at once, however the grammar recurses on the
left.

The weights are the reflexive transitive closure of the scores of single steps. Nonterminals
are allowed as inner nodes of a path one after the other: a path through the new one goes to
it, around it any number of times, and on from it.
-/

namespace SemiringParsing

/-- For each nonterminal the nonterminals that can begin it, with their weights. -/
structure LeftCorners (α : Type) where
  table : Std.TreeMap Category (List (Category × α))

namespace LeftCorners

variable {π α : Type}

/-- The score of expanding one nonterminal so that another comes first, all rules together. -/
def stepScore (S : ScoreAlgebra π α) (rules : List (Rule π)) (source target : String) : α :=
  (rules.filter fun r =>
      r.left == .nonterminal source && r.categoryAt? 0 == some (.nonterminal target)).foldl
    (fun score r => S.plus score (S.ofProbability r.probability)) S.zero

/-- The scores of single steps between some nonterminals. -/
def steps (S : ScoreAlgebra π α) (rules : List (Rule π)) (names : List String) :
    SquareTable α names.length :=
  .ofFn fun i j => stepScore S rules (names.get i) (names.get j)

/-- Allows `k` as an inner node of paths. A row that does not reach `k` stays as it is. -/
def allow (S : ScoreAlgebra π α) {n : Nat} (k : Fin n) (t : SquareTable α n) :
    SquareTable α n :=
  let around := S.star (t.entry k k)
  .ofRows fun i =>
    let into := S.times (t.entry i k) around
    if S.eq into S.zero then t.get i
    else .ofFn fun j => S.plus (t.entry i j) (S.times into (t.entry k j))

/-- The combined scores of all paths of one step or more. -/
def closure (S : ScoreAlgebra π α) {n : Nat} (t : SquareTable α n) : SquareTable α n :=
  (List.finRange n).foldl (fun t k => allow S k t) t

/-- The weight of a left corner: what the paths to it score, and `one` more for standing
still. -/
def weight (S : ScoreAlgebra π α) {n : Nat} (t : SquareTable α n) (i j : Fin n) : α :=
  if i = j then S.plus S.one (t.entry i j) else t.entry i j

/-- The left corners of a nonterminal whose weight is not zero. -/
def row (S : ScoreAlgebra π α) (names : List String)
    (t : SquareTable α names.length) (i : Fin names.length) : List (Category × α) :=
  (List.finRange names.length).filterMap fun j =>
    let w := weight S t i j
    if S.eq w S.zero then none else some (.nonterminal (names.get j), w)

/-- The left corners over a list of nonterminals. -/
def ofRules (S : ScoreAlgebra π α) (names : List String) (rules : List (Rule π)) :
    LeftCorners α :=
  let t := closure S (steps S rules names)
  ⟨.ofList ((List.finRange names.length).map fun i => (.nonterminal (names.get i), row S names t i)) _⟩

/-- The left corners of a grammar. -/
def ofGrammar [Number π] (S : ScoreAlgebra π α) (G : Grammar π) : LeftCorners α :=
  ofRules S G.nonterminals G.rules

/-- Every nonterminal that can begin a derivation of a category, that category included, with
the weight of getting there. -/
def reachableFrom (corners : LeftCorners α) (category : Category) : List (Category × α) :=
  corners.table.getD category []

end LeftCorners

end SemiringParsing
