import SemiringParsing.Grammar.Rule
import SemiringParsing.Number.Basic
import SemiringParsing.SquareTable

/-!
# Cycles of unit productions

With `U` the table of unit production probabilities between nonterminals, the weight of all
chains of unit productions is `I + U + U ^ 2 + ...`. The series converges exactly when the
elimination of `I - U`, without exchanging rows, meets only positive pivots; the pivot of a
nonterminal is one less the weight of the chains that lead back to it through earlier
nonterminals. `UnitCycle.divergent?` runs the elimination and answers the first nonterminal
whose pivot fails.
-/

namespace SemiringParsing.UnitCycle

variable {π : Type} [Number π]

/-- Pivots at or below this count as zero. -/
def tolerance : π := 1e-12

/-- Whether a production expands one nonterminal to another and nothing else. -/
def isStep (p : Production) (source target : String) : Bool :=
  p.left == .nonterminal source && p.right == [.nonterminal target]

/-- The table `I - U` over some nonterminals. -/
def system (names : List String) (rules : List (Rule π)) : SquareTable π names.length :=
  .ofFn fun i j =>
    (rules.filter fun r => isStep r.toProduction (names.get i) (names.get j)).foldl
      (fun entry r => entry - r.probability) (if i = j then 1 else 0)

/-- Clears the column of pivot `k` below it. -/
def eliminate {n : Nat} (k : Fin n) (t : SquareTable π n) : SquareTable π n :=
  .ofRows fun i =>
    let factor := t.entry i k / t.entry k k
    if i ≤ k || Number.eq factor 0 then t.get i
    else .ofFn fun j => if j < k then t.entry i j else t.entry i j - factor * t.entry k j

/-- The first of the given pivots that is not positive, each cleared before the next. -/
def failingPivot? {n : Nat} : List (Fin n) → SquareTable π n → Option (Fin n)
  | [], _ => none
  | k :: ks, t =>
    if Number.le (t.entry k k) tolerance then some k else failingPivot? ks (eliminate k t)

/-- The first nonterminal at which the chains of unit productions add up to infinity. -/
def divergent? (names : List String) (rules : List (Rule π)) : Option String :=
  (failingPivot? (List.finRange names.length) (system names rules)).map fun k => names.get k

end SemiringParsing.UnitCycle
