import SemiringParsing.Algebra.Standard
import SemiringParsing.Decimal.Fixed
import SemiringParsing.Grammar.Examples
import SemiringParsing.Grammar.Layout
import SemiringParsing.Number.Double
import SemiringParsing.Parser
import SemiringParsing.Tree.Layout
import SemiringParsing.Tree.View
import SemiringParsing.Proofs.Number.Exact
import SemiringParsing.Proofs.Recognition
import SemiringParsing.Proofs.Tree.FirstLinks
import SemiringParsing.Proofs.Algebra.Semiring
import SemiringParsing.Proofs.Sweep.Value
import SemiringParsing.Proofs.Sweep.Balance
import SemiringParsing.Proofs.Sweep.Moves
import SemiringParsing.Proofs.Tree.Weight
import SemiringParsing.Proofs.Sweep.Accounts
import SemiringParsing.Proofs.Grammar.UnitRank
import SemiringParsing.Proofs.Tree.Inside
import SemiringParsing.Proofs.Tree.Recurrence
import SemiringParsing.Proofs.Sweep.FinalValues
import SemiringParsing.Proofs.Sweep.Settling
import SemiringParsing.Proofs.Sweep.Termination
import SemiringParsing.Proofs.TotalWeight
import SemiringParsing.Proofs.Number.Nonneg
import SemiringParsing.Proofs.Sweep.Online
import SemiringParsing.Proofs.Chart.Rescored
import SemiringParsing.Proofs.Sweep.Outline
import SemiringParsing.Proofs.Sweep.Side
import SemiringParsing.Proofs.Sweep.Forward
import SemiringParsing.Proofs.Sweep.Equations
import SemiringParsing.Proofs.Grammar.CornerWeights
import SemiringParsing.Proofs.Grammar.LeftRecursion
import SemiringParsing.Proofs.Tree.Open
import SemiringParsing.Proofs.Tree.Outside
import SemiringParsing.Proofs.Sweep.ForwardValues
import SemiringParsing.Proofs.PrefixWeight
import SemiringParsing.Proofs.Sweep.Confined
import SemiringParsing.Proofs.Sweep.Room
import SemiringParsing.Proofs.Termination
import SemiringParsing.Proofs.Algebra.Selective
import SemiringParsing.Proofs.Sweep.BestValues
import SemiringParsing.Proofs.BestDerivation
import SemiringParsing.Proofs.Number.Best
import SemiringParsing.Proofs.Algebra.Truth
import SemiringParsing.Proofs.Reachability
import SemiringParsing.Proofs.Tree.Circles
import SemiringParsing.Proofs.Chart.CompletedIndex
import SemiringParsing.Proofs.Chart.Represented
import SemiringParsing.Proofs.Number.Rational
import SemiringParsing.Proofs.Grammar.Elimination
import SemiringParsing.Proofs.Grammar.UnitChains
import SemiringParsing.Proofs.UnitConvergence
import SemiringParsing.Proofs.Grammar.Reordered
import SemiringParsing.Proofs.Sweep.Reordered
import SemiringParsing.Proofs.RuleOrder
import SemiringParsing.Proofs.Algebra.Guarded
import SemiringParsing.Proofs.Number.Sign
import SemiringParsing.Proofs.InvalidWeights
import SemiringParsing.Proofs.Grammar.CornerChains
import SemiringParsing.Proofs.CornerClosure
import SemiringParsing.Proofs.TokenWeights
import SemiringParsing.Proofs.Chart.Collected
import SemiringParsing.Proofs.Chart.Accumulated
import SemiringParsing.Proofs.OutsideScore
import SemiringParsing.Proofs.Grammar.Validation
import SemiringParsing.Proofs.Tree.Preorder
import SemiringParsing.Proofs.Tree.Unfolding
import SemiringParsing.Proofs.Number.Real
import SemiringParsing.Proofs.Algebra.StarSemiring
import SemiringParsing.Proofs.Number.Closure
import SemiringParsing.Proofs.Number.Costs
import SemiringParsing.Proofs.Rendering
import SemiringParsing.Proofs.Tree.Equality
import SemiringParsing.Proofs.Sweep.Invariant
import SemiringParsing.Proofs.Sweep.Safety
