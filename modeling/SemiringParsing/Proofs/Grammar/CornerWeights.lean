import Mathlib.Algebra.BigOperators.Fin
import Mathlib.Tactic.Ring
import SemiringParsing.Proofs.Grammar.Corners
import SemiringParsing.Proofs.Tree.Weight

/-!
# The weights of left corners

In an exact commutative algebra the weight of a left corner is that of all chains of rules that lead
to it. What is needed of this is that a chain is empty, or has a last rule (`lift_weightTo`), or has
a first step (`lift_weightTo_first`).

The table of the closure satisfies the same equation with chains of one rule or more. It does so at
every stage, for the chains whose inner nodes have been allowed (`lift_entry_foldl_allow`). Allowing
one more node keeps it, by the law of the closure of what leads around that node. Since the closure
commutes with exchanging rows and columns (`closure_transpose`), first steps need no proof of their
own.
-/

namespace SemiringParsing

variable {π α : Type} [Number π]

namespace LeftCorners

variable (S : ScoreAlgebra π α) [S.IsSemiring] (G : Grammar π) (source target : String)

theorem weightTo_mem : S.member ((ofGrammar S G).weightTo S source target) = true :=
  mem_values_weightTo S.closed fun _ hr => Grammar.ofProbability_mem hr

theorem stepScore_mem : S.member (stepScore S G.rules source target) = true :=
  S.closed.foldl_plus (fun r : Rule π => S.ofProbability r.probability) _
    (fun _ hr => Grammar.ofProbability_mem (List.mem_of_mem_filter hr))
    ScoreAlgebra.IsSemiring.zero_mem

end LeftCorners

variable {S : ScoreAlgebra π α} [S.IsCommSemiring]

theorem ScoreAlgebra.lift_star {a : α} (ha : S.member a = true) :
    S.lift (S.star a) = 1 + S.lift a * S.lift (S.star a) := by
  have hstar : S.member (S.star a) = true := IsSemiring.star_mem ha
  have htimes : S.member (S.times a (S.star a)) = true := IsSemiring.times_mem ha hstar
  rw [← lift_one, ← lift_times ha hstar, ← lift_plus IsSemiring.one_mem htimes,
    ← IsCommSemiring.star_eq ha]

namespace SquareTable

variable {n : Nat}

/-- Tables with the same entries are the same. -/
theorem ext_entry {t u : SquareTable α n} (h : ∀ i j, t.entry i j = u.entry i j) : t = u :=
  Vector.ext fun i hi => Vector.ext fun j hj => h ⟨i, hi⟩ ⟨j, hj⟩

/-- The table with rows and columns exchanged. -/
def transpose (t : SquareTable α n) : SquareTable α n :=
  ofFn fun i j => t.entry j i

@[simp] theorem entry_transpose (t : SquareTable α n) (i j : Fin n) :
    t.transpose.entry i j = t.entry j i :=
  entry_ofFn ..

end SquareTable

namespace LeftCorners

/-! ## The closure of a table -/

section Closure

variable {n : Nat} {t : SquareTable α n}

/-- Allowing an inner node adds what leads to it, around it and on from it. -/
theorem lift_entry_allow (ht : EntriesIn (fun a => S.member a = true) t) (k i j : Fin n) :
    S.lift ((allow S k t).entry i j) = S.lift (t.entry i j) +
      S.lift (t.entry i k) * S.lift (S.star (t.entry k k)) * S.lift (t.entry k j) := by
  have hstar : S.member (S.star (t.entry k k)) = true :=
    ScoreAlgebra.IsSemiring.star_mem (ht k k)
  have hinto := ScoreAlgebra.IsSemiring.times_mem (ht i k) hstar
  have hthrough := ScoreAlgebra.IsSemiring.times_mem hinto (ht k j)
  rw [entry_allow, ← ScoreAlgebra.lift_times (ht i k) hstar]
  split
  · next hzero =>
    rw [(ScoreAlgebra.IsSemiring.eq_iff hinto ScoreAlgebra.IsSemiring.zero_mem).1 hzero,
      ScoreAlgebra.lift_zero, zero_mul, add_zero]
  · rw [ScoreAlgebra.lift_plus (ht i j) hthrough, ScoreAlgebra.lift_times hinto (ht k j)]

/-- A path through nodes that have been allowed is a step, or it has a last inner node. -/
theorem lift_entry_foldl_allow (ht : EntriesIn (fun a => S.member a = true) t) (ks : List (Fin n))
    (i j : Fin n) : S.lift ((ks.foldl (fun t k => allow S k t) t).entry i j) =
      S.lift (t.entry i j) + (ks.map fun k =>
        S.lift ((ks.foldl (fun t k => allow S k t) t).entry i k) * S.lift (t.entry k j)).sum := by
  induction ks using List.reverseRecOn generalizing i j with
  | nil => simp
  | append_singleton ks m ih =>
    have hmembers := entriesIn_foldl_allow S.closed ht ks
    rw [List.foldl_append, List.foldl_cons, List.foldl_nil]
    set u := ks.foldl (fun t k => allow S k t) t with hu
    have hsum : (ks.map fun k => S.lift ((allow S m u).entry i k) * S.lift (t.entry k j)).sum =
        (ks.map fun k => S.lift (u.entry i k) * S.lift (t.entry k j)).sum +
          S.lift (u.entry i m) * S.lift (S.star (u.entry m m)) *
            (ks.map fun k => S.lift (u.entry m k) * S.lift (t.entry k j)).sum := by
      rw [← List.sum_map_mul_left, ← List.sum_map_add]
      refine congrArg List.sum (List.map_congr_left fun k _ => ?_)
      rw [lift_entry_allow hmembers]
      ring
    have hlast : S.lift ((allow S m u).entry i m) =
        S.lift (u.entry i m) * S.lift (S.star (u.entry m m)) := by
      rw [lift_entry_allow hmembers]
      conv_rhs => rw [ScoreAlgebra.lift_star (hmembers m m)]
      ring
    rw [List.map_append, List.sum_append, hsum, List.map_singleton, List.sum_singleton, hlast,
      lift_entry_allow hmembers, ih i j, ih m j]
    ring

/-- The closure adds up paths of one step or more. Each has a last step. -/
theorem lift_entry_closure (ht : EntriesIn (fun a => S.member a = true) t) (i j : Fin n) :
    S.lift ((closure S t).entry i j) = S.lift (t.entry i j) +
      ∑ k, S.lift ((closure S t).entry i k) * S.lift (t.entry k j) := by
  rw [Fin.sum_univ_def]
  exact lift_entry_foldl_allow ht (List.finRange n) i j

theorem lift_weight (ht : EntriesIn (fun a => S.member a = true) t) (i j : Fin n) :
    S.lift (weight S t i j) = (if i = j then 1 else 0) + S.lift (t.entry i j) := by
  unfold weight
  split
  · rw [ScoreAlgebra.lift_plus ScoreAlgebra.IsSemiring.one_mem (ht i j), ScoreAlgebra.lift_one]
  · rw [zero_add]

/-- A path is empty, or it has a last step. -/
theorem lift_weight_closure (ht : EntriesIn (fun a => S.member a = true) t) (i j : Fin n) :
    S.lift (weight S (closure S t) i j) = (if i = j then 1 else 0) +
      ∑ k, S.lift (weight S (closure S t) i k) * S.lift (t.entry k j) := by
  have hmembers := entriesIn_closure S.closed ht
  simp only [lift_weight hmembers, add_mul, Finset.sum_add_distrib, ite_mul, one_mul, zero_mul,
    Finset.sum_ite_eq, Finset.mem_univ, if_true]
  rw [lift_entry_closure ht]

/-! Paths can be read from either end, so what holds of last steps holds of first steps. -/

omit [Number π] [S.IsCommSemiring] in
theorem EntriesIn.transpose {V : α → Prop} (ht : EntriesIn V t) : EntriesIn V t.transpose := by
  intro i j
  rw [SquareTable.entry_transpose]
  exact ht j i

omit [Number π] [S.IsCommSemiring] in
theorem weight_transpose (i j : Fin n) : weight S t.transpose i j = weight S t j i := by
  simp only [weight, SquareTable.entry_transpose, eq_comm]

/-- Allowing an inner node treats the two ends of paths alike. -/
theorem allow_transpose (ht : EntriesIn (fun a => S.member a = true) t) (k : Fin n) :
    allow S k t.transpose = (allow S k t).transpose := by
  refine SquareTable.ext_entry fun i j => ?_
  rw [SquareTable.entry_transpose, ← ScoreAlgebra.lift_inj
    (entriesIn_allow S.closed ht.transpose k i j) (entriesIn_allow S.closed ht k j i),
    lift_entry_allow ht.transpose, lift_entry_allow ht]
  simp only [SquareTable.entry_transpose]
  ring

theorem closure_transpose (ht : EntriesIn (fun a => S.member a = true) t) :
    closure S t.transpose = (closure S t).transpose := by
  unfold closure
  induction List.finRange n generalizing t with
  | nil => rfl
  | cons k ks ih =>
    rw [List.foldl_cons, List.foldl_cons, allow_transpose ht]
    exact ih (entriesIn_allow S.closed ht k)

/-- A path is empty, or it has a first step. -/
theorem lift_weight_closure_first (ht : EntriesIn (fun a => S.member a = true) t) (i j : Fin n) :
    S.lift (weight S (closure S t) i j) = (if i = j then 1 else 0) +
      ∑ k, S.lift (t.entry i k) * S.lift (weight S (closure S t) k j) := by
  have hlast := lift_weight_closure ht.transpose j i
  simp only [closure_transpose ht, weight_transpose, SquareTable.entry_transpose] at hlast
  rw [hlast]
  congr 1
  · exact if_congr eq_comm rfl rfl
  · exact Finset.sum_congr rfl fun k _ => mul_comm ..

end Closure

/-! ## The left corners of a grammar -/

section Grammar

variable {G : Grammar π} {source target : String}

variable (S G) in
theorem members_steps :
    EntriesIn (fun a => S.member a = true) (steps S G.rules G.nonterminals) :=
  entriesIn_steps S.closed (fun _ hr => Grammar.ofProbability_mem hr) G.nonterminals

/-- A left corner that is not listed has the weight zero, so that all have that of the table. -/
theorem weightTo_get (i j : Fin G.nonterminals.length) :
    (ofGrammar S G).weightTo S (G.nonterminals.get i) (G.nonterminals.get j) =
      weight S (closure S (steps S G.rules G.nonterminals)) i j := by
  have hrow : (ofGrammar S G).reachableFrom (.nonterminal (G.nonterminals.get i)) =
      row S G.nonterminals (closure S (steps S G.rules G.nonterminals)) i :=
    reachableFrom_ofRules G.nodup_nonterminals i
  by_cases hzero : S.NonZero (weight S (closure S (steps S G.rules G.nonterminals)) i j)
  · have hlisted := mem_row.2 ⟨j, hzero, rfl⟩
    rw [← hrow] at hlisted
    exact weightTo_of_mem (nodup_reachableFrom S G _) hlisted rfl
  · have hmembers := entriesIn_closure S.closed (members_steps S G)
    have hmember : S.member (weight S (closure S (steps S G.rules G.nonterminals)) i j) = true := by
      unfold weight
      split
      · exact ScoreAlgebra.IsSemiring.plus_mem ScoreAlgebra.IsSemiring.one_mem (hmembers i j)
      · exact hmembers i j
    rw [ScoreAlgebra.nonZero_iff hmember, not_not] at hzero
    rw [hzero]
    refine weightTo_eq_zero fun corner hcorner htarget => ?_
    rw [hrow] at hcorner
    obtain ⟨k, hnonZero, rfl⟩ := mem_row.1 hcorner
    obtain rfl : k = j := G.nodup_nonterminals.injective_get (Category.nonterminal.inj htarget)
    rw [hzero] at hnonZero
    exact (ScoreAlgebra.nonZero_iff ScoreAlgebra.IsSemiring.zero_mem).1 hnonZero rfl

/-- A step has the scores of the rules that make it. -/
theorem lift_stepScore_eq_sum_rules : S.lift (stepScore S G.rules source target) =
    ((G.rules.filter fun r => r.left == .nonterminal source &&
      r.categoryAt? 0 == some (.nonterminal target)).map fun r =>
        S.lift (S.ofProbability r.probability)).sum := by
  rw [stepScore, ← List.foldl_map]
  refine (ScoreAlgebra.sum_mem fun x hx => ?_).2.trans ?_
  · obtain ⟨r, hr, rfl⟩ := List.mem_map.1 hx
    exact Grammar.ofProbability_mem (List.mem_of_mem_filter hr)
  · rw [List.map_map]
    rfl

/-- A step has the scores of the productions that make it. -/
theorem lift_stepScore : S.lift (stepScore S G.rules source target) =
    ∑ q ∈ G.productionsFor source,
      if q.right[0]? = some (.nonterminal target) then S.lift (G.score S q) else 0 := by
  have hdistinct : (G.rules.filter fun r => r.left == .nonterminal source &&
      r.categoryAt? 0 == some (.nonterminal target)).Pairwise fun r r' =>
        r.toProduction ≠ r'.toProduction :=
    (List.pairwise_map.1 G.nodup_productions).filter _
  rw [← Finset.sum_filter, sum_eq_sum_map hdistinct, lift_stepScore_eq_sum_rules]
  · refine congrArg List.sum (List.map_congr_left fun r hr => ?_)
    rw [Grammar.score_toProduction (List.mem_of_mem_filter hr)]
  · intro r hr
    obtain ⟨hrule, hstep⟩ := List.mem_filter.1 hr
    rw [Bool.and_eq_true, beq_iff_eq, beq_iff_eq] at hstep
    exact Finset.mem_filter.2
      ⟨Grammar.mem_productionsFor.2 ⟨⟨r, hrule, rfl⟩, hstep.1⟩, hstep.2⟩
  · intro q hq hne
    obtain ⟨hproduction, hfirst⟩ := Finset.mem_filter.1 hq
    obtain ⟨⟨r, hr, rfl⟩, hleft⟩ := Grammar.mem_productionsFor.1 hproduction
    refine absurd rfl (hne r (List.mem_filter.2 ⟨hr, ?_⟩))
    rw [Bool.and_eq_true, beq_iff_eq, beq_iff_eq]
    exact ⟨hleft, hfirst⟩

/-- A chain of rules is empty, or it has a last step. -/
theorem lift_weightTo_last (hsource : source ∈ G.nonterminals) (htarget : target ∈ G.nonterminals) :
    S.lift ((ofGrammar S G).weightTo S source target) = (if source = target then 1 else 0) +
      (G.nonterminals.map fun name => S.lift ((ofGrammar S G).weightTo S source name) *
        S.lift (stepScore S G.rules name target)).sum := by
  obtain ⟨i, rfl⟩ := List.get_of_mem hsource
  obtain ⟨j, rfl⟩ := List.get_of_mem htarget
  rw [weightTo_get, lift_weight_closure (members_steps S G), ← Fin.sum_univ_fun_getElem]
  congr 1
  · exact if_congr G.nodup_nonterminals.injective_get.eq_iff.symm rfl rfl
  · refine Finset.sum_congr rfl fun k _ => ?_
    rw [← weightTo_get, steps, SquareTable.entry_ofFn]
    rfl

/-- A chain of rules is empty, or it has a first step. -/
theorem lift_weightTo_first (hsource : source ∈ G.nonterminals)
    (htarget : target ∈ G.nonterminals) :
    S.lift ((ofGrammar S G).weightTo S source target) = (if source = target then 1 else 0) +
      (G.nonterminals.map fun name => S.lift (stepScore S G.rules source name) *
        S.lift ((ofGrammar S G).weightTo S name target)).sum := by
  obtain ⟨i, rfl⟩ := List.get_of_mem hsource
  obtain ⟨j, rfl⟩ := List.get_of_mem htarget
  rw [weightTo_get, lift_weight_closure_first (members_steps S G), ← Fin.sum_univ_fun_getElem]
  congr 1
  · exact if_congr G.nodup_nonterminals.injective_get.eq_iff.symm rfl rfl
  · refine Finset.sum_congr rfl fun k _ => ?_
    rw [← weightTo_get, steps, SquareTable.entry_ofFn]
    rfl

/-- **The weight of a left corner** adds up chains of rules. One is empty, or it has a last rule. -/
theorem lift_weightTo (hsource : source ∈ G.nonterminals) (htarget : target ∈ G.nonterminals) :
    S.lift ((ofGrammar S G).weightTo S source target) = (if source = target then 1 else 0) +
      ∑ name ∈ G.nonterminals.toFinset, S.lift ((ofGrammar S G).weightTo S source name) *
        ∑ q ∈ G.productionsFor name,
          if q.right[0]? = some (.nonterminal target) then S.lift (G.score S q) else 0 := by
  rw [lift_weightTo_last hsource htarget, List.sum_toFinset _ G.nodup_nonterminals]
  simp only [lift_stepScore]

end Grammar

end LeftCorners

end SemiringParsing
