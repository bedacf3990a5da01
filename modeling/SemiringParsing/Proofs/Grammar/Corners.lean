import Mathlib.Data.Fin.Basic
import Mathlib.Data.List.Induction
import Mathlib.Logic.Relation
import SemiringParsing.Grammar.LeftCorners
import SemiringParsing.Proofs.Algebra.Positive
import SemiringParsing.Proofs.Grammar.Accepted

/-!
# Which left corners are listed

The left corners of a nonterminal are listed once each (`nodup_reachableFrom`). Where zero has to
be forced, those listed are the nonterminals that are reached by going from left sides to first
places through rules whose score is not zero (`mem_reachableFrom_iff`).

The closure allows one inner node after the other. What is kept in step is that the table relates
no two nodes without a path, and that it is transitive at the nodes that have been allowed.
-/

namespace SemiringParsing.LeftCorners

variable {π α : Type} {S : ScoreAlgebra π α} {V : α → Prop}

/-! ## The closure of a table -/

section Closure

variable {n : Nat} {t : SquareTable α n}

/-- An entry of a table that is not zero. -/
def Edge (S : ScoreAlgebra π α) (t : SquareTable α n) (i j : Fin n) : Prop :=
  S.NonZero (t.entry i j)

/-- The entries of a table are values of `V`. -/
def EntriesIn (V : α → Prop) (t : SquareTable α n) : Prop :=
  ∀ i j, V (t.entry i j)

theorem entry_allow (k i j : Fin n) : (allow S k t).entry i j =
    if S.eq (S.times (t.entry i k) (S.star (t.entry k k))) S.zero then t.entry i j
    else S.plus (t.entry i j) (S.times (S.times (t.entry i k) (S.star (t.entry k k)))
      (t.entry k j)) := by
  simp only [allow, SquareTable.entry_ofRows]
  split
  · rfl
  · rw [SquareTable.get_ofFn]

theorem entriesIn_allow (h : S.Closed V) (ht : EntriesIn V t) (k : Fin n) :
    EntriesIn V (allow S k t) := by
  intro i j
  rw [entry_allow]
  split
  · exact ht i j
  · exact h.plus (ht i j) (h.times (h.times (ht i k) (h.star (ht k k))) (ht k j))

/-- Allowing an inner node adds the paths through it. -/
theorem edge_allow (h : S.Positive V) (ht : EntriesIn V t) (k i j : Fin n) :
    Edge S (allow S k t) i j ↔ Edge S t i j ∨ Edge S t i k ∧ Edge S t k j := by
  have hinto : V (S.times (t.entry i k) (S.star (t.entry k k))) :=
    h.times (ht i k) (h.star (ht k k))
  have hik : S.NonZero (S.times (t.entry i k) (S.star (t.entry k k))) ↔ Edge S t i k := by
    rw [h.nonZero_times (ht i k) (h.star (ht k k))]
    exact and_iff_left (h.nonZero_star (ht k k))
  rw [Edge, entry_allow]
  split
  · next hzero =>
    have hnot : ¬ Edge S t i k := by
      rw [← hik, ScoreAlgebra.NonZero, hzero]
      decide
    exact ⟨.inl, fun hor => hor.resolve_right fun hand => hnot hand.1⟩
  · rw [h.nonZero_plus (ht i j) (h.times hinto (ht k j)), h.nonZero_times hinto (ht k j), hik]
    rfl

theorem entriesIn_foldl_allow (h : S.Closed V) (ht : EntriesIn V t) (ks : List (Fin n)) :
    EntriesIn V (ks.foldl (fun t k => allow S k t) t) := by
  induction ks generalizing t with
  | nil => exact ht
  | cons k ks ih => exact ih (entriesIn_allow h ht k)

theorem edge_foldl_allow_of_edge (h : S.Positive V) (ht : EntriesIn V t) (ks : List (Fin n))
    {i j : Fin n} (hedge : Edge S t i j) :
    Edge S (ks.foldl (fun t k => allow S k t) t) i j := by
  induction ks generalizing t with
  | nil => exact hedge
  | cons k ks ih =>
    exact ih (entriesIn_allow h.closed ht k) ((edge_allow h ht k i j).2 (.inl hedge))

/-- A table never relates nodes without a path between them. -/
theorem transGen_of_edge_foldl_allow (h : S.Positive V) (ht : EntriesIn V t) (ks : List (Fin n))
    {i j : Fin n} (hedge : Edge S (ks.foldl (fun t k => allow S k t) t) i j) :
    Relation.TransGen (Edge S t) i j := by
  induction ks generalizing t i j with
  | nil => exact .single hedge
  | cons k ks ih =>
    refine Relation.TransGen.lift' id (fun a b hab => ?_) _ _ (ih (entriesIn_allow h.closed ht k) hedge)
    rcases (edge_allow h ht k a b).1 hab with hab | ⟨hak, hkb⟩
    · exact .single hab
    · exact (Relation.TransGen.single hak).tail hkb

/-- A table is transitive at every node that has been allowed. -/
theorem edge_foldl_allow_trans (h : S.Positive V) (ht : EntriesIn V t) {ks : List (Fin n)}
    {i k j : Fin n} (hk : k ∈ ks) (hik : Edge S (ks.foldl (fun t k => allow S k t) t) i k)
    (hkj : Edge S (ks.foldl (fun t k => allow S k t) t) k j) :
    Edge S (ks.foldl (fun t k => allow S k t) t) i j := by
  induction ks using List.reverseRecOn generalizing i k j with
  | nil => simp at hk
  | append_singleton ks m ih =>
    have hV := entriesIn_foldl_allow h.closed ht ks
    rw [List.foldl_append, List.foldl_cons, List.foldl_nil, edge_allow h hV] at hik hkj ⊢
    rcases List.mem_append.1 hk with hk | hk
    · -- `k` was allowed before `m`, so paths through it can be cut short on either side of `m`
      rcases hik with hik | ⟨him, hmk⟩
      · rcases hkj with hkj | ⟨hkm, hmj⟩
        · exact .inl (ih hk hik hkj)
        · exact .inr ⟨ih hk hik hkm, hmj⟩
      · rcases hkj with hkj | ⟨-, hmj⟩
        · exact .inr ⟨him, ih hk hmk hkj⟩
        · exact .inr ⟨him, hmj⟩
    · obtain rfl := List.mem_singleton.1 hk
      exact .inr ⟨hik.elim id And.left, hkj.elim id And.right⟩

/-- The closure relates the nodes with a path of one step or more. -/
theorem edge_closure (h : S.Positive V) (ht : EntriesIn V t) (i j : Fin n) :
    Edge S (closure S t) i j ↔ Relation.TransGen (Edge S t) i j := by
  constructor
  · exact transGen_of_edge_foldl_allow h ht _
  · intro hpath
    induction hpath with
    | single hij => exact edge_foldl_allow_of_edge h ht _ hij
    | tail _ hkj ih =>
      exact edge_foldl_allow_trans h ht (List.mem_finRange _) ih
        (edge_foldl_allow_of_edge h ht _ hkj)

theorem entriesIn_closure (h : S.Closed V) (ht : EntriesIn V t) : EntriesIn V (closure S t) :=
  entriesIn_foldl_allow h ht _

end Closure

/-! ## The rows of the table -/

section Rows

variable {names : List String} {rules : List (Rule π)}

theorem nonZero_weight (h : S.Positive V) {n : Nat} {t : SquareTable α n} (ht : EntriesIn V t)
    (i j : Fin n) : S.NonZero (weight S t i j) ↔ i = j ∨ Edge S t i j := by
  unfold weight
  split
  · next hij =>
    rw [h.nonZero_plus h.one (ht i j)]
    simp [h.nonZero_one, hij]
  · next hij => simp [hij, Edge]

theorem mem_row {t : SquareTable α names.length} {i : Fin names.length} {corner : Category × α} :
    corner ∈ row S names t i ↔ ∃ j, S.NonZero (weight S t i j) ∧
      corner = (.nonterminal (names.get j), weight S t i j) := by
  simp only [row, List.mem_filterMap, List.mem_finRange, true_and]
  refine exists_congr fun j => ?_
  cases hzero : S.eq (weight S t i j) S.zero <;> simp [ScoreAlgebra.NonZero, hzero, eq_comm]

/-- A row lists no category twice. -/
theorem nodup_row (hnames : names.Nodup) (t : SquareTable α names.length)
    (i : Fin names.length) : ((row S names t i).map Prod.fst).Nodup := by
  refine List.Nodup.map_on ?_ (List.Nodup.filterMap ?_ (List.nodup_finRange _))
  · intro corner hcorner corner' hcorner' heq
    obtain ⟨j, -, rfl⟩ := mem_row.1 hcorner
    obtain ⟨j', -, rfl⟩ := mem_row.1 hcorner'
    obtain rfl : j = j' := hnames.injective_get (Category.nonterminal.inj heq)
    rfl
  · intro j j' corner hj hj'
    simp only [Option.mem_def] at hj hj'
    split at hj
    · simp at hj
    · split at hj'
      · simp at hj'
      · cases hj
        simp only [Option.some.injEq, Prod.mk.injEq, Category.nonterminal.injEq] at hj'
        exact (hnames.injective_get hj'.1).symm

/-- Which categories a row lists, it lists in the order of the names. -/
theorem map_fst_row (t : SquareTable α names.length) (i : Fin names.length) :
    (row S names t i).map Prod.fst = ((List.finRange names.length).filter fun j =>
      !S.eq (weight S t i j) S.zero).map fun j => .nonterminal (names.get j) := by
  rw [row, List.map_filterMap, ← List.filterMap_eq_map, ← List.filterMap_eq_filter,
    List.filterMap_filterMap]
  congr 1
  funext j
  cases h : S.eq (weight S t i j) S.zero <;> simp [Option.guard, h]

/-- Rows that list the same categories list them in the same order. -/
theorem map_fst_row_eq {β : Type} {T : ScoreAlgebra π β} (hnames : names.Nodup)
    {t : SquareTable α names.length} {u : SquareTable β names.length} {i : Fin names.length}
    (h : ∀ category, category ∈ (row S names t i).map Prod.fst ↔
      category ∈ (row T names u i).map Prod.fst) :
    (row S names t i).map Prod.fst = (row T names u i).map Prod.fst := by
  have hinjective : Function.Injective fun j => Category.nonterminal (names.get j) :=
    fun j k hjk => hnames.injective_get (Category.nonterminal.inj hjk)
  simp only [map_fst_row] at h ⊢
  refine congrArg _ (List.filter_congr fun j _ => ?_)
  have hj := h (.nonterminal (names.get j))
  rw [List.mem_map_of_injective hinjective, List.mem_map_of_injective hinjective, List.mem_filter,
    List.mem_filter] at hj
  simpa using hj

theorem reachableFrom_ofRules (hnames : names.Nodup) (i : Fin names.length) :
    (ofRules S names rules).reachableFrom (.nonterminal (names.get i)) =
      row S names (closure S (steps S rules names)) i := by
  refine Std.TreeMap.getD_ofList_of_mem (Std.ReflCmp.compare_self) ?_ ?_
  · rw [List.pairwise_map]
    refine (List.nodup_finRange _).imp fun hne heq => hne ?_
    rw [Std.LawfulEqCmp.compare_eq_iff_eq] at heq
    exact hnames.injective_get (Category.nonterminal.inj heq)
  · exact List.mem_map.2 ⟨i, List.mem_finRange i, rfl⟩

theorem reachableFrom_ofRules_eq_nil {category : Category}
    (h : ∀ i, category ≠ .nonterminal (names.get i)) :
    (ofRules S names rules).reachableFrom category = [] := by
  refine Std.TreeMap.getD_ofList_of_contains_eq_false ?_
  rw [Bool.eq_false_iff]
  intro hmem
  obtain ⟨entry, hentry, rfl⟩ := List.mem_map.1 (List.contains_iff_mem.1 hmem)
  obtain ⟨i, -, rfl⟩ := List.mem_map.1 hentry
  exact h i rfl

end Rows

/-! ## The left corners of a grammar -/

section Grammar

variable [Number π] {G : Grammar π}

/-- The left corners of a category come from the row of its name, if it has one. -/
theorem mem_reachableFrom {category : Category} {corner : Category × α} :
    corner ∈ (ofGrammar S G).reachableFrom category ↔
      ∃ i, category = .nonterminal (G.nonterminals.get i) ∧
        corner ∈ row S G.nonterminals (closure S (steps S G.rules G.nonterminals)) i := by
  by_cases h : ∃ i, category = .nonterminal (G.nonterminals.get i)
  · obtain ⟨i, rfl⟩ := h
    rw [ofGrammar, reachableFrom_ofRules G.nodup_nonterminals]
    constructor
    · intro hcorner
      exact ⟨i, rfl, hcorner⟩
    · rintro ⟨j, hij, hcorner⟩
      obtain rfl : i = j := G.nodup_nonterminals.injective_get (Category.nonterminal.inj hij)
      exact hcorner
  · rw [ofGrammar, reachableFrom_ofRules_eq_nil fun i hi => h ⟨i, hi⟩]
    constructor
    · simp
    · rintro ⟨i, hi, -⟩
      exact absurd ⟨i, hi⟩ h

variable (S G) in
/-- No left corner is listed twice. -/
theorem nodup_reachableFrom (category : Category) :
    (((ofGrammar S G).reachableFrom category).map Prod.fst).Nodup := by
  by_cases h : ∃ i, category = .nonterminal (G.nonterminals.get i)
  · obtain ⟨i, rfl⟩ := h
    rw [ofGrammar, reachableFrom_ofRules G.nodup_nonterminals]
    exact nodup_row G.nodup_nonterminals _ i
  · rw [ofGrammar, reachableFrom_ofRules_eq_nil fun i hi => h ⟨i, hi⟩]
    exact List.nodup_nil

/-- Left corners of two algebras that are the same are listed in the same order. -/
theorem map_fst_reachableFrom_eq {β : Type} {T : ScoreAlgebra π β} {category : Category}
    (h : ∀ target, target ∈ ((ofGrammar S G).reachableFrom category).map Prod.fst ↔
      target ∈ ((ofGrammar T G).reachableFrom category).map Prod.fst) :
    ((ofGrammar S G).reachableFrom category).map Prod.fst =
      ((ofGrammar T G).reachableFrom category).map Prod.fst := by
  unfold ofGrammar at h ⊢
  by_cases hname : ∃ i, category = .nonterminal (G.nonterminals.get i)
  · obtain ⟨i, rfl⟩ := hname
    rw [reachableFrom_ofRules G.nodup_nonterminals, reachableFrom_ofRules G.nodup_nonterminals] at h ⊢
    exact map_fst_row_eq G.nodup_nonterminals h
  · rw [reachableFrom_ofRules_eq_nil fun i hi => hname ⟨i, hi⟩,
      reachableFrom_ofRules_eq_nil fun i hi => hname ⟨i, hi⟩]
    rfl

theorem exists_name_of_mem_reachableFrom {category : Category} {corner : Category × α}
    (h : corner ∈ (ofGrammar S G).reachableFrom category) :
    ∃ name ∈ G.nonterminals, corner.1 = .nonterminal name := by
  obtain ⟨i, -, hcorner⟩ := mem_reachableFrom.1 h
  obtain ⟨j, -, rfl⟩ := mem_row.1 hcorner
  exact ⟨_, List.get_mem .., rfl⟩

/-- A rule whose score is not zero leads from its left side to the nonterminal in its first
place. -/
def Step (S : ScoreAlgebra π α) (G : Grammar π) (source target : String) : Prop :=
  ∃ r ∈ G.rules, r.left = .nonterminal source ∧ r.categoryAt? 0 = some (.nonterminal target) ∧
    S.NonZero (S.ofProbability r.probability)

theorem entriesIn_steps (h : S.Closed V) (hV : ∀ r ∈ G.rules, V (S.ofProbability r.probability))
    (names : List String) : EntriesIn V (steps S G.rules names) := by
  intro i j
  rw [steps, SquareTable.entry_ofFn]
  exact h.foldl_plus (fun r : Rule π => S.ofProbability r.probability) _
    (fun r hr => hV r (List.mem_of_mem_filter hr)) h.zero

/-- The weights of left corners are values of `V`. -/
theorem mem_values_of_mem_reachableFrom (h : S.Closed V)
    (hV : ∀ r ∈ G.rules, V (S.ofProbability r.probability)) {category : Category}
    {corner : Category × α} (hcorner : corner ∈ (ofGrammar S G).reachableFrom category) :
    V corner.2 := by
  obtain ⟨i, -, hrow⟩ := mem_reachableFrom.1 hcorner
  obtain ⟨j, -, rfl⟩ := mem_row.1 hrow
  have hentry := entriesIn_closure h (entriesIn_steps h hV G.nonterminals) i j
  unfold weight
  split
  · exact h.plus h.one hentry
  · exact hentry

theorem edge_steps (h : S.Positive V) (hV : ∀ r ∈ G.rules, V (S.ofProbability r.probability))
    (names : List String) (i j : Fin names.length) :
    Edge S (steps S G.rules names) i j ↔ Step S G (names.get i) (names.get j) := by
  rw [Edge, steps, SquareTable.entry_ofFn, stepScore,
    h.nonZero_foldl_plus (fun r : Rule π => S.ofProbability r.probability) _
      (fun r hr => hV r (List.mem_of_mem_filter hr)) h.zero, or_iff_right h.not_nonZero_zero]
  simp only [Step, List.mem_filter, Bool.and_eq_true, beq_iff_eq, and_assoc]

/-- A chain of steps stays among the names of the grammar. -/
theorem step_mem_nonterminals {source target : String} (h : Step S G source target) :
    source ∈ G.nonterminals ∧ target ∈ G.nonterminals := by
  obtain ⟨r, hr, hleft, hcorner, -⟩ := h
  exact ⟨Grammar.mem_nonterminals.2 ⟨r, hr, hleft⟩,
    Grammar.mem_nonterminals_of_mem_right hr (List.mem_of_getElem? hcorner)⟩

/-- **The left corners that are listed** are those that chains of rules lead to, none of which
has the score zero. -/
theorem mem_reachableFrom_iff (h : S.Positive V)
    (hV : ∀ r ∈ G.rules, V (S.ofProbability r.probability)) {source target : String} :
    (∃ w, (.nonterminal target, w) ∈ (ofGrammar S G).reachableFrom (.nonterminal source)) ↔
      source ∈ G.nonterminals ∧ Relation.ReflTransGen (Step S G) source target := by
  have hsteps := entriesIn_steps h.closed hV G.nonterminals
  have hedge : ∀ i j, S.NonZero (weight S (closure S (steps S G.rules G.nonterminals)) i j) ↔
      Relation.ReflTransGen (Edge S (steps S G.rules G.nonterminals)) i j := by
    intro i j
    rw [nonZero_weight h (entriesIn_closure h.closed hsteps), edge_closure h hsteps,
      Relation.reflTransGen_iff_eq_or_transGen, eq_comm]
  constructor
  · rintro ⟨w, hw⟩
    obtain ⟨i, hsource, hrow⟩ := mem_reachableFrom.1 hw
    obtain ⟨j, hij, htarget⟩ := mem_row.1 hrow
    rw [Category.nonterminal.inj hsource, Category.nonterminal.inj (Prod.mk.inj htarget).1]
    refine ⟨List.get_mem .., ?_⟩
    exact Relation.ReflTransGen.lift _ (fun a b hab => (edge_steps h hV _ a b).1 hab) _ _
      ((hedge i j).1 hij)
  · rintro ⟨hsource, hpath⟩
    obtain ⟨i, rfl⟩ := List.get_of_mem hsource
    have hpath : ∃ j, G.nonterminals.get j = target ∧
        Relation.ReflTransGen (Edge S (steps S G.rules G.nonterminals)) i j := by
      induction hpath with
      | refl => exact ⟨i, rfl, .refl⟩
      | tail _ hstep ih =>
        obtain ⟨k, rfl, hik⟩ := ih
        obtain ⟨j, rfl⟩ := List.get_of_mem (step_mem_nonterminals hstep).2
        exact ⟨j, rfl, hik.tail ((edge_steps h hV _ k j).2 hstep)⟩
    obtain ⟨j, rfl, hij⟩ := hpath
    exact ⟨_, mem_reachableFrom.2 ⟨i, rfl, mem_row.2 ⟨j, (hedge i j).2 hij, rfl⟩⟩⟩

end Grammar

/-! ## The weight of a left corner -/

/-- The weight of a left corner, and zero where it is not listed. -/
def weightTo (S : ScoreAlgebra π α) (corners : LeftCorners α) (source target : String) : α :=
  match (corners.reachableFrom (.nonterminal source)).find? (·.1 == .nonterminal target) with
  | some corner => corner.2
  | none => S.zero

section WeightTo

variable {corners : LeftCorners α} {source target : String}

theorem weightTo_of_mem (h : ((corners.reachableFrom (.nonterminal source)).map Prod.fst).Nodup)
    {corner : Category × α} (hcorner : corner ∈ corners.reachableFrom (.nonterminal source))
    (htarget : corner.1 = .nonterminal target) : corners.weightTo S source target = corner.2 := by
  unfold weightTo
  split
  · next other hfind =>
    have hother := List.mem_of_find?_eq_some hfind
    have hfirst : other.1 = corner.1 := by
      rw [htarget]
      simpa using List.find?_some hfind
    rw [List.inj_on_of_nodup_map h hother hcorner hfirst]
  · next hfind =>
    have hne := List.find?_eq_none.1 hfind corner hcorner
    simp [htarget] at hne

theorem weightTo_eq_zero
    (h : ∀ corner ∈ corners.reachableFrom (.nonterminal source), corner.1 ≠ .nonterminal target) :
    corners.weightTo S source target = S.zero := by
  unfold weightTo
  split
  · next corner hfind =>
    have hfirst : corner.1 = .nonterminal target := by simpa using List.find?_some hfind
    exact absurd hfirst (h corner (List.mem_of_find?_eq_some hfind))
  · rfl

theorem mem_values_weightTo [Number π] {G : Grammar π} (h : S.Closed V)
    (hV : ∀ r ∈ G.rules, V (S.ofProbability r.probability)) :
    V ((ofGrammar S G).weightTo S source target) := by
  unfold weightTo
  split
  · next corner hfind =>
    exact mem_values_of_mem_reachableFrom h hV (List.mem_of_find?_eq_some hfind)
  · exact h.zero

end WeightTo

end SemiringParsing.LeftCorners
