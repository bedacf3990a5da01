import SemiringParsing.Proofs.Number.Nonneg
import SemiringParsing.Proofs.Sweep.Equations
import SemiringParsing.Proofs.Sweep.ForwardValues
import SemiringParsing.Proofs.Sweep.Termination

/-!
# Forward scores as prefix weights

Behind each token the forward scores of what has read it are the total weight of all open trees: of
all that the input may still turn out to begin with (`Parser.forward_eq_prefixWeight`). This needs
an exact commutative algebra, and a grammar that does not recurse on the left, so that some tokens
have finitely many open trees. That the parse returns is part of the statement.

A record that was reached by scanning a token is the item that expected the token, one step further.
Its forward score is that of the item with the token weighed (`Carries.next`). The forward score of
the item is what all spines weigh that lead to it (`ForwardRecurrence.value_eq`).
-/

namespace SemiringParsing

variable {π α τ : Type}

/-- Whether a record was reached by scanning a token. -/
def Record.isScanned (r : Record π α) : Bool :=
  r.links.any fun link => link.completed?.isNone

theorem Record.isScanned_iff {r : Record π α} : r.isScanned = true ↔ ∃ w, .scanned w ∈ r.links := by
  simp only [isScanned, List.any_eq_true, Option.isNone_iff_eq_none]
  constructor
  · rintro ⟨⟨w, _⟩, hlink, rfl⟩
    exact ⟨w, hlink⟩
  · rintro ⟨w, hlink⟩
    exact ⟨.scanned w, hlink, rfl⟩

/-- The records at a position that were reached by scanning the token before it. -/
def Chart.scannedAt (c : Chart π α) (position : Nat) : List (Record π α) :=
  (c.recordsAt position).filter Record.isScanned

variable [Number π]

namespace Parser

variable {p : Parser π α} {tokens : List (Token τ)} {options : ParseOptions τ α} {c : Chart π α}
  {id : StateId} {r : Record π α} {i : Item} {position : Nat}

/-! ## What has read a token -/

namespace Finished

/-- A record that was reached by scanning is the item before it, one step further. -/
theorem exists_reads_of_isScanned (h : p.Finished tokens c) (hr : c.record? id = some r)
    (hposition : r.state.position = position + 1) (hscanned : r.isScanned = true) :
    ∃ i ∈ p.grammar.items position, i.reads tokens = true ∧ i.next = r.state.item := by
  obtain ⟨w, hw⟩ := Record.isScanned_iff.1 hscanned
  obtain ⟨_, hleads⟩ := (h.linked id r hr).leadsTo _ hw
  obtain ⟨before, token, category, hbefore, htoken, hactive, hisA, hnext⟩ := hleads.of_scanned
  obtain ⟨hrule, hafter, horigin, hdot⟩ := State.advance_eq_some_iff.1 hnext
  refine ⟨before.state.item, (h.admits w before hbefore).item_mem_items_iff.2 (by omega),
    Item.reads_iff.2 ⟨token, category, htoken, hactive, hisA⟩, ?_⟩
  rw [Item.next, State.item, State.item, hrule, hafter, horigin, hdot]

/-- A record behind an item that reads a token was reached by scanning it. -/
theorem isScanned_of_reads (h : p.Finished tokens c) (hr : c.record? id = some r)
    (hreads : i.reads tokens = true) (hitem : r.state.item = i.next) : r.isScanned = true := by
  obtain ⟨token, category, -, hactive, hisA⟩ := Item.reads_iff.1 hreads
  obtain ⟨hproduction, -, -, hdot⟩ := Item.mk.inj hitem
  have hcategory : r.state.rule.categoryAt? i.dot = some category := by
    rw [Production.categoryAt?, hproduction]
    exact hactive
  obtain ⟨w, _, -, -, hlinks⟩ :=
    (h.packs hr).scanned i.dot category hdot hcategory (Token.ne_nonterminal_of_isA hisA)
  exact Record.isScanned_iff.2 ⟨w, hlinks ▸ List.mem_singleton_self _⟩

variable [p.algebra.IsSemiring]

/-- The values behind all items that read a token are the scores of the records that were reached by
scanning it. -/
theorem sum_next (h : p.Finished tokens c) (side : Side) (position : Nat) :
    ∑ i ∈ (p.grammar.items position).filter fun i => i.reads tokens = true,
        (c.turn side).value p.algebra i.next =
      ((c.scannedAt (position + 1)).map fun r => p.algebra.lift (r.scoreOn side)).sum := by
  have hmem : ∀ r ∈ c.scannedAt (position + 1), ∃ id, c.record? id = some r ∧
      r.state.position = position + 1 ∧ r.isScanned = true := by
    intro r hr
    obtain ⟨hrecord, hscanned⟩ := List.mem_filter.1 hr
    obtain ⟨id, hr, hposition⟩ := h.indexed.mem_recordsAt.1 hrecord
    exact ⟨id, hr, hposition, hscanned⟩
  rw [← Finset.sum_image (f := (c.turn side).value p.algebra) Item.next_injective.injOn,
    sum_eq_sum_map ((h.indexed.pairwise_recordsAt (position + 1)).filter _)]
  · refine congrArg List.sum (List.map_congr_left fun r hr => ?_)
    obtain ⟨id, hr, -⟩ := hmem r hr
    exact Chart.value_turn side h.indexed hr
  · intro r hr
    obtain ⟨id, hr, hposition, hscanned⟩ := hmem r hr
    obtain ⟨i, hi, hreads, hnext⟩ := h.exists_reads_of_isScanned hr hposition hscanned
    exact Finset.mem_image.2 ⟨i, Finset.mem_filter.2 ⟨hi, hreads⟩, hnext⟩
  · intro j hj hne
    obtain ⟨i, hi, rfl⟩ := Finset.mem_image.1 hj
    obtain ⟨hi, hreads⟩ := Finset.mem_filter.1 hi
    refine Chart.value_turn_eq_zero side fun id r hr hitem => ?_
    have hposition : r.state.position = position + 1 := by
      rw [← (Grammar.mem_items.1 hi).2.1]
      exact congrArg Item.position hitem
    refine hne r (List.mem_filter.2 ⟨h.indexed.mem_recordsAt.2 ⟨id, hr, hposition⟩, ?_⟩) hitem
    exact h.isScanned_of_reads hr hreads hitem

end Finished

/-! ## Prefix weights -/

variable [p.algebra.IsCommSemiring]

/-- Behind a token the values of what has read it are what the open trees that end with it weigh. -/
theorem sum_next_eq (hacyclic : p.grammar.CornerAcyclic)
    {value passed : Item → p.algebra.Members}
    (hcarries : p.Carries options tokens tokens.length value passed)
    (hrecurrence : p.grammar.ForwardRecurrence p.algebra options tokens value) (position : Nat) :
    ∑ i ∈ (p.grammar.items position).filter fun i => i.reads tokens = true, value i.next =
      (∑ i ∈ (p.grammar.items position).filter fun i => i.reads tokens = true,
        p.grammar.outside tokens p.algebra i) *
          tokensWeight p.algebra options tokens 0 (position + 1) := by
  rw [Finset.sum_mul]
  refine Finset.sum_congr rfl fun i hi => ?_
  obtain ⟨hitem, hreads⟩ := Finset.mem_filter.1 hi
  obtain ⟨name, hq⟩ :=
    Grammar.exists_mem_productionsFor hitem (Grammar.production_ne_of_reads hreads)
  obtain ⟨-, rfl, -, hdot⟩ := Grammar.mem_items.1 hitem
  have hvalue : value i = p.grammar.outside tokens p.algebra i *
      tokensWeight p.algebra options tokens 0 i.position := hrecurrence.value_eq hacyclic hq hdot
  rw [hcarries.next hreads, hvalue, tokensWeight_succ (Nat.zero_le _), mul_assoc]

/-- With parts of speech only a sentence begins with a nonterminal, and that is another one. -/
theorem cornerAcyclic_tagged : Examples.taggedGrammar.CornerAcyclic :=
  .of_rank (fun name => if name = "S" then 1 else 0) (by decide +kernel)

/-- **Forward scores are prefix weights.** A parse returns, and behind each token the forward scores
of the records that were reached by scanning it add up to the weights of all open trees of the
tokens up to it from the start symbol, each counted once. -/
theorem forward_eq_prefixWeight (hacyclic : p.grammar.CornerAcyclic)
    (hoptions : options.WeighsIn p.algebra) (tokens : List (Token τ)) :
    (∃ bound result, ∀ fuel, bound ≤ fuel → p.parse options fuel tokens = some result) ∧
      ∀ position, 1 ≤ position → position ≤ tokens.length →
        ∃ trees : List OpenTree, trees.Nodup ∧
          (∀ t, t ∈ trees ↔
            t.IsOpenDerivation p.grammar tokens (.nonterminal p.grammar.start) position) ∧
          ∀ fuel result, p.parse options fuel tokens = some result →
            p.algebra.sum ((result.chart.scannedAt position).map Record.forward) =
              p.algebra.sum
                (trees.map (OpenTree.weight p.algebra p.grammar options tokens position)) := by
  refine ⟨exists_parse hacyclic.unitAcyclic options tokens, fun position hpos hle => ?_⟩
  obtain ⟨before, rfl⟩ := Nat.exists_eq_succ_of_ne_zero (Nat.one_le_iff_ne_zero.1 hpos)
  obtain ⟨trees, hnodup, hmem, hsum, hlift⟩ :=
    Grammar.exists_openTrees hacyclic hoptions (Nat.lt_of_succ_le hle)
  refine ⟨trees, hnodup, hmem, fun fuel result h => ?_⟩
  have hfinished := finished_of_parse h
  obtain ⟨-, hforward, haccounts⟩ := forwardAccounts_of_parse hoptions h
  have hrecurrence := forwardRecurrence_of_parse hacyclic.unitAcyclic hoptions h
  have hscores : ∀ x ∈ (result.chart.scannedAt (before + 1)).map Record.forward,
      p.algebra.member x = true := by
    intro x hx
    obtain ⟨r, hr, rfl⟩ := List.mem_map.1 hx
    obtain ⟨id, hr, -⟩ := hfinished.indexed.mem_recordsAt.1 (List.mem_filter.1 hr).1
    exact hforward.scoreOn hr
  symm
  rw [ScoreAlgebra.eq_sum_iff hscores hsum, hlift,
    ← sum_next_eq hacyclic haccounts.toCarries hrecurrence, hfinished.sum_next .forward,
    List.map_map]
  rfl

/-- A word that is a noun in front of one that is a noun or a verb. The second may end a compound
noun, or be the verb of a sentence, with an object to come or without. -/
theorem forward_eq_prefixWeight_tagged :
    ∃ (trees : List OpenTree) (result : ParseResult Exact Exact),
      (Parser.new Examples.taggedGrammar .probability).parse ⟨some fun _ _ => 0.5⟩ 40
          [Token.tagged "time" ["N"], Token.tagged "flies" ["N", "V"]] = some result ∧
        trees.Nodup ∧
        (∀ t : OpenTree, t ∈ trees ↔ t.IsOpenDerivation Examples.taggedGrammar
          [Token.tagged "time" ["N"], Token.tagged "flies" ["N", "V"]] (.nonterminal "S") 2) ∧
        ScoreAlgebra.probability.sum ((result.chart.scannedAt 2).map Record.forward) =
          ScoreAlgebra.probability.sum (trees.map (OpenTree.weight .probability
            Examples.taggedGrammar ⟨some fun _ _ => 0.5⟩
            [Token.tagged "time" ["N"], Token.tagged "flies" ["N", "V"]] 2)) ∧
        ScoreAlgebra.probability.sum ((result.chart.scannedAt 2).map Record.forward) =
          .number ((0.7 * 0.6 + 0.7 * 0.4 + 0.3) * 0.5 ^ 2) := by
  have hoptions : ParseOptions.WeighsIn (⟨some fun _ _ => 0.5⟩ : ParseOptions String Exact)
      .probability := .of_forall fun _ _ => .inr (by decide +kernel)
  have hparse : ((Parser.new Examples.taggedGrammar .probability).parse ⟨some fun _ _ => 0.5⟩ 40
      [Token.tagged "time" ["N"], Token.tagged "flies" ["N", "V"]]).any (fun result =>
        ScoreAlgebra.probability.sum ((result.chart.scannedAt 2).map Record.forward) ==
          .number ((0.7 * 0.6 + 0.7 * 0.4 + 0.3) * 0.5 ^ 2)) = true := by
    decide +kernel
  obtain ⟨result, hresult, hscores⟩ := (Option.any_eq_true _ _).1 hparse
  have : (Parser.new Examples.taggedGrammar .probability).algebra.IsCommSemiring :=
    inferInstanceAs (ScoreAlgebra.probability : ScoreAlgebra Exact Exact).IsCommSemiring
  obtain ⟨-, hprefixes⟩ :=
    forward_eq_prefixWeight (p := Parser.new Examples.taggedGrammar .probability)
      cornerAcyclic_tagged hoptions [Token.tagged "time" ["N"], Token.tagged "flies" ["N", "V"]]
  obtain ⟨trees, hnodup, htrees, htotal⟩ := hprefixes 2 (by decide) (by decide)
  exact ⟨trees, result, hresult, hnodup, htrees, htotal 40 result hresult, beq_iff_eq.1 hscores⟩

end Parser

end SemiringParsing
