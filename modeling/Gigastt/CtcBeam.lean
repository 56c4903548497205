import Gigastt.Loops
import Gigastt.KeyedList
import Gigastt.Biaser
import Gigastt.Logits
import Mathlib.Data.List.ProdSigma
import Mathlib.Data.List.Dedup
import Mathlib.Data.List.Sort

/-!
Contextual CTC decoding by prefix beam search. The beam is a list of hypotheses under their labels;
a frame credits every hypothesis of the next beam with what the blank, a repeated label and a new
label contribute, and keeps the best.
-/

namespace Gigastt

namespace Ctc

def beamWidth : Nat := 8

def beamTopK : Nat := 6

structure Hypothesis (F : Type) where
  pBlank : F
  pNonblank : F
  tokens : List (TokenInfo F)
  bias : BiasPath F
  /-- The probability of the contribution that supplied `tokens` and `bias`. -/
  anchor : F

abbrev Beam (F : Type) := List (List Nat × Hypothesis F)

/-- A contribution to a prefix that emits no new label. -/
inductive Emission (F : Type) where
  | blank (p : F)
  | repeatLast (p : F)

variable {F : Type} [SingleArith F]

/-- The order `select_nth_unstable_by` leaves the class indices in: the first `k` are the likeliest,
and nothing more is promised. -/
structure Selection (F : Type) [SingleArith F] where
  order : List F → Nat → List Nat
  perm : ∀ lp k, (order lp k).Perm (List.range lp.length)
  largest : ∀ lp k, ∀ a ∈ (order lp k).take k, ∀ b ∈ (order lp k).drop k,
    lp.getD b 0 ≤ lp.getD a 0

/-- The selection that sorts. -/
def Selection.stable : Selection F where
  order lp _ := (List.range lp.length).mergeSort fun a b => decide (lp.getD b 0 ≤ lp.getD a 0)
  perm lp _ := List.mergeSort_perm _ _
  largest := by
    intro lp k a ha b hb
    have hsorted : ((List.range lp.length).mergeSort
        fun a b => decide (lp.getD b 0 ≤ lp.getD a 0)).Pairwise
        fun a b => decide (lp.getD b 0 ≤ lp.getD a 0) = true := by
      apply List.pairwise_mergeSort
      · intro x y z hxy hyz
        exact decide_eq_true ((of_decide_eq_true hyz).trans (of_decide_eq_true hxy))
      · intro x y
        rcases le_total (lp.getD x 0) (lp.getD y 0) with h | h
        · rw [decide_eq_true h, Bool.or_true]
        · rw [decide_eq_true h, Bool.true_or]
    rw [← List.take_append_drop k (List.mergeSort _ _)] at hsorted
    exact of_decide_eq_true ((List.pairwise_append.mp hsorted).2.2 a ha b hb)

/-- The arguments of one decode. The abort closure is polled once a frame. -/
structure BeamSearch (F : Type) [SingleArith F] where
  logProbs : List F
  tLen : Nat
  vocab : Nat
  blankId : Nat
  biaser : Biaser F
  abort : Option (Nat → Bool)
  selection : Selection F
  width : Nat
  topK : Nat

def logAddExp (a b : F) : F :=
  if a = SingleArith.negInfinity then b
  else if b = SingleArith.negInfinity then a
  else
    let hi := if b < a then a else b
    let lo := if b < a then b else a
    hi + SingleArith.lnOnePlus (SingleArith.exp (lo - hi))

namespace Hypothesis

def total (hyp : Hypothesis F) : F := logAddExp hyp.pBlank hyp.pNonblank

def settledTotal (hyp : Hypothesis F) : F := hyp.total - hyp.bias.pending

/-- The slot a contribution without a label finds empty. -/
def emptyFrom (hyp : Hypothesis F) : Hypothesis F :=
  { hyp with pBlank := SingleArith.negInfinity, pNonblank := SingleArith.negInfinity }

def emit (slot : Hypothesis F) : Emission F → Hypothesis F
  | .blank p => { slot with pBlank := logAddExp slot.pBlank p }
  | .repeatLast p => { slot with pNonblank := logAddExp slot.pNonblank p }

end Hypothesis

/-- Folds a contribution to the same prefix into `next`. -/
def merge (next : Beam F) (labels : List Nat) (hyp : Hypothesis F) (emission : Emission F) :
    Beam F :=
  KeyedList.upsert labels (fun slot => slot.emit emission) (hyp.emptyFrom.emit emission) next

/-- An extension of a prefix by a token. -/
structure Extension (F : Type) where
  tokens : List (TokenInfo F)
  p : F
  bias : BiasPath F

/-- The hypothesis that only the extension supplies. -/
def Extension.hypothesis (x : Extension F) : Hypothesis F :=
  { pBlank := SingleArith.negInfinity, pNonblank := x.p, tokens := x.tokens, bias := x.bias,
    anchor := x.p }

/-- Credits the extension, whose alignment replaces a less supported one. -/
def Extension.credit (x : Extension F) (slot : Hypothesis F) : Hypothesis F :=
  let pNonblank := logAddExp slot.pNonblank x.p
  if slot.anchor < x.p then
    { slot with pNonblank, tokens := x.tokens, bias := x.bias, anchor := x.p }
  else { slot with pNonblank }

/-- Folds an extension by `token` into `next`. -/
def mergeExtension (next : Beam F) (labels : List Nat) (hyp : Hypothesis F) (token : Nat) (p : F)
    (bias : BiasPath F) (frame : Nat) (confidence : F) : Beam F :=
  if p = SingleArith.negInfinity then next
  else
    let info := { tokenId := token, frameIndex := frame, confidence }
    let x : Extension F := { tokens := hyp.tokens ++ [info], p, bias }
    KeyedList.upsert (labels ++ [token]) x.credit x.hypothesis next

/-- One frame of encoder output as log-probabilities. -/
def logSoftmax (row : List F) : List F :=
  let max := row.foldl SingleArith.maximum SingleArith.negInfinity
  let sum := Logits.sum (row.map fun l => SingleArith.exp (l - max))
  row.map fun l => l - (max + SingleArith.ln sum)

namespace BeamSearch

def topKInto (d : BeamSearch F) (lp : List F) : List Nat :=
  (d.selection.order lp d.topK).take (min d.topK lp.length)

def usable (d : BeamSearch F) : Nat := min d.tLen (d.logProbs.length / d.vocab)

def row (d : BeamSearch F) (t : Nat) : List F := (d.logProbs.drop (t * d.vocab)).take d.vocab

def lp (d : BeamSearch F) (t : Nat) : List F := logSoftmax (d.row t)

/-- The likeliest classes, the blank and the tokens that continue a hotword, in ascending order. -/
def candidates (d : BeamSearch F) (lp : List F) (beams : Beam F) : List Nat :=
  let top := d.topKInto lp
  let withBlank := if d.blankId ∈ top then top else top ++ [d.blankId]
  let raw := withBlank ++ beams.flatMap fun x => d.biaser.continuations x.2.bias
  ((raw.filter (· < d.vocab)).mergeSort (· ≤ ·)).dedup

/-- The extension of `labels` by `c` on top of `p`, with the hotword score of `c`. -/
def extendWith (d : BeamSearch F) (t : Nat) (lp : List F) (next : Beam F) (labels : List Nat)
    (hyp : Hypothesis F) (c : Nat) (p : F) : Beam F :=
  let score := d.biaser.scoreToken hyp.bias c
  mergeExtension next labels hyp c (p + lp.getD c 0 + score.1) score.2 t
    (SingleArith.exp (lp.getD c 0))

/-- What one hypothesis contributes to `next` with class `c`. -/
def expand (d : BeamSearch F) (t : Nat) (lp : List F) (next : Beam F)
    (x : (List Nat × Hypothesis F) × Nat) : Beam F :=
  let labels := x.1.1
  let hyp := x.1.2
  let c := x.2
  if lp.getD c 0 = SingleArith.negInfinity then next
  else if c = d.blankId then merge next labels hyp (.blank (hyp.total + lp.getD c 0))
  else if labels.getLast? = some c then
    d.extendWith t lp (merge next labels hyp (.repeatLast (hyp.pNonblank + lp.getD c 0)))
      labels hyp c hyp.pBlank
  else d.extendWith t lp next labels hyp c hyp.total

/-- The next beam before pruning. -/
def expandFrame (d : BeamSearch F) (t : Nat) (beams : Beam F) : Beam F :=
  (beams.product (d.candidates (d.lp t) beams)).foldl (d.expand t (d.lp t)) []

/-- The best hypotheses, in order. -/
def prune (d : BeamSearch F) (next : Beam F) : Beam F :=
  (next.mergeSort fun a b => decide (b.2.total ≤ a.2.total)).take d.width

def pollAbort (d : BeamSearch F) (t : Nat) : Bool :=
  match d.abort with
  | some abort => abort t
  | none => false

/-- Frame `t`. The beam stays as it is when the search ends here. -/
def frame (d : BeamSearch F) (t : Nat) (beams : Beam F) : Beam F × Option Unit :=
  if d.pollAbort t then (beams, some ())
  else if (d.expandFrame t beams).isEmpty then (beams, some ())
  else (d.prune (d.expandFrame t beams), none)

/-- The empty prefix, reached by a blank-only path with probability 1. -/
def start : Beam F :=
  [([], { pBlank := 0, pNonblank := SingleArith.negInfinity, tokens := [], bias := .default,
          anchor := 0 })]

/-- The beam after frames `0 .. n`, and whether the search ended before. -/
def beamsAfter (d : BeamSearch F) (n : Nat) : Beam F × Option Unit :=
  Loops.forEach d.frame (List.range n) start

def beamDecode (d : BeamSearch F) : List (TokenInfo F) :=
  if d.vocab = 0 then []
  else ((Logits.maxBy (fun x => x.2.settledTotal) (d.beamsAfter d.usable).1).map
    fun x => x.2.tokens).getD []

end BeamSearch

variable {d : BeamSearch F} {lp : List F} {beams next : Beam F}

theorem candidates_lt {c : Nat} (hc : c ∈ d.candidates lp beams) : c < d.vocab := by
  unfold BeamSearch.candidates at hc
  rw [List.mem_dedup, List.mem_mergeSort, List.mem_filter] at hc
  exact of_decide_eq_true hc.2

theorem nodup_candidates : (d.candidates lp beams).Nodup := List.nodup_dedup _

/-- With room for every class, every class is a candidate. -/
theorem mem_candidates_of_le (hlength : lp.length = d.vocab) (htop : d.vocab ≤ d.topK) {c : Nat}
    (hc : c < d.vocab) : c ∈ d.candidates lp beams := by
  have hperm := d.selection.perm lp d.topK
  have hmem : c ∈ d.topKInto lp := by
    have hlen : (d.selection.order lp d.topK).length = min d.topK lp.length := by
      rw [hperm.length_eq, List.length_range, hlength, Nat.min_eq_right htop]
    rw [BeamSearch.topKInto, ← hlen, List.take_length, hperm.mem_iff, List.mem_range, hlength]
    exact hc
  unfold BeamSearch.candidates
  rw [List.mem_dedup, List.mem_mergeSort, List.mem_filter]
  refine ⟨List.mem_append_left _ ?_, decide_eq_true hc⟩
  split_ifs
  · exact hmem
  · exact List.mem_append_left _ hmem

theorem prune_sublist (next : Beam F) :
    ∃ sorted : Beam F, sorted.Perm next ∧ d.prune next = sorted.take d.width :=
  ⟨_, List.mergeSort_perm _ _, rfl⟩

theorem mem_of_mem_prune {x : List Nat × Hypothesis F} (hx : x ∈ d.prune next) : x ∈ next := by
  obtain ⟨sorted, hperm, heq⟩ := prune_sublist (d := d) next
  rw [heq] at hx
  exact hperm.mem_iff.mp (List.mem_of_mem_take hx)

theorem nodup_keys_prune (h : (next.map Prod.fst).Nodup) :
    ((d.prune next).map Prod.fst).Nodup := by
  obtain ⟨sorted, hperm, heq⟩ := prune_sublist (d := d) next
  rw [heq, List.map_take]
  exact ((hperm.map Prod.fst).nodup_iff.mpr h).sublist (List.take_sublist _ _)

/-- A beam wide enough keeps every hypothesis. -/
theorem mem_prune_of_le (hwidth : next.length ≤ d.width) {x : List Nat × Hypothesis F}
    (hx : x ∈ next) : x ∈ d.prune next := by
  obtain ⟨sorted, hperm, heq⟩ := prune_sublist (d := d) next
  rw [heq, List.take_of_length_le (hperm.length_eq.trans_le hwidth)]
  exact hperm.mem_iff.mpr hx

end Ctc

end Gigastt
