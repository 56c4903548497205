import Gigastt.Moments
import Mathlib.Algebra.Order.Field.Basic
import Mathlib.Analysis.Real.Sqrt

/-!
Dual-mono detection in exact arithmetic: the statistic of two whole channels, and the detector that
keeps it up block by block. The square root is a parameter.
-/

namespace Gigastt

variable {K : Type*} [Field K]

def dualMonoCorrelationThreshold : K := 98 / 100

/-- Below it a channel counts as silent. -/
def silentDenominator : K := 1 / 10 ^ 12

structure DualMonoDetector (K : Type*) where
  n : K
  meanA : K
  meanB : K
  /-- The co-moment of the channels. -/
  cAB : K
  m2A : K
  m2B : K

namespace DualMonoDetector

def new : DualMonoDetector K := { n := 0, meanA := 0, meanB := 0, cAB := 0, m2A := 0, m2B := 0 }

/-- The body of the loop over a block. -/
def observe (d : DualMonoDetector K) (sample : K × K) : DualMonoDetector K :=
  let n := d.n + 1
  let dx := sample.1 - d.meanA
  let dy := sample.2 - d.meanB
  let meanA := d.meanA + dx / n
  let meanB := d.meanB + dy / n
  { n := n
    meanA := meanA
    meanB := meanB
    cAB := d.cAB + dx * (sample.2 - meanB)
    m2A := d.m2A + dx * (sample.1 - meanA)
    m2B := d.m2B + dy * (sample.2 - meanB) }

/-- Only the overlapping prefix of a block counts. -/
def push (d : DualMonoDetector K) (a b : List K) : DualMonoDetector K := (a.zip b).foldl observe d

/-- The detector after a list of blocks. -/
def pushAll (d : DualMonoDetector K) (blocks : List (List K × List K)) : DualMonoDetector K :=
  blocks.foldl (fun d block => d.push block.1 block.2) d

section Verdict

variable [LinearOrder K] (sqrt : K → K)

def correlation (d : DualMonoDetector K) : K :=
  if d.n = 0 then 0
  else
    let denom := sqrt d.m2A * sqrt d.m2B
    if denom < silentDenominator then 0 else d.cAB / denom

def isDualMono (d : DualMonoDetector K) : Bool :=
  0 < d.n && dualMonoCorrelationThreshold < d.correlation sqrt

end Verdict

end DualMonoDetector

/-- The second pass: the products of the deviations, and the squares of either channel's. -/
def deviationSums (a b : List K) : K × K × K :=
  let n : K := a.length
  let meanA := a.sum / n
  let meanB := b.sum / n
  (a.zip b).foldl
    (fun sums sample =>
      let dx := sample.1 - meanA
      let dy := sample.2 - meanB
      (sums.1 + dx * dy, sums.2.1 + dx * dx, sums.2.2 + dy * dy))
    (0, 0, 0)

section Batch

variable [LinearOrder K] (sqrt : K → K)

def normalizedCorrelation (a b : List K) : K :=
  if a.length = 0 ∨ a.length ≠ b.length then 0
  else
    let sums := deviationSums a b
    let denom := sqrt sums.2.1 * sqrt sums.2.2
    if denom < silentDenominator then 0 else sums.1 / denom

/-- Two channels that are nearly the same. -/
def isDualMono : List (List K) → Bool
  | [left, right] =>
      if left = [] ∨ right = [] then false
      else
        let len := min left.length right.length
        dualMonoCorrelationThreshold < normalizedCorrelation sqrt (left.take len) (right.take len)
  | _ => false

end Batch

namespace DualMonoDetector

open Moments

/-- The detector holds the moments of the samples it has observed. -/
structure Holds (d : DualMonoDetector K) (samples : List (K × K)) : Prop where
  n : d.n = samples.length
  meanA : d.meanA = mean Prod.fst samples
  meanB : d.meanB = mean Prod.snd samples
  cAB : d.cAB = comoment Prod.fst Prod.snd samples
  m2A : d.m2A = comoment Prod.fst Prod.fst samples
  m2B : d.m2B = comoment Prod.snd Prod.snd samples

variable {d : DualMonoDetector K} {samples : List (K × K)} {a b : List K}

theorem holds_new : Holds (new : DualMonoDetector K) [] where
  n := Nat.cast_zero.symm
  meanA := (zero_div _).symm
  meanB := (zero_div _).symm
  cAB := rfl
  m2A := rfl
  m2B := rfl

section CharZero

variable [CharZero K]

theorem Holds.observe (h : Holds d samples) (sample : K × K) :
    Holds (d.observe sample) (samples ++ [sample]) := by
  have hn : d.n + 1 = (samples ++ [sample]).length := by
    rw [h.n, List.length_append, List.length_singleton, Nat.cast_succ]
  have hmeanA : d.meanA + (sample.1 - d.meanA) / (d.n + 1) = mean Prod.fst (samples ++ [sample]) := by
    rw [hn, h.meanA, mean_concat]
  have hmeanB : d.meanB + (sample.2 - d.meanB) / (d.n + 1) = mean Prod.snd (samples ++ [sample]) := by
    rw [hn, h.meanB, mean_concat]
  refine ⟨hn, hmeanA, hmeanB, ?_, ?_, ?_⟩
  · dsimp only [DualMonoDetector.observe]
    rw [hmeanB, h.cAB, h.meanA, comoment_concat]
  · dsimp only [DualMonoDetector.observe]
    rw [hmeanA, h.m2A, h.meanA, comoment_concat]
  · dsimp only [DualMonoDetector.observe]
    rw [hmeanB, h.m2B, h.meanB, comoment_concat]

theorem Holds.push (h : Holds d samples) (a b : List K) :
    Holds (d.push a b) (samples ++ a.zip b) := by
  rw [DualMonoDetector.push]
  induction a.zip b generalizing d samples with
  | nil => rwa [List.append_nil]
  | cons sample rest ih =>
      rw [List.foldl_cons, ← List.singleton_append, ← List.append_assoc]
      exact ih (h.observe sample)

/-- After any blocks the moments are those of the channels put together. -/
theorem Holds.pushAll (h : Holds d samples) (blocks : List (List K × List K)) :
    Holds (d.pushAll blocks) (samples ++ blocks.flatMap fun block => block.1.zip block.2) := by
  induction blocks generalizing d samples with
  | nil => rwa [List.flatMap_nil, List.append_nil]
  | cons block blocks ih =>
      rw [List.flatMap_cons, ← List.append_assoc]
      exact ih (h.push block.1 block.2)

end CharZero

/-- Blocks of two parts of one length put together, channel by channel. -/
theorem flatMap_zip {α β : Type*} {blocks : List (List α × List β)}
    (hblocks : ∀ block ∈ blocks, block.1.length = block.2.length) :
    (blocks.flatMap fun block => block.1.zip block.2) =
        (blocks.flatMap Prod.fst).zip (blocks.flatMap Prod.snd) ∧
      (blocks.flatMap Prod.fst).length = (blocks.flatMap Prod.snd).length := by
  induction blocks with
  | nil => exact ⟨rfl, rfl⟩
  | cons block blocks ih =>
      have hblock := hblocks block List.mem_cons_self
      obtain ⟨hzip, hlength⟩ := ih fun block hmem => hblocks block (List.mem_cons_of_mem _ hmem)
      simp only [List.flatMap_cons]
      refine ⟨?_, ?_⟩
      · rw [hzip, List.zip_append hblock]
      · rw [List.length_append, List.length_append, hblock, hlength]

/-- The second pass adds up what the co-moments add up. -/
theorem deviationSums_eq (hlength : a.length = b.length) :
    deviationSums a b = (comoment Prod.fst Prod.snd (a.zip b), comoment Prod.fst Prod.fst (a.zip b),
      comoment Prod.snd Prod.snd (a.zip b)) := by
  have hfold : ∀ (samples : List (K × K)) (p q : K) (sums : K × K × K),
      samples.foldl (fun sums sample => (sums.1 + (sample.1 - p) * (sample.2 - q),
          sums.2.1 + (sample.1 - p) * (sample.1 - p), sums.2.2 + (sample.2 - q) * (sample.2 - q)))
        sums =
        (sums.1 + (samples.map fun s => (s.1 - p) * (s.2 - q)).sum,
          sums.2.1 + (samples.map fun s => (s.1 - p) * (s.1 - p)).sum,
          sums.2.2 + (samples.map fun s => (s.2 - q) * (s.2 - q)).sum) := by
    intro samples p q
    induction samples with
    | nil => simp
    | cons s samples ih =>
        intro sums
        simp only [List.foldl_cons, ih, List.map_cons, List.sum_cons, add_assoc]
  have hmeanA : mean Prod.fst (a.zip b) = a.sum / a.length := by
    rw [mean, List.map_fst_zip hlength.le, List.length_zip, hlength, min_self]
  have hmeanB : mean Prod.snd (a.zip b) = b.sum / a.length := by
    rw [mean, List.map_snd_zip hlength.ge, List.length_zip, hlength, min_self]
  simp only [deviationSums, hfold, comoment, hmeanA, hmeanB, zero_add]

section Verdict

variable [LinearOrder K] [IsStrictOrderedRing K] (sqrt : K → K)

theorem Holds.correlation_eq (h : Holds d (a.zip b)) (hlength : a.length = b.length) :
    d.correlation sqrt = normalizedCorrelation sqrt a b := by
  have hn : d.n = a.length := by rw [h.n, List.length_zip, hlength, min_self]
  have hempty : d.n = 0 ↔ a.length = 0 ∨ a.length ≠ b.length := by
    rw [hn, Nat.cast_eq_zero, or_iff_left (not_not_intro hlength)]
  simp only [correlation, normalizedCorrelation, hempty, deviationSums_eq hlength, h.m2A, h.m2B,
    h.cAB]

theorem Holds.isDualMono_eq (h : Holds d (a.zip b)) (hlength : a.length = b.length) :
    d.isDualMono sqrt = Gigastt.isDualMono sqrt [a, b] := by
  have hn : d.n = a.length := by rw [h.n, List.length_zip, hlength, min_self]
  rw [DualMonoDetector.isDualMono, h.correlation_eq sqrt hlength, hn, Gigastt.isDualMono]
  by_cases ha : a = []
  · rw [if_pos (Or.inl ha), ha, List.length_nil, Nat.cast_zero, decide_eq_false (lt_irrefl 0),
      Bool.false_and]
  · have hb : b ≠ [] := by
      rintro rfl
      exact ha (List.length_eq_zero_iff.mp hlength)
    have hpos : (0 : K) < a.length := Nat.cast_pos.mpr (List.length_pos_iff.mpr ha)
    have hmin : min a.length b.length = a.length := by rw [hlength, min_self]
    rw [if_neg (not_or_intro ha hb), decide_eq_true hpos, Bool.true_and]
    dsimp only
    rw [hmin, List.take_length, hlength, List.take_length]

/-- However two channels are cut into blocks, the detector ends each block with the moments that the
two passes over all samples so far would give, and with their correlation and verdict. -/
theorem pushAll_exact {blocks : List (List K × List K)}
    (hblocks : ∀ block ∈ blocks, block.1.length = block.2.length) :
    let d := new.pushAll blocks
    let a := blocks.flatMap Prod.fst
    let b := blocks.flatMap Prod.snd
    d.n = a.length ∧ d.meanA = a.sum / a.length ∧ d.meanB = b.sum / b.length ∧
      (d.cAB, d.m2A, d.m2B) = deviationSums a b ∧
      d.correlation sqrt = normalizedCorrelation sqrt a b ∧
      d.isDualMono sqrt = Gigastt.isDualMono sqrt [a, b] := by
  obtain ⟨hzip, hlength⟩ := flatMap_zip hblocks
  intro d a b
  have hlength' : a.length = b.length := hlength
  have h : Holds d (a.zip b) := by
    have hall := holds_new.pushAll blocks
    rwa [List.nil_append, hzip] at hall
  refine ⟨?_, ?_, ?_, ?_, h.correlation_eq sqrt hlength, h.isDualMono_eq sqrt hlength⟩
  · rw [h.n, List.length_zip, hlength', min_self]
  · rw [h.meanA, mean, List.map_fst_zip hlength'.le, List.length_zip, ← hlength', min_self]
  · rw [h.meanB, mean, List.map_snd_zip hlength'.ge, List.length_zip, hlength', min_self]
  · rw [deviationSums_eq hlength', h.cAB, h.m2A, h.m2B]

end Verdict

theorem pushAll_exact_real :
    let blocks : List (List ℝ × List ℝ) := [([1], [2]), ([], []), ([3, 5], [4, 7])]
    let d := new.pushAll blocks
    let a := blocks.flatMap Prod.fst
    let b := blocks.flatMap Prod.snd
    d.n = a.length ∧ d.meanA = a.sum / a.length ∧ d.meanB = b.sum / b.length ∧
      (d.cAB, d.m2A, d.m2B) = deviationSums a b ∧
      d.correlation Real.sqrt = normalizedCorrelation Real.sqrt a b ∧
      d.isDualMono Real.sqrt = Gigastt.isDualMono Real.sqrt [a, b] :=
  pushAll_exact Real.sqrt (by simp)

end DualMonoDetector

end Gigastt
