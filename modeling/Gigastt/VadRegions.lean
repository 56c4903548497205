import Mathlib.Data.List.Basic

/-!
Speech regions of a probability sequence: threshold, merging across short silences, dropping of
short runs, and padding. Probabilities are only ever compared with the threshold.
-/

namespace Gigastt.Vad

/-- A half-open range of samples. -/
abbrev Span := Nat × Nat

def sampleRate : Nat := 16000

/-- Samples of one scored frame. -/
def frameSamples : Nat := 512

structure VadConfig (P : Type) where
  threshold : P
  minSilenceMs : Nat
  minSpeechMs : Nat
  speechPadMs : Nat
  deriving DecidableEq, Repr

def msToSamples (ms : Nat) : Nat := sampleRate * ms / 1000

/-- A config with its durations in samples. -/
structure Params (P : Type) where
  threshold : P
  minSilence : Nat
  minSpeech : Nat
  pad : Nat
  deriving DecidableEq, Repr

def VadConfig.params {P : Type} (cfg : VadConfig P) : Params P where
  threshold := cfg.threshold
  minSilence := msToSamples cfg.minSilenceMs
  minSpeech := msToSamples cfg.minSpeechMs
  pad := msToSamples cfg.speechPadMs

/-- Merge into the last span when `joins` it, else push: the `last_mut` idiom of both passes. -/
def mergeOrPush (joins : Span → Bool) (grow : Span → Span) (spans : List Span) (span : Span) :
    List Span :=
  match spans.getLast? with
  | some last => if joins last then spans.dropLast ++ [grow last] else spans ++ [span]
  | none => spans ++ [span]

@[simp] theorem mergeOrPush_nil (joins : Span → Bool) (grow : Span → Span) (span : Span) :
    mergeOrPush joins grow [] span = [span] := rfl

@[simp] theorem mergeOrPush_concat (joins : Span → Bool) (grow : Span → Span) (front : List Span)
    (last span : Span) : mergeOrPush joins grow (front ++ [last]) span =
      if joins last then front ++ [grow last] else front ++ [last] ++ [span] := by
  simp [mergeOrPush]

/-- Merge a run into the last one when the silence between them is too short to split it. -/
def mergeRun (minSilence : Nat) (merged : List Span) (run : Span) : List Span :=
  mergeOrPush (fun last => run.1 - last.2 < minSilence) (fun last => (last.1, run.2)) merged run

/-- Append a padded span, or merge it into the last one when they touch. -/
def pushPadded (padded : List Span) (span : Span) : List Span :=
  mergeOrPush (fun last => span.1 ≤ last.2) (fun last => (last.1, max last.2 span.2)) padded span

@[simp] theorem pushPadded_nil (span : Span) : pushPadded [] span = [span] := rfl

@[simp] theorem pushPadded_concat (front : List Span) (last span : Span) :
    pushPadded (front ++ [last]) span =
      if span.1 ≤ last.2 then front ++ [(last.1, max last.2 span.2)]
      else front ++ [last] ++ [span] := by
  simp [pushPadded]

def padSpan (pad : Nat) (span : Span) : Span := (span.1 - pad, span.2 + pad)

def padClamped (pad total : Nat) (padded : List Span) (span : Span) : List Span :=
  pushPadded padded (span.1 - pad, min (span.2 + pad) total)

/-- Closed runs so far, and the start of the run that is still open. -/
structure RunScan where
  regions : List Span
  runStart : Option Nat
  deriving DecidableEq, Repr

section Batch

variable {P : Type} [LE P] [DecidableLE P]

def scanFrame (threshold : P) (frame : Nat) (scan : RunScan) (p : P × Nat) : RunScan :=
  if threshold ≤ p.1 then
    match scan.runStart with
    | none => { scan with runStart := some (p.2 * frame) }
    | some _ => scan
  else
    match scan.runStart with
    | some s => { regions := scan.regions ++ [(s, p.2 * frame)], runStart := none }
    | none => scan

def scanRuns (threshold : P) (frame : Nat) (probs : List P) : RunScan :=
  probs.zipIdx.foldl (scanFrame threshold frame) { regions := [], runStart := none }

/-- A run still open at the end stops with the signal. -/
def RunScan.close (scan : RunScan) (total : Nat) : List Span :=
  match scan.runStart with
  | some s => scan.regions ++ [(s, total)]
  | none => scan.regions

def regionsFromProbs (probs : List P) (frame total : Nat) (cfg : VadConfig P) : List Span :=
  if probs.isEmpty || total == 0 then []
  else
    let regions := (scanRuns cfg.threshold frame probs).close total
    if regions.isEmpty then []
    else
      let merged := regions.foldl (mergeRun cfg.params.minSilence) []
      let kept := merged.filter fun r => cfg.params.minSpeech ≤ r.2 - r.1
      if kept.isEmpty then kept else kept.foldl (padClamped cfg.params.pad total) []

end Batch

end Gigastt.Vad
