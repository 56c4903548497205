import Gigastt.Slices
import Gigastt.VadRegions

/-!
The causal segmenter of the file path. Frames are scored as they complete; `Decisions` is the part
of its state that turns scores into regions, the rest buffers samples and releases those whose fate
is decided.
-/

namespace Gigastt.Vad

open Slices

structure Decisions where
  /-- One past the last scored frame. -/
  pos : Nat
  inRun : Bool
  /-- The region under construction: its start and the end of its last speech frame. -/
  merged : Option Span
  /-- The entry of `regions` the open region extends, once it is too long to be dropped. -/
  openIdx : Option Nat
  regions : List Span
  deriving DecidableEq, Repr

namespace Decisions

def new : Decisions :=
  { pos := 0, inRun := false, merged := none, openIdx := none, regions := [] }

/-- `regions[i].1 = regions[i].1.max(end)`. -/
def growRegion (d : Decisions) (i stop : Nat) : Decisions :=
  { d with regions := d.regions.modify i fun r => (r.1, max r.2 stop) }

variable {P : Type}

/-- Commit the closed region `[ms, me)`: dropped when short, else padded and merged in. -/
def finalize (params : Params P) (d : Decisions) (ms me : Nat) : Decisions :=
  let closed := { d with openIdx := none }
  if me - ms < params.minSpeech then closed
  else match d.openIdx with
    | some i => closed.growRegion i (me + params.pad)
    | none => { closed with
        regions := pushPadded closed.regions (ms - params.pad, me + params.pad) }

/-- A speech frame starts a run, in the open region if the silence before it was too short to
close that. -/
def enterRun (params : Params P) (d : Decisions) : Decisions :=
  if d.inRun then d
  else
    let settled := match d.merged with
      | some (ms, me) =>
          if d.pos - me < params.minSilence then d
          else { d.finalize params ms me with merged := none }
      | none => d
    { settled with
      merged := match settled.merged with
        | some m => some m
        | none => some (d.pos, d.pos)
      inRun := true }

/-- Stretch the open region to `stop` and claim its entry once it is long enough. -/
def extendRun (params : Params P) (d : Decisions) (stop : Nat) : Decisions :=
  match d.merged with
  | none => d
  | some (ms, _) =>
      let stretched := { d with merged := some (ms, stop) }
      match d.openIdx with
      | some i => stretched.growRegion i stop
      | none =>
          if params.minSpeech ≤ stop - ms then
            let regions := pushPadded d.regions (ms - params.pad, stop)
            { stretched with regions, openIdx := some (regions.length - 1) }
          else stretched

/-- A silent frame ends the run, and the open region with it once no later run can join. -/
def leaveRun (params : Params P) (d : Decisions) (stop : Nat) : Decisions :=
  let silent := { d with inRun := false }
  match d.merged with
  | some (ms, me) =>
      if params.minSilence ≤ stop - me then { silent.finalize params ms me with merged := none }
      else silent
  | none => silent

/-- Advance to `stop` with the probability of the frame that ends there. -/
def step [LE P] [DecidableLE P] (params : Params P) (d : Decisions) (prob : P) (stop : Nat) :
    Decisions :=
  if params.threshold ≤ prob then { (d.enterRun params).extendRun params stop with pos := stop }
  else { d.leaveRun params stop with pos := stop }

/-- Settle the tail at the true signal length. -/
def close (params : Params P) (d : Decisions) (total : Nat) : Decisions :=
  let ended := match d.inRun, d.merged with
    | true, some (ms, _) => { d with merged := some (ms, total), inRun := false }
    | _, _ => d
  let settled := match ended.merged with
    | some (ms, me) => { ended with merged := none }.finalize params ms me
    | none => ended
  { settled with
    regions := settled.regions.map fun r => (r.1, min r.2 total)
    pos := max settled.pos total }

/-- Up to where membership in `regions` is final. -/
def decidedTo (params : Params P) (d : Decisions) : Nat :=
  let base := (d.regions.getLast?.map Prod.snd).getD 0
  let bound := match d.merged, d.openIdx with
    | some _, some _ => base
    | some (ms, _), none => max base (ms - params.pad)
    | none, _ => max base (d.pos - params.pad)
  min bound d.pos

end Decisions

/-- `σ` is the recurrent state of the scorer. -/
structure VadSegmenter (P α σ : Type) where
  params : Params P
  state : σ
  raw : List α
  rawStart : Nat
  decisions : Decisions
  outIdx : Nat
  copiedTo : Nat

namespace VadSegmenter

variable {P α σ ε : Type}

def new (cfg : VadConfig P) (state : σ) : VadSegmenter P α σ where
  params := cfg.params
  state
  raw := []
  rawStart := 0
  decisions := .new
  outIdx := 0
  copiedTo := 0

/-- The loop of `flush` over the regions from `outIdx` on. -/
def flushLoop (raw : List α) (rawStart decided : Nat) :
    List Span → Nat → Nat → List α → Nat × Nat × List α
  | [], outIdx, copiedTo, out => (outIdx, copiedTo, out)
  | (s, e) :: rest, outIdx, copiedTo, out =>
      let start := max copiedTo s
      let stop := min e decided
      let copied := if start < stop then stop else copiedTo
      let out := if start < stop then out ++ slice raw (start - rawStart) (stop - rawStart) else out
      if rest.isEmpty then (outIdx, copied, out)
      else flushLoop raw rawStart decided rest (outIdx + 1) copied out

/-- Release every decided, not yet released sample. -/
def flush (seg : VadSegmenter P α σ) (out : List α) : VadSegmenter P α σ × List α :=
  let decided := min (seg.decisions.decidedTo seg.params) (seg.rawStart + seg.raw.length)
  let flushed := flushLoop seg.raw seg.rawStart decided (seg.decisions.regions.drop seg.outIdx)
    seg.outIdx seg.copiedTo out
  ({ seg with outIdx := flushed.1, copiedTo := flushed.2.1 }, flushed.2.2)

/-- Drop the buffered samples that can no longer be needed. -/
def trim (seg : VadSegmenter P α σ) : VadSegmenter P α σ :=
  let decided := seg.decisions.decidedTo seg.params
  let keepFrom := match seg.decisions.merged, seg.decisions.openIdx with
    | some (ms, _), none => min decided (ms - seg.params.pad)
    | _, _ => decided
  let drop := min (keepFrom - seg.rawStart) seg.raw.length
  { seg with raw := seg.raw.drop drop, rawStart := seg.rawStart + drop }

variable [LE P] [DecidableLE P] (score : List α → σ → Except ε (P × σ))

/-- Score the frame from `pos` to buffer offset `readTo` and advance to `stop`. -/
def scoreFrame (seg : VadSegmenter P α σ) (readTo stop : Nat) : Except ε (VadSegmenter P α σ) := do
  let scored ← score (slice seg.raw (seg.decisions.pos - seg.rawStart) readTo) seg.state
  return { seg with
    state := scored.2
    decisions := seg.decisions.step seg.params scored.1 stop }

/-- Score whole frames while they are buffered. -/
def pushLoop (avail : Nat) : Nat → VadSegmenter P α σ → Except ε (VadSegmenter P α σ)
  | 0, seg => .ok seg
  | fuel + 1, seg =>
      if seg.decisions.pos + frameSamples ≤ avail then do
        let off := seg.decisions.pos - seg.rawStart
        pushLoop avail fuel
          (← seg.scoreFrame score (off + frameSamples) (seg.decisions.pos + frameSamples))
      else .ok seg

/-- Feed the next block of samples. Every frame advances the position, so `avail` rounds suffice. -/
def pushWith (seg : VadSegmenter P α σ) (samples out : List α) :
    Except ε (VadSegmenter P α σ × List α) := do
  let buffered := { seg with raw := seg.raw ++ samples }
  let avail := buffered.rawStart + buffered.raw.length
  let scanned ← pushLoop score avail avail buffered
  let flushed := scanned.flush out
  return (flushed.1.trim, flushed.2)

/-- Score what is left, the last frame possibly partial. -/
def finishLoop (total : Nat) : Nat → VadSegmenter P α σ → Except ε (VadSegmenter P α σ)
  | 0, seg => .ok seg
  | fuel + 1, seg =>
      if seg.decisions.pos < total then do
        let off := seg.decisions.pos - seg.rawStart
        finishLoop total fuel (← seg.scoreFrame score (min (off + frameSamples) seg.raw.length)
          (min (seg.decisions.pos + frameSamples) total))
      else .ok seg

def finishWith (seg : VadSegmenter P α σ) (total : Nat) (out : List α) :
    Except ε (VadSegmenter P α σ × List α) := do
  let scanned ← finishLoop score total total seg
  let closed := { scanned with decisions := scanned.decisions.close scanned.params total }
  return closed.flush out

/-- All blocks of a stream in turn. -/
def pushAll (seg : VadSegmenter P α σ) (out : List α) :
    List (List α) → Except ε (VadSegmenter P α σ × List α)
  | [] => .ok (seg, out)
  | block :: rest => do
      let pushed ← seg.pushWith score block out
      pushAll pushed.1 pushed.2 rest

end VadSegmenter

/-- The probabilities of a signal's frames from position `pos` on, the last one possibly partial. -/
def frameProbsFrom {P α σ ε : Type} (score : List α → σ → Except ε (P × σ)) (signal : List α) :
    Nat → Nat → σ → Except ε (List P)
  | 0, _, _ => .ok []
  | fuel + 1, pos, state =>
      if pos < signal.length then do
        let stop := min (pos + frameSamples) signal.length
        let scored ← score (slice signal pos stop) state
        return scored.1 :: (← frameProbsFrom score signal fuel stop scored.2)
      else .ok []

def frameProbs {P α σ ε : Type} (score : List α → σ → Except ε (P × σ)) (state : σ)
    (signal : List α) : Except ε (List P) :=
  frameProbsFrom score signal signal.length 0 state

end Gigastt.Vad
