import Gigastt.Outcomes
import Gigastt.Slices

/-!
The accumulator that resamples a file to 16 kHz while it decodes. Decoders stage samples at the rate of
the file; a full stage goes through the cached resampler, whose state carries over to the next one. What
is ready can be taken out at any time.
-/

namespace Gigastt

open Outcomes Slices

variable {α : Type}

/-- What the decoders compute with samples. -/
structure SampleOps (α : Type) where
  zero : α
  add : α → α → α
  div : α → Nat → α
  finite : α → Bool

namespace SampleOps

variable (ops : SampleOps α)

/-- The mean of the channels of one frame. -/
def mix (frame : List α) : α := ops.div (frame.foldl ops.add ops.zero) frame.length

/-- A sample that is no number counts as silence. -/
def sanitize (x : α) : α := if ops.finite x then x else ops.zero

end SampleOps

/-- The resampler of the crate. `process` is `process_cached_chunk`: it sets the chunk size, asks for
the length of the output and fills it. -/
structure Rubato (α : Type) where
  State : Type
  build : (fromRate toRate capacity : Nat) → Except String State
  inputFramesMax : State → Nat
  process : State → List α → Except String (List α × State)

def minResamplerCapacity : Nat := 4096

section

variable (ops : SampleOps α) (rubato : Rubato α)

/-- The pieces of an oversized frame through one resampler. -/
def processPieces : List (List α) → rubato.State → Except String (List α × rubato.State)
  | [], state => .ok ([], state)
  | piece :: rest, state => do
      let (out, state) ← rubato.process state piece
      let (more, state) ← processPieces rest state
      return (out ++ more, state)

/-- Resample through a cached resampler, built at the first call for no less than the capacity. -/
def resampleWithCache (samples : List α) (fromRate toRate : Nat) (cache : Option rubato.State) :
    Except String (List α × Option rubato.State) :=
  if samples.isEmpty || fromRate == 0 || toRate == 0 then .ok ([], cache)
  else if fromRate = toRate then .ok (samples, cache)
  else do
    let samples := samples.map ops.sanitize
    let state ← match cache with
      | some state => .ok state
      | none => rubato.build fromRate toRate (max samples.length minResamplerCapacity)
    let (out, state) ←
      if samples.length ≤ rubato.inputFramesMax state then rubato.process state samples
      else processPieces rubato (pieces (rubato.inputFramesMax state) samples) state
    return (out, some state)

end

/-- Samples at the source's rate that are staged before each flush. -/
def resampleStagingFrames : Nat := 48000

/-- The files' rate of the engine. -/
def targetRate : Nat := 16000

structure ResampleTo16k (rubato : Rubato α) where
  fromRate : Nat
  stage : List α
  out : List α
  cache : Option rubato.State

namespace ResampleTo16k

variable (ops : SampleOps α) {rubato : Rubato α}

def new (fromRate : Nat) : ResampleTo16k rubato := { fromRate, stage := [], out := [], cache := none }

/-- Append decoded samples to the stage. -/
def push (t : ResampleTo16k rubato) (samples : List α) : ResampleTo16k rubato :=
  { t with stage := t.stage ++ samples }

def drain (t : ResampleTo16k rubato) : Except String (ResampleTo16k rubato) :=
  if t.stage.isEmpty then .ok t
  else
    match resampleWithCache ops rubato t.stage t.fromRate targetRate t.cache with
    | .error e => .error ("Resampling failed: " ++ e)
    | .ok (scratch, cache) => .ok { t with stage := [], out := t.out ++ scratch, cache }

def flushFull (t : ResampleTo16k rubato) : Except String (ResampleTo16k rubato) :=
  if t.fromRate == targetRate || t.stage.length < resampleStagingFrames then .ok t
  else t.drain ops

/-- The samples at 16 kHz produced so far. Of a file at 16 kHz the stage is the output. -/
def drainReadyInto (t : ResampleTo16k rubato) : List α × ResampleTo16k rubato :=
  if t.fromRate = targetRate then (t.stage, { t with stage := [] })
  else (t.out, { t with out := [] })

def finishInto (t : ResampleTo16k rubato) : Except String (List α × ResampleTo16k rubato) :=
  if t.fromRate = targetRate then .ok (t.stage, { t with stage := [] })
  else do
    let t ← t.drain ops
    return (t.out, { t with out := [] })

def finish (t : ResampleTo16k rubato) : Except String (List α) :=
  if t.fromRate = targetRate then .ok t.stage
  else do
    let t ← t.drain ops
    return t.out

/-- Stage a packet and flush, as the packet loops do. -/
def feed (t : ResampleTo16k rubato) (packet : List α) : Except String (ResampleTo16k rubato) :=
  (t.push packet).flushFull ops

/-- All packets of a file, with nothing taken out before the end. -/
def whole (t : ResampleTo16k rubato) : List (List α) → Except String (List α)
  | [] => t.finish ops
  | packet :: rest => do (← t.feed ops packet).whole rest

/-- All packets of a file. After each the ready samples are taken out or left for later. -/
def piecewise (t : ResampleTo16k rubato) : List (List α × Bool) → Except String (List α)
  | [] => do return (← t.finishInto ops).1
  | (packet, take) :: rest => do
      let t ← t.feed ops packet
      if take then return t.drainReadyInto.1 ++ (← t.drainReadyInto.2.piecewise rest)
      else t.piecewise rest

/-- The accumulator with some samples put back among the ready ones. -/
def restore (taken : List α) (t : ResampleTo16k rubato) : ResampleTo16k rubato :=
  if t.fromRate = targetRate then { t with stage := taken ++ t.stage }
  else { t with out := taken ++ t.out }

variable (taken : List α) (t : ResampleTo16k rubato)

theorem restore_of_eq (h : t.fromRate = targetRate) :
    t.restore taken = { t with stage := taken ++ t.stage } := if_pos h

theorem restore_of_ne (h : t.fromRate ≠ targetRate) :
    t.restore taken = { t with out := taken ++ t.out } := if_neg h

theorem restore_nil : t.restore [] = t := by
  unfold restore
  split <;> rfl

theorem push_restore (samples : List α) :
    (t.restore taken).push samples = (t.push samples).restore taken := by
  by_cases h : t.fromRate = targetRate
  · rw [restore_of_eq taken t h]
    refine Eq.trans ?_ (restore_of_eq taken (t.push samples) h).symm
    rw [push, push, List.append_assoc]
  · rw [restore_of_ne taken t h]
    exact (restore_of_ne taken (t.push samples) h).symm

theorem restore_drainReadyInto :
    t.drainReadyInto.2.restore (taken ++ t.drainReadyInto.1) = t.restore taken := by
  by_cases h : t.fromRate = targetRate
  · simp only [restore, drainReadyInto, if_pos h, List.append_nil]
  · simp only [restore, drainReadyInto, if_neg h, List.append_nil]

/-- What is ready has no part in a drain. -/
theorem drain_restore (h : t.fromRate ≠ targetRate) :
    (t.restore taken).drain ops = (t.drain ops).map (restore taken) := by
  rw [restore_of_ne taken t h, drain, drain]
  by_cases hempty : t.stage.isEmpty
  · rw [if_pos hempty, if_pos hempty, Except.map, restore_of_ne taken t h]
  · rw [if_neg hempty, if_neg hempty]
    cases resampleWithCache ops rubato t.stage t.fromRate targetRate t.cache with
    | error e => rfl
    | ok result =>
        simp only [Except.map, restore, if_neg h, List.append_assoc]

theorem drain_fromRate {t u : ResampleTo16k rubato} (h : t.drain ops = .ok u) :
    u.fromRate = t.fromRate := by
  rw [drain] at h
  split at h
  · cases h
    rfl
  · split at h
    · cases h
    · cases h
      rfl

theorem feed_fromRate {t u : ResampleTo16k rubato} {packet : List α} (h : t.feed ops packet = .ok u) :
    u.fromRate = t.fromRate := by
  rw [feed, flushFull] at h
  split at h
  · cases h
    rfl
  · exact (drain_fromRate ops h : u.fromRate = (t.push packet).fromRate)

theorem flushFull_restore :
    (t.restore taken).flushFull ops = (t.flushFull ops).map (restore taken) := by
  by_cases h : t.fromRate = targetRate
  · have hflush : ∀ u : ResampleTo16k rubato, u.fromRate = targetRate → u.flushFull ops = .ok u := by
      intro u hu
      rw [flushFull, if_pos (by rw [beq_iff_eq.mpr hu, Bool.true_or])]
    rw [hflush t h]
    apply hflush
    rw [restore_of_eq taken t h]
    exact h
  · have hsame : (t.restore taken).fromRate = t.fromRate ∧ (t.restore taken).stage = t.stage := by
      rw [restore_of_ne taken t h]
      exact ⟨rfl, rfl⟩
    rw [flushFull, flushFull, drain_restore ops taken t h, hsame.1, hsame.2]
    split <;> rfl

theorem feed_restore (packet : List α) :
    (t.restore taken).feed ops packet = (t.feed ops packet).map (restore taken) := by
  rw [feed, feed, push_restore, flushFull_restore]

theorem finish_restore :
    (t.restore taken).finish ops = (t.finishInto ops).map fun done => taken ++ done.1 := by
  by_cases h : t.fromRate = targetRate
  · rw [restore_of_eq taken t h, finish, finishInto, if_pos h, if_pos h]
    rfl
  · have hrestored : (t.restore taken).fromRate ≠ targetRate := by
      rw [restore_of_ne taken t h]
      exact h
    rw [finish, finishInto, if_neg h, if_neg hrestored, drain_restore ops taken t h]
    cases hdrain : t.drain ops with
    | error e => rfl
    | ok u =>
        have hrate : u.fromRate ≠ targetRate := by rwa [drain_fromRate ops hdrain]
        change Except.ok (u.restore taken).out = _
        rw [restore_of_ne taken u hrate]
        rfl

theorem finish_eq : t.finish ops = (t.finishInto ops).map Prod.fst := by
  have h := finish_restore ops [] t
  rwa [restore_nil] at h

theorem whole_restore (packets : List (List α × Bool)) :
    (t.restore taken).whole ops (packets.map Prod.fst) =
      (t.piecewise ops packets).map (taken ++ ·) := by
  induction packets generalizing t taken with
  | nil =>
      rw [List.map_nil, whole, finish_restore, piecewise]
      cases t.finishInto ops <;> rfl
  | cons head rest ih =>
      obtain ⟨packet, take⟩ := head
      rw [List.map_cons, whole, feed_restore, piecewise]
      cases t.feed ops packet with
      | error e => rfl
      | ok u =>
          change (u.restore taken).whole ops (rest.map Prod.fst) = _
          cases take with
          | false => exact ih taken u
          | true =>
              rw [← restore_drainReadyInto, ih]
              change _ = Except.map _ (u.drainReadyInto.2.piecewise ops rest >>= _)
              cases u.drainReadyInto.2.piecewise ops rest with
              | error e => rfl
              | ok samples => exact congrArg Except.ok (List.append_assoc ..)

/-- Whenever ready samples are taken out on the way, the pieces add up to the whole. -/
theorem piecewise_eq_whole (packets : List (List α × Bool)) :
    t.piecewise ops packets = t.whole ops (packets.map Prod.fst) := by
  have h := whole_restore ops [] t packets
  rw [restore_nil] at h
  rw [h]
  cases t.piecewise ops packets <;> rfl

end ResampleTo16k

end Gigastt
