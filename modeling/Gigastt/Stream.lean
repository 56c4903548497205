import Gigastt.Transcript
import Gigastt.WindowCursor

/-!
A streaming session. Audio accumulates in a window that is decoded again and again; words of its tail
are committed when the window slides, and everything is when the utterance ends. What a call reads
from outside (the abort flag, the decoder, the endpoint detector, the text post-processing, the
clock) comes with the call.
-/

namespace Gigastt

/-- Samples of one spectrum. -/
def nFft : Nat := 320

def streamLeftContextSamples : Nat := 16000 * 3 / 2

def streamDecodeStrideSamples : Nat := 16000 * 4 / 5

def streamCommitHorizonSecs : ℚ := 1

def streamCapStreakMax : Nat := 3

inductive EndpointMode where
  | auto
  | assistant
  | manual
  deriving DecidableEq, Repr

/-- When streaming text becomes immutable. -/
inductive CommitPolicy where
  | auto
  | onFinalize
  | stablePrefix
  deriving DecidableEq, Repr

/-- Milliseconds without a token that end an utterance. -/
structure EndpointSilence where
  milliseconds : Nat
  deriving DecidableEq, Repr

/-- In encoder frames, rounded up. -/
def EndpointSilence.frames (silence : EndpointSilence) : Nat :=
  let frameMs := frameSamples / 16
  (silence.milliseconds + frameMs - 1) / frameMs

/-- The settings of the engine that streaming reads, and whether a voice activity detector and a
punctuation model are loaded. -/
structure Engine where
  vad : Bool
  punctuator : Bool
  itn : Bool
  streamMaxWindowSamples : Nat
  streamStablePrefix : Bool
  endpointMode : EndpointMode
  endpointSilence : EndpointSilence
  deriving DecidableEq, Repr

structure StreamingState (α : Type) where
  commitPolicy : CommitPolicy
  failed : Bool
  audioBuffer : List α
  assembler : TranscriptAssembler
  windowStartSamples : Nat
  contextSamples : Nat
  pendingSamples : Nat
  vadEndpointer : Bool
  punctuation : Option Bool
  itn : Option Bool
  endpointMode : EndpointMode
  endpointSilence : EndpointSilence
  agreedPrefix : Nat
  capStreak : Nat
  deriving DecidableEq, Repr

/-- How a call ends without a result. -/
inductive Stop where
  | error (e : GigasttError)
  | panic
  deriving DecidableEq, Repr

/-- Where a call reads the abort flag. -/
inductive AbortRead where
  | entry
  | decode
  | replaceTail
  | blankEndpoint
  | decoded
  | flush
  deriving DecidableEq, Repr

/-- What the recognizer returns for a window. -/
structure Inference where
  words : List WordInfo
  endpoint : Bool
  consecutiveBlanks : Nat
  deriving DecidableEq, Repr

/-- What a call meets outside the session. -/
structure Environment (α : Type) where
  aborted : AbortRead → Bool
  vadPush : List α → Except String Bool
  /-- Of a buffer, with its mel frames and the encoder frame it starts at. -/
  runInference : List α → Nat → Nat → Except Stop Inference
  lastTurnSpeaker : Option Nat
  /-- Of a text, with inverse normalization and punctuation on or off. -/
  applyTextPostprocess : Text → Bool → Bool → Except Stop Text
  now : ℚ

/-- The text of a segment is white space. -/
def TranscriptSegment.blank (segment : TranscriptSegment) : Bool := segment.text.all isWhitespace

/-- Frames of the mel spectrogram; a buffer too short for one is padded. -/
def melFrames (samples : Nat) : Nat :=
  if samples < nFft then 1 else (samples - nFft) / hopLength + 1

/-- The nearest unsigned integer of a nonnegative number; negative ones saturate. -/
def roundUsize (x : ℚ) : Nat := ⌊x + 1 / 2⌋.toNat

def floorUsize (x : ℚ) : Nat := ⌊x⌋.toNat

/-- Drop a prefix of the buffer; more than it holds is a panic. -/
def consumeAudioBuffer {α : Type} (buffer : List α) (usable : Nat) : Option (List α) :=
  if usable ≤ buffer.length then some (buffer.drop usable) else none

section

variable {α : Type}

namespace StreamingState

def create (engine : Engine) : StreamingState α where
  commitPolicy := .auto
  failed := false
  audioBuffer := []
  assembler := .new
  windowStartSamples := 0
  contextSamples := 0
  pendingSamples := 0
  vadEndpointer := engine.vad
  punctuation := none
  itn := none
  endpointMode := engine.endpointMode
  endpointSilence := engine.endpointSilence
  agreedPrefix := 0
  capStreak := 0

def abortRequested (s : StreamingState α) (env : Environment α) (read : AbortRead) : Bool :=
  s.failed || env.aborted read

def stablePrefixEnabled (engine : Engine) (s : StreamingState α) : Bool :=
  engine.streamStablePrefix || s.commitPolicy = .stablePrefix

def resolvedCommitPolicy (engine : Engine) (s : StreamingState α) : CommitPolicy :=
  match s.commitPolicy with
  | .auto =>
      if s.itn.getD engine.itn || (s.punctuation.getD true && engine.punctuator) then .onFinalize
      else .stablePrefix
  | policy => policy

def slideStreamingWindow (s : StreamingState α) : StreamingState α :=
  let keep := min streamLeftContextSamples s.audioBuffer.length
  let slideOff := s.audioBuffer.length - keep
  { s with
    audioBuffer := s.audioBuffer.drop slideOff
    windowStartSamples := s.windowStartSamples + slideOff
    contextSamples := keep }

end StreamingState

def speechEndpoint (mode : EndpointMode) (decoderBlankEndpoint vadEndpoint vadAttached : Bool) :
    Bool :=
  let decoderEndpoint := decoderBlankEndpoint && !vadAttached
  match mode with
  | .auto => decoderEndpoint || vadEndpoint
  | .assistant => vadEndpoint
  | .manual => false

variable (rnd rnd32 : Rounding)

def secondsPerFrame : ℚ := rnd.div frameSamples 16000

/-- The gap between 1 and the next number of the format. -/
def epsilon : ℚ := 1 / 2 ^ 52

namespace StreamingState

/-- The live words that a hit of the window cap commits: those the last two decodes agree on, short
of the horizon; after some hits without any, all before the horizon. -/
def capCommitCount (s : StreamingState α) : Nat × Nat :=
  let live := s.assembler.words
  let edge := rnd.div ↑(s.windowStartSamples + s.audioBuffer.length) 16000
  let horizon := rnd.sub edge streamCommitHorizonSecs
  let agreed := live.take s.agreedPrefix
  let n := (agreed.reverse.dropWhile fun w => horizon < w.stop).length
  if n = 0 && !live.isEmpty then
    let streak := s.capStreak + 1
    if streamCapStreakMax ≤ streak then ((live.takeWhile fun w => w.stop ≤ horizon).length, 0)
    else (0, streak)
  else (n, 0)

def capCommitStablePrefix (s : StreamingState α) : StreamingState α × Nat :=
  let (n, capStreak) := s.capCommitCount rnd
  let (assembler, committed) := s.assembler.commitPrefix n
  ({ s with assembler, capStreak }, committed)

/-- The committed coverage, less the left context and never past the first live word. -/
def anchoredStart (s : StreamingState α) (boundary : Nat) (firstLiveStart : Option ℚ) : Nat :=
  let anchored := max (boundary - streamLeftContextSamples) s.windowStartSamples
  match firstLiveStart with
  | some start => min anchored (floorUsize (rnd.mul start 16000))
  | none => anchored

/-- Slide the window to its anchored start. None is a panic: the window would move back, or past the
end of the buffer. -/
def slideStreamingWindowAnchored (s : StreamingState α) (firstLiveStart : Option ℚ) :
    Option (StreamingState α) :=
  match s.assembler.committedCoverageEnd with
  | none => some s
  | some stop =>
      let boundary := roundUsize (rnd.mul stop 16000)
      if boundary ≤ s.windowStartSamples then some s
      else
        let newStart := s.anchoredStart rnd boundary firstLiveStart
        if newStart < s.windowStartSamples then none
        else
          let slideOff := newStart - s.windowStartSamples
          (consumeAudioBuffer s.audioBuffer slideOff).map fun audioBuffer =>
            { s with
              audioBuffer
              windowStartSamples := s.windowStartSamples + slideOff
              contextSamples := boundary - newStart }

variable (engine : Engine) (env : Environment α)

/-- Where in absolute seconds the left context ends. -/
def contextBoundary (s : StreamingState α) : ℚ :=
  let frameOffset := s.windowStartSamples / frameSamples
  rnd.add (rnd.mul frameOffset (secondsPerFrame rnd)) (rnd.div s.contextSamples 16000)

/-- A decoded word is new: past the left context, or in stable-prefix mode not within it. -/
def newWord (s : StreamingState α) (w : WordInfo) : Bool :=
  let boundary := s.contextBoundary rnd
  if s.stablePrefixEnabled engine then
    boundary ≤ 0 || rnd.add boundary epsilon < w.stop
  else boundary ≤ rnd.add w.start epsilon

/-- Drop a repetition of the last committed word that has drifted past the boundary. -/
def dropRepeated (s : StreamingState α) (tail : List WordInfo) : List WordInfo :=
  match s.assembler.committedWords.getLast?, tail with
  | some last, first :: rest =>
      if s.stablePrefixEnabled engine && first.word = last.word &&
          first.start < rnd.add (s.contextBoundary rnd) (rnd.round (1 / 10)) then rest
      else tail
  | _, _ => tail

/-- How many words two hypotheses agree on from the start. -/
def agreement (old new : List WordInfo) : Nat :=
  ((old.zip new).takeWhile fun pair => pair.1.word = pair.2.word).length

def labelTail (tail : List WordInfo) : List WordInfo :=
  match env.lastTurnSpeaker with
  | some speaker => tail.map fun w => { w with speaker := some speaker }
  | none => tail

/-- The live tail of a fresh hypothesis takes the place of the old one. -/
def replaceTail (s : StreamingState α) (inference : Inference) : StreamingState α :=
  let tail := s.dropRepeated rnd engine (inference.words.filter (s.newWord rnd engine))
  let agreedPrefix := agreement s.assembler.words tail
  let tail := labelTail env tail
  -- a cancelled decode may cover less audio than the tail it would replace
  let assembler :=
    if !s.abortRequested env .replaceTail || s.assembler.words.length < tail.length then
      s.assembler.setWords tail
    else s.assembler
  { s with agreedPrefix, assembler }

/-- Decode the window again, and whether that ends the utterance. -/
def decodeWindow (s : StreamingState α) : StreamingState α × Except Stop Bool :=
  if s.abortRequested env .decode then ({ s with failed := true }, .ok false)
  else
    let numFrames := melFrames s.audioBuffer.length
    if numFrames = 0 then (s, .ok false)
    else
      match env.runInference s.audioBuffer numFrames (s.windowStartSamples / frameSamples) with
      | .error stop => (s, .error stop)
      | .ok inference =>
          let s := s.replaceTail rnd engine env inference
          let trailingBlank := !s.abortRequested env .blankEndpoint && !s.assembler.isEmpty &&
            s.endpointSilence.frames ≤ inference.consecutiveBlanks
          (s, .ok (inference.endpoint || trailingBlank))

/-- The public partial: with deferred commitment all of it is tentative. -/
def streamPartial (s : StreamingState α) : TranscriptSegment :=
  let segment := s.assembler.partialSegment rnd rnd32 env.now
  if s.resolvedCommitPolicy engine = .onFinalize then
    { segment with committed := [], tentative := segment.text }
  else segment

/-- Close the utterance. Post-processing rewrites tentative text only. -/
def finalizeStreamSegment (s : StreamingState α) (reason : EndpointReason) :
    StreamingState α × Except Stop TranscriptSegment :=
  let partialSegment := s.streamPartial rnd rnd32 engine env
  match env.applyTextPostprocess (trimStart partialSegment.tentative) (s.itn.getD engine.itn)
      (s.punctuation.getD true) with
  | .error stop => (s, .error stop)
  | .ok tail =>
      let (segment, assembler) := s.assembler.finalizeWithReason rnd rnd32 env.now reason
      let text :=
        if partialSegment.committed.isEmpty then tail
        else if tail.isEmpty then partialSegment.committed
        else partialSegment.committed ++ ' ' :: tail
      ({ s with assembler }, .ok { segment with text, committed := text, tentative := [] })

/-- The window is over its cap: commit live words and slide. Without a commit the audio of the live
words stays. None is a panic of the slide. -/
def capSlide (s : StreamingState α) : Option (StreamingState α) :=
  if s.stablePrefixEnabled engine then
    let (s, committed) := s.capCommitStablePrefix rnd
    if 0 < committed then
      s.slideStreamingWindowAnchored rnd (s.assembler.words.head?.map WordInfo.start)
    else if s.assembler.words.length = 0 then some s.slideStreamingWindow
    else some s
  else
    some { s with capStreak := 0, assembler := s.assembler.commitLive }.slideStreamingWindow

/-- After a decode: close the utterance at an endpoint, else commit at the window cap. -/
def respond (s : StreamingState α) (endpoint vadEndpoint overCap : Bool) :
    StreamingState α × Except Stop (Option TranscriptSegment) :=
  if speechEndpoint s.endpointMode endpoint vadEndpoint s.vadEndpointer then
    let reason := if vadEndpoint then .vad else .blank
    match s.finalizeStreamSegment rnd rnd32 engine env reason with
    | (s, .error .panic) => (s, .error .panic)
    | (s, .error (.error e)) => ({ s with failed := true }, .error (.error e))
    | (s, .ok segment) => (s.slideStreamingWindow, .ok (some segment))
  else
    let slid := if overCap then s.capSlide rnd engine else some s
    match slid with
    | none => (s, .error .panic)
    | some s =>
        if s.assembler.isEmpty then (s, .ok none)
        else (s, .ok (some (s.streamPartial rnd rnd32 engine env)))

/-- Decode the window for a chunk, and respond unless that fails or the session is cancelled. -/
def decodeChunk (s : StreamingState α) (vadEndpoint overCap : Bool) :
    StreamingState α × Except Stop (Option TranscriptSegment) :=
  let (s, decoded) := s.decodeWindow rnd engine env
  if decoded = .error .panic then (s, .error .panic)
  else if s.abortRequested env .decoded then ({ s with failed := true }, .error (.error .cancelled))
  else
    match decoded with
    | .error stop => (s, .error stop)
    | .ok endpoint =>
        { s with pendingSamples := 0 }.respond rnd rnd32 engine env endpoint vadEndpoint overCap

def feed (s : StreamingState α) (samples : List α) : StreamingState α :=
  { s with
    audioBuffer := s.audioBuffer ++ samples
    pendingSamples := s.pendingSamples + samples.length }

/-- An error of the detector is no endpoint. -/
def vadEndpoint (s : StreamingState α) (samples : List α) : Bool :=
  engine.vad && s.vadEndpointer && (env.vadPush samples).toOption.getD false

/-- The segment that a chunk of audio leads to, before one without text is dropped. -/
def chunkSegment (s : StreamingState α) (samples : List α) :
    StreamingState α × Except Stop (Option TranscriptSegment) :=
  if s.abortRequested env .entry then ({ s with failed := true }, .error (.error .cancelled))
  else if samples.isEmpty then (s, .ok none)
  else
    let s := s.feed samples
    let vadEndpoint := s.vadEndpoint engine env samples
    let overCap := engine.streamMaxWindowSamples ≤ s.audioBuffer.length
    let capForcesDecode := overCap && !s.stablePrefixEnabled engine
    if s.pendingSamples < streamDecodeStrideSamples && !capForcesDecode && !vadEndpoint then
      (s, .ok none)
    else if s.audioBuffer.length < nFft && !vadEndpoint && !overCap then (s, .ok none)
    else s.decodeChunk rnd rnd32 engine env vadEndpoint overCap

/-- Process a chunk of audio; a final without text is not emitted. -/
def processChunk (s : StreamingState α) (samples : List α) :
    StreamingState α × Except Stop (List TranscriptSegment) :=
  let (s, result) := s.chunkSegment rnd rnd32 engine env samples
  (s, result.map fun segment =>
    segment.toList.filter fun segment => !(segment.isFinal && segment.blank))

/-- Close the utterance with whatever it has. -/
def flushState (s : StreamingState α) : StreamingState α × Except Stop (Option TranscriptSegment) :=
  if s.abortRequested env .flush then
    let s := { s with failed := true }
    (s, .ok (if s.assembler.isEmpty then none else some (s.streamPartial rnd rnd32 engine env)))
  else if s.assembler.isEmpty then (s, .ok none)
  else
    match s.finalizeStreamSegment rnd rnd32 engine env .stop with
    | (s, .error .panic) => (s, .error .panic)
    | (s, .error (.error _)) =>
        let s := { s with failed := true }
        (s, .ok (some (s.streamPartial rnd rnd32 engine env)))
    | (s, .ok segment) => (s, .ok (some segment))

def decodeRest (s : StreamingState α) : StreamingState α × Except Stop Bool :=
  if 0 < s.pendingSamples ∧ nFft ≤ s.audioBuffer.length then s.decodeWindow rnd engine env
  else (s, .ok false)

/-- What `try_finish_stream` guards against unwinding. -/
def finishGuarded (s : StreamingState α) :
    StreamingState α × Except Stop (Option TranscriptSegment) :=
  if s.abortRequested env .entry then (s, .error (.error .cancelled))
  else
    match s.decodeRest rnd engine env with
    | (s, .error stop) => (s, .error stop)
    | (s, .ok _) =>
        if s.abortRequested env .decoded then (s, .error (.error .cancelled))
        else
          match s.flushState rnd rnd32 engine env with
          | (s, .error stop) => (s, .error stop)
          | (s, .ok segment) =>
              if s.failed then (s, .error (.error .cancelled))
              else if nFft ≤ s.audioBuffer.length then
                ({ s with pendingSamples := 0 }.slideStreamingWindow, .ok segment)
              else (s, .ok segment)

def tryFinishStream (s : StreamingState α) :
    StreamingState α × Except Stop (Option TranscriptSegment) :=
  match s.finishGuarded rnd rnd32 engine env with
  | (s, .ok segment) => (s, .ok segment)
  | (s, .error stop) => ({ s with failed := true }, .error stop)

def finishStream (s : StreamingState α) :
    StreamingState α × Except Stop (Option TranscriptSegment) :=
  match s.tryFinishStream rnd rnd32 engine env with
  | (s, .ok segment) => (s, .ok segment)
  | (s, .error .panic) => (s, .error .panic)
  | (s, .error (.error _)) => s.flushState rnd rnd32 engine env

/-- Close the utterance for good; there is always a final. -/
def flushTruncated (s : StreamingState α) : StreamingState α × Except Stop TranscriptSegment :=
  match s.flushState rnd rnd32 engine env with
  | (s, .ok (some segment)) => (s, .ok segment.intoTruncatedFinal)
  | (s, .ok none) => (s, .ok (.emptyTruncatedFinal env.now))
  | (s, .error stop) => (s, .error stop)

end StreamingState

end

/-- The calls a client makes on its session. -/
inductive Request (α : Type) where
  | processChunk (samples : List α)
  | tryFinishStream
  | finishStream
  | flushState
  | flushTruncated
  deriving DecidableEq, Repr

structure Call (α : Type) where
  request : Request α
  env : Environment α

section

variable {α : Type} (rnd rnd32 : Rounding) (engine : Engine)

/-- The segment a successful call has built. -/
def built (result : Except Stop (Option TranscriptSegment)) : Option TranscriptSegment :=
  result.toOption.join

namespace Call

/-- The state after the call, and the segment it has built. -/
def build (c : Call α) (s : StreamingState α) : StreamingState α × Option TranscriptSegment :=
  match c.request with
  | .processChunk samples =>
      let (s, result) := s.chunkSegment rnd rnd32 engine c.env samples
      (s, built result)
  | .tryFinishStream =>
      let (s, result) := s.tryFinishStream rnd rnd32 engine c.env
      (s, built result)
  | .finishStream =>
      let (s, result) := s.finishStream rnd rnd32 engine c.env
      (s, built result)
  | .flushState =>
      let (s, result) := s.flushState rnd rnd32 engine c.env
      (s, built result)
  | .flushTruncated =>
      let (s, result) := s.flushTruncated rnd rnd32 engine c.env
      (s, result.toOption)

/-- Only the final that ends an utterance without text in mid-stream is kept back. -/
def shows (c : Call α) (segment : TranscriptSegment) : Bool :=
  match c.request with
  | .processChunk _ => !(segment.isFinal && segment.blank)
  | _ => true

/-- The segments the call returns to the client. -/
def returned (c : Call α) (s : StreamingState α) : List TranscriptSegment :=
  match c.request with
  | .processChunk samples =>
      ((s.processChunk rnd rnd32 engine c.env samples).2.toOption).getD []
  | .tryFinishStream => (built (s.tryFinishStream rnd rnd32 engine c.env).2).toList
  | .finishStream => (built (s.finishStream rnd rnd32 engine c.env).2).toList
  | .flushState => (built (s.flushState rnd rnd32 engine c.env).2).toList
  | .flushTruncated => (s.flushTruncated rnd rnd32 engine c.env).2.toOption.toList

end Call

/-- A segment, and whether the client gets it. -/
structure Emission where
  segment : TranscriptSegment
  shown : Bool
  deriving DecidableEq, Repr

/-- Every segment built in the course of the calls. -/
def trace : StreamingState α → List (Call α) → List Emission
  | _, [] => []
  | s, c :: rest =>
      let (t, segment) := c.build rnd rnd32 engine s
      (segment.map fun segment => ⟨segment, c.shows segment⟩).toList ++ trace t rest

/-- What the client gets in the course of the calls. -/
def transcript : StreamingState α → List (Call α) → List TranscriptSegment
  | _, [] => []
  | s, c :: rest =>
      c.returned rnd rnd32 engine s ++ transcript (c.build rnd rnd32 engine s).1 rest

end

end Gigastt
