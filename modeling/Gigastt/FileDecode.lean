import Gigastt.Opus
import Gigastt.Resampling
import Gigastt.Rounding
import Gigastt.WindowSource
import Mathlib.Algebra.Order.Floor.Semiring
import Mathlib.Data.Rat.Floor

/-!
Decoding a container window by window: packets that the demuxer's codec decodes, Opus packets that go
frame by frame through a decoder of its own, or blocks from a WAVE thread. The demuxer and the codecs
are foreign; what they answer is part of the container.
-/

namespace Gigastt

def usizeMax : ℕ := 2 ^ 64 - 1

/-- The geometry of a flat decode, which never looks at it. -/
def WindowSpec.flat : WindowSpec := .new usizeMax usizeMax 0

namespace Files

open Outcomes

variable {α : Type}

/-- What decoding fails with. -/
inductive DecodeFailure where
  | cancelled
  | audioTooLong (observedSecs : ℚ) (limitSecs : Option ℚ)
  | failed (message : String)
  deriving DecidableEq, Repr

/-- The rate every Opus packet is decoded at. -/
def opusDecodeRate : ℕ := 48000

/-- The channel of a windowed decode: the mean of all, or one by its index. -/
inductive ChannelSelect where
  | mono
  | one (k : ℕ)
  deriving DecidableEq, Repr

inductive DemuxError where
  | unexpectedEof
  | other (message : String)
  deriving DecidableEq, Repr

structure Packet (δ : Type) where
  trackId : ℕ
  data : δ

/-- What the demuxer still answers. After the last answer it reports the end of the stream. -/
abbrev Format (δ : Type) := List (Except DemuxError (Packet δ))

def DemuxError.message : DemuxError → String
  | unexpectedEof => "unexpected end of file"
  | other message => message

/-- Once there is audio, a missing end page is the end of the stream. -/
def nextDemuxPacket {δ : Type} (havePcm : Bool) :
    Format δ → Except DecodeFailure (Option (Packet δ) × Format δ)
  | [] => .ok (none, [])
  | .ok packet :: rest => .ok (some packet, rest)
  | .error e :: rest =>
      if e = .unexpectedEof ∧ havePcm then .ok (none, rest)
      else .error (.failed ("Error reading packet: " ++ e.message))

/-- The frames of a decoded packet, each with a sample of every channel. -/
structure Decoded (α : Type) where
  channels : ℕ
  frames : List (List α)

def context {β : Type} : Except String β → Except DecodeFailure β
  | .ok b => .ok b
  | .error message => .error (.failed message)

section

variable (rnd : Rounding)

def audioTooLongErr (observedSourceFrames sampleRate : ℕ) (limitSecs : Option ℚ) : DecodeFailure :=
  .audioTooLong (rnd.div observedSourceFrames sampleRate) limitSecs

/-- No limit is `none`, and its budget the largest number there is. -/
def maxSamplesForSecs (limit : Option ℚ) (sampleRate : ℕ) : ℕ :=
  match limit with
  | some secs => if 0 < secs then min ⌊rnd.mul secs sampleRate⌋₊ usizeMax else usizeMax
  | none => usizeMax

/-- The budget in samples and the limit to report. -/
def resolveBudget (limit : Option ℚ) (sampleRate : ℕ) : ℕ × Option ℚ :=
  (maxSamplesForSecs rnd limit sampleRate, limit.filter fun secs => 0 < secs)

end

/-- How far a stream may go, and how far it has come, in frames of the source. -/
structure Budget where
  sampleRate : ℕ
  sourceFrames : ℕ
  maxSamples : ℕ
  limitSecs : Option ℚ

def Budget.new (rnd : Rounding) (maxAudioSecs : Option ℚ) (sampleRate : ℕ) : Budget where
  sampleRate
  sourceFrames := 0
  maxSamples := (resolveBudget rnd maxAudioSecs sampleRate).1
  limitSecs := (resolveBudget rnd maxAudioSecs sampleRate).2

/-- Count more frames, which must not go over the budget. -/
def Budget.spend (rnd : Rounding) (b : Budget) (frames : ℕ) : Except DecodeFailure Budget :=
  if b.maxSamples < b.sourceFrames + frames then
    .error (audioTooLongErr rnd (b.sourceFrames + frames) b.sampleRate b.limitSecs)
  else .ok { b with sourceFrames := b.sourceFrames + frames }

section

variable (ops : SampleOps α)

/-- The samples of a packet that go to the resampler. -/
def Decoded.select (channel : ChannelSelect) (d : Decoded α) : List α :=
  if 1 < d.channels then
    match channel with
    | .mono => d.frames.map ops.mix
    | .one k => if k < d.channels then d.frames.map fun frame => frame.getD k ops.zero else []
  else
    match channel with
    | .mono | .one 0 => d.frames.flatten
    | .one _ => []

/-- A decoder of single Opus frames: it is handed a packet with one frame and the frame's length. -/
structure OpusDecoder (α : Type) where
  State : Type
  decode : State → List UInt8 → ℕ → Except String (List (List α) × State)

variable (codec : OpusDecoder α)

/-- The frames of a packet one after the other, each as a packet of its own with the code bits of
the shared first byte cleared. -/
def decodeFrames (toc : UInt8) (frameSize : ℕ) :
    List (List UInt8) → codec.State → Except DecodeFailure (List (List α) × codec.State)
  | [], state => .ok ([], state)
  | frame :: rest, state =>
      match codec.decode state ((toc &&& 0xFC) :: frame) frameSize with
      | .error e => .error (.failed ("Opus decode error: " ++ e))
      | .ok (written, state) => do
          let (more, state) ← decodeFrames toc frameSize rest state
          return (written.take frameSize ++ more, state)

def decodePacketInterleaved (data : List UInt8) (state : codec.State) :
    Except DecodeFailure (List (List α) × codec.State) :=
  match Opus.splitOpusPacket data with
  | .error (.malformed message) => .error (.failed message)
  | .error .panic => .error (.failed "panic")
  | .ok framing => decodeFrames codec framing.toc framing.samplesPerFrame framing.frames state

structure OpusStream where
  decoder : codec.State
  channels : ℕ
  channel : ChannelSelect

variable {codec}

/-- The channel's samples of a packet, the number of its frames, and the decoder after it. -/
def OpusStream.decodePacket (s : OpusStream codec) (data : List UInt8) :
    Except DecodeFailure (List α × ℕ × OpusStream codec) := do
  let (frames, decoder) ← decodePacketInterleaved codec data s.decoder
  let samples := match s.channel with
    | .mono => frames.map ops.mix
    | .one k => if k < s.channels then frames.map fun frame => frame.getD k ops.zero else []
  return (samples, frames.length, { s with decoder })

end

inductive WaveErr where
  | tooLong (observedSecs maxSecs : ℚ)
  | other (message : String)

/-- A block of a WAVE file, already mixed or picked. -/
structure WaveBlock (α : Type) where
  frames : ℕ
  samples : List α

/-- What the decode thread of a WAVE file still sends, and whether it panics in the end. -/
structure WaveFeed (α : Type) where
  messages : List (Except WaveErr (WaveBlock α))
  panics : Bool

def WaveFeed.recvBlock (feed : WaveFeed α) : Except DecodeFailure (Option (WaveBlock α) × WaveFeed α) :=
  match feed.messages with
  | [] => if feed.panics then .error (.failed "WAVE decode thread panicked") else .ok (none, feed)
  | .ok block :: rest => .ok (some block, { feed with messages := rest })
  | .error (.tooLong observedSecs maxSecs) :: _ => .error (.audioTooLong observedSecs (some maxSecs))
  | .error (.other message) :: _ => .error (.failed message)

section

variable (codec : OpusDecoder α) (rubato : Rubato α)

/-- The decode engine behind the windows, with the channel it keeps. -/
inductive Source where
  | streaming (format : Format (Except String (Decoded α))) (trackId : ℕ) (channel : ChannelSelect)
      (budget : Budget) (resampler : ResampleTo16k rubato)
  | opus (format : Format (List UInt8)) (trackId : ℕ) (stream : OpusStream codec) (budget : Budget)
      (resampler : ResampleTo16k rubato) (pending : List α)
  | wave (feed : WaveFeed α) (budget : Budget) (resampler : ResampleTo16k rubato)

variable {codec : OpusDecoder α} {rubato : Rubato α}

/-- The samples that wait in front of the resampler of an Opus file go in by exact chunks. -/
def stageChunks (ops : SampleOps α) :
    ℕ → ResampleTo16k rubato → List α → Except String (ResampleTo16k rubato × List α)
  | 0, t, pending => .ok (t, pending)
  | n + 1, t, pending => do
      let t ← t.feed ops (pending.take resampleStagingFrames)
      stageChunks ops n t (pending.drop resampleStagingFrames)

namespace Source

/-- The answers that are still to come. -/
def remaining : Source codec rubato → ℕ
  | streaming format .. => format.length
  | opus format .. => format.length
  | wave feed .. => feed.messages.length

variable (rnd : Rounding) (ops : SampleOps α)

/-- One round of the loop of `fill_streaming`, `fill_opus` or `fill_wave`: the samples that it adds to
the buffer, or nothing at the end of the stream. -/
def round : Source codec rubato → Except DecodeFailure (Option (List α) × Source codec rubato)
  | streaming format trackId channel budget resampler => do
      match ← nextDemuxPacket (0 < budget.sourceFrames) format with
      | (none, format) => return (none, streaming format trackId channel budget resampler)
      | (some packet, format) =>
          if packet.trackId ≠ trackId then
            return (some [], streaming format trackId channel budget resampler)
          else
            match packet.data with
            | .error e => .error (.failed ("Decode error: " ++ e))
            | .ok decoded => do
                let budget ← budget.spend rnd decoded.frames.length
                let resampler ← context (resampler.feed ops (decoded.select ops channel))
                let (ready, resampler) := resampler.drainReadyInto
                return (some ready, streaming format trackId channel budget resampler)
  | opus format trackId stream budget resampler pending => do
      match ← nextDemuxPacket (0 < budget.sourceFrames) format with
      | (none, format) => return (none, opus format trackId stream budget resampler pending)
      | (some packet, format) =>
          if packet.trackId ≠ trackId then
            return (some [], opus format trackId stream budget resampler pending)
          else do
            let (samples, frames, stream) ← stream.decodePacket ops packet.data
            let budget ← budget.spend rnd frames
            let pending := pending ++ samples
            let (resampler, pending) ←
              context (stageChunks ops (pending.length / resampleStagingFrames) resampler pending)
            let (ready, resampler) := resampler.drainReadyInto
            return (some ready, opus format trackId stream budget resampler pending)
  | wave feed budget resampler => do
      match ← feed.recvBlock with
      | (none, feed) => return (none, wave feed budget resampler)
      | (some block, feed) =>
          let budget ← budget.spend rnd block.frames
          let resampler ←
            context (if block.samples.isEmpty then .ok resampler else resampler.feed ops block.samples)
          let (ready, resampler) := resampler.drainReadyInto
          return (some ready, wave feed budget resampler)

/-- What the resampler still holds at the end of the stream. -/
def finish : Source codec rubato → Except DecodeFailure (List α × Source codec rubato)
  | streaming format trackId channel budget resampler => do
      let (samples, resampler) ← context (resampler.finishInto ops)
      return (samples, streaming format trackId channel budget resampler)
  | opus format trackId stream budget resampler pending => do
      let (samples, resampler) ← context ((resampler.push pending).finishInto ops)
      return (samples, opus format trackId stream budget resampler [])
  | wave feed budget resampler => do
      let (samples, resampler) ← context (resampler.finishInto ops)
      return (samples, wave feed budget resampler)

end Source

variable (codec rubato) in
/-- `source` is the buffer with its cursor; `finished` says that the resampler has been flushed. -/
structure FileWindows where
  src : Source codec rubato
  finished : Bool
  source : WindowSource α

namespace FileWindows

variable (rnd : Rounding) (ops : SampleOps α)

def new (src : Source codec rubato) (spec : WindowSpec) : FileWindows codec rubato :=
  { src, finished := false, source := .new spec }

/-- Decode until the target is reached, or to the end of the stream where there is none. -/
def fillLoop (target : Option ℕ) : ℕ → FileWindows codec rubato →
    Except DecodeFailure (FileWindows codec rubato)
  | 0, f => .ok f
  | n + 1, f =>
      if f.source.eof || target.any (· ≤ f.source.decodedTotal) then .ok f
      else
        match f.src.round rnd ops with
        | .error e => .error e
        | .ok (none, src) => .ok { f with src, source := { f.source with eof := true } }
        | .ok (some samples, src) =>
            fillLoop target n { f with src, source := Gigastt.FileWindows.append f.source samples }

/-- Every round but the last takes an answer, which bounds the rounds. -/
def fillTo (target : Option ℕ) (f : FileWindows codec rubato) :
    Except DecodeFailure (FileWindows codec rubato) := do
  let f ← f.fillLoop rnd ops target (f.src.remaining + 1)
  if f.source.eof && !f.finished then do
    let (samples, src) ← f.src.finish ops
    return { src, finished := true, source := Gigastt.FileWindows.append f.source samples }
  else return f

/-- The whole stream in one buffer. The target of the code is `usize::MAX`, which the length of no
buffer reaches. -/
def drainToVec (f : FileWindows codec rubato) : Except DecodeFailure (List α) := do
  return (← f.fillTo rnd ops none).source.buf

def nextWindow (f : FileWindows codec rubato) :
    Except DecodeFailure (Option (PcmWindow α) × FileWindows codec rubato) :=
  if f.source.cursor.done then .ok (none, f)
  else do
    let reclaimed := { f with source := f.source.reclaim f.source.reclaimable }
    let filled ← reclaimed.fillTo rnd ops (some f.source.cursor.fillTarget)
    let source := filled.source.pull
    return ((source.pulled[filled.source.pulled.length]?).join, { filled with source })

end FileWindows

end

end Files

end Gigastt
