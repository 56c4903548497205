import Gigastt.Stream
import Gigastt.VadRegions

/-!
A WebSocket session: the streaming state it owns with its settings, the engine that creates such
states, the messages of the protocol, and the socket they go out on.
-/

namespace Gigastt

namespace Vad

/-- The trailing silence that ends an utterance. -/
structure Hangover (P : Type) where
  threshold : P
  minSilenceSamples : Nat
  seenSpeech : Bool
  trailingSilence : Nat
  armed : Bool
  deriving DecidableEq

def Hangover.new {P : Type} (cfg : VadConfig P) : Hangover P where
  threshold := cfg.threshold
  minSilenceSamples := msToSamples cfg.minSilenceMs
  seenSpeech := false
  trailingSilence := 0
  armed := false

structure VadEndpointer (P α σ : Type) where
  state : σ
  leftover : List α
  hangover : Hangover P
  deriving DecidableEq

def VadEndpointer.new {P α σ : Type} (zero : σ) (cfg : VadConfig P) : VadEndpointer P α σ where
  state := zero
  leftover := []
  hangover := .new cfg

end Vad

namespace Ws

/-- What the models and the resampler keep, which the session only holds. -/
structure Backend where
  Sample : Type
  Prob : Type
  VadState : Type
  Decoder : Type
  Resampler : Type
  Speaker : Type

variable {B : Backend}

/-- The audio, the decoder and the transcript of a stream. -/
structure Recognizer (B : Backend) where
  failed : Bool
  decoder : B.Decoder
  audioBuffer : List B.Sample
  assembler : TranscriptAssembler
  windowStartSamples : Nat
  contextSamples : Nat
  pendingSamples : Nat
  resampler : Option B.Resampler
  melFftInput : List (B.Sample × B.Sample)
  melPower : List B.Sample
  melOutput : List B.Sample
  resampleOutputBuf : List B.Sample
  agreedPrefix : Nat
  capStreak : Nat

/-- A streaming state. The abort flag and the snapshot are shared; the state holds which they are. -/
structure StreamingState (B : Backend) extends Recognizer B where
  commitPolicy : CommitPolicy
  abort : Option Nat
  snapshot : Option Nat
  vadEndpointer : Option (Vad.VadEndpointer B.Prob B.Sample B.VadState)
  punctuation : Option Bool
  itn : Option Bool
  endpointMode : EndpointMode
  endpointSilence : EndpointSilence
  diarizationState : Option B.Speaker

structure Engine (B : Backend) extends Gigastt.Engine where
  vadConfig : Vad.VadConfig B.Prob
  /-- The state the detector starts from. -/
  vadZero : B.VadState
  /-- The decoder before the first token. -/
  decoderNew : B.Decoder

namespace Engine

variable (engine : Engine B)

def endpointer (cfg : Vad.VadConfig B.Prob) : Vad.VadEndpointer B.Prob B.Sample B.VadState :=
  .new engine.vadZero cfg

/-- `create_state`, of what opening the speaker model has returned: nothing unless it was asked. -/
def createState (speaker : Option B.Speaker) : StreamingState B where
  commitPolicy := .auto
  abort := none
  snapshot := none
  failed := false
  decoder := engine.decoderNew
  audioBuffer := []
  assembler := .new
  windowStartSamples := 0
  contextSamples := 0
  pendingSamples := 0
  resampler := none
  melFftInput := []
  melPower := []
  melOutput := []
  resampleOutputBuf := []
  vadEndpointer := if engine.vad then some (engine.endpointer engine.vadConfig) else none
  punctuation := none
  itn := none
  endpointMode := engine.endpointMode
  endpointSilence := engine.endpointSilence
  agreedPrefix := 0
  capStreak := 0
  diarizationState := speaker

end Engine

/-- What the streaming of chunks reads and writes of the state. -/
def StreamingState.stream (s : StreamingState B) : Gigastt.StreamingState B.Sample where
  commitPolicy := s.commitPolicy
  failed := s.failed
  audioBuffer := s.audioBuffer
  assembler := s.assembler
  windowStartSamples := s.windowStartSamples
  contextSamples := s.contextSamples
  pendingSamples := s.pendingSamples
  vadEndpointer := s.vadEndpointer.isSome
  punctuation := s.punctuation
  itn := s.itn
  endpointMode := s.endpointMode
  endpointSilence := s.endpointSilence
  agreedPrefix := s.agreedPrefix
  capStreak := s.capStreak

/-- A created state is one that streaming may start from. -/
theorem stream_createState (engine : Engine B) (speaker : Option B.Speaker) :
    (engine.createState speaker).stream = Gigastt.StreamingState.create engine.toEngine := by
  have hvad : (engine.createState speaker).vadEndpointer.isSome = engine.vad := by
    show (if engine.vad then some (engine.endpointer engine.vadConfig) else none).isSome = engine.vad
    cases engine.vad with
    | _ => rfl
  unfold StreamingState.stream
  rw [hvad]
  rfl

inductive ServerMessage where
  /-- `Partial`. -/
  | interim (segment : TranscriptSegment)
  | final (segment : TranscriptSegment)
  | error (message code : String) (retryAfterMs : Option Nat)
  deriving DecidableEq

/-- What goes out on the socket. -/
inductive Outgoing where
  | text (message : ServerMessage)
  | close (code : Nat) (reason : String)
  deriving DecidableEq

def Outgoing.isError : Outgoing → Bool
  | .text (.error _ _ _) => true
  | .text (.interim _) | .text (.final _) | .close _ _ => false

/-- What a call has put on the socket, which takes `room` messages in it before it fails. -/
structure Sink where
  sent : List Outgoing
  room : Nat

/-- Sends in order; the first failure ends it. -/
def Sink.send (sink : Sink) : List Outgoing → Sink × Bool
  | [] => (sink, true)
  | m :: rest =>
      if sink.room = 0 then (sink, false)
      else Sink.send { sent := sink.sent ++ [m], room := sink.room - 1 } rest

/-- What a frame handler leaves to the loop that called it. -/
inductive FrameOutcome where
  | continue
  | break
  deriving DecidableEq

inductive StreamAbort where
  | cancelled
  | shutdown
  | timeout
  | sessionLimit
  deriving DecidableEq

structure Session (B : Backend) where
  clientSampleRate : Nat
  state : Option (StreamingState B)
  audioReceived : Bool

/-- How a handler leaves the session. A handler without outcome has failed, which ends the session. -/
structure Handled (B : Backend) where
  session : Session B
  sink : Sink
  /-- The abort flag of the connection was raised. -/
  raised : Bool
  outcome : Option FrameOutcome

/-- The call has answered with an error message. -/
def Handled.answersError (handled : Handled B) : Prop :=
  ∃ m ∈ handled.sink.sent, m.isError = true

/-- The error messages of `send_abort`, with the text that goes out before. -/
def abortMessages (partialText : Option TranscriptSegment) (now : ℚ) (reason : StreamAbort) :
    List Outgoing :=
  let message := match reason with
    | .timeout => "Inference timed out."
    | .sessionLimit => "Maximum session duration exceeded"
    | .cancelled | .shutdown => "Transcription cancelled."
  let code := match reason with
    | .timeout => "inference_timeout"
    | .sessionLimit => "max_session_duration_exceeded"
    | .cancelled | .shutdown => "cancelled"
  let final := match reason with
    | .shutdown | .sessionLimit =>
        [.text (.final ((partialText.map TranscriptSegment.intoTruncatedFinal).getD
          (.emptyTruncatedFinal now)))]
    | .cancelled | .timeout => []
  (partialText.map fun segment => .text (.interim segment)).toList ++ final ++
    [.text (.error message code none),
      .close (if reason = .sessionLimit then 1008 else 1001) message]

end Ws

end Gigastt
