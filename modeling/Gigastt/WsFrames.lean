import Gigastt.Pcm
import Gigastt.Transition
import Gigastt.Utf8
import Gigastt.WsInference
import Gigastt.WsSettings

/-!
The loop of a WebSocket session: the handlers of its frames, and what each leaves to the next one.
-/

namespace Gigastt

def GigasttError.code : GigasttError → String
  | .cancelled => "cancelled"
  | .inference _ => "inference_error"
  | .invalidAudio _ => "invalid_audio"

namespace Ws

variable {B : Backend}

def maxEmptyFramesPerSession : Nat := 1000

/-- How a handler fails: with an error of its own, or with one of the socket, the resampler or a
task. -/
inductive SessionError where
  | message (text : String)
  | foreign
  deriving DecidableEq

def stateLost : SessionError := .message "Streaming state lost"

def reservationLost : SessionError := .message "Reservation lost"

/-- The variables of the loop. The reservation is the triplet that the session holds. -/
structure Connection (B : Backend) extends Session B where
  reservation : Option Nat
  emptyFrameCount : Nat
  pendingByte : Option UInt8

def Connection.opened (engine : Engine B) (abort snapshot triplet : Nat) : Connection B where
  toSession := .opened engine abort snapshot
  reservation := some triplet
  emptyFrameCount := 0
  pendingByte := none

/-- How a handler leaves the connection. -/
structure Served (B : Backend) where
  connection : Connection B
  sink : Sink
  raised : Bool
  outcome : Except SessionError FrameOutcome

/-- What a blocking task comes to. -/
inductive Joined (α : Type) where
  | joined (result : α)
  | failed
  | aborted (reason : StreamAbort)

/-- What a frame meets outside the session. -/
structure FrameEnv (B : Backend) extends ConfigureEnv B where
  /-- The chunk is processed: what of the state it writes before it returns or panics. -/
  decode : List B.Sample → StreamingState B →
    Joined (Progress B × Except Stop (List TranscriptSegment))
  finish : StreamingState B → Joined (Except Stop (Option TranscriptSegment))
  /-- The abort flag of the connection is up when a stop is through. -/
  abortRaised : Bool

/-- The value of a sample, and the cached resampler from a rate to 16 kHz. -/
structure Audio (B : Backend) where
  sample : UInt8 → UInt8 → B.Sample
  resample : List B.Sample → Nat → Option B.Resampler →
    Option B.Resampler × Except String (List B.Sample)

def FrameEnv.sink (env : FrameEnv B) : Sink := { sent := [], room := env.room }

/-- Sends messages, which fails with the socket. -/
def Connection.reply (c : Connection B) (sink : Sink) (messages : List Outgoing) (raised : Bool)
    (outcome : FrameOutcome) : Served B :=
  let (sink, taken) := sink.send messages
  { connection := c, sink, raised, outcome := if taken then .ok outcome else .error .foreign }

def Connection.quiet (c : Connection B) (sink : Sink) (outcome : Except SessionError FrameOutcome) :
    Served B :=
  { connection := c, sink, raised := false, outcome }

/-- The samples at 16 kHz. -/
def Connection.to16k (audio : Audio B) (c : Connection B) (samples : List B.Sample) :
    Connection B × Except SessionError (List B.Sample) :=
  if c.clientSampleRate = 16000 then (c, .ok samples)
  else
    match c.state with
    | none => (c, .error stateLost)
    | some state =>
        match audio.resample samples c.clientSampleRate state.resampler with
        | (resampler, .error _) =>
            ({ c with state := some { state with resampler } }, .error .foreign)
        | (resampler, .ok samples) =>
            ({ c with state := some { state with resampler, resampleOutputBuf := [] } }, .ok samples)

/-- The fresh state after a panic, with what it takes over from the old one. -/
def StreamingState.reset (engine : Engine B) (old : StreamingState B) : StreamingState B :=
  { engine.createState none with
    punctuation := old.punctuation
    itn := old.itn
    abort := old.abort
    snapshot := old.snapshot
    commitPolicy := old.commitPolicy }

def segmentMessage (segment : TranscriptSegment) : Outgoing :=
  if segment.isFinal then .text (.final segment) else .text (.interim segment)

/-- The state and the reservation are in a blocking task, which gives them back unless the session
no longer waits for it. -/
def decodeFrame (engine : Engine B) (env : FrameEnv B) (c : Connection B)
    (state : StreamingState B) (reservation : Nat) (samples : List B.Sample) : Served B :=
  match env.decode samples state with
  | .aborted reason =>
      { c with state := none, reservation := none }.reply env.sink
        (abortMessages env.partialText env.now reason) true .break
  | .failed =>
      { c with state := none, reservation := none }.quiet env.sink
        (.error (.message "Blocking task join failed"))
  | .joined (progress, result) =>
      let stateBack := state.infer progress
      let returned (state : StreamingState B) : Connection B :=
        { c with state := some state, reservation := some reservation }
      match result with
      | .ok segments =>
          (returned stateBack).reply env.sink (segments.map segmentMessage) false .continue
      | .error (.error .cancelled) =>
          (returned stateBack).reply env.sink (abortMessages env.partialText env.now .cancelled)
            false .break
      | .error (.error _) =>
          (returned stateBack).reply env.sink
            [.text (.error "Inference failed. Please check audio format." "inference_error" none)]
            false .continue
      | .error .panic =>
          (returned (stateBack.reset engine)).reply env.sink
            [.text (.error "Inference failed unexpectedly. Session reset." "inference_panic" none)]
            false .continue

/-- An empty frame is only counted, up to a limit. -/
def handleEmptyFrame (env : FrameEnv B) (c : Connection B) : Served B :=
  let c := { c with emptyFrameCount := c.emptyFrameCount + 1 }
  if maxEmptyFramesPerSession < c.emptyFrameCount then
    -- the socket may fail here, the session ends all the same
    let (sink, _) := env.sink.send
      [.text (.error "Empty frame limit exceeded" "policy_violation" none),
        .close 1008 "policy violation"]
    c.quiet sink (.error (.message "Empty frame limit exceeded"))
  else c.quiet env.sink (.ok .continue)

def handleBinaryFrame (engine : Engine B) (audio : Audio B) (env : FrameEnv B) (c : Connection B)
    (data : List UInt8) : Served B :=
  if data.isEmpty then handleEmptyFrame env c
  else
    let (samples, pendingByte) := Pcm.parsePcm16WithCarry audio.sample data c.pendingByte
    match { c with audioReceived := true, pendingByte }.to16k audio samples with
    | (c, .error error) => c.quiet env.sink (.error error)
    | (c, .ok samples) =>
        match c.state with
        | none => c.quiet env.sink (.error stateLost)
        | some state =>
            match c.reservation with
            | none => { c with state := none }.quiet env.sink (.error reservationLost)
            | some reservation => decodeFrame engine env c state reservation samples

/-- What goes out when a stop fails. Readable text is kept. -/
def finishErrorMessages (partialText : Option TranscriptSegment) (code : String) : List Outgoing :=
  ((partialText.filter fun segment => !segment.text.isEmpty).map fun segment =>
      .text (.interim segment)).toList ++
    [.text (.error "Failed to finish transcription." code none),
      .close 1011 "final transcription failed"]

/-- A stop ends the session, whatever becomes of the last decode. -/
def handleStopMessage (env : FrameEnv B) (c : Connection B) : Served B :=
  match c.state with
  | none => c.quiet env.sink (.ok .break)
  | some state =>
      let emptied : Connection B := { c with state := none, reservation := none }
      match env.finish state with
      | .aborted reason =>
          emptied.reply env.sink (abortMessages env.partialText env.now reason) true .break
      | .failed =>
          emptied.reply env.sink (finishErrorMessages env.partialText "inference_panic") false .break
      | .joined result =>
          -- without a triplet nothing can have been decoded
          match (if c.reservation.isSome then result else .error (.error .cancelled)) with
          | .error (.error error) =>
              emptied.reply env.sink (finishErrorMessages env.partialText error.code) false .break
          | .error .panic =>
              emptied.reply env.sink (finishErrorMessages env.partialText "inference_panic") false
                .break
          | .ok segment =>
              if env.abortRaised then
                emptied.reply env.sink (abortMessages env.partialText env.now .cancelled) false .break
              else
                emptied.reply env.sink [.text (.final (segment.getD (.emptyFinal env.now)))] false
                  .break

inductive ClientMessage where
  | configure (msg : Configure)
  | stop
  /-- A message of a later protocol. -/
  | other

inductive Inbound where
  | binary (data : List UInt8)
  | text (text : Text)
  | close
  /-- A ping or a pong. -/
  | control

/-- What the sessions of a server share. -/
structure Server (B : Backend) where
  engine : Engine B
  audio : Audio B
  /-- The message in a text, if it is one. -/
  parse : Text → Option ClientMessage
  /-- Debug messages are logged. -/
  debug : Bool

/-- The handler of a `configure` message on the variables of the loop. -/
def Connection.handleConfigure (engine : Engine B) (env : FrameEnv B) (c : Connection B)
    (msg : Configure) : Served B :=
  let handled := handleConfigureMessage engine env.toConfigureEnv c.toSession msg
  { connection := { c with toSession := handled.session }
    sink := handled.sink
    raised := handled.raised
    outcome := (handled.outcome.map Except.ok).getD (.error .foreign) }

/-- A text that is no message is logged up to its byte 100. Without value the slice panics. -/
def Server.logUnrecognized (server : Server B) (text : Text) : Option Unit :=
  if server.debug then (Utf8.slice text (min (Utf8.size text) 100)).map fun _ => () else some ()

/-- A frame to its handler. Without value the handler panics. -/
def Server.dispatch (server : Server B) (env : FrameEnv B) (c : Connection B) :
    Inbound → Option (Served B)
  | .binary data => some (handleBinaryFrame server.engine server.audio env c data)
  | .text text =>
      match server.parse text with
      | some (.configure msg) => some (c.handleConfigure server.engine env msg)
      | some .stop => some (handleStopMessage env c)
      | some .other => some (c.quiet env.sink (.ok .continue))
      | none => (server.logUnrecognized text).map fun _ => c.quiet env.sink (.ok .continue)
  | .close => some (c.quiet env.sink (.ok .break))
  | .control => some (c.quiet env.sink (.ok .continue))

/-- A session loop: on the way, or how it has ended. -/
inductive Loop (B : Backend) where
  | running (c : Connection B)
  | closed
  | failed (error : SessionError)
  | panicked

/-- What a served frame leaves of the loop. -/
def Served.loop (served : Served B) : Loop B :=
  match served.outcome with
  | .ok .continue => .running served.connection
  | .ok .break => .closed
  | .error error => .failed error

def Loop.step (server : Server B) : Loop B → FrameEnv B × Inbound → Option (Loop B)
  | .running c, (env, frame) =>
      some (((server.dispatch env c frame).map Served.loop).getD .panicked)
  | .closed, _ | .failed _, _ | .panicked, _ => none

end Ws

end Gigastt
