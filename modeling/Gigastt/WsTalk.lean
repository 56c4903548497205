import Gigastt.WsLoop

/-!
What a client sees of a session: the turns of its loop with shutdown, session cap, keepalive and idle
timeout, and everything that goes out on the socket in the course of them.
-/

namespace Gigastt.Ws

open Transition

variable {B : Backend}

def wsMaxMissedPongs : Nat := 2

def keepaliveShouldClose (unansweredPings : Nat) : Bool := decide (wsMaxMissedPongs ≤ unansweredPings)

/-- `ServerMessage::Ready`. -/
structure Ready where
  model : String
  sampleRate : Nat
  version : String
  supportedRates : List Nat
  diarization : Bool
  minProtocolVersion : Option String
  maxSessionSecs : Nat
  idleTimeoutSecs : Nat
  deriving DecidableEq

inductive Wire where
  | ready (message : Ready)
  | ping
  | out (message : Outgoing)
  deriving DecidableEq

/-- A server with its limits, and the arithmetic of its last decode. -/
structure Host (B : Backend) extends Server B where
  rnd : Rounding
  rnd32 : Rounding
  modelId : String
  /-- Diarization is built in and its speaker model is there. -/
  speakerEncoder : Bool
  maxSessionSecs : Nat
  idleTimeoutSecs : Nat
  poolCheckoutTimeoutSecs : Nat

/-- The milliseconds are a `u32`, by a product that saturates as a `u64`. -/
def poolRetryAfterMs (poolCheckoutTimeoutSecs : Nat) : Nat :=
  min (min (poolCheckoutTimeoutSecs * 1000) (2 ^ 64 - 1)) (2 ^ 32 - 1)

/-- What the loop receives, or does not. -/
inductive Received (B : Backend) where
  | frame (env : FrameEnv B) (frame : Inbound)
  /-- The socket fails. -/
  | broken
  | hungUp
  /-- Nothing for the idle timeout. -/
  | idle

/-- What a turn of the loop finds ready. -/
structure Turn (B : Backend) where
  shutdown : Bool
  /-- The session deadline has passed. -/
  expired : Bool
  /-- It is time for a ping. -/
  ticked : Bool
  received : Received B
  flush : Environment B.Sample
  /-- The messages the socket takes before it fails, other than those of a handler. -/
  room : Nat

/-- A session, with all that has gone out and the pings that no frame has followed. -/
structure Talk (B : Backend) where
  wire : List Wire
  unansweredPings : Nat
  loop : Loop B

/-- The last messages of a session. The socket may fail here, the session ends all the same. -/
def Talk.leave (talk : Talk B) (room : Nat) (messages : List Outgoing) : Talk B :=
  let sink : Sink := { sent := [], room }
  { talk with wire := talk.wire ++ (sink.send messages).1.sent.map .out, loop := .closed }

namespace Host

variable (host : Host B)

def ready : Ready where
  model := host.modelId
  sampleRate := defaultSampleRate
  version := protocolVersion
  supportedRates := supportedRates
  diarization := host.speakerEncoder
  minProtocolVersion := some minProtocolVersion
  maxSessionSecs := host.maxSessionSecs
  idleTimeoutSecs := host.idleTimeoutSecs

/-- The segment of `flush_and_final`. -/
def flushed (flush : Environment B.Sample) (state : Option (StreamingState B)) :
    Except Stop TranscriptSegment :=
  match state with
  | some state =>
      (state.stream.flushTruncated host.rnd host.rnd32 host.engine.toEngine flush).2
  | none => .ok (.emptyTruncatedFinal flush.now)

/-- The final first, then why the session ends. Nothing catches a panic here. -/
def finalize (talk : Talk B) (c : Connection B) (turn : Turn B) (rest : List Outgoing) : Talk B :=
  match host.flushed turn.flush c.state with
  | .ok segment => talk.leave turn.room (.text (.final segment) :: rest)
  | .error _ => { talk with loop := .panicked }

def ping (talk : Talk B) (room : Nat) : Talk B :=
  if keepaliveShouldClose talk.unansweredPings then talk.leave room [.close 1001 "ping timeout"]
  else if room = 0 then { talk with loop := .closed }
  else
    { talk with wire := talk.wire ++ [.ping], unansweredPings := talk.unansweredPings + 1 }

/-- Any frame proves that the peer is alive. -/
def receive (talk : Talk B) (c : Connection B) (room : Nat) : Received B → Talk B
  | .frame env frame =>
      match host.dispatch env c frame with
      | some served =>
          { wire := talk.wire ++ served.sink.sent.map .out
            unansweredPings := 0
            loop := served.loop }
      | none => { talk with loop := .panicked }
  | .broken => { talk with loop := .failed .foreign }
  | .hungUp => { talk with loop := .closed }
  | .idle =>
      talk.leave room
        [.text (.error "Idle timeout" "idle_timeout" none), .close 1001 "idle timeout"]

/-- A turn of the loop. Shutdown goes before the deadline, and both before a ping and a frame. -/
def iterate (talk : Talk B) (c : Connection B) (turn : Turn B) : Talk B :=
  if turn.shutdown then host.finalize talk c turn [.close 1001 "server shutdown"]
  else if turn.expired then
    host.finalize talk c turn
      [.text (.error "Maximum session duration exceeded" "max_session_duration_exceeded" none),
        .close 1008 "max session duration"]
  else if turn.ticked then ping talk turn.room
  else host.receive talk c turn.room turn.received

def step (talk : Talk B) (turn : Turn B) : Option (Talk B) :=
  match talk.loop with
  | .running c => some (host.iterate talk c turn)
  | .closed | .failed _ | .panicked => none

/-- What becomes of the checkout of a triplet for a new socket. -/
inductive Checkout where
  | shutdown
  | poolClosed
  | timedOut
  | triplet (triplet : Nat)

def refusal : Checkout → List Outgoing
  | .shutdown => [.close 1001 "server shutdown"]
  | .poolClosed => [.text (.error "Server is shutting down" "pool_closed" none)]
  | .timedOut =>
      [.text (.error "Server busy, try again later" "timeout"
        (some (poolRetryAfterMs host.poolCheckoutTimeoutSecs)))]
  | .triplet _ => []

/-- A new socket: a session that starts with `Ready`, or a refusal. -/
def handleWs (checkout : Checkout) (abort snapshot room : Nat) : Talk B :=
  match checkout with
  | .triplet triplet =>
      if room = 0 then { wire := [], unansweredPings := 0, loop := .failed .foreign }
      else
        { wire := [.ready host.ready]
          unansweredPings := 0
          loop := .running (.opened host.engine abort snapshot triplet) }
  | .shutdown | .poolClosed | .timedOut =>
      ({ wire := [], unansweredPings := 0, loop := .closed } : Talk B).leave room
        (host.refusal checkout)

end Host

def Outgoing.isClose : Outgoing → Bool
  | .close _ _ => true
  | .text _ => false

/-- How a handler takes leave of a client. -/
inductive Parting : List Outgoing → Prop where
  | aborted (partialText : Option TranscriptSegment) (now : ℚ) (reason : StreamAbort) :
      Parting (abortMessages partialText now reason)
  | finishFailed (partialText : Option TranscriptSegment) (code : String) :
      Parting (finishErrorMessages partialText code)
  | emptyFrames : Parting
      [.text (.error "Empty frame limit exceeded" "policy_violation" none),
        .close 1008 "policy violation"]

/-- How a server takes leave of a client. Where the server ends what the client has not, by a shutdown
or the session cap, a truncated final goes before. -/
inductive Farewell : List Outgoing → Prop where
  | handler {messages : List Outgoing} (h : Parting messages) : Farewell messages
  | shutdown {segment : TranscriptSegment} (hfinal : segment.isFinal = true)
      (htruncated : segment.truncated = true) :
      Farewell [.text (.final segment), .close 1001 "server shutdown"]
  | sessionCap {segment : TranscriptSegment} (hfinal : segment.isFinal = true)
      (htruncated : segment.truncated = true) :
      Farewell [.text (.final segment),
        .text (.error "Maximum session duration exceeded" "max_session_duration_exceeded" none),
        .close 1008 "max session duration"]
  | pingTimeout : Farewell [.close 1001 "ping timeout"]
  | idleTimeout : Farewell
      [.text (.error "Idle timeout" "idle_timeout" none), .close 1001 "idle timeout"]

/-- What goes out in a handler: texts, and a farewell, as far as the socket takes it, if the session
does not go on. -/
inductive Speech : Bool → List Outgoing → Prop where
  | texts {goesOn : Bool} {sent : List Outgoing} (h : ∀ m ∈ sent, m.isClose = false) :
      Speech goesOn sent
  | farewell {texts whole part : List Outgoing} (h : ∀ m ∈ texts, m.isClose = false)
      (hwhole : Parting whole) (hpart : part <+: whole) : Speech false (texts ++ part)

/-- The socket takes a prefix of what it is sent, and says whether it was all. -/
theorem send_sent (sink : Sink) (messages : List Outgoing) :
    ∃ taken, taken <+: messages ∧ (sink.send messages).1.sent = sink.sent ++ taken ∧
      ((sink.send messages).2 = true → taken = messages) := by
  induction messages generalizing sink with
  | nil => exact ⟨[], List.prefix_rfl, (List.append_nil _).symm, fun _ => rfl⟩
  | cons m rest ih =>
      unfold Sink.send
      split
      · exact ⟨[], List.nil_prefix, (List.append_nil _).symm, fun h => absurd h Bool.false_ne_true⟩
      · obtain ⟨taken, hfront, hsent, hall⟩ :=
          ih { sent := sink.sent ++ [m], room := sink.room - 1 }
        refine ⟨m :: taken, ?_, ?_, ?_⟩
        · exact List.cons_prefix_cons.mpr ⟨rfl, hfront⟩
        · rw [hsent, List.append_assoc, List.singleton_append]
        · intro htaken
          rw [hall htaken]

end Gigastt.Ws
