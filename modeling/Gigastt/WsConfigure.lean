import Gigastt.WsSession

/-!
The handler of a `configure` message: what it refuses, and the order in which it stores the rest.
-/

namespace Gigastt

/-- A token of the wire without surrounding white space, in lower case. -/
def wireToken (s : String) : Text :=
  let trimmed := (trimStart (trimStart s.toList).reverse).reverse
  trimmed.map Char.toLower

def EndpointMode.parseToken (s : String) : Option EndpointMode :=
  if wireToken s = "auto".toList then some .auto
  else if wireToken s = "assistant".toList then some .assistant
  else if wireToken s = "manual".toList then some .manual
  else none

def CommitPolicy.parseToken (s : String) : Option CommitPolicy :=
  if wireToken s = "auto".toList then some .auto
  else if wireToken s = "on_finalize".toList then some .onFinalize
  else if wireToken s = "stable_prefix".toList then some .stablePrefix
  else none

namespace EndpointSilence

def minMs : Nat := 40

def maxMs : Nat := 2000

/-- The error is the text of `InvalidInput`. -/
def new (milliseconds : Nat) : Except String EndpointSilence :=
  if minMs ≤ milliseconds ∧ milliseconds ≤ maxMs then .ok ⟨milliseconds⟩
  else .error "invalid input: endpoint_silence_ms must be between 40 and 2000"

end EndpointSilence

namespace Ws

variable {B : Backend}

def supportedRates : List Nat := [8000, 16000, 24000, 44100, 48000]

def minProtocolVersion : String := "1.0"

def protocolVersion : String := "1.3"

/-- `ClientMessage::Configure`. -/
structure Configure where
  sampleRate : Option Nat
  diarization : Option Bool
  protocolVersion : Option String
  punctuation : Option Bool
  itn : Option Bool
  endpointMode : Option String
  endpointSilenceMs : Option Nat
  minSilenceMs : Option Nat
  commitPolicy : Option String

/-- What creating a state off the reactor comes to. The speaker model may fail to open. -/
inductive Load (B : Backend) where
  | joined (speaker : Option B.Speaker)
  | panicked
  | aborted (reason : StreamAbort)

/-- What a call of the handler meets outside the session. -/
structure ConfigureEnv (B : Backend) where
  /-- The `diarization` feature is built in. -/
  diarization : Bool
  load : Load B
  partialText : Option TranscriptSegment
  now : ℚ
  /-- The messages the socket takes before it fails. -/
  room : Nat

/-- Answers with an error message. -/
def refuse (session : Session B) (sink : Sink) (message code : String) (outcome : FrameOutcome) :
    Handled B :=
  let (sink, taken) := sink.send [.text (.error message code none)]
  { session, sink, raised := false, outcome := if taken then some outcome else none }

namespace Configure

def unsupportedVersion (msg : Configure) : Option String :=
  msg.protocolVersion.filter fun version =>
    !([minProtocolVersion, "1.1", "1.2", Ws.protocolVersion].contains version)

def endpointSilence (msg : Configure) : Except String (Option EndpointSilence) :=
  match msg.endpointSilenceMs with
  | some milliseconds => (EndpointSilence.new milliseconds).map some
  | none => .ok none

/-- Without value where the token is not one of a policy. -/
def policy (msg : Configure) : Option (Option CommitPolicy) :=
  match msg.commitPolicy with
  | some token => (CommitPolicy.parseToken token).map some
  | none => some none

/-- The overrides stored before the endpoint mode is looked at. -/
def override (msg : Configure) (silence : Option EndpointSilence) (policy : Option CommitPolicy)
    (state : StreamingState B) : StreamingState B :=
  { state with
    endpointSilence := silence.getD state.endpointSilence
    commitPolicy := policy.getD state.commitPolicy
    punctuation := msg.punctuation.or state.punctuation
    itn := msg.itn.or state.itn }

/-- A new endpointer for the silence asked for. Without a detector there is nothing to override. -/
def overrideMinSilence (msg : Configure) (engine : Engine B) (state : StreamingState B) :
    StreamingState B :=
  match msg.minSilenceMs with
  | some ms =>
      if engine.vad then
        { state with
          vadEndpointer := some (engine.endpointer { engine.vadConfig with minSilenceMs := ms }) }
      else state
  | none => state

end Configure

/-- What a recreated state takes over from the old one. -/
def StreamingState.carryOver (old fresh : StreamingState B) : StreamingState B :=
  { fresh with
    punctuation := old.punctuation
    itn := old.itn
    endpointMode := old.endpointMode
    endpointSilence := old.endpointSilence
    abort := old.abort
    snapshot := old.snapshot
    commitPolicy := old.commitPolicy }

section

variable (engine : Engine B) (env : ConfigureEnv B) (msg : Configure)
  (silence : Option EndpointSilence) (policy : Option CommitPolicy)

/-- The overrides of the state the session holds. -/
def configureState (session : Session B) (sink : Sink) : Handled B :=
  let stored (state : StreamingState B) : Session B := { session with state := some state }
  match session.state with
  | none => { session, sink, raised := false, outcome := some .continue }
  | some state =>
      let state := msg.override silence policy state
      match msg.endpointMode with
      | none =>
          { session := stored (msg.overrideMinSilence engine state)
            sink, raised := false, outcome := some .continue }
      | some token =>
          match EndpointMode.parseToken token with
          | some mode =>
              { session := stored (msg.overrideMinSilence engine { state with endpointMode := mode })
                sink, raised := false, outcome := some .continue }
          | none =>
              refuse (stored state) sink
                s!"Unsupported endpoint_mode: {token}. Supported: auto, assistant, manual"
                "invalid_endpoint_mode" .continue

/-- The state is recreated wholesale, if diarization is built in and configured. -/
def configureDiarization (session : Session B) (sink : Sink) : Handled B :=
  match (if env.diarization then msg.diarization else none) with
  | none => configureState engine msg silence policy session sink
  | some enable =>
      match env.load with
      | .aborted reason =>
          let (sink, taken) := sink.send (abortMessages env.partialText env.now reason)
          { session, sink, raised := true, outcome := if taken then some .break else none }
      | .panicked => { session, sink, raised := false, outcome := none }
      | .joined speaker =>
          let fresh := engine.createState (if enable then speaker else none)
          let fresh := match session.state with
            | some old => old.carryOver fresh
            | none => fresh
          configureState engine msg silence policy { session with state := some fresh } sink

/-- An unsupported rate is answered with an error, and the rest of the message goes on. -/
def configureRate (session : Session B) (sink : Sink) : Handled B :=
  match msg.sampleRate with
  | none => configureDiarization engine env msg silence policy session sink
  | some rate =>
      if supportedRates.contains rate then
        configureDiarization engine env msg silence policy { session with clientSampleRate := rate }
          sink
      else
        let (sink, taken) := sink.send [.text (.error
          s!"Unsupported sample rate: {rate}Hz. Supported: {supportedRates}" "invalid_sample_rate"
          none)]
        if taken then configureDiarization engine env msg silence policy session sink
        else { session, sink, raised := false, outcome := none }

end

def handleConfigureMessage (engine : Engine B) (env : ConfigureEnv B) (session : Session B)
    (msg : Configure) : Handled B :=
  let sink : Sink := { sent := [], room := env.room }
  if session.audioReceived then
    refuse session sink "Configure must be sent before first audio frame" "configure_too_late"
      .continue
  else
    match msg.unsupportedVersion with
    | some version =>
        refuse session sink
          s!"Unsupported protocol version: {version}. Supported: {minProtocolVersion} through {protocolVersion}"
          "unsupported_protocol_version" .break
    | none =>
        match msg.endpointSilence with
        | .error error => refuse session sink error "invalid_endpoint_silence_ms" .continue
        | .ok silence =>
            match msg.policy with
            | none =>
                refuse session sink
                  "Unsupported commit_policy. Supported: auto, on_finalize, stable_prefix"
                  "invalid_commit_policy" .continue
            | some policy => configureRate engine env msg silence policy session sink

end Ws

end Gigastt
