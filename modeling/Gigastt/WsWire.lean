import Gigastt.WsTalk

/-!
The conversation of a session: what each handler puts on the wire, and what the turns of the loop make
of it. A close is the last of it, whatever comes in and in whatever order.
-/

namespace Gigastt.Ws

open Transition

variable {B : Backend}

/-- The loop goes on after a frame. -/
def goesOn : Except SessionError FrameOutcome → Bool
  | .ok .continue => true
  | .ok .break | .error _ => false

def Served.Spoken (served : Served B) : Prop := Speech (goesOn served.outcome) served.sink.sent

section

variable {engine : Engine B} {audio : Audio B} {env : FrameEnv B} {c : Connection B}

/-- Nothing has gone out before a handler is called. -/
theorem isClose_nil (room : Nat) : ∀ m ∈ ({ sent := [], room } : Sink).sent, m.isClose = false :=
  fun _ hm => absurd hm List.not_mem_nil

theorem isClose_send {sink : Sink} {messages : List Outgoing}
    (hsent : ∀ m ∈ sink.sent, m.isClose = false) (hmessages : ∀ m ∈ messages, m.isClose = false) :
    ∀ m ∈ (sink.send messages).1.sent, m.isClose = false := by
  obtain ⟨taken, hfront, heq, _⟩ := send_sent sink messages
  intro m hm
  rw [heq] at hm
  rcases List.mem_append.mp hm with hm | hm
  · exact hsent m hm
  · exact hmessages m (hfront.subset hm)

theorem speech_send_farewell {sink : Sink} {messages : List Outgoing}
    (hsent : ∀ m ∈ sink.sent, m.isClose = false) (hfarewell : Parting messages) :
    Speech false (sink.send messages).1.sent := by
  obtain ⟨taken, hfront, heq, _⟩ := send_sent sink messages
  rw [heq]
  exact .farewell hsent hfarewell hfront

theorem spoken_quiet (outcome : Except SessionError FrameOutcome) :
    (c.quiet env.sink outcome).Spoken := by
  apply Speech.texts
  exact isClose_nil env.room

theorem spoken_reply {messages : List Outgoing} {raised : Bool} {outcome : FrameOutcome}
    (hmessages : ∀ m ∈ messages, m.isClose = false) :
    (c.reply env.sink messages raised outcome).Spoken :=
  .texts (isClose_send (isClose_nil env.room) hmessages)

theorem spoken_farewell {messages : List Outgoing} {raised : Bool}
    (hfarewell : Parting messages) : (c.reply env.sink messages raised .break).Spoken := by
  have hover : goesOn (c.reply env.sink messages raised .break).outcome = false := by
    unfold Connection.reply
    dsimp only
    split
    · rfl
    · rfl
  unfold Served.Spoken
  rw [hover]
  exact speech_send_farewell (isClose_nil env.room) hfarewell

theorem isClose_error (message code : String) (retryAfterMs : Option Nat) :
    ∀ m ∈ [Outgoing.text (.error message code retryAfterMs)], m.isClose = false := by
  intro m hm
  rw [List.mem_singleton.mp hm]
  rfl

theorem isClose_segments (segments : List TranscriptSegment) :
    ∀ m ∈ segments.map segmentMessage, m.isClose = false := by
  intro m hm
  obtain ⟨segment, _, rfl⟩ := List.mem_map.mp hm
  unfold segmentMessage
  split
  · rfl
  · rfl

theorem spoken_decodeFrame (state : StreamingState B) (reservation : Nat)
    (samples : List B.Sample) : (decodeFrame engine env c state reservation samples).Spoken := by
  unfold decodeFrame
  cases env.decode samples state with
  | aborted reason => exact spoken_farewell (.aborted ..)
  | failed => exact spoken_quiet _
  | joined processed =>
      obtain ⟨progress, result⟩ := processed
      dsimp only
      split
      · exact spoken_reply (isClose_segments _)
      · exact spoken_farewell (.aborted ..)
      · exact spoken_reply (isClose_error _ _ _)
      · exact spoken_reply (isClose_error _ _ _)

theorem spoken_handleEmptyFrame : (handleEmptyFrame env c).Spoken := by
  unfold handleEmptyFrame
  dsimp only
  split
  · exact speech_send_farewell (isClose_nil env.room) .emptyFrames
  · exact spoken_quiet _

theorem spoken_handleBinaryFrame (data : List UInt8) :
    (handleBinaryFrame engine audio env c data).Spoken := by
  unfold handleBinaryFrame
  split
  · exact spoken_handleEmptyFrame
  · dsimp only
    split
    · exact spoken_quiet _
    · split
      · exact spoken_quiet _
      · split
        · exact spoken_quiet _
        · exact spoken_decodeFrame _ _ _

theorem spoken_handleStopMessage : (handleStopMessage env c).Spoken := by
  unfold handleStopMessage
  dsimp only
  split
  · exact spoken_quiet _
  · split
    · exact spoken_farewell (.aborted ..)
    · exact spoken_farewell (.finishFailed ..)
    · split
      · exact spoken_farewell (.finishFailed ..)
      · exact spoken_farewell (.finishFailed ..)
      · split
        · exact spoken_farewell (.aborted ..)
        · apply spoken_reply
          intro m hm
          rw [List.mem_singleton.mp hm]
          rfl

end

section

variable {engine : Engine B} {env : ConfigureEnv B} {msg : Configure}
  {silence : Option EndpointSilence} {policy : Option CommitPolicy} {session : Session B}

/-- A handler of `configure` goes on only by outcome. -/
def Handled.Spoken (handled : Handled B) : Prop :=
  Speech (decide (handled.outcome = some .continue)) handled.sink.sent

theorem spoken_refuse {sink : Sink} {message code : String} {outcome : FrameOutcome}
    (hsent : ∀ m ∈ sink.sent, m.isClose = false) :
    (refuse session sink message code outcome).Spoken :=
  .texts (isClose_send hsent (isClose_error _ _ _))

theorem spoken_configureState {sink : Sink} (hsent : ∀ m ∈ sink.sent, m.isClose = false) :
    (configureState engine msg silence policy session sink).Spoken := by
  unfold configureState
  dsimp only
  split
  · exact .texts hsent
  · split
    · exact .texts hsent
    · split
      · exact .texts hsent
      · exact spoken_refuse hsent

theorem spoken_configureDiarization {sink : Sink} (hsent : ∀ m ∈ sink.sent, m.isClose = false) :
    (configureDiarization engine env msg silence policy session sink).Spoken := by
  unfold configureDiarization
  split
  · exact spoken_configureState hsent
  · split
    · unfold Handled.Spoken
      dsimp only
      have hover : decide ((if (sink.send (abortMessages env.partialText env.now ‹_›)).2
          then some FrameOutcome.break else none) = some .continue) = false := by
        split
        · rfl
        · rfl
      rw [hover]
      exact speech_send_farewell hsent (.aborted ..)
    · exact .texts hsent
    · exact spoken_configureState hsent

theorem spoken_configureRate {sink : Sink} (hsent : ∀ m ∈ sink.sent, m.isClose = false) :
    (configureRate engine env msg silence policy session sink).Spoken := by
  unfold configureRate
  split
  · exact spoken_configureDiarization hsent
  · split
    · exact spoken_configureDiarization hsent
    · dsimp only
      split
      · exact spoken_configureDiarization (isClose_send hsent (isClose_error _ _ _))
      · exact .texts (isClose_send hsent (isClose_error _ _ _))

theorem spoken_handleConfigureMessage : (handleConfigureMessage engine env session msg).Spoken := by
  have hsent : ∀ m ∈ ({ sent := [], room := env.room } : Sink).sent, m.isClose = false :=
    isClose_nil env.room
  unfold handleConfigureMessage
  dsimp only
  split
  · exact spoken_refuse hsent
  · split
    · exact spoken_refuse hsent
    · split
      · exact spoken_refuse hsent
      · split
        · exact spoken_refuse hsent
        · exact spoken_configureRate hsent

end

/-- What goes out between `Ready` and a farewell. -/
def Wire.inner : Wire → Bool
  | .ping | .out (.text _) => true
  | .ready _ | .out (.close _ _) => false

def Loop.ended : Loop B → Bool
  | .running _ => false
  | .closed | .failed _ | .panicked => true

/-- All that a client sees of a session: a refusal, or `Ready` with pings and texts after it, and in
the end at most one farewell, as far as the socket takes it. -/
inductive Conversation (host : Host B) (talk : Talk B) : Prop where
  | refused (checkout : Host.Checkout)
      (hwire : talk.wire <+: (host.refusal checkout).map .out) (hended : talk.loop.ended = true)
  | served (inner : List Wire) (hinner : ∀ w ∈ inner, w.inner = true)
      (hwire : talk.wire = .ready host.ready :: inner)
  | parted (inner : List Wire) (hinner : ∀ w ∈ inner, w.inner = true) (whole part : List Outgoing)
      (hwhole : Farewell whole) (hpart : part <+: whole)
      (hwire : talk.wire = .ready host.ready :: inner ++ part.map .out)
      (hended : talk.loop.ended = true)

section

variable {host : Host B} {talk : Talk B} {c : Connection B} {turn : Turn B} {inner : List Wire}

theorem inner_texts {texts : List Outgoing} (h : ∀ m ∈ texts, m.isClose = false) :
    ∀ w ∈ texts.map Wire.out, w.inner = true := by
  intro w hw
  obtain ⟨m, hm, rfl⟩ := List.mem_map.mp hw
  cases m with
  | text message => rfl
  | close code reason => exact absurd (h _ hm) Bool.noConfusion

theorem inner_append {more : List Wire} (hinner : ∀ w ∈ inner, w.inner = true)
    (hmore : ∀ w ∈ more, w.inner = true) : ∀ w ∈ inner ++ more, w.inner = true :=
  List.forall_mem_append.mpr ⟨hinner, hmore⟩

/-- A farewell ends a session that is on the way. -/
theorem conversation_leave (hinner : ∀ w ∈ inner, w.inner = true)
    (hwire : talk.wire = .ready host.ready :: inner) {messages : List Outgoing}
    (hfarewell : Farewell messages) (room : Nat) :
    Conversation host (talk.leave room messages) := by
  obtain ⟨taken, hfront, heq, _⟩ := send_sent { sent := [], room } messages
  refine .parted inner hinner messages taken hfarewell hfront ?_ rfl
  unfold Talk.leave
  dsimp only
  rw [heq, hwire, List.nil_append]

/-- A frame adds what its handler says. -/
theorem conversation_served (hinner : ∀ w ∈ inner, w.inner = true)
    (hwire : talk.wire = .ready host.ready :: inner) {served : Served B} (hspoken : served.Spoken)
    {next : Talk B} (hnext : next.wire = talk.wire ++ served.sink.sent.map .out)
    (hloop : next.loop = served.loop) : Conversation host next := by
  unfold Served.Spoken at hspoken
  generalize hgoes : goesOn served.outcome = goes at hspoken
  generalize hsent : served.sink.sent = sent at hspoken
  rw [hsent, hwire, List.cons_append] at hnext
  cases hspoken with
  | texts htexts => exact .served _ (inner_append hinner (inner_texts htexts)) hnext
  | @farewell texts whole part htexts hwhole hpart =>
      rw [List.map_append, ← List.append_assoc, ← List.cons_append] at hnext
      refine .parted _ (inner_append hinner (inner_texts htexts)) whole part
        (.handler hwhole) hpart hnext ?_
      rw [hloop]
      unfold Served.loop
      generalize served.outcome = outcome at hgoes
      cases outcome with
      | error error => rfl
      | ok outcome =>
          cases outcome with
          | «continue» => cases hgoes
          | «break» => rfl

/-- The final of `flush_and_final` is a truncated one. -/
theorem flushed_final {flush : Environment B.Sample} {state : Option (StreamingState B)}
    {segment : TranscriptSegment} (h : host.flushed flush state = .ok segment) :
    segment.isFinal = true ∧ segment.truncated = true := by
  unfold Host.flushed at h
  split at h
  · unfold StreamingState.flushTruncated at h
    split at h
    · cases h
      exact ⟨rfl, rfl⟩
    · cases h
      exact ⟨rfl, rfl⟩
    · cases h
  · cases h
    exact ⟨rfl, rfl⟩

theorem conversation_finalize (hinner : ∀ w ∈ inner, w.inner = true)
    (hwire : talk.wire = .ready host.ready :: inner) {rest : List Outgoing}
    (hrest : ∀ segment : TranscriptSegment, segment.isFinal = true → segment.truncated = true →
      Farewell (.text (.final segment) :: rest)) :
    Conversation host (host.finalize talk c turn rest) := by
  unfold Host.finalize
  split
  · next segment hflushed =>
    obtain ⟨hfinal, htruncated⟩ := flushed_final hflushed
    exact conversation_leave hinner hwire (hrest segment hfinal htruncated) turn.room
  · exact .served inner hinner hwire

theorem spoken_dispatch {env : FrameEnv B} {frame : Inbound} {served : Served B}
    (h : host.dispatch env c frame = some served) : served.Spoken := by
  cases frame with
  | binary data =>
      cases h
      exact spoken_handleBinaryFrame data
  | close | control =>
      cases h
      exact spoken_quiet _
  | text text =>
      unfold Server.dispatch at h
      dsimp only at h
      split at h
      · cases h
        have hspoken := @spoken_handleConfigureMessage B host.engine env.toConfigureEnv ‹_›
          c.toSession
        unfold Handled.Spoken at hspoken
        unfold Served.Spoken Connection.handleConfigure
        dsimp only
        generalize (handleConfigureMessage host.engine env.toConfigureEnv c.toSession _).outcome
          = outcome at hspoken ⊢
        cases outcome with
        | none => exact hspoken
        | some outcome =>
            cases outcome with
            | «continue» => exact hspoken
            | «break» => exact hspoken
      · cases h
        exact spoken_handleStopMessage
      · cases h
        exact spoken_quiet _
      · obtain ⟨_, _, rfl⟩ := Option.map_eq_some_iff.mp h
        exact spoken_quiet _

/-- A turn carries the conversation on. -/
theorem conversation_iterate (hinner : ∀ w ∈ inner, w.inner = true)
    (hwire : talk.wire = .ready host.ready :: inner) :
    Conversation host (host.iterate talk c turn) := by
  unfold Host.iterate
  split
  · exact conversation_finalize hinner hwire fun _ hfinal htruncated => .shutdown hfinal htruncated
  · split
    · exact conversation_finalize hinner hwire
        fun _ hfinal htruncated => .sessionCap hfinal htruncated
    · split
      · unfold Host.ping
        split
        · exact conversation_leave hinner hwire .pingTimeout _
        · split
          · exact .served inner hinner hwire
          · refine .served (inner ++ [.ping]) (inner_append hinner fun w hw => ?_) ?_
            · rw [List.mem_singleton.mp hw]
              rfl
            · dsimp only
              rw [hwire, List.cons_append]
      · unfold Host.receive
        split
        · split
          · next served hdispatch =>
            exact conversation_served hinner hwire (spoken_dispatch hdispatch) rfl rfl
          · exact .served inner hinner hwire
        · exact .served inner hinner hwire
        · exact .served inner hinner hwire
        · exact conversation_leave hinner hwire .idleTimeout _

theorem conversation_step {next : Talk B} (hstep : host.step talk turn = some next)
    (htalk : Conversation host talk) : Conversation host next := by
  unfold Host.step at hstep
  split at hstep
  · next c hloop =>
    cases hstep
    cases htalk with
    | refused checkout hwire hended =>
        rw [hloop] at hended
        cases hended
    | served inner hinner hwire => exact conversation_iterate hinner hwire
    | parted inner hinner whole part hwhole hpart hwire hended =>
        rw [hloop] at hended
        cases hended
  · cases hstep
  · cases hstep
  · cases hstep

theorem conversation_handleWs (checkout : Host.Checkout) (abort snapshot room : Nat) :
    Conversation host (host.handleWs checkout abort snapshot room) := by
  have hrefused : ∀ messages : List Outgoing, messages = host.refusal checkout →
      Conversation host (({ wire := [], unansweredPings := 0, loop := .closed } : Talk B).leave room
        messages) := by
    rintro messages rfl
    obtain ⟨taken, hfront, heq, _⟩ := send_sent { sent := [], room } (host.refusal checkout)
    refine .refused checkout ?_ rfl
    unfold Talk.leave
    dsimp only
    rw [heq, List.nil_append, List.nil_append]
    exact hfront.map Wire.out
  cases checkout with
  | shutdown | poolClosed | timedOut => exact hrefused _ rfl
  | triplet triplet =>
      unfold Host.handleWs
      dsimp only
      split
      · exact .refused (.triplet triplet) List.nil_prefix rfl
      · exact .served [] (fun _ hw => absurd hw List.not_mem_nil) rfl

end

/-- Whatever comes in on a socket and in whatever order, its client sees a conversation: a refusal, or
`Ready` once with pings and texts after it, and at most one farewell as the last of it. -/
theorem session_conversation (host : Host B) (checkout : Host.Checkout) (abort snapshot room : Nat)
    (talk : Talk B)
    (hreach : Reachable host.step (host.handleWs checkout abort snapshot room) talk) :
    Conversation host talk :=
  hreach.invariant (fun _ _ _ hstep => conversation_step hstep)
    (conversation_handleWs checkout abort snapshot room)

def bareHost : Host bareBackend where
  toServer := bareServer
  rnd := .exact
  rnd32 := .exact
  modelId := "rnnt"
  speakerEncoder := false
  maxSessionSecs := 3600
  idleTimeoutSecs := 300
  poolCheckoutTimeoutSecs := 30

/-- A turn that finds nothing but the time for a ping, or the shutdown as well. -/
def bareTurn (shutdown : Bool) : Turn bareBackend where
  shutdown
  expired := false
  ticked := true
  received := .idle
  flush :=
    { aborted := fun _ => false
      vadPush := fun _ => .ok false
      runInference := fun _ _ _ => .error (.error .cancelled)
      lastTurnSpeaker := none
      applyTextPostprocess := fun text _ _ => .ok text
      now := 0 }
  room := 8

/-- A ping, and then the shutdown, which goes before the next one. -/
theorem session_conversation_shutdown : Conversation bareHost
    { wire := [.ready bareHost.ready, .ping, .out (.text (.final (.emptyTruncatedFinal 0))),
        .out (.close 1001 "server shutdown")]
      unansweredPings := 1
      loop := .closed } :=
  session_conversation bareHost (.triplet 0) 0 0 1 _ ⟨[bareTurn false, bareTurn true], rfl⟩

end Gigastt.Ws
