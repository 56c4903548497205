import Gigastt.WsFrames

/-!
Whole sessions. A handler that lets the session go on leaves the state and the reservation in place,
and the one slice of the loop is taken of a text that is no message.
-/

namespace Gigastt.Ws

open Transition

variable {B : Backend}

/-- What the next frame needs is there. -/
def Connection.Ready (c : Connection B) : Prop :=
  c.state.isSome = true ∧ c.reservation.isSome = true

/-- The loop has not panicked, has not lost anything, and is ready if it goes on. -/
def Loop.Sound : Loop B → Prop
  | .running c => c.Ready
  | .closed => True
  | .failed error => error ≠ stateLost ∧ error ≠ reservationLost
  | .panicked => False

/-- A text that is logged and longer than 100 bytes has a character that starts at byte 100. -/
def Server.LogsWhole (server : Server B) (text : Text) : Prop :=
  server.parse text = none → server.debug = true → 100 < Utf8.size text →
    ∃ front, front <+: text ∧ Utf8.size front = 100

/-- What a running loop receives can be logged. -/
def Loop.LogsWhole (server : Server B) : Loop B → FrameEnv B × Inbound → Prop
  | .running _, (_, .text text) => server.LogsWhole text
  | .running _, (_, .binary _) | .running _, (_, .close) | .running _, (_, .control) => True
  | .closed, _ | .failed _, _ | .panicked, _ => True

section

variable {engine : Engine B} {audio : Audio B} {env : FrameEnv B} {c : Connection B}
  {server : Server B}

theorem sound_reply {sink : Sink} {messages : List Outgoing} {raised : Bool}
    {outcome : FrameOutcome} (hready : outcome = .continue → c.Ready) :
    (c.reply sink messages raised outcome).loop.Sound := by
  unfold Connection.reply Served.loop
  dsimp only
  cases (sink.send messages).2 with
  | false => simp [Loop.Sound, stateLost, reservationLost]
  | true =>
      cases outcome with
      | «continue» => exact hready rfl
      | «break» => trivial

theorem sound_decodeFrame (state : StreamingState B) (reservation : Nat)
    (samples : List B.Sample) : (decodeFrame engine env c state reservation samples).loop.Sound := by
  unfold decodeFrame
  cases env.decode samples state with
  | aborted reason => exact sound_reply nofun
  | failed => exact ⟨by decide, by decide⟩
  | joined processed =>
      obtain ⟨progress, result⟩ := processed
      dsimp only
      split
      · exact sound_reply fun _ => ⟨rfl, rfl⟩
      · exact sound_reply nofun
      · exact sound_reply fun _ => ⟨rfl, rfl⟩
      · exact sound_reply fun _ => ⟨rfl, rfl⟩

/-- The resampling needs the state and gives it back. -/
theorem to16k_ready (audio : Audio B) (hready : c.Ready) (samples : List B.Sample) :
    (c.to16k audio samples).1.Ready ∧
      ∀ error, (c.to16k audio samples).2 = .error error → error = .foreign := by
  obtain ⟨state, hstate⟩ := Option.isSome_iff_exists.mp hready.1
  unfold Connection.to16k
  split
  · exact ⟨hready, nofun⟩
  · rw [hstate]
    dsimp only
    split
    · exact ⟨⟨rfl, hready.2⟩, fun error h => (Except.error.inj h).symm⟩
    · exact ⟨⟨rfl, hready.2⟩, nofun⟩

theorem sound_handleBinaryFrame (hready : c.Ready) (data : List UInt8) :
    (handleBinaryFrame engine audio env c data).loop.Sound := by
  unfold handleBinaryFrame
  split
  · unfold handleEmptyFrame
    dsimp only
    split
    · exact ⟨by decide, by decide⟩
    · exact hready
  · dsimp only
    obtain ⟨samples, pendingByte⟩ := Pcm.parsePcm16WithCarry audio.sample data c.pendingByte
    have hready' : { c with audioReceived := true, pendingByte := pendingByte }.Ready := hready
    have hto16k := to16k_ready audio hready' samples
    generalize Connection.to16k audio _ samples = resampled at hto16k ⊢
    obtain ⟨⟨hstate, hreservation⟩, herror⟩ := hto16k
    obtain ⟨d, result⟩ := resampled
    obtain ⟨state, hstate⟩ := Option.isSome_iff_exists.mp hstate
    obtain ⟨reservation, hreservation⟩ := Option.isSome_iff_exists.mp hreservation
    cases result with
    | error error =>
        rw [herror error rfl]
        exact ⟨by decide, by decide⟩
    | ok samples =>
        dsimp only at hstate hreservation ⊢
        rw [hstate, hreservation]
        exact sound_decodeFrame state reservation samples

theorem configureState_isSome {msg : Configure} {silence : Option EndpointSilence}
    {policy : Option CommitPolicy} {session : Session B} {sink : Sink}
    (hstate : session.state.isSome = true) :
    (configureState engine msg silence policy session sink).session.state.isSome = true := by
  obtain ⟨state, hstate⟩ := Option.isSome_iff_exists.mp hstate
  cases hmode : msg.badMode with
  | true => rw [(configureState_badMode hstate hmode).1, Option.isSome_some]
  | false => rw [(configureState_goodMode hstate hmode).1, Option.isSome_some]

theorem configureDiarization_isSome {env : ConfigureEnv B} {msg : Configure}
    {silence : Option EndpointSilence} {policy : Option CommitPolicy} {session : Session B}
    {sink : Sink} (hstate : session.state.isSome = true) :
    (configureDiarization engine env msg silence policy session sink).session.state.isSome
      = true := by
  unfold configureDiarization
  split
  · exact configureState_isSome hstate
  · split
    · exact hstate
    · exact hstate
    · exact configureState_isSome rfl

/-- A `configure` message may change the state, and never takes it away. -/
theorem handleConfigureMessage_isSome {env : ConfigureEnv B} {msg : Configure}
    {session : Session B} (hstate : session.state.isSome = true) :
    (handleConfigureMessage engine env session msg).session.state.isSome = true := by
  unfold handleConfigureMessage
  dsimp only
  split
  · exact hstate
  · split
    · exact hstate
    · split
      · exact hstate
      · split
        · exact hstate
        · unfold configureRate
          split
          · exact configureDiarization_isSome hstate
          · split
            · exact configureDiarization_isSome hstate
            · dsimp only
              split
              · exact configureDiarization_isSome hstate
              · exact hstate

theorem sound_handleConfigure (hready : c.Ready) (msg : Configure) :
    (c.handleConfigure engine env msg).loop.Sound := by
  have hstate : (handleConfigureMessage engine env.toConfigureEnv c.toSession msg).session.state.isSome
      = true := handleConfigureMessage_isSome hready.1
  unfold Connection.handleConfigure Served.loop
  dsimp only
  cases (handleConfigureMessage engine env.toConfigureEnv c.toSession msg).outcome with
  | none => exact ⟨by decide, by decide⟩
  | some outcome =>
      cases outcome with
      | «continue» => exact ⟨hstate, hready.2⟩
      | «break» => trivial

theorem sound_handleStopMessage : (handleStopMessage env c).loop.Sound := by
  unfold handleStopMessage
  dsimp only
  split
  · trivial
  · split
    · exact sound_reply nofun
    · exact sound_reply nofun
    · split
      · exact sound_reply nofun
      · exact sound_reply nofun
      · split
        · exact sound_reply nofun
        · exact sound_reply nofun

/-- The slice of a text to be logged panics when byte 100 is within a character. -/
theorem logUnrecognized_isSome_iff (server : Server B) (text : Text) :
    (server.logUnrecognized text).isSome = true ↔ (server.debug = true → 100 < Utf8.size text →
        ∃ front, front <+: text ∧ Utf8.size front = 100) := by
  unfold Server.logUnrecognized
  split
  · rw [Option.isSome_map, Utf8.slice_isSome_iff]
    by_cases hlong : 100 < Utf8.size text
    · rw [Nat.min_eq_right hlong.le]
      exact ⟨fun h _ _ => h, fun h => h ‹_› hlong⟩
    · rw [Nat.min_eq_left (Nat.le_of_not_lt hlong)]
      exact iff_of_true ⟨text, List.prefix_rfl, rfl⟩ fun _ h => absurd h hlong
  · exact iff_of_true rfl fun h => absurd h ‹_›

/-- A sound loop stays sound if what it receives can be logged, and panics otherwise. -/
theorem step_cases {s t : Loop B} {frame : FrameEnv B × Inbound}
    (hstep : s.step server frame = some t) (hsound : s.Sound) :
    s.LogsWhole server frame ∧ t.Sound ∨ ¬ s.LogsWhole server frame ∧ t = .panicked := by
  cases s with
  | closed | failed _ | panicked => cases hstep
  | running c =>
      obtain ⟨env, inbound⟩ := frame
      have ht : t = ((server.dispatch env c inbound).map Served.loop).getD .panicked :=
        (Option.some.inj hstep).symm
      rw [ht]
      cases inbound with
      | binary data => exact Or.inl ⟨trivial, sound_handleBinaryFrame hsound data⟩
      | close => exact Or.inl ⟨trivial, trivial⟩
      | control => exact Or.inl ⟨trivial, hsound⟩
      | text text =>
          unfold Server.dispatch Loop.LogsWhole Server.LogsWhole
          dsimp only
          cases server.parse text with
          | some message =>
              refine Or.inl ⟨nofun, ?_⟩
              cases message with
              | configure msg => exact sound_handleConfigure hsound msg
              | stop => exact sound_handleStopMessage
              | other => exact hsound
          | none =>
              have hlogged := logUnrecognized_isSome_iff server text
              cases hlog : server.logUnrecognized text with
              | none =>
                  refine Or.inr ⟨fun h => ?_, rfl⟩
                  have hsome := hlogged.mpr (h rfl)
                  rw [hlog] at hsome
                  cases hsome
              | some _ =>
                  refine Or.inl ⟨fun _ => ?_, hsound⟩
                  exact hlogged.mp (hlog ▸ rfl)

theorem sound_step_iff {s t : Loop B} {frame : FrameEnv B × Inbound}
    (hstep : s.step server frame = some t) (hsound : s.Sound) :
    t.Sound ↔ s.LogsWhole server frame := by
  rcases step_cases hstep hsound with ⟨hlogs, ht⟩ | ⟨hnot, rfl⟩
  · exact iff_of_true ht hlogs
  · exact iff_of_false id hnot

/-- Only a running loop takes a step. -/
theorem logsWhole_of_stuck {s : Loop B} {frame : FrameEnv B × Inbound}
    (hstuck : s.step server frame = none) : s.LogsWhole server frame := by
  cases s with
  | running c => cases hstuck
  | closed | failed _ | panicked => trivial

end

/-- A loop that is on the way is ready, whatever has happened before. -/
theorem ready_of_reachable {server : Server B} {abort snapshot triplet : Nat} {c : Connection B}
    (hreach : Reachable (Loop.step server) (.running (.opened server.engine abort snapshot triplet))
      (.running c)) : c.Ready := by
  have hsafe : (Loop.running c).Sound ∨ Loop.running c = .panicked := by
    refine @Reachable.invariant _ _ _ (fun s => s.Sound ∨ s = .panicked) _ _ hreach ?_
      (Or.inl ⟨rfl, rfl⟩)
    rintro s frame t hstep (hsound | rfl)
    · exact (step_cases hstep hsound).imp And.right And.right
    · cases hstep
  exact hsafe.resolve_right nofun

/-- A session neither panics nor loses its state or its reservation, exactly when no text that it
receives and logs has a character across its byte 100. -/
theorem session_sound_iff (server : Server B) (abort snapshot triplet : Nat)
    (frames : List (FrameEnv B × Inbound)) :
    (∀ before after t, frames = before ++ after →
        run (Loop.step server) (.running (.opened server.engine abort snapshot triplet)) before
          = some t → t.Sound)
      ↔ Guarded (Loop.step server) (Loop.LogsWhole server)
          (.running (.opened server.engine abort snapshot triplet)) frames := by
  apply always_good_iff_guarded
  · intro s frame t hstep hsound
    exact sound_step_iff hstep hsound
  · intro s frame hstuck
    exact logsWhole_of_stuck hstuck
  · exact ⟨rfl, rfl⟩

/-- A server on the bare engine that takes no text for a message, with debug messages on. -/
def bareServer : Server bareBackend where
  engine := bareEngine
  audio := { sample := fun _ _ => (), resample := fun samples _ cache => (cache, .ok samples) }
  parse := fun _ => none
  debug := true

def bareFrameEnv : FrameEnv bareBackend where
  toConfigureEnv := bareEnv
  decode := fun _ _ => .failed
  finish := fun _ => .failed
  abortRaised := false

/-- A letter and 60 two-byte letters: byte 100 is the second one of its character. -/
theorem session_panics :
    ¬ ∀ (frames before after : List (FrameEnv bareBackend × Inbound)) (t : Loop bareBackend),
      frames = before ++ after →
        run (Loop.step bareServer) (.running (.opened bareEngine 0 0 0)) before = some t →
          t.Sound := by
  intro hsound
  exact hsound _ [(bareFrameEnv, .text ('a' :: List.replicate 60 'я'))] [] .panicked rfl rfl

end Gigastt.Ws
