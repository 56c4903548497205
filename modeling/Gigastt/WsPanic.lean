import Gigastt.WsLoop

/-!
The reset after a panic of the inference. The fresh state takes over some settings of the old one and
has the others from the server, so a session keeps its settings when those are the server's anyway.
-/

namespace Gigastt.Ws

open Transition

variable {B : Backend}

/-- The frame reaches the inference, which panics. -/
def Connection.Panics (audio : Audio B) (env : FrameEnv B) (c : Connection B)
    (data : List UInt8) : Prop :=
  data ≠ [] ∧ ∃ d samples state progress,
    { c with
      audioReceived := true
      pendingByte := (Pcm.parsePcm16WithCarry audio.sample data c.pendingByte).2 }.to16k audio
        (Pcm.parsePcm16WithCarry audio.sample data c.pendingByte).1 = (d, .ok samples) ∧
      d.state = some state ∧ env.decode samples state = .joined (progress, .error .panic)

/-- The frame leaves a state with the settings of the old one, which has heard nothing yet. -/
def Connection.KeepsPolicy (engine : Engine B) (audio : Audio B) (env : FrameEnv B)
    (c : Connection B) (data : List UInt8) : Prop :=
  ∃ old fresh, c.state = some old ∧
    (handleBinaryFrame engine audio env c data).connection.state = some fresh ∧
    fresh.settings c.clientSampleRate = old.settings c.clientSampleRate ∧
    fresh.toRecognizer = (engine.createState none).toRecognizer

/-- The settings that a reset does not take over are those a session starts with. -/
structure StreamingState.AtBoot (engine : Engine B) (state : StreamingState B) : Prop where
  endpointMode : state.endpointMode = engine.endpointMode
  endpointSilence : state.endpointSilence = engine.endpointSilence
  minSilence : state.minSilence = (engine.createState none).minSilence
  diarization : state.diarizationState = none

section

variable {engine : Engine B} {audio : Audio B} {env : FrameEnv B} {c : Connection B}

/-- The inference leaves the settings as they are. -/
theorem settings_infer (state : StreamingState B) (progress : Progress B) (rate : Nat) :
    (state.infer progress).settings rate = state.settings rate := by
  unfold StreamingState.settings StreamingState.minSilence StreamingState.infer
  simp only [Option.map_map, Option.isSome_map]
  rfl

theorem settings_reset_iff (old : StreamingState B) (rate : Nat) :
    (old.reset engine).settings rate = old.settings rate ↔ old.AtBoot engine := by
  constructor
  · intro h
    refine ⟨?_, ?_, ?_, ?_⟩
    · exact (congrArg Settings.endpointMode h).symm
    · exact (congrArg Settings.endpointSilence h).symm
    · exact (congrArg Settings.minSilence h).symm
    · have hdiarization : false = old.diarizationState.isSome := congrArg Settings.diarization h
      exact Option.not_isSome_iff_eq_none.mp (Bool.eq_false_iff.mp hdiarization.symm)
  · rintro ⟨hmode, hsilence, hminSilence, hdiarization⟩
    apply Settings.ext
    · rfl
    · rfl
    · rfl
    · exact hmode.symm
    · exact hsilence.symm
    · rfl
    · exact hminSilence.symm
    · simp [StreamingState.settings, StreamingState.reset, Engine.createState, hdiarization]

/-- Which settings the reset loses shows in the settings. -/
theorem StreamingState.AtBoot.of_settings {old state : StreamingState B} {rate : Nat}
    (h : state.settings rate = old.settings rate) (hboot : old.AtBoot engine) :
    state.AtBoot engine where
  endpointMode := (congrArg Settings.endpointMode h).trans hboot.endpointMode
  endpointSilence := (congrArg Settings.endpointSilence h).trans hboot.endpointSilence
  minSilence := (congrArg Settings.minSilence h).trans hboot.minSilence
  diarization := by
    have hdiarization : state.diarizationState.isSome = old.diarizationState.isSome :=
      congrArg Settings.diarization h
    rw [hboot.diarization, Option.isSome_none] at hdiarization
    exact Option.not_isSome_iff_eq_none.mp (Bool.eq_false_iff.mp hdiarization)

/-- The resampling leaves the settings and the reservation as they are. -/
theorem to16k_settings {d : Connection B} {samples out : List B.Sample} {old : StreamingState B}
    (hto16k : c.to16k audio samples = (d, .ok out)) (hold : c.state = some old) (rate : Nat) :
    (∃ state, d.state = some state ∧ state.settings rate = old.settings rate) ∧
      d.reservation = c.reservation := by
  unfold Connection.to16k at hto16k
  split at hto16k
  · cases hto16k
    exact ⟨⟨old, hold, rfl⟩, rfl⟩
  · rw [hold] at hto16k
    dsimp only at hto16k
    split at hto16k
    · cases hto16k
    · cases hto16k
      exact ⟨⟨_, rfl, rfl⟩, rfl⟩

/-- A frame whose inference panics leaves a reset of what it was given. -/
theorem handleBinaryFrame_panic {data : List UInt8} {old : StreamingState B} {reservation : Nat}
    (hpanic : c.Panics audio env data) (hold : c.state = some old)
    (hreservation : c.reservation = some reservation) :
    ∃ state : StreamingState B, state.settings c.clientSampleRate = old.settings c.clientSampleRate ∧
      (handleBinaryFrame engine audio env c data).connection.state = some (state.reset engine) := by
  obtain ⟨hdata, d, samples, state, progress, hto16k, hstate, hdecode⟩ := hpanic
  have hheld : { c with
      audioReceived := true
      pendingByte := (Pcm.parsePcm16WithCarry audio.sample data c.pendingByte).2 }.state
        = some old := hold
  obtain ⟨⟨state', hstate', hsettings⟩, hkept⟩ :=
    to16k_settings hto16k hheld c.clientSampleRate
  cases Option.some.inj (hstate.symm.trans hstate')
  refine ⟨state.infer progress, (settings_infer state progress _).trans hsettings, ?_⟩
  unfold handleBinaryFrame
  rw [if_neg (by simpa using hdata)]
  dsimp only
  rw [hto16k]
  dsimp only
  rw [hstate, hkept.trans hreservation]
  dsimp only
  unfold decodeFrame
  rw [hdecode]
  rfl

theorem keepsPolicy_iff {data : List UInt8} {old : StreamingState B} {reservation : Nat}
    (hpanic : c.Panics audio env data) (hold : c.state = some old)
    (hreservation : c.reservation = some reservation) :
    c.KeepsPolicy engine audio env data ↔ old.AtBoot engine := by
  obtain ⟨state, hsettings, hfresh⟩ := handleBinaryFrame_panic hpanic hold hreservation
  constructor
  · rintro ⟨old', fresh, hold', hfresh', hkeeps, _⟩
    cases Option.some.inj (hold.symm.trans hold')
    cases Option.some.inj (hfresh.symm.trans hfresh')
    have hboot := (settings_reset_iff state _).mp (hkeeps.trans hsettings.symm)
    exact .of_settings hsettings.symm hboot
  · intro hboot
    refine ⟨old, state.reset engine, hold, hfresh, ?_, rfl⟩
    have hboot' : state.AtBoot engine := .of_settings hsettings hboot
    exact ((settings_reset_iff state _).mpr hboot').trans hsettings

end

/-- A panic of the inference keeps the settings of the session, at any point of it, exactly when the
ones that the reset does not take over are those of the server. -/
theorem panic_keepsPolicy_iff (server : Server B) (abort snapshot triplet : Nat)
    (c : Connection B) (env : FrameEnv B) (data : List UInt8)
    (hreach : Reachable (Loop.step server) (.running (.opened server.engine abort snapshot triplet))
      (.running c))
    (hpanic : c.Panics server.audio env data) :
    c.KeepsPolicy server.engine server.audio env data
      ↔ ∀ old ∈ c.state, old.AtBoot server.engine := by
  obtain ⟨hstate, hreservation⟩ := ready_of_reachable hreach
  obtain ⟨old, hold⟩ := Option.isSome_iff_exists.mp hstate
  obtain ⟨reservation, hreservation⟩ := Option.isSome_iff_exists.mp hreservation
  rw [keepsPolicy_iff hpanic hold hreservation, hold]
  constructor
  · intro hboot state hsome
    cases hsome
    exact hboot
  · intro h
    exact h old rfl

/-- Calls in which every inference panics before it writes anything. -/
def panickingEnv : FrameEnv bareBackend :=
  { bareFrameEnv with
    decode := fun _ state =>
      .joined (⟨state.toRecognizer, bareEngine.endpointer bareEngine.vadConfig, id⟩, .error .panic) }

theorem panic_keepsPolicy_bare :
    (Connection.opened bareEngine 0 0 0).KeepsPolicy bareEngine bareServer.audio panickingEnv
      [0, 0] := by
  refine (panic_keepsPolicy_iff bareServer 0 0 0 _ panickingEnv [0, 0] (Reachable.refl _) ?_).mpr ?_
  · exact ⟨by simp, _, _, _, _, rfl, rfl, rfl⟩
  · intro old hold
    cases hold
    exact ⟨rfl, rfl, rfl, rfl⟩

def manualText : Text := "\x7b\"type\":\"configure\",\"endpoint_mode\":\"manual\"\x7d".toList

/-- A server that is asked for manual endpoints. -/
def manualServer : Server bareBackend :=
  { bareServer with
    parse := fun text =>
      if text = manualText then
        some (.configure { Configure.empty with endpointMode := some "manual" })
      else none }

/-- A session that was asked for manual endpoints has automatic ones after a panic. -/
theorem panic_loses_endpointMode :
    ¬ ∀ (c : Connection bareBackend) (env : FrameEnv bareBackend) (data : List UInt8),
      Reachable (Loop.step manualServer) (.running (.opened bareEngine 0 0 0)) (.running c) →
        c.Panics manualServer.audio env data →
          c.KeepsPolicy bareEngine manualServer.audio env data := by
  intro hkeeps
  obtain ⟨c, hrun, hmode, hreservation, hpanic⟩ : ∃ c, run (Loop.step manualServer)
      (.running (.opened bareEngine 0 0 0)) [(bareFrameEnv, .text manualText)] = some (.running c) ∧
        c.state.map (fun state => state.endpointMode) = some .manual ∧ c.reservation = some 0 ∧
        c.Panics manualServer.audio panickingEnv [0, 0] :=
    ⟨_, rfl, rfl, rfl, by simp, _, _, _, _, rfl, rfl, rfl⟩
  obtain ⟨state, hstate, hmanual⟩ := Option.map_eq_some_iff.mp hmode
  have hkept := hkeeps c panickingEnv [0, 0] ⟨_, hrun⟩ hpanic
  have hauto := ((keepsPolicy_iff hpanic hstate hreservation).mp hkept).endpointMode
  rw [hmanual] at hauto
  cases hauto

end Gigastt.Ws
