import Gigastt.Registers
import Gigastt.Transition
import Gigastt.WsConfigureAtomic

/-!
How accepted `configure` messages compose. Each setting of a session is a register of the messages.
The endpointer is the one that a message may also clear: a recreated state starts from the minimum
silence of the server and does not take the old one over.
-/

namespace Gigastt

namespace Vad

theorem msToSamples_eq (ms : Nat) : msToSamples ms = 16 * ms := by
  unfold msToSamples sampleRate
  omega

theorem msToSamples_inj {a b : Nat} : msToSamples a = msToSamples b ↔ a = b := by
  rw [msToSamples_eq, msToSamples_eq]
  omega

end Vad

namespace Ws

open Transition Registers

variable {B : Backend}

def defaultSampleRate : Nat := 48000

/-- The session a connection opens, with its abort flag and its snapshot. -/
def Session.opened (engine : Engine B) (abort snapshot : Nat) : Session B where
  clientSampleRate := defaultSampleRate
  state := some { engine.createState none with abort := some abort, snapshot := some snapshot }
  audioReceived := false

/-- The message is taken over, and nothing in it refused. -/
def Handled.Accepted (handled : Handled B) : Prop :=
  handled.outcome = some .continue ∧ ∀ m ∈ handled.sink.sent, m.isError = false

instance (handled : Handled B) : Decidable handled.Accepted :=
  inferInstanceAs (Decidable (_ ∧ _))

/-- A call of the handler. -/
structure Call (B : Backend) where
  env : ConfigureEnv B
  msg : Configure

/-- The session an accepted message leaves. -/
def Session.configure (engine : Engine B) (session : Session B) (call : Call B) :
    Option (Session B) :=
  let handled := handleConfigureMessage engine call.env session call.msg
  if handled.Accepted then some handled.session else none

/-- The settings of a session. A setting without value is left to the server. -/
@[ext]
structure Settings where
  sampleRate : Nat
  punctuation : Option Bool
  itn : Option Bool
  endpointMode : EndpointMode
  endpointSilence : EndpointSilence
  commitPolicy : CommitPolicy
  /-- In samples. -/
  minSilence : Option Nat
  diarization : Bool
  deriving DecidableEq

def StreamingState.minSilence (state : StreamingState B) : Option Nat :=
  state.vadEndpointer.map fun endpointer => endpointer.hangover.minSilenceSamples

def StreamingState.settings (state : StreamingState B) (rate : Nat) : Settings where
  sampleRate := rate
  punctuation := state.punctuation
  itn := state.itn
  endpointMode := state.endpointMode
  endpointSilence := state.endpointSilence
  commitPolicy := state.commitPolicy
  minSilence := state.minSilence
  diarization := state.diarizationState.isSome

def Session.settings (session : Session B) : Option Settings :=
  session.state.map fun state => state.settings session.clientSampleRate

namespace Configure

variable (msg : Configure)

def mode : Option EndpointMode := msg.endpointMode.bind EndpointMode.parseToken

def silence : Option EndpointSilence := msg.endpointSilenceMs.map EndpointSilence.mk

def commit : Option CommitPolicy := msg.commitPolicy.bind CommitPolicy.parseToken

end Configure

/-- What the messages ask for: the last value given for each setting, or the boot default. -/
def Settings.composed (engine : Engine B) (messages : List Configure) : Settings where
  sampleRate := (last Configure.sampleRate messages).getD defaultSampleRate
  punctuation := last Configure.punctuation messages
  itn := last Configure.itn messages
  endpointMode := (last Configure.mode messages).getD engine.endpointMode
  endpointSilence := (last Configure.silence messages).getD engine.endpointSilence
  commitPolicy := (last Configure.commit messages).getD .auto
  minSilence := some (Vad.msToSamples
    ((last Configure.minSilenceMs messages).getD engine.vadConfig.minSilenceMs))
  diarization := (last Configure.diarization messages).getD false

/-- The speaker model that opening it for the call has returned. -/
def ConfigureEnv.speaker (env : ConfigureEnv B) : Option B.Speaker :=
  match env.load with
  | .joined speaker => speaker
  | .panicked | .aborted _ => none

/-- Diarization is built in, and the speaker model opens for a message that turns it on. -/
def Call.Supported (call : Call B) : Prop :=
  call.env.diarization = true ∧
    (call.msg.diarization = some true → call.env.speaker.isSome = true)

/-- The state a message that configures diarization recreates. -/
def Call.fresh (engine : Engine B) (call : Call B) : Option (StreamingState B) :=
  (if call.env.diarization then call.msg.diarization else none).map fun enable =>
    engine.createState (if enable then call.env.speaker else none)

section

variable {engine : Engine B} {env : ConfigureEnv B} {msg : Configure} {session : Session B}
  {silence : Option EndpointSilence} {policy : Option CommitPolicy} {sink : Sink}
  {state : StreamingState B}

theorem accepted_iff {handled : Handled B} :
    handled.Accepted ↔ handled.outcome = some .continue ∧ ¬ handled.answersError := by
  unfold Handled.Accepted Handled.answersError
  simp only [not_exists, not_and, Bool.not_eq_true]

/-- A refusal is not accepted: its error goes out, or the session ends. -/
theorem refuse_not_accepted (message code : String) (outcome : FrameOutcome) :
    ¬ (refuse session sink message code outcome).Accepted := by
  rw [accepted_iff, answersError_refuse]
  rintro ⟨houtcome, hquiet⟩
  rw [not_or, not_not] at hquiet
  unfold refuse at houtcome
  rw [Sink.send_cons, if_pos hquiet.2] at houtcome
  cases houtcome

theorem configureState_accepted (hstate : session.state = some state)
    (haccepted : (configureState engine msg silence policy session sink).Accepted) :
    ¬ sink.HasError ∧ msg.badMode = false ∧
      (configureState engine msg silence policy session sink).session
        = { session with state := some (msg.store engine silence policy none true state) } := by
  cases hmode : msg.badMode with
  | false =>
      have hquiet := (accepted_iff.mp haccepted).2
      rw [(configureState_goodMode hstate hmode).2] at hquiet
      exact ⟨hquiet, rfl, (configureState_goodMode hstate hmode).1⟩
  | true =>
      obtain ⟨token, htoken, hparse⟩ := (Option.any_eq_true _ _).mp hmode
      unfold configureState at haccepted
      rw [hstate, htoken] at haccepted
      dsimp only at haccepted
      rw [Option.isNone_iff_eq_none.mp hparse] at haccepted
      exact absurd haccepted (refuse_not_accepted _ _ _)

theorem configureDiarization_accepted (hstate : session.state = some state)
    (haccepted : (configureDiarization engine env msg silence policy session sink).Accepted) :
    ¬ sink.HasError ∧ msg.badMode = false ∧
      (configureDiarization engine env msg silence policy session sink).session
        = { session with
            state := some (msg.store engine silence policy (Call.fresh engine ⟨env, msg⟩) true
              state) } := by
  unfold configureDiarization Call.fresh ConfigureEnv.speaker at *
  rcases Option.eq_none_or_eq_some (if env.diarization then msg.diarization else none)
    with hnone | ⟨enable, henable⟩
  · rw [hnone] at haccepted ⊢
    exact configureState_accepted hstate haccepted
  · rw [henable] at haccepted ⊢
    cases hload : env.load with
    | joined speaker =>
        rw [hload, hstate] at haccepted
        rw [hstate]
        exact configureState_accepted rfl haccepted
    | panicked =>
        rw [hload] at haccepted
        cases haccepted.1
    | aborted reason =>
        rw [hload] at haccepted
        have houtcome := haccepted.1
        dsimp only at houtcome
        split at houtcome
        · cases houtcome
        · cases houtcome

theorem configureRate_accepted (hstate : session.state = some state)
    (haccepted : (configureRate engine env msg silence policy session sink).Accepted) :
    msg.badMode = false ∧
      (configureRate engine env msg silence policy session sink).session
        = { session with
            clientSampleRate := msg.sampleRate.getD session.clientSampleRate
            state := some (msg.store engine silence policy (Call.fresh engine ⟨env, msg⟩) true
              state) } := by
  unfold configureRate at *
  rcases Option.eq_none_or_eq_some msg.sampleRate with hnone | ⟨rate, hrate⟩
  · rw [hnone] at haccepted ⊢
    exact (configureDiarization_accepted hstate haccepted).2
  · rw [hrate] at haccepted ⊢
    dsimp only at haccepted ⊢
    split at haccepted
    · rw [if_pos ‹_›]
      have hready : ({ session with clientSampleRate := rate } : Session B).state = some state :=
        hstate
      exact (configureDiarization_accepted hready haccepted).2
    · rw [Sink.send_cons] at haccepted
      split at haccepted
      · cases haccepted.1
      · refine absurd ?_ (configureDiarization_accepted hstate haccepted).1
        exact ⟨_, List.mem_append_right _ List.mem_cons_self, rfl⟩

theorem handleConfigureMessage_accepted (hstate : session.state = some state)
    (haccepted : (handleConfigureMessage engine env session msg).Accepted) :
    ∃ silence policy, msg.endpointSilence = .ok silence ∧ msg.policy = some policy ∧
      (handleConfigureMessage engine env session msg).session
        = { session with
            clientSampleRate := msg.sampleRate.getD session.clientSampleRate
            state := some (msg.store engine silence policy (Call.fresh engine ⟨env, msg⟩) true
              state) } := by
  unfold handleConfigureMessage at *
  dsimp only at haccepted ⊢
  split at haccepted
  · exact absurd haccepted (refuse_not_accepted _ _ _)
  · rw [if_neg ‹_›]
    rcases Option.eq_none_or_eq_some msg.unsupportedVersion with hversion | ⟨version, hversion⟩
    · rw [hversion] at haccepted ⊢
      cases hsilence : msg.endpointSilence with
      | error error =>
          rw [hsilence] at haccepted
          exact absurd haccepted (refuse_not_accepted _ _ _)
      | ok silence =>
          cases hpolicy : msg.policy with
          | none =>
              rw [hsilence, hpolicy] at haccepted
              exact absurd haccepted (refuse_not_accepted _ _ _)
          | some policy =>
              rw [hsilence, hpolicy] at haccepted
              exact ⟨silence, policy, rfl, rfl, (configureRate_accepted hstate haccepted).2⟩
    · rw [hversion] at haccepted
      exact absurd haccepted (refuse_not_accepted _ _ _)

end

namespace Configure

variable {msg : Configure}

theorem silence_eq {silence : Option EndpointSilence} (h : msg.endpointSilence = .ok silence) :
    silence = msg.silence := by
  unfold endpointSilence at h
  unfold Configure.silence
  cases hms : msg.endpointSilenceMs with
  | none =>
      rw [hms] at h
      exact (Except.ok.inj h).symm
  | some ms =>
      rw [hms] at h
      dsimp only at h
      unfold EndpointSilence.new at h
      split at h
      · exact (Except.ok.inj h).symm
      · cases h

theorem commit_eq {policy : Option CommitPolicy} (h : msg.policy = some policy) :
    policy = msg.commit := by
  unfold Configure.policy at h
  unfold commit
  cases htoken : msg.commitPolicy with
  | none =>
      rw [htoken] at h
      exact (Option.some.inj h).symm
  | some token =>
      rw [htoken] at h
      obtain ⟨value, hvalue, hsome⟩ := Option.map_eq_some_iff.mp h
      rw [Option.bind_some, hvalue, hsome]

end Configure

/-- What a message leaves of the minimum silence, which goes back to that of the server when the
state is recreated. -/
def Configure.minSilence (engine : Engine B) : Configure → Option Nat :=
  orClear Configure.minSilenceMs (fun msg => msg.diarization.isSome) engine.vadConfig.minSilenceMs

/-- What an accepted message makes of the settings. -/
def Settings.after (engine : Engine B) (settings : Settings) (msg : Configure) : Settings where
  sampleRate := msg.sampleRate.getD settings.sampleRate
  punctuation := msg.punctuation.or settings.punctuation
  itn := msg.itn.or settings.itn
  endpointMode := msg.mode.getD settings.endpointMode
  endpointSilence := msg.silence.getD settings.endpointSilence
  commitPolicy := msg.commit.getD settings.commitPolicy
  minSilence := ((msg.minSilence engine).map Vad.msToSamples).or settings.minSilence
  diarization := msg.diarization.getD settings.diarization

section

variable {engine : Engine B} {session t : Session B} {call : Call B} {state : StreamingState B}

@[simp]
theorem minSilence_endpointer (cfg : Vad.VadConfig B.Prob) :
    (engine.endpointer cfg).hangover.minSilenceSamples = Vad.msToSamples cfg.minSilenceMs := rfl

theorem Call.fresh_eq (hsupported : call.Supported) : call.fresh engine
    = call.msg.diarization.map fun enable =>
        engine.createState (if enable then call.env.speaker else none) := by
  rw [Call.fresh, if_pos hsupported.1]

/-- The stores of an accepted message, read as settings. -/
theorem settings_store (hvad : engine.vad = true) (hsupported : call.Supported) (rate : Nat) :
    (call.msg.store engine call.msg.silence call.msg.commit (call.fresh engine) true
        state).settings (call.msg.sampleRate.getD rate)
      = (state.settings rate).after engine call.msg := by
  rw [Configure.store_eq, Call.fresh_eq hsupported]
  have hminSilence : ((((call.msg.endpointer engine).map some).or
      ((call.msg.diarization.map fun enable =>
        engine.createState (if enable then call.env.speaker else none)).map
          fun f => f.vadEndpointer)).getD state.vadEndpointer).map
            (fun endpointer => endpointer.hangover.minSilenceSamples)
      = ((call.msg.minSilence engine).map Vad.msToSamples).or state.minSilence := by
    unfold Configure.endpointer Configure.minSilence orClear
    rw [if_pos hvad]
    cases call.msg.minSilenceMs with
    | some ms => rfl
    | none =>
        cases hdiarization : call.msg.diarization with
        | none => simp [hdiarization, StreamingState.minSilence]
        | some enable => simp [hdiarization, Engine.createState, hvad]
  have hdiarization : (((call.msg.diarization.map fun enable =>
        engine.createState (if enable then call.env.speaker else none)).map
          fun f => f.diarizationState).getD state.diarizationState).isSome
      = call.msg.diarization.getD state.diarizationState.isSome := by
    have henabled := hsupported.2
    cases hdiarization : call.msg.diarization with
    | none => rfl
    | some enable =>
        cases enable with
        | false => rfl
        | true => exact henabled hdiarization
  exact Settings.ext rfl rfl rfl rfl rfl rfl hminSilence hdiarization

/-- An accepted message changes the settings as it says. -/
theorem settings_configure (hvad : engine.vad = true) (hsupported : call.Supported)
    {settings : Settings} (hstep : session.configure engine call = some t)
    (hsettings : session.settings = some settings) :
    t.settings = some (settings.after engine call.msg) := by
  obtain ⟨state, hstate, rfl⟩ := Option.map_eq_some_iff.mp hsettings
  obtain ⟨haccepted, hsession⟩ := Option.ite_none_right_eq_some.mp hstep
  obtain ⟨silence, policy, hsilence, hpolicy, heq⟩ :=
    handleConfigureMessage_accepted hstate haccepted
  have ht : t = _ := (Option.some.inj hsession).symm.trans heq
  rw [ht, Configure.silence_eq hsilence, Configure.commit_eq hpolicy]
  exact congrArg some (settings_store hvad hsupported session.clientSampleRate)

theorem settings_opened (hvad : engine.vad = true) (abort snapshot : Nat) :
    (Session.opened engine abort snapshot).settings = some (Settings.composed engine []) := by
  simp [Session.opened, Session.settings, StreamingState.settings, StreamingState.minSilence,
    Engine.createState, Settings.composed, hvad]

/-- The fold of the settings, register by register. -/
theorem foldl_after (messages : List Configure) :
    messages.foldl (Settings.after engine) (Settings.composed engine [])
      = { Settings.composed engine messages with
          minSilence := some (Vad.msToSamples ((last (Configure.minSilence engine) messages).getD
            engine.vadConfig.minSilenceMs)) } := by
  apply Settings.ext
  · exact foldl_last Settings.sampleRate Configure.sampleRate (fun _ _ => rfl) messages _
  · exact (foldl_last_or Settings.punctuation Configure.punctuation (fun _ _ => rfl) messages
      _).trans Option.or_none
  · exact (foldl_last_or Settings.itn Configure.itn (fun _ _ => rfl) messages _).trans
      Option.or_none
  · exact foldl_last Settings.endpointMode Configure.mode (fun _ _ => rfl) messages _
  · exact foldl_last Settings.endpointSilence Configure.silence (fun _ _ => rfl) messages _
  · exact foldl_last Settings.commitPolicy Configure.commit (fun _ _ => rfl) messages _
  · have hfold : (messages.foldl (Settings.after engine) (.composed engine [])).minSilence
        = (last (fun msg => (Configure.minSilence engine msg).map Vad.msToSamples) messages).or
          (Settings.composed engine []).minSilence :=
      foldl_last_or Settings.minSilence _ (fun _ _ => rfl) messages _
    rw [hfold, last_map]
    cases last (Configure.minSilence engine) messages with
    | none => rfl
    | some ms => rfl
  · exact foldl_last Settings.diarization Configure.diarization (fun _ _ => rfl) messages _

/-- The accepted messages before the first audio frame compose setting by setting exactly when no
minimum silence is cleared to another one: the last message that gives one comes after every later
recreation of the state, or gives that of the server. -/
theorem configures_compose_iff (engine : Engine B) (hvad : engine.vad = true)
    (abort snapshot : Nat) (calls : List (Call B)) (session : Session B)
    (hsupported : ∀ call ∈ calls, call.Supported)
    (hrun : run (Session.configure engine) (.opened engine abort snapshot) calls = some session) :
    session.settings = some (.composed engine (calls.map Call.msg))
      ↔ Kept Configure.minSilenceMs (fun msg => msg.diarization.isSome)
          engine.vadConfig.minSilenceMs (calls.map Call.msg) := by
  have hsettings : session.settings
      = some ((calls.map Call.msg).foldl (Settings.after engine) (.composed engine [])) := by
    rw [List.foldl_map]
    refine run_shows ?_ hrun (settings_opened hvad abort snapshot)
    intro call hcall s t settings hstep hs
    exact settings_configure hvad (hsupported call hcall) hstep hs
  rw [hsettings, foldl_after, Option.some_inj, ← last_orClear_iff]
  constructor
  · intro h
    exact Vad.msToSamples_inj.mp (Option.some.inj (congrArg Settings.minSilence h))
  · intro h
    exact Settings.ext rfl rfl rfl rfl rfl rfl (congrArg (some ∘ Vad.msToSamples) h) rfl

end

/-- Messages on the bare engine, which all take their settings over. -/
def bareCalls (messages : List Configure) : List (Call bareBackend) :=
  messages.map fun msg => { env := bareEnv, msg }

theorem configures_compose_iff_bare : ∃ session,
    run (Session.configure bareEngine) (.opened bareEngine 0 0) (bareCalls
        [{ Configure.empty with diarization := some true, minSilenceMs := some 800 },
          { Configure.empty with sampleRate := some 16000, itn := some false }]) = some session ∧
      session.settings = some
        { sampleRate := 16000, punctuation := none, itn := some false, endpointMode := .auto,
          endpointSilence := ⟨600⟩, commitPolicy := .auto, minSilence := some 12800,
          diarization := true } := by
  obtain ⟨session, hrun⟩ : ∃ session, run (Session.configure bareEngine) (.opened bareEngine 0 0)
      (bareCalls
        [{ Configure.empty with diarization := some true, minSilenceMs := some 800 },
          { Configure.empty with sampleRate := some 16000, itn := some false }]) = some session :=
    ⟨_, rfl⟩
  refine ⟨session, hrun, ?_⟩
  refine (configures_compose_iff bareEngine rfl 0 0 _ session ?_ hrun).mpr ?_
  · intro call hcall
    obtain ⟨msg, _, rfl⟩ := List.mem_map.mp hcall
    exact ⟨rfl, fun _ => rfl⟩
  · apply last_orClear_iff.mp
    rfl

/-- A minimum silence asked for is lost when a later message configures diarization. -/
theorem configures_lose_minSilence :
    ¬ ∀ (calls : List (Call bareBackend)) (session : Session bareBackend),
      (∀ call ∈ calls, call.Supported) →
        run (Session.configure bareEngine) (.opened bareEngine 0 0) calls = some session →
          session.settings = some (.composed bareEngine (calls.map Call.msg)) := by
  intro hcompose
  obtain ⟨session, hrun, hsettings⟩ : ∃ session,
      run (Session.configure bareEngine) (.opened bareEngine 0 0) (bareCalls
        [{ Configure.empty with minSilenceMs := some 800 },
          { Configure.empty with diarization := some true }]) = some session ∧
        session.settings.bind Settings.minSilence = some 8000 := ⟨_, rfl, rfl⟩
  rw [hcompose _ session ?_ hrun] at hsettings
  · exact absurd hsettings (by decide)
  · intro call hcall
    obtain ⟨msg, _, rfl⟩ := List.mem_map.mp hcall
    exact ⟨rfl, fun _ => rfl⟩

end Ws

end Gigastt
