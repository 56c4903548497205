import Gigastt.WsConfigure

/-!
When a `configure` message that is answered with an error leaves the session as it was. The early
refusals always do. Past them the handler stores what it has accepted before it meets the next
invalid field, so the session is spared exactly when those stores change nothing.
-/

namespace Gigastt.Ws

variable {B : Backend}

namespace Sink

variable {sink : Sink}

/-- An error message has gone out. -/
def HasError (sink : Sink) : Prop := ∃ m ∈ sink.sent, m.isError = true

theorem hasError_concat {m : Outgoing} {room : Nat} :
    HasError ⟨sink.sent ++ [m], room⟩ ↔ sink.HasError ∨ m.isError = true := by
  unfold HasError
  simp only [List.mem_append, List.mem_singleton, or_and_right, exists_or, exists_eq_left]

theorem send_cons (m : Outgoing) (rest : List Outgoing) : sink.send (m :: rest)
    = if sink.room = 0 then (sink, false)
      else Sink.send ⟨sink.sent ++ [m], sink.room - 1⟩ rest := rfl

theorem hasError_send_quiet {messages : List Outgoing} (h : ∀ m ∈ messages, m.isError = false) :
    (sink.send messages).1.HasError ↔ sink.HasError := by
  induction messages generalizing sink with
  | nil => exact Iff.rfl
  | cons m rest ih =>
      have hm := h m List.mem_cons_self
      rw [send_cons]
      split
      · exact Iff.rfl
      · rw [ih fun x hx => h x (List.mem_cons_of_mem m hx), hasError_concat, hm]
        exact or_iff_left Bool.false_ne_true

/-- An error goes out when the socket takes what is sent before it. -/
theorem hasError_send {first rest : List Outgoing} (message code : String) (retry : Option Nat)
    (hfirst : ∀ m ∈ first, m.isError = false) (hrest : ∀ m ∈ rest, m.isError = false) :
    (sink.send (first ++ .text (.error message code retry) :: rest)).1.HasError
      ↔ sink.HasError ∨ first.length < sink.room := by
  induction first generalizing sink with
  | nil =>
      rw [List.nil_append, send_cons]
      split
      · rw [‹sink.room = 0›]
        exact (or_iff_left (Nat.not_lt_zero 0)).symm
      · have hroom : 0 < sink.room := Nat.pos_of_ne_zero ‹_›
        rw [hasError_send_quiet hrest, hasError_concat]
        exact iff_of_true (Or.inr rfl) (Or.inr hroom)
  | cons m first ih =>
      have hm := hfirst m List.mem_cons_self
      rw [List.cons_append, send_cons]
      split
      · rw [‹sink.room = 0›]
        exact (or_iff_left (Nat.not_lt_zero _)).symm
      · rw [ih fun x hx => hfirst x (List.mem_cons_of_mem m hx), hasError_concat, hm,
          or_iff_left Bool.false_ne_true]
        apply or_congr_right
        have hroom := Nat.pos_of_ne_zero ‹_›
        show first.length < sink.room - 1 ↔ first.length + 1 < sink.room
        omega

end Sink

/-- What goes out before the error of an abort. -/
def abortLead (partialText : Option TranscriptSegment) (reason : StreamAbort) : Nat :=
  partialText.toList.length + (if reason = .shutdown ∨ reason = .sessionLimit then 1 else 0)

theorem hasError_abort (sink : Sink) (partialText : Option TranscriptSegment) (now : ℚ)
    (reason : StreamAbort) : (sink.send (abortMessages partialText now reason)).1.HasError
      ↔ sink.HasError ∨ abortLead partialText reason < sink.room := by
  have hlead : (partialText.map fun segment => Outgoing.text (.interim segment)).toList.length
      = partialText.toList.length := by
    cases partialText with
    | _ => rfl
  have hquiet : ∀ m ∈ (partialText.map fun segment => Outgoing.text (.interim segment)).toList,
      m.isError = false := by
    cases partialText with
    | none => exact nofun
    | some segment =>
        intro m hm
        rw [List.mem_singleton.mp hm]
        rfl
  unfold abortMessages abortLead
  refine (Sink.hasError_send _ _ none ?_ ?_).trans ?_
  · intro m hm
    rcases List.mem_append.mp hm with hm | hm
    · exact hquiet m hm
    · cases reason with
      | shutdown | sessionLimit =>
          rw [List.mem_singleton.mp hm]
          rfl
      | cancelled | timeout => cases hm
  · intro m hm
    rw [List.mem_singleton.mp hm]
    rfl
  · rw [List.length_append, hlead]
    cases reason with
    | _ => exact Iff.rfl

/-- The error of a refusal goes out when the socket takes it. -/
theorem answersError_refuse (session : Session B) (sink : Sink) (message code : String)
    (outcome : FrameOutcome) : (refuse session sink message code outcome).answersError
      ↔ sink.HasError ∨ sink.room ≠ 0 := by
  have hsend : (sink.send ([] ++ .text (.error message code none) :: [])).1.HasError
      ↔ sink.HasError ∨ 0 < sink.room := Sink.hasError_send message code none nofun nofun
  exact hsend.trans (or_congr_right Nat.pos_iff_ne_zero)

namespace Configure

variable (msg : Configure)

/-- The sample rate is not one of the supported ones. -/
def badRate : Bool := msg.sampleRate.any fun rate => !supportedRates.contains rate

/-- The endpoint mode is not a token of one. -/
def badMode : Bool := msg.endpointMode.any fun token => (EndpointMode.parseToken token).isNone

def overrideMode (state : StreamingState B) : StreamingState B :=
  { state with
    endpointMode := (msg.endpointMode.bind EndpointMode.parseToken).getD state.endpointMode }

/-- The endpointer the message asks for, where there is a detector. -/
def endpointer (engine : Engine B) : Option (Vad.VadEndpointer B.Prob B.Sample B.VadState) :=
  if engine.vad then
    msg.minSilenceMs.map fun ms => engine.endpointer { engine.vadConfig with minSilenceMs := ms }
  else none

theorem overrideMinSilence_eq (engine : Engine B) (state : StreamingState B) :
    msg.overrideMinSilence engine state
      = { state with vadEndpointer := (msg.endpointer engine).or state.vadEndpointer } := by
  unfold overrideMinSilence endpointer
  cases engine.vad with
  | true =>
      cases msg.minSilenceMs with
      | _ => rfl
  | false =>
      cases msg.minSilenceMs with
      | _ => rfl

/-- What the message stores in a state, `fresh` if it is recreated; with `full`, past the mode. -/
def store (engine : Engine B) (silence : Option EndpointSilence) (policy : Option CommitPolicy)
    (fresh : Option (StreamingState B)) (full : Bool) (state : StreamingState B) :
    StreamingState B :=
  let base := (fresh.map state.carryOver).getD state
  let stored := msg.override silence policy base
  if full then msg.overrideMinSilence engine (msg.overrideMode stored) else stored

/-- Every field the message stores has the value already. -/
structure AlreadySet (engine : Engine B) (silence : Option EndpointSilence)
    (policy : Option CommitPolicy) (fresh : Option (StreamingState B)) (full : Bool)
    (state : StreamingState B) : Prop where
  recognizer : ∀ f ∈ fresh, state.toRecognizer = f.toRecognizer
  diarization : ∀ f ∈ fresh, state.diarizationState = f.diarizationState
  endpointer : ∀ e ∈ (if full then (msg.endpointer engine).map some else none).or
    (fresh.map fun f => f.vadEndpointer), state.vadEndpointer = e
  silence : ∀ d ∈ silence, state.endpointSilence = d
  policy : ∀ p ∈ policy, state.commitPolicy = p
  punctuation : ∀ p ∈ msg.punctuation, state.punctuation = some p
  itn : ∀ i ∈ msg.itn, state.itn = some i
  mode : full = true → ∀ mode ∈ msg.endpointMode.bind EndpointMode.parseToken,
    state.endpointMode = mode

end Configure

theorem getD_eq_iff {α : Type*} {x : Option α} {a : α} : x.getD a = a ↔ ∀ b ∈ x, a = b := by
  cases x with
  | none => exact iff_of_true rfl nofun
  | some b => exact ⟨fun h _ hb => h.symm.trans (Option.some.inj hb), fun h => (h b rfl).symm⟩

theorem getD_map_eq_iff {α β : Type*} {f : α → β} {x : Option α} {b : β} :
    (x.map f).getD b = b ↔ ∀ a ∈ x, b = f a := by
  cases x with
  | none => exact iff_of_true rfl nofun
  | some a => exact ⟨fun h _ ha => h.symm.trans (congrArg f (Option.some.inj ha)), fun h => (h a rfl).symm⟩

theorem or_eq_iff {α : Type*} {x y : Option α} : x.or y = y ↔ ∀ b ∈ x, y = some b := by
  cases x with
  | none => exact iff_of_true rfl nofun
  | some b => exact ⟨fun h _ hb => h.symm.trans hb, fun h => (h b rfl).symm⟩

theorem StreamingState.eq_iff {s t : StreamingState B} : s = t ↔
    s.toRecognizer = t.toRecognizer ∧ s.diarizationState = t.diarizationState ∧
      s.vadEndpointer = t.vadEndpointer ∧ s.endpointSilence = t.endpointSilence ∧
      s.commitPolicy = t.commitPolicy ∧ s.punctuation = t.punctuation ∧ s.itn = t.itn ∧
      s.endpointMode = t.endpointMode ∧ s.abort = t.abort ∧ s.snapshot = t.snapshot := by
  constructor
  · rintro rfl
    exact ⟨rfl, rfl, rfl, rfl, rfl, rfl, rfl, rfl, rfl, rfl⟩
  · rcases s with ⟨_, _, _, _, _, _, _, _, _, _⟩
    rcases t with ⟨_, _, _, _, _, _, _, _, _, _⟩
    rintro ⟨rfl, rfl, rfl, rfl, rfl, rfl, rfl, rfl, rfl, rfl⟩
    rfl

namespace Configure

variable {msg : Configure} {engine : Engine B} {silence : Option EndpointSilence}
  {policy : Option CommitPolicy} {fresh : Option (StreamingState B)} {state : StreamingState B}

/-- The stores, field by field. -/
theorem store_eq (full : Bool) : msg.store engine silence policy fresh full state
    = { toRecognizer := (fresh.map fun f => f.toRecognizer).getD state.toRecognizer
        commitPolicy := policy.getD state.commitPolicy
        abort := state.abort
        snapshot := state.snapshot
        vadEndpointer := ((if full then (msg.endpointer engine).map some else none).or
          (fresh.map fun f => f.vadEndpointer)).getD state.vadEndpointer
        punctuation := msg.punctuation.or state.punctuation
        itn := msg.itn.or state.itn
        endpointMode := (if full then msg.endpointMode.bind EndpointMode.parseToken else none).getD
          state.endpointMode
        endpointSilence := silence.getD state.endpointSilence
        diarizationState := (fresh.map fun f => f.diarizationState).getD state.diarizationState } := by
  cases full with
  | false =>
      cases fresh with
      | _ => rfl
  | true =>
      show msg.overrideMinSilence engine _ = _
      rw [overrideMinSilence_eq]
      cases msg.endpointer engine with
      | none =>
          cases fresh with
          | _ => rfl
      | some e =>
          cases fresh with
          | _ => rfl

/-- The stores leave the state as it is when every field has its value already. -/
theorem store_eq_iff (full : Bool) : msg.store engine silence policy fresh full state = state
    ↔ msg.AlreadySet engine silence policy fresh full state := by
  have hmode : (if full then msg.endpointMode.bind EndpointMode.parseToken else none).getD
      state.endpointMode = state.endpointMode ↔ (full = true →
        ∀ mode ∈ msg.endpointMode.bind EndpointMode.parseToken, state.endpointMode = mode) := by
    cases full with
    | true => exact ⟨fun h _ => getD_eq_iff.mp h, fun h => getD_eq_iff.mpr (h rfl)⟩
    | false => exact iff_of_true rfl nofun
  rw [store_eq, StreamingState.eq_iff, getD_map_eq_iff, getD_map_eq_iff, getD_eq_iff, getD_eq_iff,
    getD_eq_iff, or_eq_iff, or_eq_iff, hmode]
  constructor
  · rintro ⟨hrecognizer, hdiarization, hendpointer, hsilence, hpolicy, hpunctuation, hitn, hmode, _⟩
    exact ⟨hrecognizer, hdiarization, hendpointer, hsilence, hpolicy, hpunctuation, hitn, hmode⟩
  · rintro ⟨hrecognizer, hdiarization, hendpointer, hsilence, hpolicy, hpunctuation, hitn, hmode⟩
    exact ⟨hrecognizer, hdiarization, hendpointer, hsilence, hpolicy, hpunctuation, hitn, hmode,
      rfl, rfl⟩

end Configure

section

variable {engine : Engine B} {env : ConfigureEnv B} {msg : Configure}
  {silence : Option EndpointSilence} {policy : Option CommitPolicy} {session : Session B}
  {sink : Sink}

theorem configureState_none (hnone : session.state = none) :
    configureState engine msg silence policy session sink
      = { session, sink, raised := false, outcome := some .continue } := by
  unfold configureState
  rw [hnone]

theorem configureState_badMode {state : StreamingState B} (hstate : session.state = some state)
    (hbad : msg.badMode = true) :
    (configureState engine msg silence policy session sink).session
        = { session with state := some (msg.override silence policy state) } ∧
      ((configureState engine msg silence policy session sink).answersError
        ↔ sink.HasError ∨ sink.room ≠ 0) := by
  obtain ⟨token, htoken, hparse⟩ := (Option.any_eq_true _ _).mp hbad
  unfold configureState
  rw [hstate, htoken]
  dsimp only
  rw [Option.isNone_iff_eq_none.mp hparse]
  exact ⟨rfl, answersError_refuse _ _ _ _ _⟩

theorem configureState_goodMode {state : StreamingState B} (hstate : session.state = some state)
    (hgood : msg.badMode = false) :
    (configureState engine msg silence policy session sink).session
        = { session with state := some (msg.overrideMinSilence engine
            (msg.overrideMode (msg.override silence policy state))) } ∧
      ((configureState engine msg silence policy session sink).answersError
        ↔ sink.HasError) := by
  unfold Configure.badMode at hgood
  unfold configureState Configure.overrideMode
  rw [hstate]
  rcases Option.eq_none_or_eq_some msg.endpointMode with hnone | ⟨token, htoken⟩
  · rw [hnone]
    exact ⟨rfl, Iff.rfl⟩
  · rw [htoken, Option.any_some] at hgood
    rw [htoken]
    rcases Option.eq_none_or_eq_some (EndpointMode.parseToken token) with hparse | ⟨mode, hparse⟩
    · rw [hparse] at hgood
      cases hgood
    · rw [Option.bind_some, hparse]
      dsimp only
      rw [hparse]
      exact ⟨rfl, Iff.rfl⟩

/-- The session whose state the overrides apply to, `fresh` if it is recreated. -/
def Session.ready (session : Session B) (fresh : Option (StreamingState B)) : Session B :=
  match fresh, session.state with
  | none, _ => session
  | some f, some old => { session with state := some (old.carryOver f) }
  | some f, none => { session with state := some f }

/-- Everything the message stores is there already. Without a state only a recreated one is stored. -/
def Session.Keeps (session : Session B) (engine : Engine B) (msg : Configure)
    (silence : Option EndpointSilence) (policy : Option CommitPolicy)
    (fresh : Option (StreamingState B)) : Prop :=
  match session.state with
  | some state => msg.AlreadySet engine silence policy fresh (!msg.badMode) state
  | none => fresh = none

/-- An invalid endpoint mode is reported, which is looked at only for a state to store it in. -/
def Session.reportsMode (session : Session B) (msg : Configure)
    (fresh : Option (StreamingState B)) : Bool :=
  msg.badMode && (session.state.isSome || fresh.isSome)

theorem Session.ready_state {state : StreamingState B} (hstate : session.state = some state)
    (fresh : Option (StreamingState B)) :
    (session.ready fresh).state = some ((fresh.map state.carryOver).getD state) := by
  unfold Session.ready
  rw [hstate]
  cases fresh with
  | none => exact hstate
  | some f => rfl

theorem Session.ready_state_none (hnone : session.state = none)
    (fresh : Option (StreamingState B)) : (session.ready fresh).state = fresh := by
  unfold Session.ready
  rw [hnone]
  cases fresh with
  | none => exact hnone
  | some f => rfl

theorem Session.ready_rate (fresh : Option (StreamingState B)) :
    (session.ready fresh).clientSampleRate = session.clientSampleRate := by
  unfold Session.ready
  split
  · rfl
  · rfl
  · rfl

theorem configureState_rate : (configureState engine msg silence policy session
    sink).session.clientSampleRate = session.clientSampleRate := by
  rcases Option.eq_none_or_eq_some session.state with hnone | ⟨state, hstate⟩
  · rw [configureState_none hnone]
  · cases hmode : msg.badMode with
    | true => rw [(configureState_badMode hstate hmode).1]
    | false => rw [(configureState_goodMode hstate hmode).1]

theorem configureState_answersError (fresh : Option (StreamingState B)) :
    (configureState engine msg silence policy (session.ready fresh) sink).answersError
      ↔ sink.HasError ∨ session.reportsMode msg fresh = true ∧ sink.room ≠ 0 := by
  have hholds : (session.ready fresh).state.isSome = (session.state.isSome || fresh.isSome) := by
    rcases Option.eq_none_or_eq_some session.state with hnone | ⟨state, hstate⟩
    · rw [Session.ready_state_none hnone, hnone, Option.isSome_none, Bool.false_or]
    · rw [Session.ready_state hstate, hstate, Option.isSome_some, Option.isSome_some, Bool.true_or]
  unfold Session.reportsMode
  rw [← hholds]
  rcases Option.eq_none_or_eq_some (session.ready fresh).state with hnone | ⟨state, hstate⟩
  · rw [configureState_none hnone, hnone, Option.isSome_none, Bool.and_false]
    exact (or_iff_left fun h => Bool.false_ne_true h.1).symm
  · rw [hstate, Option.isSome_some, Bool.and_true]
    cases hmode : msg.badMode with
    | true =>
        rw [(configureState_badMode hstate hmode).2]
        exact or_congr_right (and_iff_right rfl).symm
    | false =>
        rw [(configureState_goodMode hstate hmode).2]
        exact (or_iff_left fun h => Bool.false_ne_true h.1).symm

theorem configureState_state (fresh : Option (StreamingState B)) :
    (configureState engine msg silence policy (session.ready fresh) sink).session.state
        = session.state
      ↔ session.Keeps engine msg silence policy fresh := by
  unfold Session.Keeps
  rcases Option.eq_none_or_eq_some session.state with hnone | ⟨state, hstate⟩
  · rw [hnone]
    rcases Option.eq_none_or_eq_some fresh with hfresh | ⟨f, hfresh⟩
    · have hready : (session.ready fresh).state = none :=
        (Session.ready_state_none hnone fresh).trans hfresh
      rw [configureState_none hready]
      exact iff_of_true hready hfresh
    · have hready := (Session.ready_state_none hnone fresh).trans hfresh
      refine iff_of_false ?_ (hfresh ▸ Option.some_ne_none f)
      cases hmode : msg.badMode with
      | true =>
          rw [(configureState_badMode hready hmode).1]
          exact Option.some_ne_none _
      | false =>
          rw [(configureState_goodMode hready hmode).1]
          exact Option.some_ne_none _
  · have hready := Session.ready_state hstate fresh
    rw [hstate]
    cases hmode : msg.badMode with
    | true =>
        rw [(configureState_badMode hready hmode).1]
        exact Option.some_inj.trans (Configure.store_eq_iff false)
    | false =>
        rw [(configureState_goodMode hready hmode).1]
        exact Option.some_inj.trans (Configure.store_eq_iff true)

/-- The stores of the message change nothing, or no error goes out. `reported` says that one has
already, `room` how many messages the socket takes after it, and `sameRate` that the rate stored is
the one the session had. -/
def Session.StoresSpared (session : Session B) (engine : Engine B) (env : ConfigureEnv B)
    (msg : Configure) (silence : Option EndpointSilence) (policy : Option CommitPolicy)
    (reported : Prop) (room : Nat) (sameRate : Prop) : Prop :=
  let spared (fresh : Option (StreamingState B)) : Prop :=
    reported ∨ session.reportsMode msg fresh = true ∧ room ≠ 0 →
      sameRate ∧ session.Keeps engine msg silence policy fresh
  match (if env.diarization then msg.diarization else none), env.load with
  | none, _ => spared none
  | some enable, .joined speaker =>
      spared (some (engine.createState (if enable then speaker else none)))
  | some _, .panicked => reported → sameRate
  | some _, .aborted reason => reported ∨ abortLead env.partialText reason < room → sameRate

theorem configureDiarization_spared (session : Session B) (sink : Sink) (rate : Nat) :
    ((configureDiarization engine env msg silence policy session sink).answersError →
        (configureDiarization engine env msg silence policy session sink).session.clientSampleRate
            = rate ∧
          (configureDiarization engine env msg silence policy session sink).session.state
            = session.state)
      ↔ session.StoresSpared engine env msg silence policy sink.HasError sink.room
          (session.clientSampleRate = rate) := by
  have hready : ∀ fresh : Option (StreamingState B),
      ((configureState engine msg silence policy (session.ready fresh) sink).answersError →
        (configureState engine msg silence policy (session.ready fresh)
            sink).session.clientSampleRate = rate ∧
          (configureState engine msg silence policy (session.ready fresh) sink).session.state
            = session.state)
      ↔ (sink.HasError ∨ session.reportsMode msg fresh = true ∧ sink.room ≠ 0 →
          session.clientSampleRate = rate ∧ session.Keeps engine msg silence policy fresh) := by
    intro fresh
    rw [configureState_answersError, configureState_rate, Session.ready_rate,
      configureState_state]
  unfold configureDiarization Session.StoresSpared
  rcases Option.eq_none_or_eq_some (if env.diarization then msg.diarization else none)
    with hnone | ⟨enable, henable⟩
  · rw [hnone]
    exact hready none
  · rw [henable]
    cases env.load with
    | joined speaker =>
        have heq := hready (some (engine.createState (if enable then speaker else none)))
        unfold Session.ready at heq
        rcases Option.eq_none_or_eq_some session.state with hstate | ⟨state, hstate⟩
        · rw [hstate] at heq ⊢
          exact heq
        · rw [hstate] at heq ⊢
          exact heq
    | panicked => exact imp_congr_right fun _ => and_iff_left rfl
    | aborted reason =>
        refine imp_congr ?_ (and_iff_left rfl)
        exact hasError_abort sink env.partialText env.now reason

end

namespace Configure

/-- A supported rate in the message is the one the session has. -/
def KeepsRate (msg : Configure) (session : Session B) : Prop :=
  ∀ rate ∈ msg.sampleRate, supportedRates.contains rate = true → rate = session.clientSampleRate

/-- The handler leaves the session as it is, or reports no error: the message is refused before
anything is stored, the socket fails at the first error, or what is stored is there already. -/
def Spares (engine : Engine B) (env : ConfigureEnv B) (session : Session B) (msg : Configure) :
    Prop :=
  session.audioReceived = true ∨ msg.unsupportedVersion.isSome = true ∨
    (∃ error, msg.endpointSilence = .error error) ∨ msg.policy = none ∨
    msg.badRate = true ∧ env.room = 0 ∨
    ∃ silence policy, msg.endpointSilence = .ok silence ∧ msg.policy = some policy ∧
      session.StoresSpared engine env msg silence policy (msg.badRate = true) env.room
        (msg.KeepsRate session)

end Configure

section

variable {engine : Engine B} {env : ConfigureEnv B} {msg : Configure}
  {silence : Option EndpointSilence} {policy : Option CommitPolicy} {session : Session B}

/-- Once an error has gone out, what the socket takes after it does not matter. -/
theorem Session.StoresSpared.room_iff {reported sameRate : Prop} (hreported : reported)
    (room room' : Nat) :
    session.StoresSpared engine env msg silence policy reported room sameRate
      ↔ session.StoresSpared engine env msg silence policy reported room' sameRate := by
  have hor : ∀ p q : Prop, reported ∨ p ↔ reported ∨ q := fun p q =>
    iff_of_true (Or.inl hreported) (Or.inl hreported)
  unfold Session.StoresSpared
  split
  · exact imp_congr_left (hor _ _)
  · exact imp_congr_left (hor _ _)
  · exact Iff.rfl
  · exact imp_congr_left (hor _ _)

theorem configureRate_spared (hroom : ¬ (msg.badRate = true ∧ env.room = 0)) :
    ((configureRate engine env msg silence policy session ⟨[], env.room⟩).answersError →
        (configureRate engine env msg silence policy session ⟨[], env.room⟩).session.clientSampleRate
            = session.clientSampleRate ∧
          (configureRate engine env msg silence policy session ⟨[], env.room⟩).session.state
            = session.state)
      ↔ session.StoresSpared engine env msg silence policy (msg.badRate = true) env.room
          (msg.KeepsRate session) := by
  have hquiet : Sink.HasError ⟨[], env.room⟩ ↔ False :=
    ⟨fun ⟨_, hm, _⟩ => List.not_mem_nil hm, False.elim⟩
  rcases Option.eq_none_or_eq_some msg.sampleRate with hnone | ⟨rate, hrate⟩
  · have hgood : msg.badRate = false := by rw [Configure.badRate, hnone, Option.any_none]
    have hkeeps : msg.KeepsRate session ↔ session.clientSampleRate = session.clientSampleRate := by
      unfold Configure.KeepsRate
      rw [hnone]
      exact iff_of_true nofun rfl
    unfold configureRate
    rw [hnone, hgood, propext hkeeps]
    apply (configureDiarization_spared session ⟨[], env.room⟩ _).trans
    rw [propext hquiet, eq_false Bool.false_ne_true]
  · have hbad : msg.badRate = !supportedRates.contains rate := by
      rw [Configure.badRate, hrate, Option.any_some]
    have hkeeps : msg.KeepsRate session
        ↔ (supportedRates.contains rate = true → rate = session.clientSampleRate) := by
      unfold Configure.KeepsRate
      rw [hrate]
      exact ⟨fun h => h rate rfl, fun h _ hr => Option.some.inj hr ▸ h⟩
    unfold configureRate
    rw [hrate]
    by_cases hsupported : supportedRates.contains rate = true
    · have hsame : msg.KeepsRate session ↔ rate = session.clientSampleRate :=
        hkeeps.trans ⟨fun h => h hsupported, fun h _ => h⟩
      dsimp only
      rw [if_pos hsupported, propext hsame, hbad, hsupported]
      refine (configureDiarization_spared { session with clientSampleRate := rate }
        ⟨[], env.room⟩ session.clientSampleRate).trans ?_
      rw [propext hquiet, Bool.not_true, eq_false Bool.false_ne_true]
      exact Iff.rfl
    · have hsame : msg.KeepsRate session ↔ session.clientSampleRate = session.clientSampleRate :=
        iff_of_true (hkeeps.mpr fun h => absurd h hsupported) rfl
      have hbad' : msg.badRate = true := by
        rw [hbad, (Bool.not_eq_true _).mp hsupported]
        rfl
      have htaken : env.room ≠ 0 := fun hzero => hroom ⟨hbad', hzero⟩
      dsimp only
      rw [if_neg hsupported, Sink.send_cons, if_neg htaken, Sink.send, if_pos rfl, propext hsame, hbad']
      apply (configureDiarization_spared session _ session.clientSampleRate).trans
      have hreported : Sink.HasError ⟨[] ++ [Outgoing.text (.error
          s!"Unsupported sample rate: {rate}Hz. Supported: {supportedRates}" "invalid_sample_rate"
          none)], env.room - 1⟩ ↔ true = true :=
        iff_of_true ⟨_, List.mem_singleton_self _, rfl⟩ rfl
      rw [propext hreported]
      exact Session.StoresSpared.room_iff rfl _ _

/-- A socket that fails at the error of the rate ends the call. -/
theorem configureRate_failed (hfailed : msg.badRate = true ∧ env.room = 0) :
    (configureRate engine env msg silence policy session ⟨[], env.room⟩).session.clientSampleRate
        = session.clientSampleRate ∧
      (configureRate engine env msg silence policy session ⟨[], env.room⟩).session.state
        = session.state := by
  obtain ⟨hbad, hroom⟩ := hfailed
  obtain ⟨rate, hrate, hunsupported⟩ := (Option.any_eq_true _ _).mp hbad
  have hnot : ¬ supportedRates.contains rate = true := by
    rw [(Bool.not_eq_true' _).mp hunsupported]
    exact Bool.false_ne_true
  unfold configureRate
  rw [hrate]
  dsimp only
  rw [if_neg hnot, hroom]
  exact ⟨rfl, rfl⟩

end

/-- A message answered with an error leaves the rate and the state as they were exactly when it is
spared. -/
theorem configure_atomic_iff (engine : Engine B) (env : ConfigureEnv B) (session : Session B)
    (msg : Configure) :
    ((handleConfigureMessage engine env session msg).answersError →
        (handleConfigureMessage engine env session msg).session.clientSampleRate
            = session.clientSampleRate ∧
          (handleConfigureMessage engine env session msg).session.state = session.state)
      ↔ msg.Spares engine env session := by
  unfold handleConfigureMessage Configure.Spares
  dsimp only
  split
  · exact iff_of_true (fun _ => ⟨rfl, rfl⟩) (Or.inl ‹_›)
  · rcases Option.eq_none_or_eq_some msg.unsupportedVersion with hversion | ⟨version, hversion⟩
    · rw [hversion]
      cases hsilence : msg.endpointSilence with
      | error error =>
          exact iff_of_true (fun _ => ⟨rfl, rfl⟩) (Or.inr (Or.inr (Or.inl ⟨error, rfl⟩)))
      | ok silence =>
          cases hpolicy : msg.policy with
          | none =>
              exact iff_of_true (fun _ => ⟨rfl, rfl⟩) (Or.inr (Or.inr (Or.inr (Or.inl rfl))))
          | some policy =>
              by_cases hroom : msg.badRate = true ∧ env.room = 0
              · exact iff_of_true (fun _ => configureRate_failed hroom)
                  (Or.inr (Or.inr (Or.inr (Or.inr (Or.inl hroom)))))
              · refine (configureRate_spared hroom).trans ⟨fun h => ?_, ?_⟩
                · exact Or.inr (Or.inr (Or.inr (Or.inr (Or.inr ⟨silence, policy, rfl, rfl, h⟩))))
                · rintro (h | h | ⟨error, h⟩ | h | h | ⟨silence', policy', hs, hp, h⟩)
                  · exact absurd h ‹_›
                  · cases h
                  · cases h
                  · cases h
                  · exact absurd h hroom
                  · cases hs
                    cases hp
                    exact h
    · rw [hversion]
      exact iff_of_true (fun _ => ⟨rfl, rfl⟩) (Or.inr (Or.inl rfl))

/-- A backend whose models keep nothing, for runs of the handler. -/
def bareBackend : Backend := ⟨Unit, Unit, Unit, Unit, Unit, Unit⟩

/-- An engine with a detector and the default settings. -/
def bareEngine : Engine bareBackend where
  vad := true
  punctuator := false
  itn := false
  streamMaxWindowSamples := 240000
  streamStablePrefix := false
  endpointMode := .auto
  endpointSilence := ⟨600⟩
  vadConfig := { threshold := (), minSilenceMs := 500, minSpeechMs := 250, speechPadMs := 100 }
  vadZero := ()
  decoderNew := ()

/-- A call in which the speaker model opens and the socket takes everything. -/
def bareEnv : ConfigureEnv bareBackend where
  diarization := true
  load := .joined (some ())
  partialText := none
  now := 0
  room := 8

/-- A session before its first message. -/
def bareSession : Session bareBackend where
  clientSampleRate := 48000
  state := some (bareEngine.createState none)
  audioReceived := false

def Configure.empty : Configure where
  sampleRate := none
  diarization := none
  protocolVersion := none
  punctuation := none
  itn := none
  endpointMode := none
  endpointSilenceMs := none
  minSilenceMs := none
  commitPolicy := none

/-- A message with an unknown endpoint mode is answered with an error, and its rate and its other
overrides are in force. -/
theorem configure_half_applied :
    ¬ ∀ (session : Session bareBackend) (msg : Configure),
      (handleConfigureMessage bareEngine bareEnv session msg).answersError →
        (handleConfigureMessage bareEngine bareEnv session msg).session.clientSampleRate
            = session.clientSampleRate ∧
          (handleConfigureMessage bareEngine bareEnv session msg).session.state
            = session.state := by
  intro hatomic
  have hrate := (hatomic bareSession
    { Configure.empty with
      sampleRate := some 8000, punctuation := some false, endpointMode := some "turbo" }
    ⟨_, List.mem_singleton_self _, rfl⟩).1
  exact absurd hrate (by decide)

end Gigastt.Ws
