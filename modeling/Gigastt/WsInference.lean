import Gigastt.StreamCommit
import Gigastt.VadEndpoint
import Gigastt.WsConfigureAtomic

/-!
What the inference of a chunk may write of a streaming state: what the models have heard, and never
a setting of the session.
-/

namespace Gigastt

namespace StreamingState

variable {α : Type}

/-- The settings of a session, and whether a detector is attached. -/
structure Policy where
  commitPolicy : CommitPolicy
  punctuation : Option Bool
  itn : Option Bool
  endpointMode : EndpointMode
  endpointSilence : EndpointSilence
  vadEndpointer : Bool

def policy (s : StreamingState α) : Policy where
  commitPolicy := s.commitPolicy
  punctuation := s.punctuation
  itn := s.itn
  endpointMode := s.endpointMode
  endpointSilence := s.endpointSilence
  vadEndpointer := s.vadEndpointer

variable (rnd rnd32 : Rounding) (engine : Engine) (env : Environment α)

theorem policy_decodeWindow (s : StreamingState α) :
    (s.decodeWindow rnd engine env).1.policy = s.policy := by
  unfold decodeWindow
  dsimp only
  split
  · exact rfl
  · split
    · exact rfl
    · split
      · exact rfl
      · exact rfl

theorem policy_slideAnchored {s t : StreamingState α} {firstLiveStart : Option ℚ}
    (h : s.slideStreamingWindowAnchored rnd firstLiveStart = some t) : t.policy = s.policy := by
  unfold slideStreamingWindowAnchored at h
  split at h
  · cases h
    exact rfl
  · dsimp only at h
    split at h
    · cases h
      exact rfl
    · split at h
      · cases h
      · obtain ⟨buffer, _, rfl⟩ := Option.map_eq_some_iff.mp h
        exact rfl

theorem policy_capSlide {s t : StreamingState α} (h : s.capSlide rnd engine = some t) :
    t.policy = s.policy := by
  have hcommit : (s.capCommitStablePrefix rnd).1.policy = s.policy := rfl
  unfold capSlide at h
  split at h
  · dsimp only at h
    split at h
    · exact (policy_slideAnchored rnd h).trans hcommit
    · split at h
      · cases h
        exact hcommit
      · cases h
        exact hcommit
  · cases h
    exact rfl

theorem policy_respond (s : StreamingState α) (endpoint vadEndpoint overCap : Bool) :
    (s.respond rnd rnd32 engine env endpoint vadEndpoint overCap).1.policy = s.policy := by
  have hfinalize : ∀ reason,
      (s.finalizeStreamSegment rnd rnd32 engine env reason).1.policy = s.policy := by
    intro reason
    unfold finalizeStreamSegment
    dsimp only
    split
    · exact rfl
    · exact rfl
  have hslid : ∀ {t}, (if overCap then s.capSlide rnd engine else some s) = some t →
      t.policy = s.policy := by
    intro t ht
    split at ht
    · exact policy_capSlide rnd engine ht
    · cases ht
      exact rfl
  unfold respond
  dsimp only
  split
  · have hreason := hfinalize (if vadEndpoint then .vad else .blank)
    generalize s.finalizeStreamSegment rnd rnd32 engine env _ = finalized at hreason ⊢
    split
    · exact hreason
    · exact hreason
    · exact hreason
  · split
    · exact rfl
    · split
      · exact hslid ‹_›
      · exact hslid ‹_›

theorem policy_decodeChunk (s : StreamingState α) (vadEndpoint overCap : Bool) :
    (s.decodeChunk rnd rnd32 engine env vadEndpoint overCap).1.policy = s.policy := by
  have hdecode := policy_decodeWindow rnd engine env s
  unfold decodeChunk
  dsimp only
  generalize s.decodeWindow rnd engine env = decoded at hdecode ⊢
  obtain ⟨t, result⟩ := decoded
  dsimp only at hdecode ⊢
  split
  · exact hdecode
  · split
    · exact hdecode
    · split
      · exact hdecode
      · exact (policy_respond rnd rnd32 engine env _ _ vadEndpoint overCap).trans hdecode

theorem policy_processChunk (s : StreamingState α) (samples : List α) :
    (s.processChunk rnd rnd32 engine env samples).1.policy = s.policy := by
  unfold processChunk chunkSegment
  dsimp only
  split
  · exact rfl
  · split
    · exact rfl
    · split
      · exact rfl
      · split
        · exact rfl
        · exact policy_decodeChunk rnd rnd32 engine env (s.feed samples) _ _

end StreamingState

namespace Ws

variable {B : Backend}

/-- What the inference of a chunk writes: the recognizer, what the endpointer has heard, and the
speakers. -/
structure Progress (B : Backend) where
  recognizer : Recognizer B
  endpointer : Vad.VadEndpointer B.Prob B.Sample B.VadState
  speaker : B.Speaker → B.Speaker

def StreamingState.infer (state : StreamingState B) (progress : Progress B) : StreamingState B :=
  { state with
    toRecognizer := progress.recognizer
    vadEndpointer := state.vadEndpointer.map fun endpointer =>
      { progress.endpointer with hangover := progress.endpointer.hangover.resettle endpointer.hangover }
    diarizationState := state.diarizationState.map progress.speaker }

/-- The native models that every chunk is fed to. -/
structure Models (B : Backend) where
  vad : Vad.Silero B.Prob B.Sample B.VadState
  feedChunk : B.Speaker → List B.Sample → B.Speaker

/-- What a chunk meets outside the session, and what its decode leaves in the buffers. -/
structure ChunkEnv (B : Backend) where
  environment : Environment B.Sample
  decoder : B.Decoder
  melFftInput : List (B.Sample × B.Sample)
  melPower : List B.Sample
  melOutput : List B.Sample

/-- `process_chunk`, with the detector and the speakers. -/
def StreamingState.processChunk (rnd rnd32 : Rounding) (engine : Engine B) (models : Models B)
    (env : ChunkEnv B) (state : StreamingState B) (samples : List B.Sample) :
    StreamingState B × Except Stop (List TranscriptSegment) :=
  let heard := !state.stream.abortRequested env.environment .entry && !samples.isEmpty
  let pushed :=
    if heard && engine.vad then state.vadEndpointer.map fun ep => ep.push models.vad samples
    else none
  let environment : Environment B.Sample :=
    { env.environment with vadPush := fun _ => (pushed.map Prod.snd).getD (.ok false) }
  let (s, result) := state.stream.processChunk rnd rnd32 engine.toEngine environment samples
  ({ failed := s.failed
     decoder := env.decoder
     audioBuffer := s.audioBuffer
     assembler := s.assembler
     windowStartSamples := s.windowStartSamples
     contextSamples := s.contextSamples
     pendingSamples := s.pendingSamples
     resampler := state.resampler
     melFftInput := env.melFftInput
     melPower := env.melPower
     melOutput := env.melOutput
     resampleOutputBuf := state.resampleOutputBuf
     agreedPrefix := s.agreedPrefix
     capStreak := s.capStreak
     commitPolicy := s.commitPolicy
     abort := state.abort
     snapshot := state.snapshot
     vadEndpointer := (pushed.map Prod.fst).or state.vadEndpointer
     punctuation := s.punctuation
     itn := s.itn
     endpointMode := s.endpointMode
     endpointSilence := s.endpointSilence
     diarizationState :=
       if heard then state.diarizationState.map fun speaker => models.feedChunk speaker samples
       else state.diarizationState }, result)

/-- A state with the settings of another, and an endpointer settled the same, is the other one with
some progress. -/
theorem exists_infer {state t : StreamingState B} (speaker : B.Speaker → B.Speaker)
    (default : Vad.VadEndpointer B.Prob B.Sample B.VadState)
    (hpolicy : t.stream.policy = state.stream.policy) (habort : t.abort = state.abort)
    (hsnapshot : t.snapshot = state.snapshot)
    (hsettled : t.vadEndpointer.map (fun ep => ep.hangover.settled)
      = state.vadEndpointer.map fun ep => ep.hangover.settled)
    (hspeaker : t.diarizationState = state.diarizationState.map speaker) :
    ∃ progress, t = state.infer progress := by
  obtain ⟨hcommit, hpunctuation, hitn, hmode, hsilence, _⟩ :=
    Gigastt.StreamingState.Policy.mk.inj hpolicy
  have hendpointer : t.vadEndpointer = state.vadEndpointer.map fun ep =>
      { t.vadEndpointer.getD default with
        hangover := (t.vadEndpointer.getD default).hangover.resettle ep.hangover } := by
    cases hnew : t.vadEndpointer with
    | none =>
        rw [hnew, Option.map_none, eq_comm, Option.map_eq_none_iff] at hsettled
        rw [hsettled, Option.map_none]
    | some ep =>
        rw [hnew, Option.map_some, eq_comm, Option.map_eq_some_iff] at hsettled
        obtain ⟨ep', hep', heq⟩ := hsettled
        rw [hep', Option.map_some, Option.getD_some, Vad.Hangover.resettle_eq heq.symm]
  refine ⟨⟨t.toRecognizer, t.vadEndpointer.getD default, speaker⟩, StreamingState.eq_iff.mpr ?_⟩
  exact ⟨rfl, hspeaker, hendpointer, hsilence, hcommit, hpunctuation, hitn, hmode, habort,
    hsnapshot⟩

/-- The inference of a chunk only makes progress. -/
theorem processChunk_infer (rnd rnd32 : Rounding) (engine : Engine B) (models : Models B)
    (env : ChunkEnv B) (state : StreamingState B) (samples : List B.Sample) :
    ∃ progress, (state.processChunk rnd rnd32 engine models env samples).1
      = state.infer progress := by
  unfold StreamingState.processChunk
  dsimp only
  generalize (!state.stream.abortRequested env.environment .entry && !samples.isEmpty) = heard
  generalize hpushed : (if heard && engine.vad then
    state.vadEndpointer.map fun ep => ep.push models.vad samples else none) = pushed
  have hpolicy := Gigastt.StreamingState.policy_processChunk rnd rnd32 engine.toEngine
    { env.environment with vadPush := fun _ => (pushed.map Prod.snd).getD (.ok false) } state.stream
    samples
  generalize Gigastt.StreamingState.processChunk rnd rnd32 engine.toEngine _ state.stream samples
    = processed at hpolicy ⊢
  obtain ⟨s, result⟩ := processed
  obtain ⟨hcommit, hpunctuation, hitn, hmode, hsilence, _⟩ :=
    Gigastt.StreamingState.Policy.mk.inj hpolicy
  have hattached : ((pushed.map Prod.fst).or state.vadEndpointer).isSome
      = state.vadEndpointer.isSome := by
    rw [← hpushed]
    split
    · simp
    · simp
  have hsettled : ((pushed.map Prod.fst).or state.vadEndpointer).map
        (fun ep => ep.hangover.settled)
      = state.vadEndpointer.map fun ep => ep.hangover.settled := by
    rw [← hpushed]
    split
    · cases state.vadEndpointer with
      | none => rfl
      | some ep => exact congrArg some (ep.push_settled models.vad samples)
    · rfl
  have hspeaker : (if heard then
      state.diarizationState.map fun speaker => models.feedChunk speaker samples
      else state.diarizationState) = state.diarizationState.map fun speaker =>
        if heard then models.feedChunk speaker samples else speaker := by
    cases heard with
    | false => simp
    | true => rfl
  refine exists_infer _ (engine.endpointer engine.vadConfig) ?_ rfl rfl hsettled hspeaker
  unfold Gigastt.StreamingState.policy StreamingState.stream
  dsimp only at hcommit hpunctuation hitn hmode hsilence ⊢
  rw [hcommit, hpunctuation, hitn, hmode, hsilence, hattached]
  rfl

end Ws

end Gigastt
