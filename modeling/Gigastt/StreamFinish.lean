import Gigastt.StreamCommit

/-!
The end of a session. One that has failed or is cancelled stays as it is, and finishing a finished
one again does nothing.
-/

namespace Gigastt

namespace StreamingState

variable {α : Type} (rnd rnd32 : Rounding) (engine : Engine)

section Over

variable {s : StreamingState α} {env : Environment α}

/-- A call finds the session failed, or the abort flag set. -/
def Over (s : StreamingState α) (env : Environment α) : Prop :=
  s.failed = true ∨ ∀ read, env.aborted read = true

theorem Over.abortRequested (h : s.Over env) (read : AbortRead) :
    s.abortRequested env read = true := by
  rw [StreamingState.abortRequested, Bool.or_eq_true]
  exact h.imp_right fun hset => hset read

theorem chunkSegment_over (h : s.Over env) (samples : List α) :
    s.chunkSegment rnd rnd32 engine env samples =
      ({ s with failed := true }, .error (.error .cancelled)) := by
  rw [chunkSegment, if_pos (h.abortRequested .entry)]

theorem tryFinishStream_over (h : s.Over env) :
    s.tryFinishStream rnd rnd32 engine env =
      ({ s with failed := true }, .error (.error .cancelled)) := by
  rw [tryFinishStream, finishGuarded, if_pos (h.abortRequested .entry)]

theorem flushState_over (h : s.Over env) :
    s.flushState rnd rnd32 engine env = ({ s with failed := true },
      .ok (if s.assembler.isEmpty then none
        else some ({ s with failed := true }.streamPartial rnd rnd32 engine env))) := by
  rw [flushState, if_pos (h.abortRequested .flush)]

theorem finishStream_over (h : s.Over env) :
    s.finishStream rnd rnd32 engine env = ({ s with failed := true },
      .ok (if s.assembler.isEmpty then none
        else some ({ s with failed := true }.streamPartial rnd rnd32 engine env))) := by
  rw [finishStream, tryFinishStream_over rnd rnd32 engine h]
  exact flushState_over rnd rnd32 engine (.inl rfl)

theorem flushTruncated_over (h : s.Over env) :
    (s.flushTruncated rnd rnd32 engine env).1 = { s with failed := true } := by
  rw [flushTruncated, flushState_over rnd rnd32 engine h]
  cases s.assembler.isEmpty with
  | true => rfl
  | false => rfl

/-- Whatever is called, only the failure flag is set. -/
theorem build_over {c : Call α} (h : s.Over c.env) :
    (c.build rnd rnd32 engine s).1 = { s with failed := true } := by
  obtain ⟨request, env⟩ := c
  dsimp only at h
  cases request with
  | processChunk samples => simp only [Call.build, chunkSegment_over rnd rnd32 engine h]
  | tryFinishStream => simp only [Call.build, tryFinishStream_over rnd rnd32 engine h]
  | finishStream => simp only [Call.build, finishStream_over rnd rnd32 engine h]
  | flushState => simp only [Call.build, flushState_over rnd rnd32 engine h]
  | flushTruncated => exact flushTruncated_over rnd rnd32 engine h

theorem build_over_segment {c : Call α} (h : s.Over c.env) (hrequest : c.request ≠ .flushTruncated) :
    ∀ segment ∈ (c.build rnd rnd32 engine s).2,
      segment = { s with failed := true }.streamPartial rnd rnd32 engine c.env := by
  have hpartial : ∀ segment ∈ (if s.assembler.isEmpty then none
      else some ({ s with failed := true }.streamPartial rnd rnd32 engine c.env)),
        segment = { s with failed := true }.streamPartial rnd rnd32 engine c.env := by
    intro segment hsegment
    split_ifs at hsegment
    · cases hsegment
    · exact (Option.mem_some.mp hsegment).symm
  obtain ⟨request, env⟩ := c
  dsimp only at h hpartial ⊢
  cases request with
  | processChunk samples =>
      simp only [Call.build, chunkSegment_over rnd rnd32 engine h]
      exact nofun
  | tryFinishStream =>
      simp only [Call.build, tryFinishStream_over rnd rnd32 engine h]
      exact nofun
  | finishStream =>
      simp only [Call.build, finishStream_over rnd rnd32 engine h]
      exact hpartial
  | flushState =>
      simp only [Call.build, flushState_over rnd rnd32 engine h]
      exact hpartial
  | flushTruncated => exact absurd rfl hrequest

/-- Only a flush to the end still returns a final. -/
theorem returned_over {c : Call α} (h : s.Over c.env) (hrequest : c.request ≠ .flushTruncated) :
    ∀ segment ∈ c.returned rnd rnd32 engine s,
      segment.isFinal = false ∧ segment.committed = s.publicCommitted engine := by
  intro segment hsegment
  rw [returned_eq] at hsegment
  have hbuilt := Option.mem_toList.mp (List.mem_of_mem_filter hsegment)
  obtain ⟨hfinal, hcommitted, _⟩ :=
    streamPartial_spec rnd rnd32 engine c.env { s with failed := true }
  rw [build_over_segment rnd rnd32 engine h hrequest segment hbuilt]
  exact ⟨hfinal, hcommitted⟩

end Over

section Finished

variable {s t : StreamingState α} {env : Environment α}

/-- Decoding leaves the audio alone. -/
theorem decodeRest_audio (s : StreamingState α) :
    (s.decodeRest rnd engine env).1.audioBuffer = s.audioBuffer ∧
      (s.decodeRest rnd engine env).1.pendingSamples = s.pendingSamples := by
  unfold decodeRest decodeWindow
  dsimp only
  split_ifs
  · exact ⟨rfl, rfl⟩
  · exact ⟨rfl, rfl⟩
  · split
    · exact ⟨rfl, rfl⟩
    · exact ⟨rfl, rfl⟩
  · exact ⟨rfl, rfl⟩

theorem finalizeStreamSegment_ok {reason : EndpointReason} {segment : TranscriptSegment}
    (h : s.finalizeStreamSegment rnd rnd32 engine env reason = (t, .ok segment)) :
    t = { s with assembler := .new } := by
  unfold finalizeStreamSegment at h
  dsimp only at h
  cases htail : env.applyTextPostprocess (trimStart (s.streamPartial rnd rnd32 engine env).tentative)
      (s.itn.getD engine.itn) (s.punctuation.getD true) with
  | error stop =>
      rw [htail] at h
      cases h
  | ok tail =>
      rw [htail] at h
      exact (Prod.mk.inj h).1.symm

/-- A flush that does not fail leaves no text, and the audio alone. -/
theorem flushState_ok {segment : Option TranscriptSegment}
    (h : s.flushState rnd rnd32 engine env = (t, .ok segment)) (hfailed : t.failed = false) :
    t.assembler.isEmpty = true ∧ t.audioBuffer = s.audioBuffer ∧
      t.pendingSamples = s.pendingSamples := by
  unfold flushState at h
  by_cases habort : s.abortRequested env .flush = true
  · rw [if_pos habort] at h
    rw [← (Prod.mk.inj h).1] at hfailed
    cases hfailed
  rw [if_neg habort] at h
  by_cases hempty : s.assembler.isEmpty = true
  · rw [if_pos hempty] at h
    cases h
    exact ⟨hempty, rfl, rfl⟩
  rw [if_neg hempty] at h
  cases hfinal : s.finalizeStreamSegment rnd rnd32 engine env .stop with
  | mk u result =>
      rw [hfinal] at h
      cases result with
      | ok final =>
          cases h
          rw [finalizeStreamSegment_ok rnd rnd32 engine hfinal]
          exact ⟨rfl, rfl, rfl⟩
      | error stop =>
          cases stop with
          | panic => cases h
          | error e =>
              rw [← (Prod.mk.inj h).1] at hfailed
              cases hfailed

/-- Nothing is left to emit or to decode, and the window has slid. -/
structure Finished (s : StreamingState α) : Prop where
  closed : s.assembler.isEmpty = true
  decoded : nFft ≤ s.audioBuffer.length → s.pendingSamples = 0
  slid : nFft ≤ s.audioBuffer.length →
    s.audioBuffer.length ≤ streamLeftContextSamples ∧ s.contextSamples = s.audioBuffer.length

/-- The stages of a successful finish. -/
theorem finishGuarded_ok {segment : Option TranscriptSegment}
    (h : s.finishGuarded rnd rnd32 engine env = (t, .ok segment)) :
    ∃ u, u.failed = false ∧
      (s.decodeRest rnd engine env).1.flushState rnd rnd32 engine env = (u, .ok segment) ∧
      t = if nFft ≤ u.audioBuffer.length then { u with pendingSamples := 0 }.slideStreamingWindow
        else u := by
  unfold finishGuarded at h
  by_cases hentry : s.abortRequested env .entry = true
  · rw [if_pos hentry] at h
    cases h
  rw [if_neg hentry] at h
  generalize s.decodeRest rnd engine env = decoded at h ⊢
  obtain ⟨v, result⟩ := decoded
  cases result with
  | error stop => cases h
  | ok endpoint =>
      dsimp only at h ⊢
      by_cases hdecoded : v.abortRequested env .decoded = true
      · rw [if_pos hdecoded] at h
        cases h
      rw [if_neg hdecoded] at h
      generalize v.flushState rnd rnd32 engine env = flushed at h ⊢
      obtain ⟨u, flush⟩ := flushed
      cases flush with
      | error stop => cases h
      | ok built =>
          dsimp only at h
          split_ifs at h with hfailed hframe
          · cases h
          · cases h
            exact ⟨u, Bool.eq_false_iff.mpr hfailed, rfl, (if_pos hframe).symm⟩
          · cases h
            exact ⟨t, Bool.eq_false_iff.mpr hfailed, rfl, (if_neg hframe).symm⟩

theorem tryFinishStream_ok {segment : Option TranscriptSegment}
    (h : s.tryFinishStream rnd rnd32 engine env = (t, .ok segment)) :
    s.finishGuarded rnd rnd32 engine env = (t, .ok segment) := by
  unfold tryFinishStream at h
  generalize s.finishGuarded rnd rnd32 engine env = guarded at h ⊢
  obtain ⟨u, result⟩ := guarded
  cases result with
  | ok segment => exact h
  | error stop => cases h

theorem finished_tryFinishStream {segment : Option TranscriptSegment}
    (h : s.tryFinishStream rnd rnd32 engine env = (t, .ok segment)) :
    t.Finished ∧ (t.audioBuffer.length < nFft →
      t.audioBuffer = s.audioBuffer ∧ t.pendingSamples = s.pendingSamples) := by
  obtain ⟨u, hfailed, hflush, ht⟩ :=
    finishGuarded_ok rnd rnd32 engine (tryFinishStream_ok rnd rnd32 engine h)
  obtain ⟨hempty, haudio, hpending⟩ := flushState_ok rnd rnd32 engine hflush hfailed
  obtain ⟨hdecodedAudio, hdecodedPending⟩ := decodeRest_audio rnd engine s
  by_cases hframe : nFft ≤ u.audioBuffer.length
  · have hlength : ∀ v : StreamingState α, v.slideStreamingWindow.audioBuffer.length =
        min streamLeftContextSamples v.audioBuffer.length := by
      intro v
      rw [slideStreamingWindow, List.length_drop]
      omega
    have hcontext : nFft ≤ streamLeftContextSamples := by decide
    rw [if_pos hframe] at ht
    have ht' := hlength { u with pendingSamples := 0 }
    rw [← ht] at ht'
    refine ⟨⟨ht ▸ hempty, fun _ => ht ▸ rfl, fun _ => ⟨ht' ▸ Nat.min_le_left _ _, ?_⟩⟩, ?_⟩
    · rw [ht', ht]
      rfl
    · dsimp only at ht'
      omega
  · rw [if_neg hframe] at ht
    subst ht
    exact ⟨⟨hempty, fun hlong => absurd hlong hframe, fun hlong => absurd hlong hframe⟩,
      fun _ => ⟨haudio.trans hdecodedAudio, hpending.trans hdecodedPending⟩⟩

theorem Finished.failed (h : s.Finished) : { s with failed := true }.Finished :=
  ⟨h.closed, h.decoded, h.slid⟩

theorem Finished.slide (h : s.Finished) (hframe : nFft ≤ s.audioBuffer.length) :
    { s with pendingSamples := 0 }.slideStreamingWindow = s := by
  obtain ⟨hle, hcontext⟩ := h.slid hframe
  have hpending := h.decoded hframe
  obtain ⟨_, _, buffer, _, start, context, pending, _⟩ := s
  dsimp only at hle hcontext hpending hframe
  rw [slideStreamingWindow]
  dsimp only
  rw [Nat.min_eq_right hle, Nat.sub_self, List.drop_zero, Nat.add_zero, hcontext, hpending]

/-- Finishing again only sees the abort flag: the decoder and the post-processing are not asked. -/
theorem Finished.tryFinishStream (h : s.Finished) (env : Environment α) :
    s.tryFinishStream rnd rnd32 engine env =
      if s.abortRequested env .entry || s.abortRequested env .decoded || s.abortRequested env .flush
      then ({ s with failed := true }, .error (.error .cancelled))
      else (s, .ok none) := by
  have hrest : s.decodeRest rnd engine env = (s, .ok false) := by
    rw [decodeRest, if_neg]
    rintro ⟨hpending, hframe⟩
    rw [h.decoded hframe] at hpending
    exact absurd hpending (Nat.lt_irrefl 0)
  rw [StreamingState.tryFinishStream, finishGuarded, hrest]
  dsimp only
  rw [flushState]
  cases hentry : s.abortRequested env .entry with
  | true => rfl
  | false =>
      cases hdecoded : s.abortRequested env .decoded with
      | true => rfl
      | false =>
          cases hflush : s.abortRequested env .flush with
          | true => simp
          | false =>
              have hfailed : s.failed = false := by
                rw [abortRequested, Bool.or_eq_false_iff] at hentry
                exact hentry.1
              by_cases hframe : nFft ≤ s.audioBuffer.length
              · have hslide := h.slide hframe
                rw [hfailed] at hslide
                simp [h.closed, hfailed, hframe, hslide]
              · simp [h.closed, hfailed, hframe]

end Finished

end StreamingState

section Runs

open StreamingState

variable {α : Type} (rnd rnd32 : Rounding) (engine : Engine)

/-- The state that calls lead to. -/
def stateAfter (s : StreamingState α) (calls : List (Call α)) : StreamingState α :=
  calls.foldl (fun s c => (c.build rnd rnd32 engine s).1) s

variable {s : StreamingState α} {calls : List (Call α)}

theorem stateAfter_failed (hfailed : s.failed = true) : stateAfter rnd rnd32 engine s calls = s := by
  induction calls with
  | nil => rfl
  | cons c calls ih =>
      have hbuild : (c.build rnd rnd32 engine s).1 = s := by
        rw [build_over rnd rnd32 engine (.inl hfailed), ← hfailed]
      rw [stateAfter, List.foldl_cons, hbuild]
      exact ih

/-- From the first call on that finds the session over, only its failure flag may change. -/
theorem stateAfter_over
    (hover : s.failed = true ∨ ∀ c ∈ calls.head?, ∀ read, c.env.aborted read = true) :
    stateAfter rnd rnd32 engine s calls = if calls = [] then s else { s with failed := true } := by
  cases calls with
  | nil => rfl
  | cons c calls =>
      have hcall : s.Over c.env := hover.imp_right fun h => h c rfl
      rw [stateAfter, List.foldl_cons, build_over rnd rnd32 engine hcall,
        if_neg (List.cons_ne_nil c calls)]
      exact stateAfter_failed rnd rnd32 engine rfl

theorem finished_run (h : s.Finished) (hcalls : ∀ c ∈ calls, c.request = .tryFinishStream) :
    transcript rnd rnd32 engine s calls = [] ∧
      (stateAfter rnd rnd32 engine s calls = s ∨
        stateAfter rnd rnd32 engine s calls = { s with failed := true }) := by
  induction calls generalizing s with
  | nil => exact ⟨rfl, .inl rfl⟩
  | cons c calls ih =>
      obtain ⟨request, env⟩ := c
      obtain rfl : request = .tryFinishStream := hcalls _ List.mem_cons_self
      have hrest : ∀ c ∈ calls, c.request = .tryFinishStream :=
        fun c hc => hcalls c (List.mem_cons_of_mem _ hc)
      have hstep := h.tryFinishStream rnd rnd32 engine env
      rw [transcript, stateAfter, List.foldl_cons, Call.returned, Call.build]
      dsimp only
      split_ifs at hstep
      · rw [hstep]
        obtain ⟨hsilent, hstate⟩ := ih h.failed hrest
        exact ⟨hsilent, .inr (hstate.elim id id)⟩
      · rw [hstep]
        exact ih h hrest

/-- Calls on a session that has failed, or whose abort flag is set when the first of them comes, commit
nothing and return no final (the terminal flush apart); and after a successful finish, finishing again
and again decodes and returns nothing, and keeps what is too short to decode. -/
theorem failed_stays_failed (s : StreamingState α) (calls : List (Call α)) :
    ((s.failed = true ∨ ∀ c ∈ calls.head?, ∀ read, c.env.aborted read = true) →
      (stateAfter rnd rnd32 engine s calls).assembler = s.assembler ∧
      ∀ before c after, calls = before ++ c :: after → c.request ≠ .flushTruncated →
        ∀ segment ∈ c.returned rnd rnd32 engine (stateAfter rnd rnd32 engine s before),
          segment.isFinal = false ∧ segment.committed = s.publicCommitted engine) ∧
    (∀ env t segment, s.tryFinishStream rnd rnd32 engine env = (t, .ok segment) →
      (∀ c ∈ calls, c.request = .tryFinishStream) →
      let u := stateAfter rnd rnd32 engine t calls
      transcript rnd rnd32 engine t calls = [] ∧
      (u = t ∨ u = { t with failed := true }) ∧ t.assembler.isEmpty = true ∧
      ¬(0 < u.pendingSamples ∧ nFft ≤ u.audioBuffer.length) ∧
      (t.audioBuffer.length < nFft →
        u.audioBuffer = s.audioBuffer ∧ u.pendingSamples = s.pendingSamples)) := by
  refine ⟨fun hover => ⟨?_, ?_⟩, ?_⟩
  · rw [stateAfter_over rnd rnd32 engine hover]
    split_ifs
    · rfl
    · rfl
  · intro before c after hsplit hrequest
    cases before with
    | nil =>
        have hcall : s.Over c.env := hover.imp_right fun h => h c (by rw [hsplit]; rfl)
        exact returned_over rnd rnd32 engine hcall hrequest
    | cons first before =>
        have hfirst : s.failed = true ∨
            ∀ c ∈ (first :: before).head?, ∀ read, c.env.aborted read = true :=
          hover.imp_right fun h c hc => h c (by rw [hsplit]; exact hc)
        rw [stateAfter_over rnd rnd32 engine hfirst, if_neg (List.cons_ne_nil first before)]
        exact returned_over rnd rnd32 engine (.inl rfl) hrequest
  · intro env t segment hfinish hcalls u
    obtain ⟨hfinished, hkept⟩ := finished_tryFinishStream rnd rnd32 engine hfinish
    obtain ⟨hsilent, hstate⟩ := finished_run rnd rnd32 engine hfinished hcalls
    have haudio : u.audioBuffer = t.audioBuffer ∧ u.pendingSamples = t.pendingSamples := by
      rcases hstate with hu | hu
      · rw [show u = t from hu]
        exact ⟨rfl, rfl⟩
      · rw [show u = { t with failed := true } from hu]
        exact ⟨rfl, rfl⟩
    refine ⟨hsilent, hstate, hfinished.closed, ?_, ?_⟩
    · rintro ⟨hpending, hframe⟩
      rw [haudio.1] at hframe
      rw [haudio.2, hfinished.decoded hframe] at hpending
      exact absurd hpending (Nat.lt_irrefl 0)
    · intro hshort
      rw [haudio.1, haudio.2]
      exact hkept hshort

/-- A word, and less audio than can be decoded. -/
def shortTail (engine : Engine) : StreamingState Unit :=
  { (StreamingState.create engine).feed (List.replicate 100 ()) with
    assembler := TranscriptAssembler.new.setWords [⟨['д', 'а'], 0, 1, 1, none⟩] }

def quiet (aborted : Bool) : Environment Unit where
  aborted _ := aborted
  vadPush _ := .ok false
  runInference _ _ _ := .error .panic
  lastTurnSpeaker := none
  applyTextPostprocess text _ _ := .ok text
  now := 0

theorem failed_stays_failed_short_tail :
    let engine : Engine :=
      { vad := false, punctuator := false, itn := false, streamMaxWindowSamples := 400
        streamStablePrefix := false, endpointMode := .auto, endpointSilence := ⟨600⟩ }
    let s := shortTail engine
    let t := (s.tryFinishStream .exact .exact engine (quiet false)).1
    let calls : List (Call Unit) := [⟨.tryFinishStream, quiet true⟩, ⟨.tryFinishStream, quiet false⟩]
    (stateAfter .exact .exact engine s calls).assembler = s.assembler ∧
      transcript .exact .exact engine t calls = [] ∧
      (stateAfter .exact .exact engine t calls).pendingSamples = 100 := by
  intro engine s t calls
  obtain ⟨hover, hfinished⟩ := failed_stays_failed .exact .exact engine s calls
  obtain ⟨hsilent, _, _, _, htail⟩ := hfinished (quiet false) t _ rfl (by
    intro c hc
    rcases List.mem_pair.mp hc with rfl | rfl
    · rfl
    · rfl)
  refine ⟨(hover (.inr ?_)).1, hsilent, (htail (by decide)).2⟩
  intro c hc read
  obtain rfl := Option.mem_some.mp hc
  rfl

end Runs

end Gigastt
