import Gigastt.Stream

/-!
Committed text. Decoding and sliding only extend the committed prefix; a final contains what was
committed before it. Hence what a client has been told is committed stays, until its utterance ends.
-/

namespace Gigastt

section Assembler

theorem prefix_foldl_pushWord (text : Text) (words : List WordInfo) :
    text <+: words.foldl pushWord text := by
  induction words generalizing text with
  | nil => exact List.prefix_refl text
  | cons w words ih =>
      have hpush : text <+: pushWord text w := by
        unfold pushWord
        split
        · rename_i hempty
          rw [List.isEmpty_iff.mp hempty]
          exact List.nil_prefix
        · exact List.prefix_append ..
      exact hpush.trans (ih (pushWord text w))

namespace TranscriptAssembler

variable (a : TranscriptAssembler)

theorem prefix_commitLive : a.committedText <+: a.commitLive.committedText := by
  unfold commitLive
  split
  · exact List.prefix_refl _
  · dsimp only
    split
    · exact List.prefix_append ..
    · exact List.prefix_append ..

theorem prefix_commitPrefix (n : Nat) : a.committedText <+: (a.commitPrefix n).1.committedText := by
  unfold commitPrefix
  dsimp only
  split
  · exact List.prefix_refl _
  · exact prefix_foldl_pushWord ..

theorem prefix_fullText : a.committedText <+: a.fullText := by
  unfold fullText
  split
  · rename_i hempty
    rw [List.isEmpty_iff.mp hempty]
    exact List.nil_prefix
  · split
    · exact List.prefix_refl _
    · exact List.prefix_append ..

theorem partialSegment_text (rnd rnd32 : Rounding) (timestamp : ℚ) :
    (a.partialSegment rnd rnd32 timestamp).text =
      (a.partialSegment rnd rnd32 timestamp).committed ++
        (a.partialSegment rnd rnd32 timestamp).tentative :=
  (List.prefix_iff_eq_append.mp a.prefix_fullText).symm

end TranscriptAssembler

/-- A terminal final is all committed. -/
theorem TranscriptSegment.intoTruncatedFinal_spec {segment : TranscriptSegment}
    (h : segment.text = segment.committed ++ segment.tentative) :
    let final := segment.intoTruncatedFinal
    final.isFinal = true ∧ final.text = segment.text ∧ final.committed = segment.text ∧
      final.tentative = [] := by
  unfold intoTruncatedFinal
  cases htext : segment.text with
  | nil =>
      rw [htext] at h
      obtain ⟨hcommitted, htentative⟩ := List.append_eq_nil_iff.mp h.symm
      simp [htext, hcommitted, htentative]
  | cons c text => simp [htext]

end Assembler

namespace StreamingState

variable {α : Type}

structure SameSettings (s t : StreamingState α) : Prop where
  commitPolicy : t.commitPolicy = s.commitPolicy
  itn : t.itn = s.itn
  punctuation : t.punctuation = s.punctuation

theorem SameSettings.trans {s t u : StreamingState α} (hst : SameSettings s t)
    (htu : SameSettings t u) : SameSettings s u :=
  ⟨htu.1.trans hst.1, htu.2.trans hst.2, htu.3.trans hst.3⟩

/-- The utterance goes on, and nothing of its committed text is lost. -/
structure Extends (s t : StreamingState α) : Prop where
  settings : SameSettings s t
  committed : s.assembler.committedText <+: t.assembler.committedText

theorem Extends.trans {s t u : StreamingState α} (hst : Extends s t) (htu : Extends t u) :
    Extends s u :=
  ⟨hst.1.trans htu.1, hst.2.trans htu.2⟩

theorem Extends.refl (s : StreamingState α) : Extends s s :=
  ⟨⟨rfl, rfl, rfl⟩, List.prefix_refl _⟩

variable (rnd rnd32 : Rounding) (engine : Engine) (env : Environment α)

theorem SameSettings.resolved {s t : StreamingState α} (h : SameSettings s t) :
    t.resolvedCommitPolicy engine = s.resolvedCommitPolicy engine := by
  rw [resolvedCommitPolicy, resolvedCommitPolicy, h.commitPolicy, h.itn, h.punctuation]

/-- The committed text a partial shows. -/
def publicCommitted (s : StreamingState α) : Text :=
  if s.resolvedCommitPolicy engine = .onFinalize then [] else s.assembler.committedText

theorem Extends.publicCommitted {s t : StreamingState α} (h : Extends s t) :
    s.publicCommitted engine <+: t.publicCommitted engine := by
  rw [StreamingState.publicCommitted, StreamingState.publicCommitted, h.settings.resolved]
  split
  · exact List.prefix_refl _
  · exact h.committed

/-- A decode touches the live tail only. -/
theorem extends_decodeWindow (s : StreamingState α) :
    Extends s (s.decodeWindow rnd engine env).1 := by
  unfold decodeWindow
  dsimp only
  split
  · exact ⟨⟨rfl, rfl, rfl⟩, List.prefix_refl _⟩
  · split
    · exact Extends.refl s
    · split
      · exact Extends.refl s
      · refine ⟨⟨rfl, rfl, rfl⟩, ?_⟩
        unfold replaceTail
        dsimp only
        split
        · exact List.prefix_refl _
        · exact List.prefix_refl _

theorem extends_slideStreamingWindow (s : StreamingState α) : Extends s s.slideStreamingWindow :=
  ⟨⟨rfl, rfl, rfl⟩, List.prefix_refl _⟩

theorem extends_slideStreamingWindowAnchored {s t : StreamingState α} {firstLiveStart : Option ℚ}
    (h : s.slideStreamingWindowAnchored rnd firstLiveStart = some t) : Extends s t := by
  unfold slideStreamingWindowAnchored at h
  split at h
  · cases h
    exact Extends.refl s
  · dsimp only at h
    split at h
    · cases h
      exact Extends.refl s
    · split at h
      · cases h
      · obtain ⟨buffer, _, rfl⟩ := Option.map_eq_some_iff.mp h
        exact ⟨⟨rfl, rfl, rfl⟩, List.prefix_refl _⟩

theorem extends_capSlide {s t : StreamingState α} (h : s.capSlide rnd engine = some t) :
    Extends s t := by
  unfold capSlide at h
  split at h
  · have hcommit : Extends s (s.capCommitStablePrefix rnd).1 :=
      ⟨⟨rfl, rfl, rfl⟩, s.assembler.prefix_commitPrefix _⟩
    dsimp only at h
    split at h
    · exact hcommit.trans (extends_slideStreamingWindowAnchored rnd h)
    · split at h
      · cases h
        exact hcommit.trans (extends_slideStreamingWindow _)
      · cases h
        exact hcommit
  · cases h
    exact ⟨⟨rfl, rfl, rfl⟩, s.assembler.prefix_commitLive⟩

theorem streamPartial_spec (s : StreamingState α) :
    let segment := s.streamPartial rnd rnd32 engine env
    segment.isFinal = false ∧ segment.committed = s.publicCommitted engine ∧
      segment.text = segment.committed ++ segment.tentative := by
  unfold streamPartial publicCommitted
  dsimp only
  split
  · exact ⟨rfl, rfl, rfl⟩
  · exact ⟨rfl, rfl, s.assembler.partialSegment_text rnd rnd32 env.now⟩

/-- What a call may do: nothing visible, a partial of the text so far, or a final that contains what
was committed. -/
inductive Effect (s t : StreamingState α) : Option TranscriptSegment → Prop
  | silent (hextends : Extends s t) : Effect s t none
  | provisional {segment : TranscriptSegment} (hextends : Extends s t)
      (hfinal : segment.isFinal = false) (hcommitted : segment.committed = t.publicCommitted engine)
      (htext : segment.text = segment.committed ++ segment.tentative) : Effect s t (some segment)
  | final {segment : TranscriptSegment} (hsettings : SameSettings s t)
      (hfinal : segment.isFinal = true) (hcommitted : segment.committed = segment.text)
      (htentative : segment.tentative = []) (hbegins : s.publicCommitted engine <+: segment.text) :
      Effect s t (some segment)

variable {engine}

theorem Extends.effect {s t u : StreamingState α} {segment : Option TranscriptSegment}
    (hst : Extends s t) (htu : Effect engine t u segment) : Effect engine s u segment := by
  cases htu with
  | silent hextends => exact .silent (hst.trans hextends)
  | provisional hextends hfinal hcommitted htext =>
      exact .provisional (hst.trans hextends) hfinal hcommitted htext
  | final hsettings hfinal hcommitted htentative hbegins =>
      exact .final (hst.settings.trans hsettings) hfinal hcommitted htentative
        ((hst.publicCommitted engine).trans hbegins)

theorem Effect.extends_of_none {s t : StreamingState α} (h : Effect engine s t none) :
    Extends s t := by
  cases h with
  | silent hextends => exact hextends

variable (engine)

theorem effect_streamPartial {s t : StreamingState α} (h : Extends s t) :
    Effect engine s t (some (t.streamPartial rnd rnd32 engine env)) :=
  let ⟨hfinal, hcommitted, htext⟩ := streamPartial_spec rnd rnd32 engine env t
  .provisional h hfinal hcommitted htext

/-- Finalization fails and changes nothing, or builds a final on top of the committed text. -/
theorem finalizeStreamSegment_cases (s : StreamingState α) (reason : EndpointReason) :
    (∃ stop, s.finalizeStreamSegment rnd rnd32 engine env reason = (s, .error stop)) ∨
      ∃ t segment, s.finalizeStreamSegment rnd rnd32 engine env reason = (t, .ok segment) ∧
        t.failed = s.failed ∧ Effect engine s t (some segment) := by
  obtain ⟨_, hcommitted, _⟩ := streamPartial_spec rnd rnd32 engine env s
  unfold finalizeStreamSegment
  dsimp only
  split
  · exact .inl ⟨_, rfl⟩
  · refine .inr ⟨_, _, rfl, rfl, .final ⟨rfl, rfl, rfl⟩ rfl rfl rfl ?_⟩
    rw [← hcommitted]
    split
    · rename_i hempty
      rw [List.isEmpty_iff.mp hempty]
      exact List.nil_prefix
    · split
      · exact List.prefix_refl _
      · exact List.prefix_append ..

/-- Audio and counters may change after the segment is built. -/
theorem Effect.sameText {s t u : StreamingState α} {segment : Option TranscriptSegment}
    (h : Effect engine s t segment) (hsettings : SameSettings t u)
    (hassembler : u.assembler = t.assembler) : Effect engine s u segment := by
  have hextends : Extends t u := ⟨hsettings, by rw [hassembler]⟩
  have hpublic : u.publicCommitted engine = t.publicCommitted engine := by
    rw [StreamingState.publicCommitted, StreamingState.publicCommitted, hsettings.resolved,
      hassembler]
  cases h with
  | silent hst => exact .silent (hst.trans hextends)
  | provisional hst hfinal hcommitted htext =>
      exact .provisional (hst.trans hextends) hfinal (hcommitted.trans hpublic.symm) htext
  | final hst hfinal hcommitted htentative hbegins =>
      exact .final (hst.trans hsettings) hfinal hcommitted htentative hbegins

/-- A segment shows at least what was committed, and its text is all of its parts. -/
theorem Effect.segment {s t : StreamingState α} {segment : TranscriptSegment}
    (h : Effect engine s t (some segment)) :
    SameSettings s t ∧ segment.text = segment.committed ++ segment.tentative ∧
      s.publicCommitted engine <+: segment.committed := by
  cases h with
  | provisional hextends hfinal hcommitted htext =>
      exact ⟨hextends.settings, htext, hcommitted ▸ hextends.publicCommitted engine⟩
  | final hsettings hfinal hcommitted htentative hbegins =>
      exact ⟨hsettings, by rw [hcommitted, htentative, List.append_nil], hcommitted ▸ hbegins⟩

theorem effect_respond (s : StreamingState α) (endpoint vadEndpoint overCap : Bool) :
    Effect engine s (s.respond rnd rnd32 engine env endpoint vadEndpoint overCap).1
      (built (s.respond rnd rnd32 engine env endpoint vadEndpoint overCap).2) := by
  unfold respond
  dsimp only
  split
  · rcases finalizeStreamSegment_cases rnd rnd32 engine env s (if vadEndpoint then .vad else .blank)
      with ⟨stop, hfail⟩ | ⟨t, segment, hok, _, heffect⟩
    · rw [hfail]
      cases stop with
      | panic => exact .silent (Extends.refl s)
      | error e => exact .silent ⟨⟨rfl, rfl, rfl⟩, List.prefix_refl _⟩
    · rw [hok]
      exact heffect.sameText engine ⟨rfl, rfl, rfl⟩ rfl
  · have hslid : ∀ {t : StreamingState α}, (if overCap then s.capSlide rnd engine else some s) = some t →
        Extends s t := by
      intro t ht
      split at ht
      · exact extends_capSlide rnd engine ht
      · cases ht
        exact Extends.refl s
    split
    · exact .silent (Extends.refl s)
    · rename_i t ht
      split
      · exact .silent (hslid ht)
      · exact effect_streamPartial rnd rnd32 engine env (hslid ht)

/-- Only the failure flag is set. -/
theorem extends_fail (s : StreamingState α) : Extends s { s with failed := true } :=
  ⟨⟨rfl, rfl, rfl⟩, List.prefix_refl _⟩

theorem effect_decodeChunk (s : StreamingState α) (vadEndpoint overCap : Bool) :
    Effect engine s (s.decodeChunk rnd rnd32 engine env vadEndpoint overCap).1
      (built (s.decodeChunk rnd rnd32 engine env vadEndpoint overCap).2) := by
  have hdecode := extends_decodeWindow rnd engine env s
  unfold decodeChunk
  dsimp only
  generalize s.decodeWindow rnd engine env = decoded at hdecode ⊢
  obtain ⟨t, result⟩ := decoded
  dsimp only at hdecode ⊢
  split
  · exact .silent hdecode
  · split
    · exact .silent (hdecode.trans (extends_fail t))
    · split
      · exact .silent hdecode
      · have hreset : Extends t { t with pendingSamples := 0 } :=
          ⟨⟨rfl, rfl, rfl⟩, List.prefix_refl _⟩
        exact (hdecode.trans hreset).effect
          (effect_respond rnd rnd32 engine env _ _ vadEndpoint overCap)

theorem effect_chunkSegment (s : StreamingState α) (samples : List α) :
    Effect engine s (s.chunkSegment rnd rnd32 engine env samples).1
      (built (s.chunkSegment rnd rnd32 engine env samples).2) := by
  have hfeed : Extends s (s.feed samples) := ⟨⟨rfl, rfl, rfl⟩, List.prefix_refl _⟩
  unfold chunkSegment
  dsimp only
  split
  · exact .silent (extends_fail s)
  · split
    · exact .silent (Extends.refl s)
    · split
      · exact .silent hfeed
      · split
        · exact .silent hfeed
        · exact hfeed.effect (effect_decodeChunk ..)

/-- A flush without a segment leaves nothing to close; one that fails closes nothing. -/
theorem flushState_spec (s : StreamingState α) :
    Effect engine s (s.flushState rnd rnd32 engine env).1
        (built (s.flushState rnd rnd32 engine env).2) ∧
      ((s.flushState rnd rnd32 engine env).2 = .ok none →
        (s.flushState rnd rnd32 engine env).1.assembler.isEmpty = true) ∧
      ((s.flushState rnd rnd32 engine env).1.failed = true →
        Extends s (s.flushState rnd rnd32 engine env).1) := by
  unfold flushState
  dsimp only
  split
  · split
    · rename_i hempty
      exact ⟨.silent (extends_fail s), fun _ => hempty, fun _ => extends_fail s⟩
    · exact ⟨effect_streamPartial rnd rnd32 engine env (extends_fail s), nofun,
        fun _ => extends_fail s⟩
  · rename_i habort
    have hfailed : s.failed = false := by
      rw [abortRequested, Bool.or_eq_true, not_or] at habort
      exact Bool.eq_false_iff.mpr habort.1
    split
    · rename_i hempty
      exact ⟨.silent (Extends.refl s), fun _ => hempty, fun _ => Extends.refl s⟩
    · rcases finalizeStreamSegment_cases rnd rnd32 engine env s .stop with
        ⟨stop, hfail⟩ | ⟨t, segment, hok, hkept, heffect⟩
      · rw [hfail]
        cases stop with
        | panic => exact ⟨.silent (Extends.refl s), nofun, fun _ => Extends.refl s⟩
        | error e =>
            exact ⟨effect_streamPartial rnd rnd32 engine env (extends_fail s), nofun,
              fun _ => extends_fail s⟩
      · rw [hok]
        refine ⟨heffect, nofun, fun hset => ?_⟩
        exact absurd (hset.symm.trans (hkept.trans hfailed)) (by decide)

theorem effect_finishGuarded (s : StreamingState α) :
    Effect engine s (s.finishGuarded rnd rnd32 engine env).1
      (built (s.finishGuarded rnd rnd32 engine env).2) := by
  have hdecode : Extends s (s.decodeRest rnd engine env).1 := by
    unfold decodeRest
    split
    · exact extends_decodeWindow rnd engine env s
    · exact Extends.refl s
  unfold finishGuarded
  split
  · exact .silent (Extends.refl s)
  · generalize s.decodeRest rnd engine env = decoded at hdecode ⊢
    obtain ⟨t, result⟩ := decoded
    cases result with
    | error stop => exact .silent hdecode
    | ok endpoint =>
        dsimp only at hdecode ⊢
        split
        · exact .silent hdecode
        · obtain ⟨heffect, _, hfailed⟩ := flushState_spec rnd rnd32 engine env t
          generalize t.flushState rnd rnd32 engine env = flushed at heffect hfailed ⊢
          obtain ⟨u, segment⟩ := flushed
          cases segment with
          | error stop => exact hdecode.effect heffect
          | ok segment =>
              dsimp only at heffect hfailed ⊢
              split
              · rename_i hset
                exact .silent (hdecode.trans (hfailed hset))
              · split
                · exact (hdecode.effect heffect).sameText engine ⟨rfl, rfl, rfl⟩ rfl
                · exact hdecode.effect heffect

theorem effect_tryFinishStream (s : StreamingState α) :
    Effect engine s (s.tryFinishStream rnd rnd32 engine env).1
      (built (s.tryFinishStream rnd rnd32 engine env).2) := by
  have hguarded := effect_finishGuarded rnd rnd32 engine env s
  unfold tryFinishStream
  generalize s.finishGuarded rnd rnd32 engine env = guarded at hguarded ⊢
  obtain ⟨t, result⟩ := guarded
  cases result with
  | ok segment => exact hguarded
  | error stop => exact .silent (hguarded.extends_of_none.trans (extends_fail t))

theorem effect_finishStream (s : StreamingState α) :
    Effect engine s (s.finishStream rnd rnd32 engine env).1
      (built (s.finishStream rnd rnd32 engine env).2) := by
  have hfinish := effect_tryFinishStream rnd rnd32 engine env s
  unfold finishStream
  generalize s.tryFinishStream rnd rnd32 engine env = finished at hfinish ⊢
  obtain ⟨t, result⟩ := finished
  cases result with
  | ok segment => exact hfinish
  | error stop =>
      cases stop with
      | panic => exact hfinish
      | error e =>
          exact hfinish.extends_of_none.effect (flushState_spec rnd rnd32 engine env t).1

theorem effect_flushTruncated (s : StreamingState α) :
    Effect engine s (s.flushTruncated rnd rnd32 engine env).1
      (s.flushTruncated rnd rnd32 engine env).2.toOption := by
  obtain ⟨heffect, hempty, _⟩ := flushState_spec rnd rnd32 engine env s
  unfold flushTruncated
  generalize s.flushState rnd rnd32 engine env = flushed at heffect hempty ⊢
  obtain ⟨t, result⟩ := flushed
  cases result with
  | error stop => exact heffect
  | ok segment =>
      cases segment with
      | none =>
          have hextends := heffect.extends_of_none
          refine .final hextends.settings rfl rfl rfl ?_
          have hnil : t.publicCommitted engine = [] := by
            have hboth := hempty rfl
            rw [TranscriptAssembler.isEmpty, Bool.and_eq_true] at hboth
            rw [StreamingState.publicCommitted, List.isEmpty_iff.mp hboth.1, ite_self]
          have hpublic := hextends.publicCommitted engine
          rwa [hnil] at hpublic
      | some segment =>
          obtain ⟨hsettings, htext, hbegins⟩ := heffect.segment
          have hpart : segment.committed <+: segment.text :=
            List.prefix_iff_eq_append.mpr (by rw [htext, List.drop_left])
          obtain ⟨hfinal, hsame, hcommitted, htentative⟩ :=
            TranscriptSegment.intoTruncatedFinal_spec htext
          exact .final hsettings hfinal (hcommitted.trans hsame.symm) htentative
            (hsame ▸ hbegins.trans hpart)

theorem effect_call (c : Call α) (s : StreamingState α) :
    Effect engine s (c.build rnd rnd32 engine s).1 (c.build rnd rnd32 engine s).2 := by
  unfold Call.build
  split
  · exact effect_chunkSegment ..
  · exact effect_tryFinishStream ..
  · exact effect_finishStream ..
  · exact (flushState_spec ..).1
  · exact effect_flushTruncated ..

end StreamingState

section Trace

open StreamingState

variable {α : Type} (rnd rnd32 : Rounding) (engine : Engine)

theorem returned_eq (c : Call α) (s : StreamingState α) :
    c.returned rnd rnd32 engine s =
      ((c.build rnd rnd32 engine s).2.toList.filter c.shows) := by
  obtain ⟨request, env⟩ := c
  cases request with
  | processChunk samples =>
      unfold Call.returned Call.build processChunk built
      dsimp only
      cases (s.chunkSegment rnd rnd32 engine env samples).2 with
      | error stop => rfl
      | ok segment => rfl
  | tryFinishStream => exact (List.filter_eq_self.mpr fun _ _ => rfl).symm
  | finishStream => exact (List.filter_eq_self.mpr fun _ _ => rfl).symm
  | flushState => exact (List.filter_eq_self.mpr fun _ _ => rfl).symm
  | flushTruncated => exact (List.filter_eq_self.mpr fun _ _ => rfl).symm

/-- The client gets the shown part of the trace. -/
theorem transcript_eq (calls : List (Call α)) (s : StreamingState α) :
    transcript rnd rnd32 engine s calls =
      ((trace rnd rnd32 engine s calls).filter Emission.shown).map Emission.segment := by
  induction calls generalizing s with
  | nil => rfl
  | cons c calls ih =>
      rw [transcript, trace, returned_eq, ih]
      dsimp only
      rw [List.filter_append, List.map_append]
      apply congrArg (· ++ _)
      cases (c.build rnd rnd32 engine s).2 with
      | none => rfl
      | some segment =>
          cases hshown : c.shows segment with
          | true => simp [hshown]
          | false => simp [hshown]

/-- What is committed shows in every segment up to the end of the utterance. -/
theorem publicCommitted_prefix {calls : List (Call α)} {s : StreamingState α}
    {front back : List Emission} {y : Emission}
    (htrace : trace rnd rnd32 engine s calls = front ++ y :: back)
    (hopen : ∀ z ∈ front, z.segment.isFinal = false) :
    s.publicCommitted engine <+: y.segment.committed := by
  induction calls generalizing s front with
  | nil => exact absurd htrace.symm (by simp [trace])
  | cons c calls ih =>
      have heffect := effect_call rnd rnd32 engine c s
      rw [trace] at htrace
      dsimp only at htrace
      generalize c.build rnd rnd32 engine s = result at heffect htrace
      obtain ⟨t, segment⟩ := result
      dsimp only at heffect htrace
      cases segment with
      | none => exact (heffect.extends_of_none.publicCommitted engine).trans (ih htrace hopen)
      | some segment =>
          cases front with
          | nil =>
              obtain ⟨rfl, _⟩ := List.cons_eq_cons.mp htrace
              exact (heffect.segment).2.2
          | cons x front =>
              obtain ⟨rfl, hrest⟩ := List.cons_eq_cons.mp htrace
              have hpartial := hopen _ List.mem_cons_self
              cases heffect with
              | provisional hextends =>
                  exact (hextends.publicCommitted engine).trans
                    (ih hrest fun z hz => hopen z (List.mem_cons_of_mem _ hz))
              | final hsettings hfinal => exact absurd (hfinal.symm.trans hpartial) (by decide)

/-- A segment of a session that was in state `s` once and is in state `t` after it. -/
structure EmittedAt (s t : StreamingState α) (segment : TranscriptSegment) : Prop where
  settings : SameSettings s t
  text : segment.text = segment.committed ++ segment.tentative
  final : segment.isFinal = true → segment.committed = segment.text
  provisional : segment.isFinal = false → segment.committed = t.publicCommitted engine

variable {engine} in
theorem emittedAt {s t : StreamingState α} {segment : TranscriptSegment}
    (h : Effect engine s t (some segment)) : EmittedAt engine s t segment := by
  obtain ⟨hsettings, htext, _⟩ := h.segment
  cases h with
  | provisional _ hpartial hcommitted =>
      exact ⟨hsettings, htext, fun hfinal => absurd (hfinal.symm.trans hpartial) (by decide),
        fun _ => hcommitted⟩
  | final _ hfinal hcommitted =>
      exact ⟨hsettings, htext, fun _ => hcommitted,
        fun hpartial => absurd (hfinal.symm.trans hpartial) (by decide)⟩

/-- The segments after one come from the state it is emitted at. -/
theorem trace_after {calls : List (Call α)} {s : StreamingState α} {front back : List Emission}
    {x : Emission} (htrace : trace rnd rnd32 engine s calls = front ++ x :: back) :
    ∃ t rest, back = trace rnd rnd32 engine t rest ∧ EmittedAt engine s t x.segment := by
  induction calls generalizing s front with
  | nil => exact absurd htrace.symm (by simp [trace])
  | cons c calls ih =>
      have heffect := effect_call rnd rnd32 engine c s
      rw [trace] at htrace
      dsimp only at htrace
      generalize c.build rnd rnd32 engine s = result at heffect htrace
      obtain ⟨t, segment⟩ := result
      dsimp only at heffect htrace
      cases segment with
      | none =>
          obtain ⟨u, rest, hback, hat⟩ := ih htrace
          exact ⟨u, rest, hback, { hat with settings := heffect.extends_of_none.settings.trans hat.settings }⟩
      | some segment =>
          cases front with
          | nil =>
              obtain ⟨rfl, hrest⟩ := List.cons_eq_cons.mp htrace
              exact ⟨t, calls, hrest.symm, emittedAt heffect⟩
          | cons first front =>
              obtain ⟨u, rest, hback, hat⟩ := ih (List.cons_eq_cons.mp htrace).2
              exact ⟨u, rest, hback, { hat with settings := heffect.segment.1.trans hat.settings }⟩

/-- Any calls on a session, with any outcomes of decoding, endpoint detection, post-processing and
abort reads. Every segment is its committed and its tentative text; within an utterance, which a
final ends, committed text is a prefix of the committed text of each later segment and of the final
text; with commitment deferred partials have none. The client gets the shown segments. -/
theorem committed_immutable (s : StreamingState α) (calls : List (Call α)) :
    let emissions := trace rnd rnd32 engine s calls
    transcript rnd rnd32 engine s calls =
        (emissions.filter Emission.shown).map Emission.segment ∧
      (∀ e ∈ emissions, e.segment.text = e.segment.committed ++ e.segment.tentative) ∧
      (∀ front x mid y back, emissions = front ++ x :: mid ++ y :: back →
        (∀ z ∈ x :: mid, z.segment.isFinal = false) →
          x.segment.committed <+: y.segment.committed ∧
            (y.segment.isFinal = true → x.segment.committed <+: y.segment.text)) ∧
      (s.resolvedCommitPolicy engine = .onFinalize →
        ∀ e ∈ emissions, e.segment.isFinal = false → e.segment.committed = []) := by
  intro emissions
  refine ⟨transcript_eq rnd rnd32 engine calls s, ?_, ?_, ?_⟩
  · intro e he
    obtain ⟨front, back, hsplit⟩ := List.append_of_mem he
    obtain ⟨_, _, _, hat⟩ := trace_after rnd rnd32 engine hsplit
    exact hat.text
  · intro front x mid y back hsplit hopen
    rw [List.append_assoc, List.cons_append] at hsplit
    obtain ⟨t, rest, hback, hat⟩ := trace_after rnd rnd32 engine hsplit
    have hbegins : x.segment.committed <+: y.segment.committed := by
      rw [hat.provisional (hopen x List.mem_cons_self)]
      exact publicCommitted_prefix rnd rnd32 engine hback.symm
        fun z hz => hopen z (List.mem_cons_of_mem _ hz)
    refine ⟨hbegins, fun hfinal => ?_⟩
    have hsplit_y : emissions = (front ++ x :: mid) ++ y :: back := by
      rw [hsplit, List.append_assoc, List.cons_append]
    obtain ⟨_, _, _, hat_y⟩ := trace_after rnd rnd32 engine hsplit_y
    rw [← hat_y.final hfinal]
    exact hbegins
  · intro hpolicy e he hpartial
    obtain ⟨front, back, hsplit⟩ := List.append_of_mem he
    obtain ⟨t, _, _, hat⟩ := trace_after rnd rnd32 engine hsplit
    rw [hat.provisional hpartial, publicCommitted, hat.settings.resolved, if_pos hpolicy]

/-- The window cap commits two words in turn, and the end of the stream closes the utterance. -/
example :
    let engine : Engine :=
      { vad := false, punctuator := false, itn := false, streamMaxWindowSamples := 400
        streamStablePrefix := false, endpointMode := .auto, endpointSilence := ⟨600⟩ }
    let hears := fun (word : Text) (start : ℚ) =>
      ({ aborted := fun _ => false
         vadPush := fun _ => .ok false
         runInference := fun _ _ _ => .ok ⟨[⟨word, start, start + 1, 1, none⟩], false, 0⟩
         lastTurnSpeaker := none
         applyTextPostprocess := fun text _ _ => .ok text
         now := 0 } : Environment Unit)
    (transcript .exact .exact engine (.create engine)
      [⟨.processChunk (List.replicate 400 ()), hears ['д', 'а'] 0⟩,
        ⟨.processChunk (List.replicate 100 ()), hears ['н', 'у'] 1⟩,
        ⟨.tryFinishStream, hears [] 0⟩]).map
      (fun segment => (segment.isFinal, segment.committed, segment.tentative)) =
    [(false, ['д', 'а'], []), (false, ['д', 'а', ' ', 'н', 'у'], []),
      (true, ['д', 'а', ' ', 'н', 'у'], [])] := by
  decide +kernel

end Trace

end Gigastt
