import Gigastt.GreedyCache
import Gigastt.CtcExact

/-!
The picks of a greedy decode, frame by frame, and what the blank counter and the endpoint flag come
to at its end.
-/

namespace Gigastt

namespace Greedy

variable {F S : Type}

section Cached

variable {d : Decode F S} {l m : Loop F S}

theorem cachedPrediction_eq_ok (h : cachedPrediction d l = .ok m) :
    ∃ out valid, m = { l with decoderOut := out, cacheValid := valid } := by
  unfold cachedPrediction at h
  split_ifs at h
  · cases h
    exact ⟨_, _, rfl⟩
  · obtain ⟨out, _, rfl⟩ := decodeStep_eq_ok h
    exact ⟨out, true, rfl⟩

end Cached

/-- A picked token, with the logits it was picked from and the tokens emitted before it. -/
structure Pick (F : Type) where
  emitted : List (TokenInfo F)
  logits : List F
  token : Nat

/-- The frame ended in a blank, not at the token cap. -/
def EndedInBlank (blankId : Nat) (picks : List (Pick F)) : Prop :=
  picks.getLast?.map Pick.token = some blankId

instance (blankId : Nat) (picks : List (Pick F)) : Decidable (EndedInBlank blankId picks) :=
  inferInstanceAs (Decidable (picks.getLast?.map Pick.token = some blankId))

theorem endedInBlank_cons {blankId : Nat} {pick : Pick F} {picks : List (Pick F)}
    (hpick : pick.token ≠ blankId) :
    EndedInBlank blankId (pick :: picks) ↔ EndedInBlank blankId picks := by
  unfold EndedInBlank
  rw [List.getLast?_cons]
  cases picks.getLast? with
  | none => simp [hpick]
  | some last => rfl

section Settled

/-- The counter, the flag and the tokens after `n` frames. -/
structure Settled (d : Decode F S) (state : DecoderState F) (n : Nat) (l : Loop F S)
    (frames : List (Nat × List (Pick F))) : Prop where
  frames_eq : frames.map Prod.fst = List.range n
  threshold : l.state.endpointBlankThreshold = state.endpointBlankThreshold
  before : ∀ info ∈ l.tokens, info.frameIndex < n
  quiet : l.tokens = [] → l.state.consecutiveBlanks = state.consecutiveBlanks + n
  since : ∀ last, l.tokens.getLast? = some last → l.state.consecutiveBlanks =
    frames.countP fun x => last.frameIndex ≤ x.1 ∧ EndedInBlank d.blankId x.2
  endpoint : l.endpointDetected = true ↔
    l.tokens ≠ [] ∧ state.endpointBlankThreshold ≤ l.state.consecutiveBlanks

variable {d : Decode F S} {l r : Loop F S} {state : DecoderState F} {n : Nat}
  {frames : List (Nat × List (Pick F))} {picks : List (Pick F)}

/-- No frame so far counts from frame `n` on. -/
theorem Settled.countP_eq_zero (h : Settled d state n l frames) :
    frames.countP (fun x => n ≤ x.1 ∧ EndedInBlank d.blankId x.2) = 0 := by
  apply List.countP_eq_zero.mpr
  intro x hx
  have hmem := List.mem_map_of_mem (f := Prod.fst) hx
  rw [h.frames_eq, List.mem_range] at hmem
  simp only [decide_eq_true_eq, not_and]
  exact fun hle => absurd hmem (Nat.not_lt_of_le hle)

theorem countP_concat (last : Nat) (hle : last ≤ n) :
    (frames ++ [(n, picks)]).countP (fun x => last ≤ x.1 ∧ EndedInBlank d.blankId x.2) =
      frames.countP (fun x => last ≤ x.1 ∧ EndedInBlank d.blankId x.2) +
        if EndedInBlank d.blankId picks then 1 else 0 := by
  rw [List.countP_append, List.countP_singleton]
  simp [hle]

theorem settled_initial (d : Decode F S) (state : DecoderState F) (joiner : S) :
    Settled d state 0 (initial d state joiner) [] :=
  ⟨rfl, rfl, nofun, fun _ => rfl, nofun, by simp [initial]⟩

/-- What a frame that began with `l` leaves: it ended in a blank, or at the cap after tokens of its
own. -/
structure FrameEnd (d : Decode F S) (t : Nat) (l r : Loop F S) (picks : List (Pick F)) : Prop where
  threshold : r.state.endpointBlankThreshold = l.state.endpointBlankThreshold
  ended : ∃ new, r.tokens = l.tokens ++ new ∧ (∀ info ∈ new, info.frameIndex = t) ∧
    ((EndedInBlank d.blankId picks ∧
        r.state.consecutiveBlanks =
          (if new = [] then l.state.consecutiveBlanks else 0) + 1 ∧
        r.endpointDetected =
          if l.state.endpointBlankThreshold ≤ r.state.consecutiveBlanks ∧ r.tokens ≠ [] then true
          else if new = [] then l.endpointDetected else false) ∨
      (¬EndedInBlank d.blankId picks ∧ new ≠ [] ∧ r.state.consecutiveBlanks = 0 ∧
        r.endpointDetected = false))

theorem Settled.frames_concat (h : Settled d state n l frames) (picks : List (Pick F)) :
    (frames ++ [(n, picks)]).map Prod.fst = List.range (n + 1) := by
  rw [List.map_append, h.frames_eq, List.range_succ]
  rfl

theorem Settled.before_concat (h : Settled d state n l frames) {new : List (TokenInfo F)}
    (hnew : ∀ info ∈ new, info.frameIndex = n) :
    ∀ info ∈ l.tokens ++ new, info.frameIndex < n + 1 := by
  intro info hinfo
  rcases List.mem_append.mp hinfo with hinfo | hinfo
  · exact (h.before info hinfo).trans (Nat.lt_succ_self n)
  · rw [hnew info hinfo]
    exact Nat.lt_succ_self n

/-- After a token of this frame, only the blank at the end of the frame counts. -/
theorem Settled.since_concat (h : Settled d state n l frames) {init : List (TokenInfo F)}
    {last last' : TokenInfo F} (hlast : last.frameIndex = n)
    (hlast' : (l.tokens ++ (init ++ [last])).getLast? = some last') :
    (frames ++ [(n, picks)]).countP
        (fun x => last'.frameIndex ≤ x.1 ∧ EndedInBlank d.blankId x.2) =
      if EndedInBlank d.blankId picks then 1 else 0 := by
  rw [← List.append_assoc, List.getLast?_concat] at hlast'
  cases hlast'
  rw [hlast, countP_concat _ (Nat.le_refl n), h.countP_eq_zero, Nat.zero_add]

/-- A frame settles after the ones before it. -/
theorem Settled.frame (h : Settled d state n l frames)
    (hthreshold : 1 ≤ state.endpointBlankThreshold) (hend : FrameEnd d n l r picks) :
    Settled d state (n + 1) r (frames ++ [(n, picks)]) := by
  obtain ⟨hsame, new, htokens, hnew, hended⟩ := hend
  have hframes := h.frames_concat picks
  have hbefore : ∀ info ∈ r.tokens, info.frameIndex < n + 1 := htokens ▸ h.before_concat hnew
  rw [h.threshold] at hsame hended
  by_cases hnil : new = []
  · -- nothing emitted: the frame ended in a blank
    rcases hended with ⟨hblank, hcount, hflag⟩ | ⟨_, hne, _⟩
    · subst hnil
      rw [List.append_nil] at htokens
      rw [if_pos rfl] at hcount hflag
      refine ⟨hframes, hsame, hbefore, ?_, ?_, ?_⟩
      · intro hquiet
        rw [hcount, h.quiet (htokens ▸ hquiet)]
        omega
      · intro last hlast
        rw [htokens] at hlast
        have hle := (h.before last (List.mem_of_getLast? hlast)).le
        rw [countP_concat _ hle, if_pos hblank, ← h.since last hlast, hcount]
      · rw [hflag]
        have hflag' := h.endpoint
        rw [← htokens] at hflag'
        split_ifs with hreached
        · exact iff_of_true rfl ⟨hreached.2, hreached.1⟩
        · rw [hflag']
          constructor
          · rintro ⟨hne, hle⟩
            exact ⟨hne, by omega⟩
          · rintro ⟨hne, hle⟩
            exact absurd ⟨hle, hne⟩ hreached
    · exact absurd hnil hne
  · -- the last token is of this frame
    obtain ⟨init, last, rfl⟩ : ∃ init last, new = init ++ [last] := by
      rcases List.eq_nil_or_concat new with hn | ⟨init, last, hn⟩
      · exact absurd hn hnil
      · exact ⟨init, last, hn.trans List.concat_eq_append⟩
    have hlast : last.frameIndex = n := hnew last (by simp)
    have hne : r.tokens ≠ [] := by
      rw [htokens]
      simp
    rcases hended with ⟨hblank, hcount, hflag⟩ | ⟨hblank, _, hcount, hflag⟩
    · rw [if_neg hnil] at hcount hflag
      refine ⟨hframes, hsame, hbefore, fun hquiet => absurd hquiet hne, ?_, ?_⟩
      · intro last' hlast'
        rw [h.since_concat hlast (htokens ▸ hlast'), if_pos hblank, hcount]
      · rw [hflag, hcount]
        split_ifs with hreached
        · exact iff_of_true rfl ⟨hreached.2, hreached.1⟩
        · exact iff_of_false not_false fun hand => hreached ⟨hand.2, hand.1⟩
    · refine ⟨hframes, hsame, hbefore, fun hquiet => absurd hquiet hne, ?_, ?_⟩
      · intro last' hlast'
        rw [h.since_concat hlast (htokens ▸ hlast'), if_neg hblank, hcount]
      · rw [hflag, hcount]
        exact iff_of_false Bool.false_ne_true fun hand => by omega

end Settled

variable [SingleArith F]

/-- The pick of one run of the inner loop, unless the run stops before it. -/
def pick? (d : Decode F S) (encFrame : List F) (l : Loop F S) : Option (Pick F) :=
  if pollAbort d l then none
  else
    match cachedPrediction d { l with polls := l.polls + 1 } with
    | .error _ => none
    | .ok l =>
        match d.backend.joinerStep l.joiner encFrame l.decoderOut.decData with
        | .error _ => none
        | .ok (logits, _) =>
            some { emitted := l.tokens, logits
                   token := (selectToken logits d.blankId d.biaser l.biasState l.biasOverrides).1 }

/-- The runs of the inner loop of frame `t`. -/
def innerRuns (d : Decode F S) (encoded : List F) (t : Nat) (l : Loop F S) :
    List (Nat × Loop F S) :=
  Loops.runs (fun (_ : Nat) =>
      iteration d (cachedPrediction d) t (extractEncoderFrame encoded d.encodedLen t))
    (List.range (maxTokensPerStep + 1)) { l with tokensThisStep := 0, biasOverrides := 0 }

/-- The picks of some runs of the inner loop. -/
def picksOf (d : Decode F S) (encFrame : List F) (runs : List (Nat × Loop F S)) : List (Pick F) :=
  runs.filterMap fun x => pick? d encFrame x.2

def framePicks (d : Decode F S) (encoded : List F) (t : Nat) (l : Loop F S) : List (Pick F) :=
  picksOf d (extractEncoderFrame encoded d.encodedLen t) (innerRuns d encoded t l)

/-- The frames of a decode with their picks. -/
def decodePicks (d : Decode F S) (encoded : TensorData F) (state : DecoderState F) (joiner : S) :
    List (Nat × List (Pick F)) :=
  match encoded with
  | .f32 values =>
      if encDim * d.encodedLen ≤ values.length then
        (Loops.runs (frame d (cachedPrediction d) values) (List.range d.encodedLen)
          (initial d state joiner)).map fun x => (x.1, framePicks d values x.1 x.2)
      else []
  | _ => []

variable {d : Decode F S} {t : Nat} {encFrame logits : List F} {l m : Loop F S} {token : Nat}

theorem picksOf_cons_some {pick : Pick F} (h : pick? d encFrame l = some pick) (u : Nat)
    (runs : List (Nat × Loop F S)) :
    picksOf d encFrame ((u, l) :: runs) = pick :: picksOf d encFrame runs :=
  List.filterMap_cons_some h

theorem picksOf_cons_none (h : pick? d encFrame l = none) (u : Nat)
    (runs : List (Nat × Loop F S)) :
    picksOf d encFrame ((u, l) :: runs) = picksOf d encFrame runs :=
  List.filterMap_cons_none h

/-- The loop when a pick is classified. -/
structure Ready (d : Decode F S) (l : Loop F S) (pick : Pick F) (m : Loop F S) : Prop where
  emitted : pick.emitted = l.tokens
  token_eq : pick.token =
    (selectToken pick.logits d.blankId d.biaser l.biasState l.biasOverrides).1
  tokens : m.tokens = l.tokens
  count : m.tokensThisStep = l.tokensThisStep
  state : m.state = l.state
  endpoint : m.endpointDetected = l.endpointDetected
  biasState : m.biasState = l.biasState
  overrides : m.biasOverrides =
    if (selectToken pick.logits d.blankId d.biaser l.biasState l.biasOverrides).2 then
      l.biasOverrides + 1
    else l.biasOverrides

/-- A run of the inner loop stops before its pick, or classifies it. -/
theorem iteration_cases (d : Decode F S) (t : Nat) (encFrame : List F) (l : Loop F S) :
    (pick? d encFrame l = none ∧
      (iteration d (cachedPrediction d) t encFrame l).1.tokens = l.tokens ∧
      (iteration d (cachedPrediction d) t encFrame l).1.biasState = l.biasState ∧
      ∃ how, (iteration d (cachedPrediction d) t encFrame l).2 = some (.stop how)) ∨
    ∃ pick m, pick? d encFrame l = some pick ∧ Ready d l pick m ∧
      iteration d (cachedPrediction d) t encFrame l =
        classifyToken d t pick.logits pick.token m := by
  unfold pick? iteration step
  by_cases habort : pollAbort d l
  · rw [if_pos habort, if_pos habort]
    exact Or.inl ⟨rfl, rfl, rfl, _, rfl⟩
  rw [if_neg habort, if_neg habort]
  cases hpredict : cachedPrediction d { l with polls := l.polls + 1 } with
  | error error => exact Or.inl ⟨rfl, rfl, rfl, _, rfl⟩
  | ok m =>
      obtain ⟨out, valid, rfl⟩ := cachedPrediction_eq_ok hpredict
      dsimp only
      cases hjoin : d.backend.joinerStep l.joiner encFrame out.decData with
      | error message => exact Or.inl ⟨rfl, rfl, rfl, _, rfl⟩
      | ok r =>
          obtain ⟨logits, joiner⟩ := r
          refine Or.inr ⟨_, _, rfl, ?_, rfl⟩
          exact ⟨rfl, rfl, rfl, rfl, rfl, rfl, rfl, rfl⟩

/-- What an emitted token does to the loop. -/
structure Emits (d : Decode F S) (t : Nat) (logits : List F) (token : Nat) (m n : Loop F S) :
    Prop where
  tokens : n.tokens = m.tokens ++
    [{ tokenId := token, frameIndex := t, confidence := Logits.tokenConfidence logits token }]
  count : n.tokensThisStep = m.tokensThisStep + 1
  blanks : n.state.consecutiveBlanks = 0
  threshold : n.state.endpointBlankThreshold = m.state.endpointBlankThreshold
  endpoint : n.endpointDetected = false
  biasState : ∀ b bs, d.biaser = some b → m.biasState = some bs →
    n.biasState = some (b.advance bs token)
  unbiased : d.biaser = none → n.biasState = m.biasState
  overrides : n.biasOverrides = m.biasOverrides

/-- The three branches; a token that is emitted may fail to be committed. -/
theorem classifyToken_cases (d : Decode F S) (t : Nat) (logits : List F) (token : Nat)
    (m : Loop F S) :
    (token = d.blankId ∧ classifyToken d t logits token m = (onBlank m, some .nextFrame)) ∨
    (token ≠ d.blankId ∧ maxTokensPerStep ≤ m.tokensThisStep ∧
      classifyToken d t logits token m = (onTokenCap m, some .nextFrame)) ∨
    (token ≠ d.blankId ∧
      (classifyToken d t logits token m).1.tokens = m.tokens ∧
      (classifyToken d t logits token m).1.biasState = m.biasState ∧
      ∃ error, (classifyToken d t logits token m).2 = some (.stop (.failed error))) ∨
    (token ≠ d.blankId ∧ (classifyToken d t logits token m).2 = none ∧
      Emits d t logits token m (classifyToken d t logits token m).1) := by
  unfold classifyToken
  by_cases hblank : token = d.blankId
  · rw [if_pos hblank]
    exact Or.inl ⟨hblank, rfl⟩
  rw [if_neg hblank]
  by_cases hcap : maxTokensPerStep ≤ m.tokensThisStep
  · rw [if_pos hcap]
    exact Or.inr (Or.inl ⟨hblank, hcap, rfl⟩)
  rw [if_neg hcap]
  unfold onToken commitNonBlank
  by_cases hshape : m.decoderOut.newH.length = predHidden ∧ m.decoderOut.newC.length = predHidden
  · simp only [dif_pos hshape]
    refine Or.inr (Or.inr (Or.inr ⟨hblank, ?_⟩))
    cases hbiaser : d.biaser with
    | none =>
        exact ⟨rfl, rfl, rfl, rfl, rfl, rfl, fun b _ hb => by simp [hbiaser] at hb, fun _ => rfl, rfl⟩
    | some b =>
        cases hbias : m.biasState with
        | none =>
            exact ⟨rfl, rfl, rfl, rfl, rfl, rfl, fun _ bs _ hbs => by simp [hbias] at hbs,
              fun hnone => by simp [hbiaser] at hnone, rfl⟩
        | some bs =>
            refine ⟨rfl, rfl, rfl, rfl, rfl, rfl, ?_, fun hnone => by simp [hbiaser] at hnone, rfl⟩
            intro b' bs' hb' hbs'
            rw [hbiaser, Option.some.injEq] at hb'
            rw [hbias, Option.some.injEq] at hbs'
            rw [hb', hbs']
  · simp only [dif_neg hshape]
    exact Or.inr (Or.inr (Or.inl ⟨hblank, trivial, trivial, _, rfl⟩))

section Frame

/-- Inside frame `t` that began with `l`: the tokens it has emitted, and what they reset. -/
structure Within (t : Nat) (l s : Loop F S) (new : List (TokenInfo F)) : Prop where
  tokens : s.tokens = l.tokens ++ new
  frame : ∀ info ∈ new, info.frameIndex = t
  blanks : s.state.consecutiveBlanks = if new = [] then l.state.consecutiveBlanks else 0
  endpoint : s.endpointDetected = if new = [] then l.endpointDetected else false
  threshold : s.state.endpointBlankThreshold = l.state.endpointBlankThreshold
  count : s.tokensThisStep = new.length

/-- An emitted token stays within the frame. -/
theorem Within.emits {s n : Loop F S} {new : List (TokenInfo F)} (h : Within t l s new)
    {pick : Pick F} (hready : Ready d s pick m) (hemits : Emits d t logits token m n) :
    Within t l n (new ++ [⟨token, t, Logits.tokenConfidence logits token⟩]) := by
  have hne : ∀ info : TokenInfo F, new ++ [info] ≠ [] := fun info => by simp
  refine ⟨?_, ?_, ?_, ?_, ?_, ?_⟩
  · rw [hemits.tokens, hready.tokens, h.tokens, List.append_assoc]
  · intro info hinfo
    rcases List.mem_append.mp hinfo with hinfo | hinfo
    · exact h.frame info hinfo
    · rw [List.mem_singleton.mp hinfo]
  · rw [hemits.blanks, if_neg (hne _)]
  · rw [hemits.endpoint, if_neg (hne _)]
  · rw [hemits.threshold, hready.state, h.threshold]
  · rw [hemits.count, hready.count, h.count, List.length_append, List.length_singleton]

/-- A frame that is not left early ends in a blank or at the cap. -/
theorem frameEnd_of_runs {body : Nat → Loop F S → Loop F S × Option Leave}
    (hbody : ∀ u s, body u s = iteration d (cachedPrediction d) t encFrame s) {us : List Nat}
    {s : Loop F S} {new : List (TokenInfo F)} (h : Within t l s new)
    (hleave : (Loops.forEach body us s).2 = some .nextFrame) :
    FrameEnd d t l (Loops.forEach body us s).1
      (picksOf d encFrame (Loops.runs body us s)) := by
  induction us generalizing s new with
  | nil => cases hleave
  | cons u us ih =>
      have hcases := iteration_cases d t encFrame s
      rw [← hbody u s] at hcases
      rcases hcases with ⟨_, _, _, how, hstop⟩ | ⟨pick, m, hpick, hready, hiteration⟩
      · have hleft : (body u s).2 ≠ none := hstop ▸ Option.some_ne_none _
        rw [Loops.forEach_cons_leave hleft, hstop] at hleave
        cases hleave
      have hsame := hready.state
      rcases classifyToken_cases d t pick.logits pick.token m with
        ⟨hblank, heq⟩ | ⟨hblank, hcap, heq⟩ | ⟨_, _, _, error, hfail⟩ | ⟨hblank, hnext, hemits⟩
      · -- a blank ends the frame
        rw [heq] at hiteration
        have hleft : (body u s).2 ≠ none := hiteration ▸ Option.some_ne_none _
        rw [Loops.forEach_cons_leave hleft, Loops.runs_cons_leave hleft, hiteration,
          picksOf_cons_some hpick]
        refine ⟨?_, new, ?_, h.frame, Or.inl ⟨congrArg some hblank, ?_, ?_⟩⟩
        · rw [← h.threshold, ← hsame]
          rfl
        · rw [← h.tokens, ← hready.tokens]
          rfl
        · rw [← h.blanks, ← hsame]
          rfl
        · rw [← h.endpoint, ← h.threshold, ← hready.endpoint, ← hsame]
          rfl
      · -- the cap ends it, after as many tokens
        rw [heq] at hiteration
        have hleft : (body u s).2 ≠ none := hiteration ▸ Option.some_ne_none _
        rw [Loops.forEach_cons_leave hleft, Loops.runs_cons_leave hleft, hiteration,
          picksOf_cons_some hpick]
        refine ⟨?_, new, ?_, h.frame, Or.inr ⟨?_, ?_, rfl, rfl⟩⟩
        · rw [← h.threshold, ← hsame]
          rfl
        · rw [← h.tokens, ← hready.tokens]
          rfl
        · exact fun hended => hblank (Option.some.inj hended)
        · rintro rfl
          rw [hready.count, h.count] at hcap
          simp [maxTokensPerStep] at hcap
      · rw [← hiteration] at hfail
        have hleft : (body u s).2 ≠ none := hfail ▸ Option.some_ne_none _
        rw [Loops.forEach_cons_leave hleft, hfail] at hleave
        cases hleave
      · rw [← hiteration] at hnext hemits
        rw [Loops.forEach_cons_next hnext] at hleave ⊢
        rw [Loops.runs_cons_next hnext, picksOf_cons_some hpick]
        obtain ⟨hthreshold, new', htokens, hframe, hended⟩ := ih (h.emits hready hemits) hleave
        refine ⟨hthreshold, new', htokens, hframe, ?_⟩
        rwa [endedInBlank_cons hblank]

theorem frame_end {values : List F}
    (hnext : (frame d (cachedPrediction d) values t l).2 = none) :
    FrameEnd d t l (frame d (cachedPrediction d) values t l).1 (framePicks d values t l) := by
  have hleave : (innerLoop d (cachedPrediction d) values t l).2 = some .nextFrame := by
    obtain ⟨leave, hsome⟩ := Option.ne_none_iff_exists'.mp
      (innerLoop_leaves (d := d) (t := t) (l := l) cachedPrediction_keepsTokens values)
    unfold frame at hnext
    rw [hsome] at hnext ⊢
    cases leave with
    | nextFrame => rfl
    | stop how => cases hnext
  have hstart : Within t l { l with tokensThisStep := 0, biasOverrides := 0 } [] :=
    ⟨(List.append_nil _).symm, nofun, rfl, rfl, rfl, rfl⟩
  exact frameEnd_of_runs (fun _ _ => rfl) hstart hleave

end Frame

section Closed

variable {state : DecoderState F} {n : Nat}

/-- Frame by frame, as long as no frame is left early. -/
theorem settled_frames {values : List F} {joiner : S}
    (hthreshold : 1 ≤ state.endpointBlankThreshold)
    (hdone : (Loops.forEach (frame d (cachedPrediction d) values) (List.range n)
      (initial d state joiner)).2 = none) :
    Settled d state n
      (Loops.forEach (frame d (cachedPrediction d) values) (List.range n)
        (initial d state joiner)).1
      ((Loops.runs (frame d (cachedPrediction d) values) (List.range n)
        (initial d state joiner)).map fun x => (x.1, framePicks d values x.1 x.2)) := by
  induction n with
  | zero => exact settled_initial d state joiner
  | succ n ih =>
      rw [List.range_succ] at hdone ⊢
      have hbefore : (Loops.forEach (Greedy.frame d (cachedPrediction d) values) (List.range n)
          (initial d state joiner)).2 = none := by
        by_contra hleft
        rw [Loops.forEach_concat_left hleft] at hdone
        exact hleft hdone
      rw [Loops.forEach_concat_next hbefore] at hdone ⊢
      rw [Loops.runs_concat_next hbefore, List.map_append]
      exact (ih hbefore).frame hthreshold (frame_end hdone)

/-- At the end of a decode that ran through, the blank counter counts from the last token on, and
the endpoint flag is read off it. -/
theorem endpoint_iff {encoded : TensorData F} {joiner : S}
    (hthreshold : 1 ≤ state.endpointBlankThreshold)
    (hdone : (decodeFrames d (cachedPrediction d) encoded state joiner).2 = none) :
    ∃ final result, greedyDecode d encoded state joiner = (final, .ok result) ∧
      (decodePicks d encoded state joiner).map Prod.fst = List.range d.encodedLen ∧
      (result.endpointDetected = true ↔
        result.tokens ≠ [] ∧ state.endpointBlankThreshold ≤ final.consecutiveBlanks) ∧
      (result.tokens = [] →
        final.consecutiveBlanks = state.consecutiveBlanks + d.encodedLen) ∧
      ∀ last, result.tokens.getLast? = some last → final.consecutiveBlanks =
        (decodePicks d encoded state joiner).countP fun x =>
          last.frameIndex ≤ x.1 ∧ EndedInBlank d.blankId x.2 := by
  have hresult : greedyDecode d encoded state joiner =
      ((decodeFrames d (cachedPrediction d) encoded state joiner).1.state,
        .ok { tokens := (decodeFrames d (cachedPrediction d) encoded state joiner).1.tokens
              endpointDetected :=
                (decodeFrames d (cachedPrediction d) encoded state joiner).1.endpointDetected }) := by
    unfold greedyDecode decodeWith
    simp only [hdone]
  refine ⟨_, _, hresult, ?_⟩
  cases encoded with
  | i32 values => cases hdone
  | i64 values => cases hdone
  | f32 values =>
      unfold decodeFrames at hdone ⊢
      unfold decodePicks
      dsimp only at hdone ⊢
      split_ifs at hdone ⊢ with hsize
      have hsettled := settled_frames hthreshold hdone
      exact ⟨hsettled.frames_eq, hsettled.endpoint, hsettled.quiet, hsettled.since⟩

end Closed

section Silence

/-- One frame of silence: the joiner always prefers the blank. -/
noncomputable def silence : Decode EReal Unit where
  backend :=
    { decodeStep := fun _ _ _ => .ok { decData := [], newH := [], newC := [] }
      joinerStep := fun joiner _ _ => .ok ([0, 1], joiner) }
  encodedLen := 1
  blankId := 1
  biaser := none
  abort := none

noncomputable def freshState : DecoderState EReal where
  h := ⟨List.replicate predHidden 0, List.length_replicate⟩
  c := ⟨List.replicate predHidden 0, List.length_replicate⟩
  prevToken := 1
  consecutiveBlanks := 0
  endpointBlankThreshold := 1

theorem argmax_silence : Logits.argmax ([0, 1] : List EReal) 1 = 1 := by
  have hlt : ¬(1 : EReal) < 0 := not_lt.mpr zero_le_one
  simp [Logits.argmax, Logits.maxBy, List.zipIdx, hlt]

theorem silence_done : (decodeFrames silence (cachedPrediction silence)
    (.f32 (List.replicate encDim 0)) freshState ()).2 = none := by
  have hsize : encDim * silence.encodedLen ≤ (List.replicate encDim (0 : EReal)).length := by
    rw [List.length_replicate]
    decide
  have hiteration : ∀ l : Loop EReal Unit, l.inBlankRun = false →
      (iteration silence (cachedPrediction silence) 0
        (extractEncoderFrame (List.replicate encDim 0) 1 0) l).2 = some .nextFrame := by
    intro l hl
    simp [iteration, pollAbort, step, cachedPrediction, hl, decodeStep, silence, classify,
      selectToken, argmax_silence, classifyToken]
  have hinner : (innerLoop silence (cachedPrediction silence) (List.replicate encDim 0) 0
      (initial silence freshState ())).2 = some .nextFrame := by
    have hleft := hiteration
      { initial silence freshState () with tokensThisStep := 0, biasOverrides := 0 } rfl
    unfold innerLoop Loops.repeatUpTo
    rw [List.range_succ_eq_map, Loops.forEach_cons_leave (hleft ▸ Option.some_ne_none _)]
    exact hleft
  have hframe : (frame silence (cachedPrediction silence) (List.replicate encDim 0) 0
      (initial silence freshState ())).2 = none := by
    rw [frame, hinner]
    rfl
  unfold decodeFrames
  simp only [if_pos hsize]
  show (Loops.forEach (frame silence (cachedPrediction silence) (List.replicate encDim 0)) [0]
    (initial silence freshState ())).2 = none
  rw [Loops.forEach_cons_next hframe]
  rfl

theorem endpoint_iff_silence : ∃ final result,
    greedyDecode silence (.f32 (List.replicate encDim 0)) freshState () = (final, .ok result) ∧
      (decodePicks silence (.f32 (List.replicate encDim 0)) freshState ()).map Prod.fst =
        List.range silence.encodedLen ∧
      (result.endpointDetected = true ↔
        result.tokens ≠ [] ∧ freshState.endpointBlankThreshold ≤ final.consecutiveBlanks) ∧
      (result.tokens = [] →
        final.consecutiveBlanks = freshState.consecutiveBlanks + silence.encodedLen) ∧
      ∀ last, result.tokens.getLast? = some last → final.consecutiveBlanks =
        (decodePicks silence (.f32 (List.replicate encDim 0)) freshState ()).countP fun x =>
          last.frameIndex ≤ x.1 ∧ EndedInBlank silence.blankId x.2 :=
  endpoint_iff (Nat.le_refl 1) silence_done

end Silence

end Greedy

end Gigastt
