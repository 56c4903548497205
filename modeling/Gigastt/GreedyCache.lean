import Gigastt.GreedyDecode

/-!
The blank-run cache is the decoder's output on the current state, so the program decodes as the
plain loop does. The tokens: no blank, in frame order, at most the cap of one frame; an abort cuts
their list short.
-/

namespace Gigastt

namespace Greedy

variable {F S : Type} {d : Decode F S} {l m : Loop F S} {t : Nat} {encFrame logits : List F}

section Cache

/-- In a blank run the buffers hold what the decoder would answer. -/
def CacheFresh (d : Decode F S) (l : Loop F S) : Prop :=
  l.inBlankRun = true → l.cacheValid = true ∧
    d.backend.decodeStep l.state.prevToken l.state.h l.state.c = .ok l.decoderOut

theorem decodeStep_eq_ok (h : decodeStep d l = .ok m) :
    ∃ out, d.backend.decodeStep l.state.prevToken l.state.h l.state.c = .ok out ∧
      m = { l with decoderOut := out, cacheValid := true } := by
  unfold decodeStep at h
  split at h
  case h_1 => cases h
  case h_2 out hout =>
    cases h
    exact ⟨out, hout, rfl⟩

theorem cachedPrediction_eq_decodeStep (h : CacheFresh d l) :
    cachedPrediction d l = decodeStep d l := by
  unfold cachedPrediction
  by_cases hblank : l.inBlankRun
  · obtain ⟨hvalid, hout⟩ := h hblank
    rw [if_pos hblank, if_pos hvalid, decodeStep, hout]
    show Except.ok l = .ok { l with decoderOut := l.decoderOut, cacheValid := true }
    rw [← hvalid]
  · rw [if_neg hblank]

theorem decodeStep_cacheFresh (h : decodeStep d l = .ok m) :
    m.cacheValid = true ∧
      d.backend.decodeStep m.state.prevToken m.state.h m.state.c = .ok m.decoderOut := by
  obtain ⟨out, hout, rfl⟩ := decodeStep_eq_ok h
  exact ⟨rfl, hout⟩

theorem decodeStep_ne_staleCache : decodeStep d l ≠ .error .staleCache := by
  unfold decodeStep
  split <;> exact nofun

variable [SingleArith F]

theorem onToken_cacheFresh (token : Nat) : CacheFresh d (onToken d t logits token l).1 := by
  suffices h : (onToken d t logits token l).1.inBlankRun = false from
    fun hblank => absurd hblank (h ▸ Bool.false_ne_true)
  unfold onToken commitNonBlank
  split_ifs
  · cases d.biaser <;> cases l.biasState <;> rfl
  · rfl

theorem classifyToken_cacheFresh (token : Nat) (hvalid : l.cacheValid = true)
    (hout : d.backend.decodeStep l.state.prevToken l.state.h l.state.c = .ok l.decoderOut) :
    CacheFresh d (classifyToken d t logits token l).1 := by
  unfold classifyToken
  split_ifs
  · exact fun _ => ⟨hvalid, hout⟩
  · exact fun hblank => absurd hblank Bool.false_ne_true
  · apply onToken_cacheFresh

theorem step_cacheFresh (hl : CacheFresh d l) :
    CacheFresh d (step d (decodeStep d) t encFrame l).1 := by
  unfold step
  split
  case h_1 => exact hl
  case h_2 m hm =>
    obtain ⟨hvalid, hout⟩ := decodeStep_cacheFresh hm
    split
    case h_1 => exact fun _ => ⟨hvalid, hout⟩
    case h_2 => exact classifyToken_cacheFresh _ hvalid hout

theorem iteration_cacheFresh (hl : CacheFresh d l) :
    CacheFresh d (iteration d (decodeStep d) t encFrame l).1 := by
  unfold iteration
  split_ifs
  · exact hl
  · exact step_cacheFresh hl

theorem iteration_cached_eq (hl : CacheFresh d l) :
    iteration d (cachedPrediction d) t encFrame l = iteration d (decodeStep d) t encFrame l := by
  have hpredict := cachedPrediction_eq_decodeStep (l := { l with polls := l.polls + 1 }) hl
  simp only [iteration, step, hpredict]

theorem innerLoop_cached_eq (encoded : List F) (hl : CacheFresh d l) :
    innerLoop d (cachedPrediction d) encoded t l = innerLoop d (decodeStep d) encoded t l :=
  Loops.repeatUpTo_congr (I := CacheFresh d) (fun _ hs => iteration_cached_eq hs)
    (fun _ hs _ => iteration_cached_eq hs ▸ iteration_cacheFresh hs) hl

theorem frame_cached_eq (encoded : List F) (hl : CacheFresh d l) :
    frame d (cachedPrediction d) encoded t l = frame d (decodeStep d) encoded t l := by
  unfold frame
  rw [innerLoop_cached_eq encoded hl]

theorem frame_cacheFresh (encoded : List F) (hl : CacheFresh d l) :
    CacheFresh d (frame d (decodeStep d) encoded t l).1 :=
  Loops.repeatUpTo_invariant (I := CacheFresh d) (fun _ hs => iteration_cacheFresh hs) hl

theorem frames_cached_eq (encoded : List F) (state : DecoderState F) (joiner : S) :
    frames d (cachedPrediction d) encoded state joiner
      = frames d (decodeStep d) encoded state joiner :=
  Loops.forEach_congr (I := CacheFresh d) (fun _ _ hs => frame_cached_eq encoded hs)
    (fun _ _ hs _ => frame_cached_eq encoded hs ▸ frame_cacheFresh encoded hs)
    (fun hblank => nomatch hblank)

theorem decodeFrames_cached_eq (encoded : TensorData F) (state : DecoderState F) (joiner : S) :
    decodeFrames d (cachedPrediction d) encoded state joiner
      = decodeFrames d (decodeStep d) encoded state joiner := by
  unfold decodeFrames
  simp only [frames_cached_eq]

theorem commitNonBlank_ne_staleCache (token : Nat) (biaser : Option (Biaser F)) :
    (commitNonBlank l token biaser).2 ≠ some .staleCache := by
  unfold commitNonBlank
  split_ifs
  · cases biaser <;> cases l.biasState <;> exact nofun
  · exact nofun

theorem classifyToken_ne_staleCache (token : Nat) :
    (classifyToken d t logits token l).2 ≠ some (.stop (.failed .staleCache)) := by
  unfold classifyToken onToken
  split_ifs
  · exact nofun
  · exact nofun
  · split
    case _ error herror =>
      intro h
      cases h
      exact commitNonBlank_ne_staleCache token d.biaser (congrArg Prod.snd herror)
    case _ => exact nofun

theorem iteration_ne_staleCache :
    (iteration d (decodeStep d) t encFrame l).2 ≠ some (.stop (.failed .staleCache)) := by
  unfold iteration step
  split_ifs
  · exact nofun
  · split
    case _ error herror =>
      intro h
      cases h
      exact decodeStep_ne_staleCache herror
    case _ =>
      split
      case _ => exact nofun
      case _ => exact classifyToken_ne_staleCache _

theorem decodeFrames_ne_staleCache (encoded : TensorData F) (state : DecoderState F) (joiner : S) :
    (decodeFrames d (decodeStep d) encoded state joiner).2 ≠ some (.failed .staleCache) := by
  have hframe (values : List F) (t : Nat) (l : Loop F S) (stop : Stop)
      (h : (frame d (decodeStep d) values t l).2 = some stop) : stop ≠ .failed .staleCache := by
    rintro rfl
    obtain ⟨leave, hleave, hstop⟩ := Option.bind_eq_some_iff.mp h
    apply Loops.repeatUpTo_leave (Q := (· ≠ .stop (.failed .staleCache))) _ hleave
    · cases leave with
      | nextFrame => cases hstop
      | stop how =>
          cases hstop
          rfl
    · rintro s b hb rfl
      exact iteration_ne_staleCache hb
  unfold decodeFrames
  split
  case _ values =>
    split_ifs
    · intro h
      exact Loops.forEach_leave (Q := (· ≠ .failed .staleCache)) (hframe values) h rfl
    · exact nofun
  case _ => exact nofun

theorem greedyDecode_ne_staleCache (encoded : TensorData F) (state : DecoderState F) (joiner : S) :
    (greedyDecode d encoded state joiner).2 ≠ .error .staleCache := by
  have hne := decodeFrames_ne_staleCache (d := d) encoded state joiner
  unfold greedyDecode decodeWith
  rw [decodeFrames_cached_eq]
  simp only
  split
  case _ error herror =>
    intro h
    cases h
    exact hne herror
  case _ => exact nofun

end Cache

section Tokens

/-- The tokens and their count are the loop's own. -/
def KeepsTokens (predict : Prediction F S) : Prop :=
  ∀ l m, predict l = .ok m → m.tokens = l.tokens ∧ m.tokensThisStep = l.tokensThisStep

theorem cachedPrediction_keepsTokens : KeepsTokens (cachedPrediction d) := by
  intro l m h
  unfold cachedPrediction at h
  split_ifs at h
  · cases h
    exact ⟨rfl, rfl⟩
  · obtain ⟨_, _, rfl⟩ := decodeStep_eq_ok h
    exact ⟨rfl, rfl⟩

def countAt (tokens : List (TokenInfo F)) (t : Nat) : Nat :=
  tokens.countP fun info => info.frameIndex == t

theorem countAt_append (tokens : List (TokenInfo F)) (info : TokenInfo F) (t : Nat) :
    countAt (tokens ++ [info]) t = countAt tokens t + if info.frameIndex = t then 1 else 0 := by
  simp only [countAt, List.countP_append, List.countP_singleton, beq_iff_eq]

theorem countAt_eq_zero {tokens : List (TokenInfo F)}
    (h : ∀ info ∈ tokens, info.frameIndex < t) : countAt tokens t = 0 := by
  apply List.countP_eq_zero.mpr
  intro info hinfo
  have := h info hinfo
  simp only [beq_iff_eq]
  omega

/-- What a run of the inner loop does to the tokens: it leaves the loop, or it pushes one. -/
inductive TokenStep (d : Decode F S) (t : Nat) (l : Loop F S) (r : Loop F S × Option Leave) : Prop
  | kept (hleave : r.2 ≠ none) (htokens : r.1.tokens = l.tokens)
      (hcount : r.1.tokensThisStep = l.tokensThisStep)
  | pushed (info : TokenInfo F) (hnext : r.2 = none) (hframe : info.frameIndex = t)
      (hblank : info.tokenId ≠ d.blankId) (hroom : l.tokensThisStep < maxTokensPerStep)
      (htokens : r.1.tokens = l.tokens ++ [info])
      (hcount : r.1.tokensThisStep = l.tokensThisStep + 1)

theorem TokenStep.of_eq {r : Loop F S × Option Leave} (h : TokenStep d t m r)
    (htokens : m.tokens = l.tokens) (hcount : m.tokensThisStep = l.tokensThisStep) :
    TokenStep d t l r := by
  rcases h with ⟨hleave, hkeep, hsame⟩ | ⟨info, hnext, hframe, hblank, hroom, hpush, hmore⟩
  · exact .kept hleave (hkeep.trans htokens) (hsame.trans hcount)
  · rw [htokens] at hpush
    rw [hcount] at hroom hmore
    exact .pushed info hnext hframe hblank hroom hpush hmore

variable [SingleArith F] {predict : Prediction F S}

theorem commitNonBlank_tokens (token : Nat) (biaser : Option (Biaser F)) :
    (commitNonBlank l token biaser).1.tokens = l.tokens ∧
      (commitNonBlank l token biaser).1.tokensThisStep = l.tokensThisStep := by
  unfold commitNonBlank
  split_ifs
  · cases biaser <;> cases l.biasState <;> exact ⟨rfl, rfl⟩
  · exact ⟨rfl, rfl⟩

theorem onToken_tokenStep {token : Nat} (hblank : token ≠ d.blankId)
    (hroom : l.tokensThisStep < maxTokensPerStep) :
    TokenStep d t l (onToken d t logits token l) := by
  obtain ⟨htokens, hcount⟩ := commitNonBlank_tokens
    (l := { l with endpointDetected := false, inBlankRun := false }) token d.biaser
  unfold onToken
  split
  case h_1 m error hcommit =>
    rw [hcommit] at htokens hcount
    exact .kept (Option.some_ne_none _) htokens hcount
  case h_2 m hcommit =>
    rw [hcommit] at htokens hcount
    refine .pushed ⟨token, t, Logits.tokenConfidence logits token⟩ rfl rfl hblank hroom ?_ ?_
    · exact congrArg (· ++ _) htokens
    · exact congrArg (· + 1) hcount

theorem classifyToken_tokenStep (token : Nat) :
    TokenStep d t l (classifyToken d t logits token l) := by
  unfold classifyToken
  by_cases hblank : token = d.blankId
  · rw [if_pos hblank]
    exact .kept (Option.some_ne_none _) rfl rfl
  · rw [if_neg hblank]
    by_cases hcap : maxTokensPerStep ≤ l.tokensThisStep
    · rw [if_pos hcap]
      exact .kept (Option.some_ne_none _) rfl rfl
    · rw [if_neg hcap]
      exact onToken_tokenStep hblank (Nat.lt_of_not_le hcap)

theorem iteration_tokenStep (hpredict : KeepsTokens predict) :
    TokenStep d t l (iteration d predict t encFrame l) := by
  unfold iteration step
  split_ifs
  · exact .kept (Option.some_ne_none _) rfl rfl
  · split
    case _ => exact .kept (Option.some_ne_none _) rfl rfl
    case _ m hm =>
      obtain ⟨htokens, hcount⟩ := hpredict _ m hm
      split
      case _ => exact .kept (Option.some_ne_none _) htokens hcount
      case _ logits joiner _ =>
        exact (classifyToken_tokenStep _).of_eq htokens hcount

/-- An inner loop is left within one run more than the cap. -/
theorem innerLoop_leaves (hpredict : KeepsTokens predict) (encoded : List F) :
    (innerLoop d predict encoded t l).2 ≠ none := by
  apply Loops.repeatUpTo_leaves fun l => maxTokensPerStep - l.tokensThisStep
  · intro m hnext
    rcases iteration_tokenStep (d := d) (t := t) (l := m) hpredict with
      ⟨hleave, _, _⟩ | ⟨_, _, _, _, hroom, _, hcount⟩
    · exact absurd hnext hleave
    · rw [hcount]
      omega
  · exact Nat.lt_succ_self _

structure WellEmitted (d : Decode F S) (tokens : List (TokenInfo F)) : Prop where
  nonblank : ∀ info ∈ tokens, info.tokenId ≠ d.blankId
  sorted : tokens.Pairwise fun a b => a.frameIndex ≤ b.frameIndex
  capped : ∀ t, countAt tokens t ≤ maxTokensPerStep

/-- In frame `t` all tokens are of that frame or an earlier one. -/
structure InFrame (d : Decode F S) (t : Nat) (l : Loop F S) : Prop where
  wellEmitted : WellEmitted d l.tokens
  le_frame : ∀ info ∈ l.tokens, info.frameIndex ≤ t
  count_eq : countAt l.tokens t = l.tokensThisStep

theorem InFrame.iteration (hpredict : KeepsTokens predict) (h : InFrame d t l) :
    InFrame d t (iteration d predict t encFrame l).1 := by
  obtain ⟨⟨hnonblank, hsorted, hcapped⟩, hle, hcount⟩ := h
  have hiteration : TokenStep d t l (Greedy.iteration d predict t encFrame l) :=
    iteration_tokenStep hpredict
  rcases hiteration with ⟨_, htokens, hstep⟩ | ⟨info, _, hframe, hblank, hroom, htokens, hstep⟩
  · refine ⟨⟨?_, ?_, ?_⟩, ?_, ?_⟩ <;> rw [htokens]
    · exact hnonblank
    · exact hsorted
    · exact hcapped
    · exact hle
    · exact hcount.trans hstep.symm
  · refine ⟨⟨?_, ?_, ?_⟩, ?_, ?_⟩ <;> rw [htokens]
    · intro i hi
      rcases List.mem_append.mp hi with hi | hi
      · exact hnonblank i hi
      · exact List.mem_singleton.mp hi ▸ hblank
    · refine List.pairwise_append.mpr ⟨hsorted, List.pairwise_singleton _ _, ?_⟩
      intro i hi j hj
      rw [List.mem_singleton.mp hj, hframe]
      exact hle i hi
    · intro u
      rw [countAt_append, hframe]
      by_cases hu : t = u
      · rw [if_pos hu, ← hu, hcount]
        exact hroom
      · rw [if_neg hu]
        exact hcapped u
    · intro i hi
      rcases List.mem_append.mp hi with hi | hi
      · exact hle i hi
      · rw [List.mem_singleton.mp hi]
        exact Nat.le_of_eq hframe
    · rw [countAt_append, if_pos hframe, hcount, hstep]

theorem frame_inFrame (hpredict : KeepsTokens predict) (encoded : List F)
    (hemitted : WellEmitted d l.tokens) (hlt : ∀ info ∈ l.tokens, info.frameIndex < t) :
    InFrame d t (frame d predict encoded t l).1 :=
  Loops.repeatUpTo_invariant (I := InFrame d t) (fun _ hm => hm.iteration hpredict)
    ⟨hemitted, fun info hinfo => Nat.le_of_lt (hlt info hinfo), countAt_eq_zero hlt⟩

/-- Before frame `t` all tokens are of earlier frames. -/
def BeforeFrame (d : Decode F S) (t : Nat) (l : Loop F S) : Prop :=
  WellEmitted d l.tokens ∧ ∀ info ∈ l.tokens, info.frameIndex < t

theorem frames_wellEmitted (hpredict : KeepsTokens predict) (encoded : List F)
    (state : DecoderState F) (joiner : S) :
    WellEmitted d (frames d predict encoded state joiner).1.tokens := by
  refine Loops.forEach_range_invariant (I := BeforeFrame d) (P := fun l => WellEmitted d l.tokens)
    ?_ ?_ (fun l hl => hl.1) ⟨⟨nofun, List.Pairwise.nil, fun _ => Nat.zero_le _⟩, nofun⟩
  · rintro t l _ ⟨hemitted, hlt⟩ _
    have h := frame_inFrame hpredict encoded hemitted hlt
    exact ⟨h.wellEmitted, fun info hinfo => Nat.lt_succ_of_le (h.le_frame info hinfo)⟩
  · rintro t l _ ⟨hemitted, hlt⟩ _
    exact (frame_inFrame hpredict encoded hemitted hlt).wellEmitted

theorem emitted_wellEmitted (encoded : TensorData F) (state : DecoderState F) (joiner : S) :
    WellEmitted d (emitted d encoded state joiner) := by
  have hnil : WellEmitted d [] := ⟨nofun, List.Pairwise.nil, fun _ => Nat.zero_le _⟩
  unfold emitted decodeFrames
  split
  case _ values =>
    split_ifs
    · exact frames_wellEmitted cachedPrediction_keepsTokens values state joiner
    · exact hnil
  case _ => exact hnil

end Tokens

section Abort

/-- Tokens are only pushed at the end. -/
def Extends (l m : Loop F S) : Prop := l.tokens <+: m.tokens

theorem Extends.refl (l : Loop F S) : Extends l l := List.prefix_rfl

theorem Extends.trans (l m n : Loop F S) (hlm : Extends l m) (hmn : Extends m n) : Extends l n :=
  List.IsPrefix.trans hlm hmn

variable [SingleArith F]

/-- The same decode, never aborted. -/
def Decode.unaborted (d : Decode F S) : Decode F S := { d with abort := none }

theorem iteration_extends (l : Loop F S) :
    Extends l (iteration d (cachedPrediction d) t encFrame l).1 := by
  have hiteration : TokenStep d t l (iteration d (cachedPrediction d) t encFrame l) :=
    iteration_tokenStep cachedPrediction_keepsTokens
  rcases hiteration with ⟨_, htokens, _⟩ | ⟨info, _, _, _, _, htokens, _⟩
  · exact (htokens ▸ List.prefix_rfl :
      l.tokens <+: (iteration d (cachedPrediction d) t encFrame l).1.tokens)
  · show l.tokens <+: _
    rw [htokens]
    exact List.prefix_append _ _

theorem iteration_cutShort (l : Loop F S) :
    Loops.CutShort Extends (· = .stop .aborted)
      (iteration d (cachedPrediction d) t encFrame l)
      (iteration d.unaborted (cachedPrediction d.unaborted) t encFrame l) := by
  by_cases habort : pollAbort d l
  · refine Or.inr ⟨.stop .aborted, ?_, rfl, ?_⟩
    · rw [iteration, if_pos habort]
    · rw [iteration, if_pos habort]
      exact iteration_extends l
  · apply Or.inl
    rw [iteration, if_neg habort]
    rfl

theorem frame_extends (encoded : List F) (l : Loop F S) :
    Extends l (frame d (cachedPrediction d) encoded t l).1 :=
  Loops.repeatUpTo_grows (s := { l with tokensThisStep := 0, biasOverrides := 0 })
    Extends.refl Extends.trans iteration_extends

theorem innerLoop_cutShort (encoded : List F) (l : Loop F S) :
    Loops.CutShort Extends (· = .stop .aborted) (innerLoop d (cachedPrediction d) encoded t l)
      (innerLoop d.unaborted (cachedPrediction d.unaborted) encoded t l) :=
  Loops.repeatUpTo_cutShort Extends.refl Extends.trans iteration_extends iteration_cutShort

theorem frame_cutShort (encoded : List F) (l : Loop F S) :
    Loops.CutShort Extends (· = .aborted) (frame d (cachedPrediction d) encoded t l)
      (frame d.unaborted (cachedPrediction d.unaborted) encoded t l) := by
  unfold frame
  rcases innerLoop_cutShort (d := d) (t := t) encoded l with heq | ⟨_, hleave, rfl, hrel⟩
  · rw [heq]
    exact Or.inl rfl
  · rw [hleave]
    exact Or.inr ⟨.aborted, rfl, rfl, hrel⟩

theorem emitted_prefix (encoded : TensorData F) (state : DecoderState F) (joiner : S) :
    emitted d encoded state joiner <+: emitted d.unaborted encoded state joiner := by
  have hframes (values : List F) :
      Extends (frames d (cachedPrediction d) values state joiner).1
        (frames d.unaborted (cachedPrediction d.unaborted) values state joiner).1 := by
    have hcut := Loops.forEach_cutShort (l := List.range d.encodedLen)
      (s := initial d state joiner) Extends.refl Extends.trans
      (fun t => frame_extends (t := t) values) fun t => frame_cutShort (d := d) (t := t) values
    exact hcut.rel Extends.refl
  unfold emitted decodeFrames
  cases encoded with
  | f32 values =>
      by_cases hsize : encDim * d.encodedLen ≤ values.length
      · simp only [if_pos hsize, if_pos (show encDim * d.unaborted.encodedLen ≤ _ from hsize)]
        exact hframes values
      · simp only [if_neg hsize]
        exact List.nil_prefix
  | i32 _ => exact List.prefix_rfl
  | i64 _ => exact List.prefix_rfl

end Abort

/-- Decoding with the cache is decoding without it; the tokens are well formed, the cache is never
found stale, and an abort only cuts the tokens short. -/
theorem greedyDecode_eq_plainDecode {F S : Type} [SingleArith F] (d : Decode F S)
    (encoded : TensorData F) (state : DecoderState F) (joiner : S) :
    greedyDecode d encoded state joiner = plainDecode d encoded state joiner ∧
      (greedyDecode d encoded state joiner).2 ≠ .error .staleCache ∧
      (∀ r, (greedyDecode d encoded state joiner).2 = .ok r →
        r.tokens = emitted d encoded state joiner) ∧
      (∀ info ∈ emitted d encoded state joiner, info.tokenId ≠ d.blankId) ∧
      (∀ t, countAt (emitted d encoded state joiner) t ≤ maxTokensPerStep) ∧
      ((emitted d encoded state joiner).Pairwise fun a b => a.frameIndex ≤ b.frameIndex) ∧
      ∀ abort : Nat → Bool, emitted { d with abort := some abort } encoded state joiner <+:
        emitted { d with abort := none } encoded state joiner := by
  have hemitted := emitted_wellEmitted (d := d) encoded state joiner
  refine ⟨?_, greedyDecode_ne_staleCache encoded state joiner, ?_, hemitted.nonblank,
    hemitted.capped, hemitted.sorted, fun abort => emitted_prefix encoded state joiner⟩
  · unfold greedyDecode plainDecode decodeWith
    rw [decodeFrames_cached_eq]
  · intro r hr
    unfold greedyDecode decodeWith at hr
    simp only at hr
    split at hr
    · cases hr
    · cases hr
      rfl

end Greedy

end Gigastt
