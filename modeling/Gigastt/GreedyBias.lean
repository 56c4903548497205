import Gigastt.GreedyPicks
import Gigastt.BiasCredit

/-!
How far a glossary can move a greedy decode: one pick of a frame, to a token that goes on with a
phrase.
-/

namespace Gigastt

namespace Biaser

variable {F : Type} [SingleArith F] {b : Biaser F}

/-- The logits after some boosts: none is lower, and only edges of active nodes are raised. -/
structure Raised (b : Biaser F) (active : List Nat) (logits raised : List F) : Prop where
  length_eq : raised.length = logits.length
  le : ∀ j, logits.getD j 0 ≤ raised.getD j 0
  edges : ∀ j, raised.getD j 0 ≠ logits.getD j 0 →
    ∃ i ∈ active, ∃ child, (j, child) ∈ (b.node i).children

theorem Raised.boostEdge (hboost : ∀ x : F, x ≤ x + b.boost) {active : List Nat}
    {logits raised : List F} (h : Raised b active logits raised) {i : Nat} (hi : i ∈ active)
    {edge : Nat × Nat} (hedge : edge ∈ (b.node i).children) :
    Raised b active logits (b.boostEdge raised edge) := by
  unfold Biaser.boostEdge
  split_ifs with hplain
  · have hget : ∀ j, (raised.modify edge.1 (· + b.boost)).getD j 0 =
        if edge.1 = j then raised.getD j 0 + b.boost else raised.getD j 0 := by
      intro j
      rw [List.getD_eq_getElem?_getD, List.getD_eq_getElem?_getD, List.getElem?_modify]
      by_cases hj : edge.1 = j
      · subst hj
        rw [List.getElem?_eq_getElem hplain.1]
        simp
      · cases raised[j]? <;> simp [hj]
    refine ⟨?_, ?_, ?_⟩
    · rw [List.length_modify, h.length_eq]
    · intro j
      rw [hget]
      split_ifs
      · exact le_trans (h.le j) (hboost _)
      · exact h.le j
    · intro j hne
      rw [hget] at hne
      split_ifs at hne with hj
      · subst hj
        exact ⟨i, hi, edge.2, hedge⟩
      · exact h.edges j hne
  · exact h

theorem boostLogits_raised (hboost : ∀ x : F, x ≤ x + b.boost) (state : BiasState)
    (logits : List F) : Raised b state.active logits (b.boostLogits state logits) := by
  refine List.foldlRecOn state.active _ (motive := Raised b state.active logits)
    ⟨rfl, fun _ => le_refl _, fun _ hne => absurd rfl hne⟩ ?_
  intro raised h i hi
  refine List.foldlRecOn (b.node i).children _ (motive := Raised b state.active logits) h ?_
  exact fun raised' h' edge hedge => h'.boostEdge hboost hi hedge

/-- A pick that the boost changes follows an edge of an active node. -/
theorem argmax_boostLogits (hboost : ∀ x : F, x ≤ x + b.boost) (state : BiasState)
    (logits : List F) (blankId : Nat)
    (hne : Logits.argmax (b.boostLogits state logits) blankId ≠ Logits.argmax logits blankId) :
    ∃ i ∈ state.active, ∃ child,
      b.child? i (Logits.argmax (b.boostLogits state logits) blankId) = some child := by
  have hraised := boostLogits_raised hboost state logits
  have hmoved : (b.boostLogits state logits).getD
      (Logits.argmax (b.boostLogits state logits) blankId) 0 ≠
        logits.getD (Logits.argmax (b.boostLogits state logits) blankId) 0 := fun hsame =>
    hne (Logits.argmax_of_raised blankId hraised.length_eq hraised.le hsame)
  obtain ⟨i, hi, child, hedge⟩ := hraised.edges _ hmoved
  exact ⟨i, hi, child, (Table.find_eq_some (t := ⟨_, b.node_keys_nodup i⟩)).mpr hedge⟩

end Biaser

namespace Greedy

variable {F S : Type} {d : Decode F S} {t : Nat} {encFrame logits : List F} {l m : Loop F S}

section WithoutGlossary

/-- The same decode without a glossary. -/
def Decode.unbiased (d : Decode F S) : Decode F S := { d with biaser := none }

/-- The loop without the glossary's own variables. -/
def Loop.unbiased (l : Loop F S) : Loop F S := { l with biasState := none, biasOverrides := 0 }

theorem cachedPrediction_unbiased (l : Loop F S) :
    cachedPrediction d.unbiased l.unbiased = (cachedPrediction d l).map Loop.unbiased := by
  unfold cachedPrediction decodeStep
  have hblank : l.unbiased.inBlankRun = l.inBlankRun := rfl
  have hvalid : l.unbiased.cacheValid = l.cacheValid := rfl
  rw [hblank, hvalid]
  split_ifs
  · rfl
  · rfl
  · have hcall : d.unbiased.backend.decodeStep l.unbiased.state.prevToken l.unbiased.state.h
        l.unbiased.state.c = d.backend.decodeStep l.state.prevToken l.state.h l.state.c := rfl
    rw [hcall]
    cases d.backend.decodeStep l.state.prevToken l.state.h l.state.c <;> rfl

end WithoutGlossary

variable [SingleArith F]

section Select

/-- The boost is spent exactly when it changes the pick, and only while there is some left. -/
theorem selectToken_cases (logits : List F) (blankId : Nat) (biaser : Option (Biaser F))
    (biasState : Option BiasState) (overrides : Nat) :
    (selectToken logits blankId biaser biasState overrides =
      (Logits.argmax logits blankId, false)) ∨
    ∃ b bs, biaser = some b ∧ biasState = some bs ∧ overrides < maxBiasOverridesPerStep ∧
      Logits.argmax (b.boostLogits bs logits) blankId ≠ Logits.argmax logits blankId ∧
      selectToken logits blankId biaser biasState overrides =
        (Logits.argmax (b.boostLogits bs logits) blankId, true) := by
  unfold selectToken
  split
  case h_1 b bs =>
    split_ifs with hleft
    · by_cases hsame : Logits.argmax (b.boostLogits bs logits) blankId =
          Logits.argmax logits blankId
      · exact Or.inl (by simp [hsame])
      · exact Or.inr ⟨b, bs, rfl, rfl, hleft, hsame, by simp [hsame]⟩
    · exact Or.inl rfl
  case h_2 => exact Or.inl rfl

/-- The pick is not the model's own. -/
def Pick.Differs (blankId : Nat) (pick : Pick F) : Prop :=
  pick.token ≠ Logits.argmax pick.logits blankId

instance (blankId : Nat) (pick : Pick F) : Decidable (pick.Differs blankId) :=
  inferInstanceAs (Decidable (pick.token ≠ Logits.argmax pick.logits blankId))

theorem Ready.budget {pick : Pick F} (h : Ready d l pick m) :
    (¬pick.Differs d.blankId ∧ m.biasOverrides = l.biasOverrides) ∨
      (pick.Differs d.blankId ∧ l.biasOverrides < maxBiasOverridesPerStep ∧
        m.biasOverrides = l.biasOverrides + 1) := by
  have htoken := h.token_eq
  have hoverrides := h.overrides
  unfold Pick.Differs
  rcases selectToken_cases pick.logits d.blankId d.biaser l.biasState l.biasOverrides with
    heq | ⟨b, bs, _, _, hleft, hne, heq⟩
  · rw [heq] at htoken hoverrides
    exact Or.inl ⟨not_not.mpr htoken, hoverrides⟩
  · rw [heq] at htoken hoverrides
    rw [htoken]
    exact Or.inr ⟨hne, hleft, hoverrides⟩

end Select

section Budget

/-- The picks of some runs of one inner loop stay within what is left of the budget. -/
theorem countP_differs_le {body : Nat → Loop F S → Loop F S × Option Leave}
    (hbody : ∀ u s, body u s = iteration d (cachedPrediction d) t encFrame s) (us : List Nat)
    {s : Loop F S} (hs : s.biasOverrides ≤ maxBiasOverridesPerStep) :
    (picksOf d encFrame (Loops.runs body us s)).countP (fun pick => pick.Differs d.blankId) +
      s.biasOverrides ≤ maxBiasOverridesPerStep := by
  induction us generalizing s with
  | nil => simpa [Loops.runs, picksOf] using hs
  | cons u us ih =>
      have hcases := iteration_cases d t encFrame s
      rw [← hbody u s] at hcases
      rcases hcases with ⟨hpick, _, _, how, hstop⟩ | ⟨pick, m, hpick, hready, hiteration⟩
      · rw [Loops.runs_cons_leave (hstop ▸ Option.some_ne_none _), picksOf_cons_none hpick]
        simpa [picksOf] using hs
      have hspent : m.biasOverrides ≤ maxBiasOverridesPerStep ∧
          s.biasOverrides + (if pick.Differs d.blankId then 1 else 0) = m.biasOverrides := by
        rcases hready.budget with ⟨hsame, heq⟩ | ⟨hdiffers, hleft, heq⟩
        · rw [if_neg hsame, heq]
          exact ⟨hs, rfl⟩
        · rw [if_pos hdiffers, heq]
          exact ⟨hleft, rfl⟩
      by_cases hnext : (body u s).2 = none
      · have hkept : (body u s).1.biasOverrides = m.biasOverrides := by
          rw [hiteration] at hnext ⊢
          rcases classifyToken_cases d t pick.logits pick.token m with
            ⟨_, heq⟩ | ⟨_, _, heq⟩ | ⟨_, _, _, error, hfail⟩ | ⟨_, _, hemits⟩
          · rw [heq]
            rfl
          · rw [heq]
            rfl
          · rw [hfail] at hnext
            cases hnext
          · exact hemits.overrides
        have hrest := ih (s := (body u s).1) (hkept ▸ hspent.1)
        rw [Loops.runs_cons_next hnext, picksOf_cons_some hpick, List.countP_cons]
        simp only [decide_eq_true_eq]
        omega
      · rw [Loops.runs_cons_leave hnext, picksOf_cons_some hpick, picksOf, List.filterMap_nil,
          List.countP_singleton]
        simp only [decide_eq_true_eq]
        omega

theorem framePicks_differs_le (d : Decode F S) (values : List F) (t : Nat) (l : Loop F S) :
    (framePicks d values t l).countP (fun pick => pick.Differs d.blankId) ≤ 1 :=
  countP_differs_le (t := t) (s := { l with tokensThisStep := 0, biasOverrides := 0 })
    (fun _ _ => rfl) _ (Nat.zero_le _)

end Budget

section Heard

/-- The active prefixes are those of the labels emitted so far. -/
def Heard (d : Decode F S) (l : Loop F S) : Prop :=
  l.biasState = d.biaser.map fun b => b.heard (l.tokens.map TokenInfo.tokenId)

theorem Heard.of_eq (h : Heard d l) (hbias : m.biasState = l.biasState)
    (htokens : m.tokens = l.tokens) : Heard d m := by
  rw [Heard, hbias, htokens]
  exact h

theorem Heard.iteration (h : Heard d l) :
    Heard d (iteration d (cachedPrediction d) t encFrame l).1 := by
  rcases iteration_cases d t encFrame l with
    ⟨_, htokens, hbias, _⟩ | ⟨pick, m, _, hready, hiteration⟩
  · exact h.of_eq hbias htokens
  have hm : Heard d m := h.of_eq hready.biasState hready.tokens
  rw [hiteration]
  rcases classifyToken_cases d t pick.logits pick.token m with
    ⟨_, heq⟩ | ⟨_, _, heq⟩ | ⟨_, htokens, hbias, _⟩ | ⟨_, _, hemits⟩
  · rw [heq]
    exact hm.of_eq rfl rfl
  · rw [heq]
    exact hm.of_eq rfl rfl
  · exact hm.of_eq hbias htokens
  · -- the label advances the prefixes
    unfold Heard at hm ⊢
    rw [hemits.tokens, List.map_append]
    cases hb : d.biaser with
    | none =>
        rw [hb] at hm
        rw [hemits.unbiased hb, hm]
        rfl
    | some b =>
        rw [hb] at hm
        rw [hemits.biasState b _ hb hm]
        exact congrArg some (b.heard_concat _ _).symm

/-- A pick that differs goes on with what the last labels spell. -/
theorem differs_continues (hboost : ∀ b, d.biaser = some b → ∀ x : F, x ≤ x + b.boost)
    (h : Heard d l) {pick : Pick F} (hready : Ready d l pick m)
    (hdiffers : pick.Differs d.blankId) :
    ∃ b, d.biaser = some b ∧ ∃ matched, matched <:+ pick.emitted.map TokenInfo.tokenId ∧
      ∃ node child, b.walk matched = some node ∧ b.child? node pick.token = some child := by
  have htoken := hready.token_eq
  rcases selectToken_cases pick.logits d.blankId d.biaser l.biasState l.biasOverrides with
    heq | ⟨b, bs, hb, hbs, _, hne, heq⟩
  · rw [heq] at htoken
    exact absurd htoken hdiffers
  · rw [heq] at htoken
    obtain ⟨node, hnode, child, hchild⟩ := b.argmax_boostLogits (hboost b hb) bs pick.logits
      d.blankId hne
    rw [h, hb, Option.map_some, Option.some.injEq] at hbs
    rw [← hbs, ← hready.emitted] at hnode
    obtain ⟨matched, hsuffix, hwalk⟩ := Biaser.mem_heard.mp hnode
    exact ⟨b, hb, matched, hsuffix, node, child, hwalk, htoken ▸ hchild⟩

end Heard

section Frames

variable {values : List F}

/-- Where the runs of an inner loop start, the prefixes are those of the labels. -/
theorem heard_innerRuns (h : Heard d l) : ∀ x ∈ innerRuns d values t l, Heard d x.2 :=
  Loops.runs_invariant (I := Heard d) (fun _ _ _ hs => hs.iteration) (h.of_eq rfl rfl)

theorem Heard.frame (h : Heard d l) : Heard d (frame d (cachedPrediction d) values t l).1 :=
  Loops.repeatUpTo_invariant (I := Heard d) (fun _ hs => hs.iteration) (h.of_eq rfl rfl)

theorem heard_initial (d : Decode F S) (state : DecoderState F) (joiner : S) :
    Heard d (initial d state joiner) := rfl

/-- A pick is made in a run of the inner loop. -/
theorem mem_framePicks {pick : Pick F} :
    pick ∈ framePicks d values t l ↔ ∃ x ∈ innerRuns d values t l,
      pick? d (extractEncoderFrame values d.encodedLen t) x.2 = some pick :=
  List.mem_filterMap

/-- A pick is classified where it is made. -/
theorem pick?_cases {pick : Pick F} (hpick : pick? d encFrame l = some pick) (t : Nat) :
    ∃ m, Ready d l pick m ∧ iteration d (cachedPrediction d) t encFrame l =
      classifyToken d t pick.logits pick.token m := by
  rcases iteration_cases d t encFrame l with ⟨hnone, _⟩ | ⟨pick', m, hpick', hready, heq⟩
  · rw [hnone] at hpick
    cases hpick
  · rw [hpick, Option.some.injEq] at hpick'
    subst hpick'
    exact ⟨m, hready, heq⟩

/-- A token that a frame adds is one of its picks, with the confidence of the model's own logits. -/
theorem exists_pick_of_frame {info : TokenInfo F} (hold : info ∉ l.tokens)
    (hnew : info ∈ (frame d (cachedPrediction d) values t l).1.tokens) :
    info.frameIndex = t ∧ ∃ pick ∈ framePicks d values t l, info.tokenId = pick.token ∧
      info.confidence = Logits.tokenConfidence pick.logits pick.token := by
  have hnew' : info ∈ (Loops.forEach (fun (_ : Nat) =>
      iteration d (cachedPrediction d) t (extractEncoderFrame values d.encodedLen t))
      (List.range (maxTokensPerStep + 1))
      { l with tokensThisStep := 0, biasOverrides := 0 }).1.tokens := hnew
  obtain ⟨x, hx, hbefore, hafter⟩ :=
    Loops.exists_run (P := fun s : Loop F S => info ∈ s.tokens)
      (s := { l with tokensThisStep := 0, biasOverrides := 0 }) hold hnew'
  rcases iteration_cases d t (extractEncoderFrame values d.encodedLen t) x.2 with
    ⟨_, htokens, _⟩ | ⟨pick, m, hpick, hready, heq⟩
  · rw [htokens] at hafter
    exact absurd hafter hbefore
  rw [heq] at hafter
  have hkept : ∀ r : Loop F S, r.tokens = m.tokens → info ∉ r.tokens := by
    intro r hr
    rwa [hr, hready.tokens]
  rcases classifyToken_cases d t pick.logits pick.token m with
    ⟨_, hc⟩ | ⟨_, _, hc⟩ | ⟨_, htokens, _⟩ | ⟨_, _, hemits⟩
  · rw [hc] at hafter
    exact absurd hafter (hkept _ rfl)
  · rw [hc] at hafter
    exact absurd hafter (hkept _ rfl)
  · exact absurd hafter (hkept _ htokens)
  · rw [hemits.tokens, List.mem_append, List.mem_singleton] at hafter
    rcases hafter with hin | rfl
    · exact absurd hin (hkept m rfl)
    · exact ⟨rfl, pick, mem_framePicks.mpr ⟨x, hx, hpick⟩, rfl, rfl⟩

end Frames

section Unbiased

/-- Classifying a token does not look at the glossary's variables, but to advance them. -/
theorem classifyToken_unbiased (token : Nat) (m : Loop F S) :
    classifyToken d.unbiased t logits token m.unbiased =
      ((classifyToken d t logits token m).1.unbiased, (classifyToken d t logits token m).2) := by
  have hblank : d.unbiased.blankId = d.blankId := rfl
  have hcount : m.unbiased.tokensThisStep = m.tokensThisStep := rfl
  unfold classifyToken
  rw [hblank, hcount]
  split_ifs
  · rfl
  · rfl
  · unfold onToken commitNonBlank
    have hout : m.unbiased.decoderOut = m.decoderOut := rfl
    by_cases hshape : m.decoderOut.newH.length = predHidden ∧
        m.decoderOut.newC.length = predHidden
    · simp only [hout, dif_pos hshape]
      cases d.biaser <;> cases m.biasState <;> rfl
    · simp only [hout, dif_neg hshape]
      rfl

theorem classify_unbiased
    (hown : (selectToken logits d.blankId d.biaser m.biasState m.biasOverrides).1 =
      Logits.argmax logits d.blankId) :
    classify d.unbiased t logits m.unbiased =
      ((classify d t logits m).1.unbiased, (classify d t logits m).2) := by
  unfold classify
  dsimp only
  rw [hown]
  exact classifyToken_unbiased _ { m with biasOverrides := _ }

/-- A run whose pick is the model's own is the run without the glossary. -/
theorem iteration_unbiased (s : Loop F S)
    (hown : ∀ pick, pick? d encFrame s = some pick → ¬pick.Differs d.blankId) :
    iteration d.unbiased (cachedPrediction d.unbiased) t encFrame s.unbiased =
      ((iteration d (cachedPrediction d) t encFrame s).1.unbiased,
        (iteration d (cachedPrediction d) t encFrame s).2) := by
  unfold pick? at hown
  unfold iteration step
  have hpoll : pollAbort d.unbiased s.unbiased = pollAbort d s := rfl
  rw [hpoll]
  by_cases habort : pollAbort d s
  · rw [if_pos habort, if_pos habort]
    rfl
  rw [if_neg habort] at hown
  rw [if_neg habort, if_neg habort]
  have hpredict := cachedPrediction_unbiased (d := d) { s with polls := s.polls + 1 }
  have hsame : ({ s.unbiased with polls := s.unbiased.polls + 1 } : Loop F S) =
      Loop.unbiased { s with polls := s.polls + 1 } := rfl
  rw [hsame, hpredict]
  cases hok : cachedPrediction d { s with polls := s.polls + 1 } with
  | error error => rfl
  | ok m =>
      rw [hok] at hown
      obtain ⟨out, valid, rfl⟩ := cachedPrediction_eq_ok hok
      dsimp only [Except.map] at hown ⊢
      have hcall : ∀ m : Loop F S, d.unbiased.backend.joinerStep m.unbiased.joiner encFrame
          m.unbiased.decoderOut.decData = d.backend.joinerStep m.joiner encFrame
            m.decoderOut.decData := fun _ => rfl
      rw [hcall]
      dsimp only
      cases hjoin : d.backend.joinerStep s.joiner encFrame out.decData with
      | error message => rfl
      | ok r =>
          obtain ⟨logits, joiner⟩ := r
          rw [hjoin] at hown
          have hpick := not_not.mp (hown _ rfl)
          let m := { s with polls := s.polls + 1, decoderOut := out, cacheValid := valid, joiner }
          exact classify_unbiased (m := m) hpick

/-- A frame whose picks are all the model's own is the frame without the glossary. -/
theorem frame_unbiased {values : List F}
    (hown : ∀ pick ∈ framePicks d values t l, ¬pick.Differs d.blankId) :
    frame d.unbiased (cachedPrediction d.unbiased) values t l.unbiased =
      ((frame d (cachedPrediction d) values t l).1.unbiased,
        (frame d (cachedPrediction d) values t l).2) := by
  have hinner : innerLoop d.unbiased (cachedPrediction d.unbiased) values t l.unbiased =
      ((innerLoop d (cachedPrediction d) values t l).1.unbiased,
        (innerLoop d (cachedPrediction d) values t l).2) := by
    unfold innerLoop Loops.repeatUpTo
    refine Loops.forEach_map Loop.unbiased
      (s := { l with tokensThisStep := 0, biasOverrides := 0 }) ?_
    intro x hx
    exact iteration_unbiased x.2 fun pick hpick =>
      hown pick (mem_framePicks.mpr ⟨x, hx, hpick⟩)
  unfold frame
  rw [hinner]

/-- So is the loop of all the frames. -/
theorem decodeFrames_unbiased {encoded : TensorData F} {state : DecoderState F} {joiner : S}
    (hown : ∀ x ∈ decodePicks d encoded state joiner, ∀ pick ∈ x.2, ¬pick.Differs d.blankId) :
    decodeFrames d.unbiased (cachedPrediction d.unbiased) encoded state joiner =
      ((decodeFrames d (cachedPrediction d) encoded state joiner).1.unbiased,
        (decodeFrames d (cachedPrediction d) encoded state joiner).2) := by
  cases encoded with
  | i32 values => rfl
  | i64 values => rfl
  | f32 values =>
      unfold decodePicks at hown
      unfold decodeFrames
      have hlen : d.unbiased.encodedLen = d.encodedLen := rfl
      dsimp only at hown ⊢
      rw [hlen]
      split_ifs at hown ⊢
      · refine Loops.forEach_map Loop.unbiased (s := initial d state joiner) ?_
        intro x hx
        exact frame_unbiased (hown _ (List.mem_map_of_mem hx))
      · rfl

end Unbiased

section Bounded

/-- What holds at the start of every frame, and of every pick of it. -/
theorem mem_decodePicks {encoded : TensorData F} {state : DecoderState F} {joiner : S}
    {x : Nat × List (Pick F)} (hx : x ∈ decodePicks d encoded state joiner) :
    ∃ values l, Heard d l ∧ x.2 = framePicks d values x.1 l := by
  cases encoded with
  | i32 values => cases hx
  | i64 values => cases hx
  | f32 values =>
      unfold decodePicks at hx
      dsimp only at hx
      split_ifs at hx
      · obtain ⟨y, hy, rfl⟩ := List.mem_map.mp hx
        refine ⟨values, y.2, ?_, rfl⟩
        exact Loops.runs_invariant (I := Heard d) (fun _ _ _ h => h.frame)
          (heard_initial d state joiner) y hy
      · cases hx

/-- Every emitted token is one of the picks. -/
theorem exists_pick_of_emitted {encoded : TensorData F} {state : DecoderState F} {joiner : S}
    {info : TokenInfo F} (hinfo : info ∈ emitted d encoded state joiner) :
    ∃ x ∈ decodePicks d encoded state joiner, info.frameIndex = x.1 ∧ ∃ pick ∈ x.2,
      info.tokenId = pick.token ∧
        info.confidence = Logits.tokenConfidence pick.logits pick.token := by
  unfold emitted decodeFrames at hinfo
  unfold decodePicks
  cases encoded with
  | i32 values => cases hinfo
  | i64 values => cases hinfo
  | f32 values =>
      dsimp only at hinfo ⊢
      split_ifs at hinfo ⊢
      · obtain ⟨x, hx, hbefore, hafter⟩ :=
          Loops.exists_run (P := fun s : Loop F S => info ∈ s.tokens)
            (s := initial d state joiner) List.not_mem_nil hinfo
        obtain ⟨hframe, hpick⟩ := exists_pick_of_frame hbefore hafter
        exact ⟨_, List.mem_map_of_mem hx, hframe, hpick⟩
      · cases hinfo

/-- The glossary overturns one pick of a frame at most, and only to go on with a phrase that the
last labels spell a prefix of. It touches no confidence, so a decode in which it overturns no pick
is the decode without it. No glossary is built with a boost that is not positive. -/
theorem bias_bounded (d : Decode F S) (encoded : TensorData F) (state : DecoderState F)
    (joiner : S) (hadd : ∀ x y : F, 0 < y → x ≤ x + y)
    (hboost : ∀ b, d.biaser = some b → 0 < b.boost) :
    (∀ x ∈ decodePicks d encoded state joiner,
      x.2.countP (fun pick => pick.Differs d.blankId) ≤ 1 ∧
      ∀ pick ∈ x.2, pick.Differs d.blankId → ∃ b, d.biaser = some b ∧
        ∃ matched, matched <:+ pick.emitted.map TokenInfo.tokenId ∧
          ∃ node child, b.walk matched = some node ∧ b.child? node pick.token = some child) ∧
    (∀ info ∈ emitted d encoded state joiner, ∃ x ∈ decodePicks d encoded state joiner,
      info.frameIndex = x.1 ∧ ∃ pick ∈ x.2, info.tokenId = pick.token ∧
        info.confidence = Logits.tokenConfidence pick.logits pick.token) ∧
    ((∀ x ∈ decodePicks d encoded state joiner, ∀ pick ∈ x.2, ¬pick.Differs d.blankId) →
      greedyDecode d encoded state joiner = greedyDecode d.unbiased encoded state joiner) := by
  refine ⟨?_, fun info => exists_pick_of_emitted, ?_⟩
  · intro x hx
    obtain ⟨values, l, hheard, heq⟩ := mem_decodePicks hx
    rw [heq]
    refine ⟨framePicks_differs_le d values x.1 l, ?_⟩
    intro pick hpick hdiffers
    obtain ⟨y, hy, hmade⟩ := mem_framePicks.mp hpick
    obtain ⟨m, hready, _⟩ := pick?_cases hmade x.1
    exact differs_continues (fun b hb z => hadd z b.boost (hboost b hb))
      (heard_innerRuns hheard y hy) hready hdiffers
  · intro hown
    unfold greedyDecode decodeWith
    rw [decodeFrames_unbiased hown]
    rfl

/-- A glossary of one phrase of one token. -/
noncomputable def oneToken : Biaser EReal where
  nodes := [
    { children := [(0, 1)], isEnd := false, shortestPhrase := 1, depth := 0, isEntry := false,
      grant := 1 },
    { children := [], isEnd := true, shortestPhrase := 1, depth := 1, isEntry := true, grant := 1 }]
  boost := 1
  phraseCount := 1
  nodes_pos := by decide
  children_lt := by simp
  keys_nodup := by simp

/-- One frame of silence under that glossary. -/
noncomputable def glossed : Decode EReal Unit := { silence with biaser := some oneToken }

theorem bias_bounded_glossed :
    (∀ x ∈ decodePicks glossed (.f32 (List.replicate encDim 0)) freshState (),
      x.2.countP (fun pick => pick.Differs glossed.blankId) ≤ 1 ∧
      ∀ pick ∈ x.2, pick.Differs glossed.blankId → ∃ b, glossed.biaser = some b ∧
        ∃ matched, matched <:+ pick.emitted.map TokenInfo.tokenId ∧
          ∃ node child, b.walk matched = some node ∧ b.child? node pick.token = some child) ∧
    (∀ info ∈ emitted glossed (.f32 (List.replicate encDim 0)) freshState (),
      ∃ x ∈ decodePicks glossed (.f32 (List.replicate encDim 0)) freshState (),
        info.frameIndex = x.1 ∧ ∃ pick ∈ x.2, info.tokenId = pick.token ∧
          info.confidence = Logits.tokenConfidence pick.logits pick.token) ∧
    ((∀ x ∈ decodePicks glossed (.f32 (List.replicate encDim 0)) freshState (),
        ∀ pick ∈ x.2, ¬pick.Differs glossed.blankId) →
      greedyDecode glossed (.f32 (List.replicate encDim 0)) freshState () =
        greedyDecode glossed.unbiased (.f32 (List.replicate encDim 0)) freshState ()) := by
  refine bias_bounded glossed (.f32 (List.replicate encDim 0)) freshState ()
    (fun x y hy => le_add_of_nonneg_right (le_of_lt hy)) ?_
  intro b hb
  cases hb
  exact zero_lt_one

end Bounded

end Greedy

end Gigastt
