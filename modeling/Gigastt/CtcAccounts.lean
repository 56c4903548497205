import Gigastt.CtcExact

/-!
What the prefix beam accounts for. A set of alignments is tracked beside the beam; each hypothesis
holds the mass of those that collapse to its labels, times the hotword scores of the labels. A frame
adds one block of alignments after another, each under the labels it belongs to.
-/

open scoped ENNReal
open Alignments

namespace Gigastt

namespace Ctc

/-- The probability of the paths that end in blank, or of those that do not. -/
noncomputable def Hypothesis.prob (hyp : Hypothesis EReal) (ends : Bool) : ℝ≥0∞ :=
  EReal.exp (if ends then hyp.pBlank else hyp.pNonblank)

/-- The factor of the hotword scores of the labels. -/
noncomputable def scoreFactor (b : Biaser EReal) (labels : List Nat) : ℝ≥0∞ :=
  EReal.exp (b.scoreLabels labels).1

/-- The alignment a hypothesis carries, with all its frames before `n`. -/
structure Carried (b : Biaser EReal) (n : Nat) (labels : List Nat) (hyp : Hypothesis EReal) :
    Prop where
  labels_eq : hyp.tokens.map TokenInfo.tokenId = labels
  ascending : hyp.tokens.Pairwise fun x y => x.frameIndex < y.frameIndex
  before : ∀ info ∈ hyp.tokens, info.frameIndex < n
  bias_eq : hyp.bias = (b.scoreLabels labels).2

variable {b : Biaser EReal} {blank n c : Nat} {weightAt : Nat → Nat → ℝ≥0∞}
  {S T : Finset (List Nat)} {next beams : Beam EReal} {labels : List Nat} {hyp : Hypothesis EReal}
  {ends : Bool}

theorem Carried.mono {m : Nat} (h : Carried b n labels hyp) (hnm : n ≤ m) :
    Carried b m labels hyp :=
  ⟨h.labels_eq, h.ascending, fun info hinfo => (h.before info hinfo).trans_le hnm, h.bias_eq⟩

theorem Carried.of_eq {hyp' : Hypothesis EReal} (h : Carried b n labels hyp)
    (htokens : hyp'.tokens = hyp.tokens) (hbias : hyp'.bias = hyp.bias) :
    Carried b n labels hyp' := by
  obtain ⟨hlabels, hascending, hbefore, hpath⟩ := h
  rw [← htokens] at hlabels hascending hbefore
  exact ⟨hlabels, hascending, hbefore, hbias.trans hpath⟩

/-- The beam holds the mass of the alignments of `S`. -/
structure Accounts (b : Biaser EReal) (blank : Nat) (weightAt : Nat → Nat → ℝ≥0∞) (n : Nat)
    (S : Finset (List Nat)) (beams : Beam EReal) : Prop where
  distinct : (beams.map Prod.fst).Nodup
  carried : ∀ x ∈ beams, Carried b n x.1 x.2
  prob_eq : ∀ x ∈ beams, ∀ ends,
    x.2.prob ends = scoreFactor b x.1 * mass blank weightAt S x.1 ends
  covered : ∀ a ∈ S, collapse blank a ∈ beams.map Prod.fst

/-- A hypothesis of the same labels with `amount` more on one side. -/
structure Credited (b : Biaser EReal) (n : Nat) (labels : List Nat) (ends : Bool) (amount : ℝ≥0∞)
    (old : Bool → ℝ≥0∞) (hyp : Hypothesis EReal) : Prop where
  carried : Carried b n labels hyp
  prob_eq : ∀ e, hyp.prob e = old e + if e = ends then amount else 0

theorem mass_uniform (h : Uniform blank T labels ends) (labels' : List Nat) (e : Bool) :
    mass blank weightAt T labels' e
      = if labels' = labels ∧ e = ends then ∑ a ∈ T, weight weightAt a else 0 := by
  by_cases heq : labels' = labels ∧ e = ends
  · rw [if_pos heq, heq.1, heq.2]
    exact h.mass_eq
  · rw [if_neg heq]
    exact h.mass_other (not_and_or.mp heq)

/-- Crediting a slot with the mass of a block of new alignments accounts for them. -/
theorem Accounts.upsert {update : Hypothesis EReal → Hypothesis EReal} {fresh : Hypothesis EReal}
    (h : Accounts b blank weightAt n S next) (hdisj : Disjoint S T)
    (huniform : Uniform blank T labels ends) {amount : ℝ≥0∞}
    (hamount : amount = scoreFactor b labels * ∑ a ∈ T, weight weightAt a)
    (hupdate : ∀ slot, Carried b n labels slot →
      Credited b n labels ends amount slot.prob (update slot))
    (hfresh : Credited b n labels ends amount (fun _ => 0) fresh) :
    Accounts b blank weightAt n (S ∪ T) (KeyedList.upsert labels update fresh next) := by
  have hmass (labels' : List Nat) (e : Bool) : mass blank weightAt (S ∪ T) labels' e
      = mass blank weightAt S labels' e
        + if labels' = labels ∧ e = ends then ∑ a ∈ T, weight weightAt a else 0 := by
    rw [mass_union hdisj, mass_uniform huniform]
  have hcredit (old : Bool → ℝ≥0∞) (hyp : Hypothesis EReal)
      (hhyp : Credited b n labels ends amount old hyp) (e : Bool)
      (hold : old e = scoreFactor b labels * mass blank weightAt S labels e) :
      hyp.prob e = scoreFactor b labels * mass blank weightAt (S ∪ T) labels e := by
    rw [hhyp.prob_eq, hmass, mul_add, ← hold, hamount]
    by_cases he : e = ends
    · rw [if_pos he, if_pos ⟨rfl, he⟩]
    · rw [if_neg he, if_neg fun hand => he hand.2, mul_zero]
  refine ⟨KeyedList.nodup_keys_upsert h.distinct, ?_, ?_, ?_⟩
  · intro x hx
    rcases KeyedList.mem_upsert h.distinct hx with ⟨hold, _⟩ | ⟨slot, hslot, rfl⟩ | ⟨_, rfl⟩
    · exact h.carried x hold
    · exact (hupdate slot (h.carried _ hslot)).carried
    · exact hfresh.carried
  · intro x hx e
    rcases KeyedList.mem_upsert h.distinct hx with ⟨hold, hne⟩ | ⟨slot, hslot, rfl⟩ | ⟨hnew, rfl⟩
    · rw [h.prob_eq x hold e, hmass, if_neg fun hand => hne hand.1, add_zero]
    · exact hcredit _ _ (hupdate slot (h.carried _ hslot)) e (h.prob_eq _ hslot e)
    · apply hcredit _ _ hfresh e
      rw [mass_eq_zero, mul_zero]
      rintro a ha rfl
      exact absurd (h.covered a ha) hnew
  · intro a ha
    rw [KeyedList.mem_keys_upsert]
    rcases Finset.mem_union.mp ha with ha | ha
    · exact Or.inr (h.covered a ha)
    · exact Or.inl (huniform a ha).1

section Merge

def Emission.inBlank : Emission EReal → Bool
  | .blank _ => true
  | .repeatLast _ => false

def Emission.amount : Emission EReal → EReal
  | .blank p => p
  | .repeatLast p => p

theorem prob_emit (slot : Hypothesis EReal) (emission : Emission EReal) (e : Bool) :
    (slot.emit emission).prob e
      = slot.prob e + if e = emission.inBlank then EReal.exp emission.amount else 0 := by
  cases emission <;> cases e
  · exact (add_zero _).symm
  · exact exp_logAddExp _ _
  · exact exp_logAddExp _ _
  · exact (add_zero _).symm

theorem credited_emit {slot : Hypothesis EReal} (h : Carried b n labels slot)
    (emission : Emission EReal) :
    Credited b n labels emission.inBlank (EReal.exp emission.amount) slot.prob
      (slot.emit emission) := by
  refine ⟨?_, prob_emit slot emission⟩
  cases emission <;> exact h.of_eq rfl rfl

theorem credited_emptyFrom (h : Carried b n labels hyp) (emission : Emission EReal) :
    Credited b n labels emission.inBlank (EReal.exp emission.amount) (fun _ => 0)
      (hyp.emptyFrom.emit emission) := by
  have hempty : hyp.emptyFrom.prob = fun _ => 0 := by
    funext e
    cases e <;> exact EReal.exp_bot
  have hslot : Carried b n labels hyp.emptyFrom := h.of_eq rfl rfl
  exact hempty ▸ credited_emit hslot emission

theorem Accounts.merge (h : Accounts b blank weightAt n S next) (hdisj : Disjoint S T)
    (hcarried : Carried b n labels hyp) {emission : Emission EReal}
    (huniform : Uniform blank T labels emission.inBlank)
    (hamount : EReal.exp emission.amount
      = scoreFactor b labels * ∑ a ∈ T, weight weightAt a) :
    Accounts b blank weightAt n (S ∪ T) (merge next labels hyp emission) :=
  h.upsert hdisj huniform hamount (fun _ hslot => credited_emit hslot emission)
    (credited_emptyFrom hcarried emission)

theorem credited_hypothesis {x : Extension EReal} (h : Carried b n labels x.hypothesis) :
    Credited b n labels false (EReal.exp x.p) (fun _ => 0) x.hypothesis := by
  refine ⟨h, fun e => ?_⟩
  cases e
  · exact (zero_add (EReal.exp x.p)).symm
  · exact EReal.exp_bot.trans (zero_add 0).symm

theorem prob_credit (x : Extension EReal) (slot : Hypothesis EReal) (e : Bool) :
    (x.credit slot).prob e = slot.prob e + if e = false then EReal.exp x.p else 0 := by
  have hblank : (x.credit slot).pBlank = slot.pBlank := by
    unfold Extension.credit
    split_ifs <;> rfl
  have hnonblank : (x.credit slot).pNonblank = logAddExp slot.pNonblank x.p := by
    unfold Extension.credit
    split_ifs <;> rfl
  cases e
  · show EReal.exp (x.credit slot).pNonblank = _
    rw [hnonblank]
    exact exp_logAddExp _ _
  · show EReal.exp (x.credit slot).pBlank = _
    rw [hblank]
    exact (add_zero _).symm

theorem credited_credit {x : Extension EReal} (h : Carried b n labels x.hypothesis)
    {slot : Hypothesis EReal} (hslot : Carried b n labels slot) :
    Credited b n labels false (EReal.exp x.p) slot.prob (x.credit slot) := by
  refine ⟨?_, prob_credit x slot⟩
  unfold Extension.credit
  split_ifs
  · exact h.of_eq rfl rfl
  · exact hslot.of_eq rfl rfl

theorem scoreFactor_concat (b : Biaser EReal) (labels : List Nat) (c : Nat) :
    scoreFactor b (labels ++ [c])
      = scoreFactor b labels * EReal.exp (b.scoreToken (b.scoreLabels labels).2 c).1 := by
  unfold scoreFactor
  rw [Biaser.scoreLabels_concat]
  exact EReal.exp_add _ _

theorem Carried.extend (h : Carried b n labels hyp) (confidence p : EReal) :
    Carried b (n + 1) (labels ++ [c])
      (Extension.hypothesis
        { tokens := hyp.tokens ++ [{ tokenId := c, frameIndex := n, confidence }], p,
          bias := (b.scoreToken hyp.bias c).2 }) where
  labels_eq := by
    show (hyp.tokens ++ [_]).map TokenInfo.tokenId = _
    rw [List.map_append, h.labels_eq]
    rfl
  ascending := by
    refine List.pairwise_append.mpr ⟨h.ascending, List.pairwise_singleton _ _, ?_⟩
    intro x hx y hy
    rw [List.mem_singleton.mp hy]
    exact h.before x hx
  before := by
    intro info hinfo
    rcases List.mem_append.mp hinfo with hinfo | hinfo
    · exact (h.before info hinfo).trans (Nat.lt_succ_self n)
    · rw [List.mem_singleton.mp hinfo]
      exact Nat.lt_succ_self n
  bias_eq := by
    show (b.scoreToken hyp.bias c).2 = _
    rw [Biaser.scoreLabels_concat, h.bias_eq]

end Merge

section Expand

variable {d : BeamSearch EReal} {t : Nat} {lp : List EReal} {E : Finset (List Nat)}

/-- What a frame relies on: positive probabilities and positive hotword factors. -/
structure Positive (d : BeamSearch EReal) (weightAt : Nat → Nat → ℝ≥0∞) (t : Nat)
    (lp : List EReal) : Prop where
  lp_eq : ∀ c < d.vocab, EReal.exp (lp.getD c 0) = weightAt t c
  weight_ne : ∀ c < d.vocab, weightAt t c ≠ 0
  factor_ne : ∀ labels, scoreFactor d.biaser labels ≠ 0

/-- An extension accounts for the alignments that emit its token in this frame. -/
theorem Accounts.extendWith (h : Accounts d.biaser blank weightAt (t + 1) E next)
    (hpos : Positive d weightAt t lp) (hc : c < d.vocab) (hdisj : Disjoint E T)
    (huniform : Uniform blank T (labels ++ [c]) false)
    (hcarried : Carried d.biaser t labels hyp) {p : EReal} {m : ℝ≥0∞}
    (hp : EReal.exp p = scoreFactor d.biaser labels * m)
    (hsum : ∑ a ∈ T, weight weightAt a = m * weightAt t c)
    (hne : ∀ a ∈ T, weight weightAt a ≠ 0) :
    Accounts d.biaser blank weightAt (t + 1) (E ∪ T)
      (d.extendWith t lp next labels hyp c p) := by
  have hamount : EReal.exp (p + lp.getD c 0 + (d.biaser.scoreToken hyp.bias c).1)
      = scoreFactor d.biaser (labels ++ [c]) * ∑ a ∈ T, weight weightAt a := by
    rw [EReal.exp_add, EReal.exp_add, hp, hpos.lp_eq c hc, scoreFactor_concat, hsum,
      hcarried.bias_eq]
    ring
  unfold BeamSearch.extendWith mergeExtension
  by_cases hbot : p + lp.getD c 0 + (d.biaser.scoreToken hyp.bias c).1 = ⊥
  · have hzero : ∑ a ∈ T, weight weightAt a = 0 := by
      rw [hbot, EReal.exp_bot] at hamount
      exact (mul_eq_zero.mp hamount.symm).resolve_left (hpos.factor_ne _)
    have hempty : T = ∅ := by
      apply Finset.eq_empty_of_forall_notMem
      intro a ha
      exact hne a ha (Finset.sum_eq_zero_iff.mp hzero a ha)
    rw [hempty, Finset.union_empty]
    simp only [if_pos (show _ = SingleArith.negInfinity from hbot)]
    exact h
  · simp only [if_neg (show ¬_ = SingleArith.negInfinity from hbot)]
    have hx := hcarried.extend (c := c) (SingleArith.exp (lp.getD c 0))
      (p + lp.getD c 0 + (d.biaser.scoreToken hyp.bias c).1)
    exact h.upsert hdisj huniform hamount (fun _ hslot => credited_credit hx hslot)
      (credited_hypothesis hx)

/-- The alignments behind a beam before frame `t`. -/
structure Tracked (d : BeamSearch EReal) (weightAt : Nat → Nat → ℝ≥0∞) (t : Nat)
    (S : Finset (List Nat)) (beams : Beam EReal) : Prop where
  accounts : Accounts d.biaser d.blankId weightAt t S beams
  length_eq : ∀ a ∈ S, a.length = t
  classes : ∀ a ∈ S, ∀ c ∈ a, c < d.vocab
  weight_ne : ∀ a ∈ S, weight weightAt a ≠ 0

theorem Tracked.prob_total (h : Tracked d weightAt t S beams) (hmem : (labels, hyp) ∈ beams) :
    EReal.exp hyp.total = scoreFactor d.biaser labels
      * (mass d.blankId weightAt S labels true + mass d.blankId weightAt S labels false) := by
  have hblank : EReal.exp hyp.pBlank = _ := h.accounts.prob_eq _ hmem true
  have hnonblank : EReal.exp hyp.pNonblank = _ := h.accounts.prob_eq _ hmem false
  rw [Hypothesis.total, exp_logAddExp, hblank, hnonblank, mul_add]

theorem Tracked.weight_block_ne (h : Tracked d weightAt t S beams) (hpos : Positive d weightAt t lp)
    {x : List Nat × Nat} (hc : x.2 < d.vocab) :
    ∀ a ∈ block d.blankId S x, weight weightAt a ≠ 0 := by
  intro b hb
  obtain ⟨a, ha, _, rfl⟩ := mem_block.mp hb
  rw [weight_concat, h.length_eq a ha]
  exact mul_ne_zero (h.weight_ne a ha) (hpos.weight_ne x.2 hc)

/-- One hypothesis and one class account for the alignments that the class makes of its own. -/
theorem Tracked.expand (h : Tracked d weightAt t S beams) (hpos : Positive d weightAt t lp)
    {x : (List Nat × Hypothesis EReal) × Nat} (hx : x.1 ∈ beams) (hc : x.2 < d.vocab)
    {done : List (List Nat × Nat)} (hnew : (x.1.1, x.2) ∉ done)
    (hnext : Accounts d.biaser d.blankId weightAt (t + 1) (grow d.blankId S done) next) :
    Accounts d.biaser d.blankId weightAt (t + 1) (grow d.blankId S ((x.1.1, x.2) :: done))
      (d.expand t lp next x) := by
  obtain ⟨⟨labels, hyp⟩, c⟩ := x
  have hlp := hpos.lp_eq c hc
  have hcarried : Carried d.biaser t labels hyp := h.accounts.carried _ hx
  have hdisj : Disjoint (grow d.blankId S done) (block d.blankId S (labels, c)) :=
    disjoint_grow_block hnew
  have hblock := h.weight_block_ne hpos (x := (labels, c)) hc
  rw [grow_cons]
  unfold BeamSearch.expand
  by_cases hbot : lp.getD c 0 = ⊥
  · rw [hbot, EReal.exp_bot] at hlp
    exact absurd hlp.symm (hpos.weight_ne c hc)
  simp only [if_neg (show ¬_ = SingleArith.negInfinity from hbot)]
  by_cases hblank : c = d.blankId
  · rw [if_pos hblank]
    apply hnext.merge hdisj (hcarried.mono (Nat.le_succ t))
    · subst hblank
      exact uniform_extend_blank.union uniform_extend_blank
    · show EReal.exp (hyp.total + lp.getD c 0) = _
      rw [EReal.exp_add, h.prob_total hx, hlp, sum_block h.length_eq, mul_assoc]
  rw [if_neg hblank]
  by_cases hlast : labels.getLast? = some c
  · rw [if_pos hlast, block, Finset.union_comm (extend _ c), ← Finset.union_assoc]
    rw [block, Finset.disjoint_union_right] at hdisj
    have hrepeat : Accounts d.biaser d.blankId weightAt (t + 1)
        (grow d.blankId S done ∪ extend (part d.blankId S labels false) c)
        (Ctc.merge next labels hyp (.repeatLast (hyp.pNonblank + lp.getD c 0))) := by
      apply hnext.merge hdisj.2 (hcarried.mono (Nat.le_succ t))
      · exact uniform_extend_repeat hblank hlast
      · show EReal.exp (hyp.pNonblank + lp.getD c 0) = _
        have hprob : EReal.exp hyp.pNonblank = _ := h.accounts.prob_eq _ hx false
        rw [EReal.exp_add, hprob, hlp, sum_extend_part h.length_eq, mul_assoc]
    apply hrepeat.extendWith hpos hc
    · exact Finset.disjoint_union_left.mpr ⟨hdisj.1, disjoint_extend_part (by simp)⟩
    · exact uniform_extend_label hblank (Or.inr rfl)
    · exact hcarried
    · exact h.accounts.prob_eq _ hx true
    · exact sum_extend_part h.length_eq
    · exact fun a ha => hblock a (Finset.mem_union_left _ ha)
  · rw [if_neg hlast]
    apply hnext.extendWith hpos hc hdisj
    · exact (uniform_extend_label hblank (Or.inl hlast)).union
        (uniform_extend_label hblank (Or.inl hlast))
    · exact hcarried
    · exact h.prob_total hx
    · exact sum_block h.length_eq _
    · exact hblock

end Expand

end Ctc

end Gigastt
