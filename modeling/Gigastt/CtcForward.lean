import Gigastt.CtcAccounts

/-!
The beam after any number of frames: its hypotheses hold the mass of distinct alignments, and of all
of them as long as nothing was pruned.
-/

open scoped ENNReal
open Alignments

namespace Gigastt

namespace Ctc

section Frame

variable {d : BeamSearch EReal} {weightAt : Nat → Nat → ℝ≥0∞} {t : Nat} {lp : List EReal}
  {S : Finset (List Nat)} {beams next : Beam EReal}

/-- The labels and class a contribution is made of. -/
def pairKey (x : (List Nat × Hypothesis EReal) × Nat) : List Nat × Nat := (x.1.1, x.2)

theorem Tracked.foldl_expand (h : Tracked d weightAt t S beams) (hpos : Positive d weightAt t lp)
    {pairs : List ((List Nat × Hypothesis EReal) × Nat)} {done : List (List Nat × Nat)}
    (hpairs : ∀ x ∈ pairs, x.1 ∈ beams ∧ x.2 < d.vocab) (hnodup : (pairs.map pairKey).Nodup)
    (hnew : ∀ x ∈ pairs, pairKey x ∉ done)
    (hnext : Accounts d.biaser d.blankId weightAt (t + 1) (grow d.blankId S done) next) :
    Accounts d.biaser d.blankId weightAt (t + 1)
      (grow d.blankId S ((pairs.map pairKey).reverse ++ done))
      (pairs.foldl (d.expand t lp) next) := by
  induction pairs generalizing done next with
  | nil => exact hnext
  | cons x pairs ih =>
      obtain ⟨hx, hc⟩ := hpairs x List.mem_cons_self
      obtain ⟨hhead, htail⟩ := List.nodup_cons.mp hnodup
      rw [List.map_cons, List.reverse_cons, List.append_assoc, List.foldl_cons]
      apply ih (fun y hy => hpairs y (List.mem_cons_of_mem x hy)) htail
      · intro y hy hmem
        rcases List.mem_cons.mp hmem with heq | hmem
        · exact hhead (heq ▸ List.mem_map_of_mem hy)
        · exact hnew y (List.mem_cons_of_mem x hy) hmem
      · exact h.expand hpos hx hc (hnew x List.mem_cons_self) hnext

theorem nodup_pairKey {cands : List Nat} (hbeams : (beams.map Prod.fst).Nodup)
    (hcands : cands.Nodup) : ((beams.product cands).map pairKey).Nodup := by
  apply List.Nodup.map_on
  · rintro ⟨x, c⟩ hx ⟨y, c'⟩ hy heq
    obtain ⟨hlabels, rfl⟩ := Prod.mk.inj heq
    have hxy : x = y := List.inj_on_of_nodup_map hbeams (List.mem_product.mp hx).1
      (List.mem_product.mp hy).1 hlabels
    rw [hxy]
  · exact (List.Nodup.of_map _ hbeams).product hcands

theorem accounts_nil (b : Biaser EReal) (blank n : Nat) :
    Accounts b blank weightAt n ∅ [] :=
  ⟨List.nodup_nil, nofun, nofun, fun _ h => absurd h (Finset.notMem_empty _)⟩

/-- The alignments of the next frame: those of the beam, with a candidate behind. -/
noncomputable def nextAlignments (d : BeamSearch EReal) (t : Nat) (S : Finset (List Nat)) (beams : Beam EReal) :
    Finset (List Nat) :=
  grow d.blankId S (((beams.product (d.candidates (d.lp t) beams)).map pairKey).reverse)

theorem Tracked.mem_nextAlignments (h : Tracked d weightAt t S beams) {a : List Nat} :
    a ∈ nextAlignments d t S beams ↔
      ∃ b ∈ S, ∃ c ∈ d.candidates (d.lp t) beams, b ++ [c] = a := by
  rw [nextAlignments, mem_grow]
  constructor
  · rintro ⟨b, hb, c, hmem, rfl⟩
    obtain ⟨x, hx, hkey⟩ := List.mem_map.mp (List.mem_reverse.mp hmem)
    obtain ⟨_, rfl⟩ := Prod.mk.inj hkey
    exact ⟨b, hb, _, (List.mem_product.mp hx).2, rfl⟩
  · rintro ⟨b, hb, c, hc, rfl⟩
    obtain ⟨x, hx, hlabels⟩ := List.mem_map.mp (h.accounts.covered b hb)
    refine ⟨b, hb, c, List.mem_reverse.mpr (List.mem_map.mpr ⟨(x, c), ?_, ?_⟩), rfl⟩
    · exact List.mem_product.mpr ⟨hx, hc⟩
    · exact congrArg (·, c) hlabels

/-- A frame, before pruning. -/
theorem Tracked.expandFrame (h : Tracked d weightAt t S beams)
    (hpos : Positive d weightAt t (d.lp t)) :
    Tracked d weightAt (t + 1) (nextAlignments d t S beams) (d.expandFrame t beams) := by
  refine ⟨?_, ?_, ?_, ?_⟩
  · rw [nextAlignments, ← List.append_nil (List.reverse _)]
    apply h.foldl_expand hpos
    · intro x hx
      obtain ⟨hbeam, hc⟩ := List.mem_product.mp hx
      exact ⟨hbeam, candidates_lt hc⟩
    · exact nodup_pairKey h.accounts.distinct nodup_candidates
    · exact fun _ _ => List.not_mem_nil
    · exact accounts_nil _ _ _
  · intro a ha
    obtain ⟨b, hb, c, _, rfl⟩ := h.mem_nextAlignments.mp ha
    rw [List.length_append, h.length_eq b hb]
    rfl
  · intro a ha x hx
    obtain ⟨b, hb, c, hc, rfl⟩ := h.mem_nextAlignments.mp ha
    rcases List.mem_append.mp hx with hx | hx
    · exact h.classes b hb x hx
    · exact List.mem_singleton.mp hx ▸ candidates_lt hc
  · intro a ha
    obtain ⟨b, hb, c, hc, rfl⟩ := h.mem_nextAlignments.mp ha
    rw [weight_concat, h.length_eq b hb]
    exact mul_ne_zero (h.weight_ne b hb) (hpos.weight_ne c (candidates_lt hc))

/-- Dropping hypotheses drops their alignments. -/
theorem Tracked.keep (h : Tracked d weightAt t S beams) {kept : Beam EReal}
    (hkept : ∀ x ∈ kept, x ∈ beams) (hnodup : (kept.map Prod.fst).Nodup) :
    Tracked d weightAt t (S.filter fun a => collapse d.blankId a ∈ kept.map Prod.fst) kept := by
  refine ⟨⟨hnodup, fun x hx => h.accounts.carried x (hkept x hx), ?_, ?_⟩, ?_, ?_, ?_⟩
  · intro x hx ends
    rw [h.accounts.prob_eq x (hkept x hx) ends]
    congr 1
    unfold mass
    rw [Finset.filter_filter]
    apply Finset.sum_congr _ fun _ _ => rfl
    apply Finset.filter_congr
    intro a _
    constructor
    · rintro ⟨hlabels, hends⟩
      exact ⟨hlabels ▸ List.mem_map_of_mem hx, hlabels, hends⟩
    · exact And.right
  · exact fun a ha => (Finset.mem_filter.mp ha).2
  · exact fun a ha => h.length_eq a (Finset.mem_filter.mp ha).1
  · exact fun a ha => h.classes a (Finset.mem_filter.mp ha).1
  · exact fun a ha => h.weight_ne a (Finset.mem_filter.mp ha).1

end Frame

section Search

/-- A search over real logits with a real-valued glossary. -/
structure RealSearch where
  logProbs : List ℝ
  tLen : Nat
  vocab : Nat
  blankId : Nat
  biaser : Biaser ℝ
  abort : Option (Nat → Bool)
  selection : Selection EReal
  width : Nat
  topK : Nat

namespace RealSearch

/-- The search, computed in exact arithmetic. -/
noncomputable def exact (d : RealSearch) : BeamSearch EReal :=
  { logProbs := d.logProbs.map Real.toEReal, tLen := d.tLen, vocab := d.vocab,
    blankId := d.blankId, biaser := d.biaser.map Real.toEReal, abort := d.abort,
    selection := d.selection, width := d.width, topK := d.topK }

/-- The probability of class `c` in frame `t`. -/
noncomputable def classProb (d : RealSearch) (t c : Nat) : ℝ≥0∞ :=
  softmax ((d.logProbs.drop (t * d.vocab)).take d.vocab) c

/-- The sum of the hotword scores of the labels. -/
noncomputable def bonus (d : RealSearch) (labels : List Nat) : EReal :=
  (d.exact.biaser.scoreLabels labels).1

/-- Nothing was pruned in the first `n` frames. -/
def Unpruned (d : RealSearch) (n : Nat) : Prop :=
  d.vocab ≤ d.topK ∧
    ∀ t < n, (d.exact.expandFrame t (d.exact.beamsAfter t).1).length ≤ d.width

variable {d : RealSearch} {t n : Nat} {S : Finset (List Nat)} {beams : Beam EReal}

theorem row_eq (d : RealSearch) (t : Nat) :
    d.exact.row t = ((d.logProbs.drop (t * d.vocab)).take d.vocab).map Real.toEReal := by
  rw [BeamSearch.row, List.map_take, List.map_drop]
  rfl

theorem row_length (ht : t < d.exact.usable) :
    ((d.logProbs.drop (t * d.vocab)).take d.vocab).length = d.vocab := by
  have hle : t < d.logProbs.length / d.vocab := by
    have h := lt_of_lt_of_le ht (Nat.min_le_right _ _)
    rwa [exact, List.length_map] at h
  have hmul : (t + 1) * d.vocab ≤ d.logProbs.length :=
    (Nat.mul_le_mul_right d.vocab hle).trans (Nat.div_mul_le_self _ _)
  rw [List.length_take, List.length_drop]
  rw [Nat.add_mul, Nat.one_mul] at hmul
  omega

theorem softmax_ne_zero (row : List ℝ) (c : Nat) : softmax row c ≠ 0 := by
  have hsum : (row.map fun l : ℝ => EReal.exp l).sum ≠ ⊤ := by
    induction row with
    | nil => exact ENNReal.zero_ne_top
    | cons x row ih =>
        rw [List.map_cons, List.sum_cons]
        exact ENNReal.add_ne_top.mpr ⟨by simp, ih⟩
  have hexp : EReal.exp (row.getD c 0 : ℝ) ≠ 0 :=
    fun h => EReal.coe_ne_bot _ (EReal.exp_eq_zero_iff.mp h)
  exact (ENNReal.div_pos_iff.mpr ⟨hexp, hsum⟩).ne'

theorem bonus_real (d : RealSearch) (labels : List Nat) :
    d.bonus labels = ((d.biaser.scoreLabels labels).1 : ℝ) := by
  have hmap := Biaser.scoreLabels_map (f := Real.toEReal) EReal.coe_zero EReal.coe_add EReal.coe_neg
    d.biaser labels
  exact congrArg Prod.fst hmap

theorem positive (ht : t < d.exact.usable) :
    Positive d.exact d.classProb t (d.exact.lp t) := by
  refine ⟨?_, ?_, ?_⟩
  · intro c hc
    rw [BeamSearch.lp, row_eq]
    exact exp_logSoftmax ((row_length ht).symm ▸ hc)
  · exact fun c _ => softmax_ne_zero _ c
  · intro labels hzero
    have hbot := EReal.exp_eq_zero_iff.mp hzero
    exact EReal.coe_ne_bot _ ((bonus_real d labels).symm.trans hbot)

/-- The beam before frame `n` is accounted for, in full while nothing was pruned. -/
def Held (d : RealSearch) (n : Nat) (beams : Beam EReal) : Prop :=
  ∃ S, Tracked d.exact d.classProb n S beams ∧
    (d.Unpruned n → S = all (Finset.range d.vocab) n)

theorem held_start (d : RealSearch) : d.Held 0 BeamSearch.start := by
  have hmass : mass d.blankId d.classProb {[]} [] true = 1 := by
    have huniform : Uniform d.blankId {([] : List Nat)} [] true := by
      intro a ha
      rw [Finset.mem_singleton.mp ha]
      exact ⟨rfl, decide_eq_true rfl⟩
    rw [huniform.mass_eq, Finset.sum_singleton]
    rfl
  have hnone : mass d.blankId d.classProb {[]} [] false = 0 := by
    apply mass_eq_zero
    intro a ha _
    rw [Finset.mem_singleton.mp ha]
    exact fun h => Bool.false_ne_true (h.symm.trans (decide_eq_true rfl))
  refine ⟨{[]}, ⟨⟨List.nodup_singleton _, ?_, ?_, ?_⟩, ?_, ?_, ?_⟩, fun _ => rfl⟩
  · intro x hx
    rw [List.mem_singleton.mp hx]
    exact ⟨rfl, List.Pairwise.nil, nofun, rfl⟩
  · intro x hx ends
    rw [List.mem_singleton.mp hx]
    have hfactor : scoreFactor d.exact.biaser [] = 1 := EReal.exp_zero
    rw [hfactor, one_mul]
    cases ends
    · exact EReal.exp_bot.trans hnone.symm
    · exact EReal.exp_zero.trans hmass.symm
  · intro a ha
    rw [Finset.mem_singleton.mp ha]
    exact List.mem_cons_self
  · intro a ha
    rw [Finset.mem_singleton.mp ha]
    rfl
  · intro a ha
    rw [Finset.mem_singleton.mp ha]
    exact nofun
  · intro a ha
    rw [Finset.mem_singleton.mp ha]
    exact one_ne_zero

theorem lp_length (ht : t < d.exact.usable) : (d.exact.lp t).length = d.vocab := by
  rw [BeamSearch.lp, row_eq, logSoftmax, List.length_map, List.length_map, row_length ht]

theorem nextAlignments_all (h : Tracked d.exact d.classProb t (all (Finset.range d.vocab) t) beams)
    (ht : t < d.exact.usable) (htop : d.vocab ≤ d.topK) :
    nextAlignments d.exact t (all (Finset.range d.vocab) t) beams
      = all (Finset.range d.vocab) (t + 1) := by
  ext a
  simp only [h.mem_nextAlignments, all, Finset.mem_biUnion, mem_extend, Finset.mem_range]
  constructor
  · rintro ⟨b, hb, c, hc, rfl⟩
    exact ⟨c, candidates_lt hc, b, hb, rfl⟩
  · rintro ⟨c, hc, b, hb, rfl⟩
    exact ⟨b, hb, c, mem_candidates_of_le (lp_length ht) htop hc, rfl⟩

theorem Held.frame (h : d.Held t (d.exact.beamsAfter t).1) (ht : t < d.exact.usable) :
    d.Held (t + 1) (d.exact.prune (d.exact.expandFrame t (d.exact.beamsAfter t).1)) := by
  obtain ⟨S, htracked, hall⟩ := h
  have hnext := htracked.expandFrame (positive ht)
  have hkept := hnext.keep (fun _ => mem_of_mem_prune) 
    (nodup_keys_prune (d := d.exact) hnext.accounts.distinct)
  refine ⟨_, hkept, ?_⟩
  rintro ⟨htop, hwidth⟩
  have hS : S = all (Finset.range d.vocab) t :=
    hall ⟨htop, fun u hu => hwidth u (hu.trans (Nat.lt_succ_self t))⟩
  subst hS
  rw [Finset.filter_true_of_mem, nextAlignments_all htracked ht htop]
  intro a ha
  obtain ⟨x, hx, hlabels⟩ := List.mem_map.mp (hnext.accounts.covered a ha)
  exact List.mem_map.mpr ⟨x, mem_prune_of_le (hwidth t (Nat.lt_succ_self t)) hx, hlabels⟩

/-- Frame by frame, until the search ends. -/
theorem held_beamsAfter (hn : n ≤ d.exact.usable) :
    ∃ m ≤ n, ((d.exact.beamsAfter n).2 = none → m = n) ∧ d.Held m (d.exact.beamsAfter n).1 := by
  induction n with
  | zero => exact ⟨0, le_rfl, fun _ => rfl, held_start d⟩
  | succ n ih =>
      obtain ⟨m, hm, hmn, hheld⟩ := ih (Nat.le_of_succ_le hn)
      unfold BeamSearch.beamsAfter
      rw [List.range_succ]
      by_cases hnone : (d.exact.beamsAfter n).2 = none
      · rw [Loops.forEach_concat_next hnone]
        obtain rfl := hmn hnone
        show ∃ k ≤ m + 1, ((d.exact.frame m (d.exact.beamsAfter m).1).2 = none → k = m + 1) ∧
          d.Held k (d.exact.frame m (d.exact.beamsAfter m).1).1
        unfold BeamSearch.frame
        split_ifs
        · exact ⟨m, Nat.le_succ m, nofun, hheld⟩
        · exact ⟨m, Nat.le_succ m, nofun, hheld⟩
        · exact ⟨m + 1, le_rfl, fun _ => rfl, hheld.frame hn⟩
      · rw [Loops.forEach_concat_left hnone]
        exact ⟨m, hm.trans (Nat.le_succ n), fun h => absurd h hnone, hheld⟩

end RealSearch

open RealSearch in
/-- After the frames taken, `m` of the first `n`: the labels are distinct, each hypothesis carries an
alignment of its own labels, and its two probabilities are those of a set of alignments of `m` frames
that collapse to its labels and end in blank, or do not, under the hotword scores of the labels; of
all such alignments as long as nothing was pruned. -/
theorem beam_accounts (d : RealSearch) (n : Nat) (hn : n ≤ d.exact.usable) :
    ∃ m ≤ n, ((d.exact.beamsAfter n).2 = none → m = n) ∧
      ((d.exact.beamsAfter n).1.map Prod.fst).Nodup ∧
      ∀ x ∈ (d.exact.beamsAfter n).1,
        x.2.tokens.map TokenInfo.tokenId = x.1 ∧
        (x.2.tokens.Pairwise fun a b => a.frameIndex < b.frameIndex) ∧
        x.2.bias = (d.exact.biaser.scoreLabels x.1).2 ∧
        ∃ A : Bool → Finset (List Nat),
          (∀ ends, ∀ a ∈ A ends, a.length = m ∧ (∀ c ∈ a, c < d.vocab) ∧
            collapse d.blankId a = x.1 ∧ endsInBlank d.blankId a = ends) ∧
          EReal.exp x.2.pBlank
            = EReal.exp (d.bonus x.1) * ∑ a ∈ A true, weight d.classProb a ∧
          EReal.exp x.2.pNonblank
            = EReal.exp (d.bonus x.1) * ∑ a ∈ A false, weight d.classProb a ∧
          (d.Unpruned m → ∀ ends a, a ∈ A ends ↔ a.length = m ∧ (∀ c ∈ a, c < d.vocab) ∧
            collapse d.blankId a = x.1 ∧ endsInBlank d.blankId a = ends) := by
  obtain ⟨m, hm, hmn, S, htracked, hall⟩ := held_beamsAfter hn
  refine ⟨m, hm, hmn, htracked.accounts.distinct, fun x hx => ?_⟩
  have hcarried := htracked.accounts.carried x hx
  refine ⟨hcarried.labels_eq, hcarried.ascending, hcarried.bias_eq, part d.blankId S x.1, ?_,
    htracked.accounts.prob_eq x hx true, htracked.accounts.prob_eq x hx false, ?_⟩
  · intro ends a ha
    obtain ⟨haS, hlabels, hends⟩ := mem_part.mp ha
    exact ⟨htracked.length_eq a haS, htracked.classes a haS, hlabels, hends⟩
  · intro hunpruned ends a
    rw [mem_part, hall hunpruned, mem_all, and_assoc]
    simp only [Finset.mem_range]

/-- A trie of nothing but its root. -/
noncomputable def rootOnly : Biaser ℝ where
  nodes := [TrieNode.new 0]
  boost := 0
  phraseCount := 0
  nodes_pos := Nat.one_pos
  children_lt := by
    intro node hnode edge hedge
    rw [List.mem_singleton.mp hnode] at hedge
    cases hedge
  keys_nodup := by
    intro node hnode
    rw [List.mem_singleton.mp hnode]
    exact List.nodup_nil

/-- One frame over two classes, the blank and one label. -/
noncomputable def tinySearch : RealSearch :=
  { logProbs := [0, 0], tLen := 1, vocab := 2, blankId := 0, biaser := rootOnly, abort := none,
    selection := Selection.stable, width := 8, topK := 6 }

theorem beam_accounts_tiny :
    1 ≤ tinySearch.exact.usable ∧
      ∃ m ≤ 1, ((tinySearch.exact.beamsAfter 1).2 = none → m = 1) ∧
        ((tinySearch.exact.beamsAfter 1).1.map Prod.fst).Nodup := by
  have husable : 1 ≤ tinySearch.exact.usable := by decide
  obtain ⟨m, hm, hmn, hnodup, _⟩ := beam_accounts tinySearch 1 husable
  exact ⟨husable, m, hm, hmn, hnodup⟩

end Search

end Ctc

end Gigastt
