import Gigastt.StitchSeam
import Gigastt.Alignment
import Mathlib.Algebra.Order.Group.Synonym
import Mathlib.Algebra.Order.Monoid.Prod
import Mathlib.Algebra.Order.Ring.Rat

/-!
The correspondence of overlap words behind an aligned cut. In exact arithmetic no order-preserving
one has more pairs, or as many with less drift, and the stitched list keeps one word of each pair.
-/

namespace Gigastt

open Slices Alignment

section Selected

variable (rnd : Rounding) (tables : CharTables)

/-- The pairs that `backtrack` walks through. -/
def selectedPairs : Nat → List WordInfo → List WordInfo → List (Pair WordInfo WordInfo)
  | fuel + 1, old :: olds, new :: news =>
      let score := scores rnd tables (old :: olds) (new :: news)
      if copies rnd tables old new &&
          score = (scores rnd tables olds news).withMatch rnd (startDrift rnd old new) then
        ⟨olds.length, old, news.length, new⟩ :: selectedPairs fuel olds news
      else if score = scores rnd tables olds (new :: news) then
        selectedPairs fuel olds (new :: news)
      else selectedPairs fuel (old :: olds) news
  | _, _, _ => []

/-- The selected pairs, at their positions in the two lists. -/
def alignedPairs (merged next : List WordInfo) (overlap : TimeRange) :
    List (Pair WordInfo WordInfo) :=
  let (oldStart, oldEnd) := overlap.bounds merged
  let (newStart, newEnd) := overlap.bounds next
  let old := slice merged oldStart oldEnd
  let new := slice next newStart newEnd
  (selectedPairs rnd tables (old.length + new.length) old.reverse new.reverse).map
    (Pair.shift oldStart newStart)

def cutAt (merged next : List WordInfo) (seam : ℚ) (best : BestCut)
    (p : Pair WordInfo WordInfo) : BestCut :=
  cutAtPair rnd merged next seam p.i p.j p.a p.b best

variable {merged next : List WordInfo} {overlap : TimeRange} {seam : ℚ}

/-- The cut is chosen among the selected pairs, from the last one. -/
theorem backtrack_eq_foldl (oldStart newStart fuel : Nat) (olds news : List WordInfo)
    (best : BestCut) :
    backtrack rnd tables merged next seam oldStart newStart fuel olds news best =
      ((selectedPairs rnd tables fuel olds news).map (Pair.shift oldStart newStart)).foldl
        (cutAt rnd merged next seam) best := by
  induction fuel generalizing olds news best with
  | zero =>
      cases olds <;> cases news <;> rfl
  | succ fuel ih =>
      cases olds with
      | nil => rfl
      | cons old olds =>
          cases news with
          | nil => rfl
          | cons new news =>
              rw [backtrack, selectedPairs]
              split_ifs
              · exact ih olds news _
              · exact ih olds (new :: news) best
              · exact ih (old :: olds) news best

theorem alignedCut_eq_foldl
    (hold : (slice merged (overlap.bounds merged).1 (overlap.bounds merged).2).length ≤
      maxOverlapWords)
    (hnew : (slice next (overlap.bounds next).1 (overlap.bounds next).2).length ≤
      maxOverlapWords) :
    alignedCut rnd tables merged next overlap =
      ((alignedPairs rnd tables merged next overlap).foldl
        (cutAt rnd merged next (overlap.seam rnd)) none).map Prod.snd := by
  unfold alignedCut alignedPairs
  dsimp only
  rw [backtrack_eq_foldl]
  split_ifs with hguard
  · simp only [Bool.or_eq_true, List.isEmpty_iff, decide_eq_true_eq] at hguard
    rcases hguard with ((hempty | hempty) | hlong) | hlong
    · rw [hempty]
      cases (slice next (overlap.bounds next).1 (overlap.bounds next).2).length <;> rfl
    · rw [hempty]
      cases (slice merged (overlap.bounds merged).1 (overlap.bounds merged).2).length <;>
        cases (slice merged (overlap.bounds merged).1 (overlap.bounds merged).2).reverse <;> rfl
    · omega
    · omega
  · rfl

end Selected

section Table

/-- The order of the scores: more matches first, then less drift. -/
def Score.key (s : Score) : ℕ ×ₗ ℚᵒᵈ := toLex (s.hits, OrderDual.toDual s.drift)

theorem Score.key_injective : Function.Injective Score.key := by
  intro a b h
  cases a
  cases b
  simpa [Score.key] using h

theorem Score.betterThan_iff {a b : Score} : a.betterThan b = true ↔ b.key < a.key := by
  rw [Score.key, Score.key, Prod.Lex.toLex_lt_toLex]
  simp only [Score.betterThan, Bool.or_eq_true, Bool.and_eq_true, decide_eq_true_eq,
    OrderDual.toDual_lt_toDual, eq_comm (a := a.hits)]

theorem Score.key_better (a b : Score) :
    (if a.betterThan b then a else b).key = max b.key a.key := by
  split_ifs with hbetter
  · exact (max_eq_right (Score.betterThan_iff.mp hbetter).le).symm
  · exact (max_eq_left (not_lt.mp fun hlt => hbetter (Score.betterThan_iff.mpr hlt))).symm

/-- What one pair adds to a score. -/
def matchWeight (old new : WordInfo) : ℕ ×ₗ ℚᵒᵈ :=
  toLex (1, OrderDual.toDual (startDrift .exact old new))

theorem Score.key_withMatch (s : Score) (old new : WordInfo) :
    (s.withMatch .exact (startDrift .exact old new)).key = s.key + matchWeight old new := rfl

theorem total_matchWeight (pairs : List (Pair WordInfo WordInfo)) :
    total matchWeight pairs = toLex (pairs.length,
      OrderDual.toDual (pairs.map fun p => startDrift .exact p.a p.b).sum) := by
  induction pairs with
  | nil => rfl
  | cons p pairs ih =>
      have hsum : total matchWeight (p :: pairs) =
          matchWeight p.a p.b + total matchWeight pairs := by
        rw [total, List.map_cons, List.sum_cons, total]
      rw [hsum, ih, List.map_cons, List.sum_cons, List.length_cons, Nat.add_comm]
      rfl

variable (tables : CharTables)

/-- In exact arithmetic the score table meets the recurrence of the best matching. -/
theorem scores_recurrence :
    Recurrence (fun old new => copies .exact tables old new = true) matchWeight
      (fun olds news => (scores .exact tables olds news).key) where
  nil_left _ := rfl
  nil_right olds := by
    cases olds <;> rfl
  cons_pair old olds new news hcopies := by
    show (scoreCell _ _ _ _ _ _ _).key = _
    unfold scoreCell
    dsimp only
    rw [if_pos hcopies, Score.key_better, Score.key_better, Score.key_withMatch]
    rfl
  cons_skip old olds new news hcopies := by
    show (scoreCell _ _ _ _ _ _ _).key = _
    unfold scoreCell
    dsimp only
    rw [if_neg hcopies, Score.key_better]
    rfl

/-- The walk of `backtrack` is one back through the table. -/
theorem selectedPairs_traced {fuel : Nat} (olds news : List WordInfo)
    (hfuel : olds.length + news.length ≤ fuel) :
    Traced (fun old new => copies .exact tables old new = true) matchWeight
      (fun olds news => (scores .exact tables olds news).key) olds news
      (selectedPairs .exact tables fuel olds news) := by
  induction fuel generalizing olds news with
  | zero =>
      cases olds with
      | nil => exact Traced.nil_left news
      | cons old olds =>
          rw [List.length_cons] at hfuel
          omega
  | succ fuel ih =>
      cases olds with
      | nil => exact Traced.nil_left news
      | cons old olds =>
          cases news with
          | nil => exact Traced.nil_right (old :: olds)
          | cons new news =>
              rw [List.length_cons, List.length_cons] at hfuel
              rw [selectedPairs]
              split_ifs with hpair habove
              · rw [Bool.and_eq_true, decide_eq_true_eq] at hpair
                refine Traced.pair hpair.1 ?_ (ih olds news (by omega))
                rw [hpair.2, Score.key_withMatch]
              · refine Traced.left ?_ (ih olds (new :: news) (by rw [List.length_cons]; omega))
                exact congrArg Score.key habove
              · -- neither of the other two cells gave the score
                refine Traced.right ?_ (ih (old :: olds) news (by rw [List.length_cons]; omega))
                refine (scores_recurrence tables).eq_right ?_ ?_
                · intro hcopies hkey
                  rw [← Score.key_withMatch] at hkey
                  have heq := Score.key_injective hkey
                  simp [hcopies, heq] at hpair
                · exact fun hkey => habove (Score.key_injective hkey)

end Table

section Overlap

/-- The word starts in the overlap. -/
def InOverlap (overlap : TimeRange) (w : WordInfo) : Prop :=
  overlap.start ≤ w.start ∧ w.start ≤ overlap.stop

instance (overlap : TimeRange) (w : WordInfo) : Decidable (InOverlap overlap w) :=
  inferInstanceAs (Decidable (_ ∧ _))

/-- Two overlap words may stand for one spoken word. -/
structure MayMatch (tables : CharTables) (overlap : TimeRange) (old new : WordInfo) : Prop where
  old_in : InOverlap overlap old
  new_in : InOverlap overlap new
  key_ne : wordKey tables old.word ≠ []
  key_eq : wordKey tables old.word = wordKey tables new.word
  near : |old.start - new.start| ≤ 4 / 10

theorem copies_exact {tables : CharTables} {old new : WordInfo} :
    copies .exact tables old new = true ↔ wordKey tables old.word ≠ [] ∧
      wordKey tables old.word = wordKey tables new.word ∧ |old.start - new.start| ≤ 4 / 10 := by
  have hdrift : startDrift .exact old new = |old.start - new.start| := rfl
  have hmax : maxStartDrift .exact = 4 / 10 := rfl
  simp only [copies, hdrift, hmax, Bool.and_eq_true, Bool.not_eq_true', List.isEmpty_eq_false_iff,
    decide_eq_true_eq, and_assoc]

variable {words : List WordInfo} {overlap : TimeRange} {i : Nat} {w : WordInfo}

theorem bounds_fst_le_of (h : SortedWords words) (hw : words[i]? = some w)
    (hin : InOverlap overlap w) : (overlap.bounds words).1 ≤ i := by
  by_contra hlt
  have hbefore := (lt_partitionPoint_iff (h.imp fun hab hb => ?_) hw).mp (Nat.lt_of_not_le hlt)
  · exact absurd (of_decide_eq_true hbefore) (not_lt.mpr hin.1)
  · simp only [decide_eq_true_eq] at hb ⊢
    exact lt_of_le_of_lt hab hb

/-- The overlap words of a sorted list are the slice between its bounds. -/
theorem getElem?_overlap (h : SortedWords words) :
    (slice words (overlap.bounds words).1 (overlap.bounds words).2)[i]? = some w ↔
      words[(overlap.bounds words).1 + i]? = some w ∧ InOverlap overlap w := by
  rw [getElem?_slice]
  have hupto : words[(overlap.bounds words).1 + i]? = some w →
      ((overlap.bounds words).1 + i < (overlap.bounds words).2 ↔ w.start ≤ overlap.stop) := by
    intro hw
    refine (lt_partitionPoint_iff (h.imp fun hab hb => ?_) hw).trans decide_eq_true_iff
    simp only [decide_eq_true_eq] at hb ⊢
    exact le_trans hab hb
  have hfrom : words[(overlap.bounds words).1 + i]? = some w → overlap.start ≤ w.start := by
    intro hw
    by_contra hlt
    have hbefore := (lt_partitionPoint_iff (p := fun w => w.start < overlap.start)
      (h.imp fun hab hb => ?_) hw).mpr (decide_eq_true (not_le.mp hlt))
    · exact absurd hbefore (Nat.not_lt_of_le (Nat.le_add_right _ _))
    · simp only [decide_eq_true_eq] at hb ⊢
      exact lt_of_le_of_lt hab hb
  split_ifs with hlt
  · exact ⟨fun hw => ⟨hw, hfrom hw, (hupto hw).mp hlt⟩, fun hw => hw.1⟩
  · exact iff_of_false nofun fun hw => hlt ((hupto hw.1).mpr hw.2.2)

theorem length_overlap_le (h : SortedWords words) :
    (slice words (overlap.bounds words).1 (overlap.bounds words).2).length ≤
      words.countP fun w => InOverlap overlap w := by
  have hall : (slice words (overlap.bounds words).1 (overlap.bounds words).2).countP
      (fun w => InOverlap overlap w) =
        (slice words (overlap.bounds words).1 (overlap.bounds words).2).length := by
    apply List.countP_eq_length.mpr
    intro w hw
    obtain ⟨i, hi⟩ := List.mem_iff_getElem?.mp hw
    exact decide_eq_true ((getElem?_overlap h).mp hi).2
  rw [← hall]
  exact ((List.drop_sublist _ _).trans (List.take_sublist _ _)).countP_le

variable {tables : CharTables} {merged next : List WordInfo}
  {pairs : List (Pair WordInfo WordInfo)}

/-- A matching of the overlap words, at their positions in the lists. -/
theorem isMatching_shift (hmerged : SortedWords merged) (hnext : SortedWords next)
    (h : IsMatching (fun old new => copies .exact tables old new = true)
      (slice merged (overlap.bounds merged).1 (overlap.bounds merged).2)
      (slice next (overlap.bounds next).1 (overlap.bounds next).2) pairs) :
    IsMatching (MayMatch tables overlap) merged next
      (pairs.map (Pair.shift (overlap.bounds merged).1 (overlap.bounds next).1)) where
  ordered := by
    refine List.pairwise_map.mpr (h.ordered.imp fun hafter => ?_)
    exact ⟨Nat.add_lt_add_left hafter.1 _, Nat.add_lt_add_left hafter.2 _⟩
  left := by
    intro _ hmem
    obtain ⟨p, hp, rfl⟩ := List.mem_map.mp hmem
    exact ((getElem?_overlap hmerged).mp (h.left p hp)).1
  right := by
    intro _ hmem
    obtain ⟨p, hp, rfl⟩ := List.mem_map.mp hmem
    exact ((getElem?_overlap hnext).mp (h.right p hp)).1
  allowed := by
    intro _ hmem
    obtain ⟨p, hp, rfl⟩ := List.mem_map.mp hmem
    obtain ⟨hne, heq, hnear⟩ := copies_exact.mp (h.allowed p hp)
    exact ⟨((getElem?_overlap hmerged).mp (h.left p hp)).2,
      ((getElem?_overlap hnext).mp (h.right p hp)).2, hne, heq, hnear⟩

/-- Every matching lies in the overlap words. -/
theorem isMatching_unshift (hmerged : SortedWords merged) (hnext : SortedWords next)
    (h : IsMatching (MayMatch tables overlap) merged next pairs) :
    IsMatching (fun old new => copies .exact tables old new = true)
      (slice merged (overlap.bounds merged).1 (overlap.bounds merged).2)
      (slice next (overlap.bounds next).1 (overlap.bounds next).2)
      (pairs.map (Pair.unshift (overlap.bounds merged).1 (overlap.bounds next).1)) := by
  have hstart : ∀ p ∈ pairs, (overlap.bounds merged).1 ≤ p.i ∧ (overlap.bounds next).1 ≤ p.j :=
    fun p hp => ⟨bounds_fst_le_of hmerged (h.left p hp) (h.allowed p hp).old_in,
      bounds_fst_le_of hnext (h.right p hp) (h.allowed p hp).new_in⟩
  refine ⟨?_, ?_, ?_, ?_⟩
  · refine List.pairwise_map.mpr (h.ordered.imp_of_mem fun {p q} hp hq hafter => ?_)
    have hp := hstart p hp
    have hq := hstart q hq
    obtain ⟨hi, hj⟩ := hafter
    constructor
    · show q.i - _ < p.i - _
      omega
    · show q.j - _ < p.j - _
      omega
  · intro _ hmem
    obtain ⟨p, hp, rfl⟩ := List.mem_map.mp hmem
    refine (getElem?_overlap hmerged).mpr ⟨?_, (h.allowed p hp).old_in⟩
    rw [Pair.unshift, Nat.add_sub_cancel' (hstart p hp).1]
    exact h.left p hp
  · intro _ hmem
    obtain ⟨p, hp, rfl⟩ := List.mem_map.mp hmem
    refine (getElem?_overlap hnext).mpr ⟨?_, (h.allowed p hp).new_in⟩
    rw [Pair.unshift, Nat.add_sub_cancel' (hstart p hp).2]
    exact h.right p hp
  · intro _ hmem
    obtain ⟨p, hp, rfl⟩ := List.mem_map.mp hmem
    have hmay := h.allowed p hp
    exact copies_exact.mpr ⟨hmay.key_ne, hmay.key_eq, hmay.near⟩

end Overlap

section Kept

/-- The positions of the words a cut keeps: of the one list up to `a`, of the other from `b`. -/
def keptPositions (m n a b : Nat) : List (Nat ⊕ Nat) :=
  ((List.range m).take a).map Sum.inl ++ ((List.range n).drop b).map Sum.inr

theorem count_keptPositions {m n a b i j : Nat} (hi : i < m) (hj : j < n)
    (hbeside : (i < a ∧ j < b) ∨ (a ≤ i ∧ b ≤ j)) :
    (keptPositions m n a b).countP (fun x => x = Sum.inl i ∨ x = Sum.inr j) = 1 := by
  have hold : (((List.range m).take a).map Sum.inl).countP
      (fun x : Nat ⊕ Nat => x = Sum.inl i ∨ x = Sum.inr j) = if i < a then 1 else 0 := by
    have hpred : (fun x : Nat ⊕ Nat => decide (x = Sum.inl i ∨ x = Sum.inr j)) ∘ Sum.inl =
        fun x => x == i := by
      funext x
      simp [Bool.beq_eq_decide_eq]
    rw [List.countP_map, hpred, ← List.count_eq_countP, List.take_range,
      List.nodup_range.count]
    refine if_congr ?_ rfl rfl
    rw [List.mem_range]
    omega
  have hnew : (((List.range n).drop b).map Sum.inr).countP
      (fun x : Nat ⊕ Nat => x = Sum.inl i ∨ x = Sum.inr j) = if b ≤ j then 1 else 0 := by
    have hpred : (fun x : Nat ⊕ Nat => decide (x = Sum.inl i ∨ x = Sum.inr j)) ∘ Sum.inr =
        fun x => x == j := by
      funext x
      simp [Bool.beq_eq_decide_eq]
    rw [List.countP_map, hpred, ← List.count_eq_countP, List.range_eq_range', List.drop_range',
      (List.nodup_range' 1 Nat.one_pos).count]
    refine if_congr ?_ rfl rfl
    rw [List.mem_range'_1]
    omega
  rw [keptPositions, List.countP_append, hold, hnew]
  rcases hbeside with ⟨ha, hb⟩ | ⟨ha, hb⟩
  · rw [if_pos ha, if_neg (Nat.not_le_of_lt hb)]
  · rw [if_neg (Nat.not_lt_of_le ha), if_pos hb]

/-- The words at the kept positions. -/
theorem map_keptPositions (merged next : List WordInfo) (a b : Nat) :
    (keptPositions merged.length next.length a b).map
        (Sum.elim (fun i => merged[i]?) (fun j => next[j]?)) =
      (merged.take a ++ next.drop b).map some := by
  have hall : ∀ words : List WordInfo,
      (List.range words.length).map (fun i => words[i]?) = words.map some := by
    intro words
    apply List.ext_getElem (by simp)
    intro i hi hi'
    simp
  rw [keptPositions, List.map_append, List.map_append, List.map_map, List.map_map, Sum.elim_comp_inl,
    Sum.elim_comp_inr, List.map_take, List.map_drop, List.map_take, List.map_drop, hall, hall]

end Kept

section Cut

variable {rnd : Rounding} {tables : CharTables} {merged next : List WordInfo} {overlap : TimeRange}
  {a b : Nat}

/-- A pair may move the cut next to itself. -/
theorem cutAtPair_cases (rnd : Rounding) (merged next : List WordInfo) (seam : ℚ) (i j : Nat)
    (old new : WordInfo) (best : BestCut) :
    cutAtPair rnd merged next seam i j old new best = best ∨
      ∃ distance, ∃ k ≤ 1,
        cutAtPair rnd merged next seam i j old new best = some (distance, i + k, j + k) := by
  have hpreferred : (if rnd.div (rnd.add old.start new.start) 2 ≤ seam then 1 else 0) ≤ 1 := by
    split_ifs <;> omega
  unfold cutAtPair
  dsimp only
  split_ifs
  all_goals first
    | exact Or.inl rfl
    | exact Or.inr ⟨_, _, by omega, rfl⟩

theorem foldl_cutAt_cases (rnd : Rounding) (merged next : List WordInfo) (seam : ℚ)
    (pairs : List (Pair WordInfo WordInfo)) (best : BestCut) :
    pairs.foldl (cutAt rnd merged next seam) best = best ∨
      ∃ p ∈ pairs, ∃ distance, ∃ k ≤ 1,
        pairs.foldl (cutAt rnd merged next seam) best = some (distance, p.i + k, p.j + k) := by
  induction pairs using List.reverseRecOn with
  | nil => exact Or.inl rfl
  | append_singleton pairs p ih =>
      rw [List.foldl_append, List.foldl_cons, List.foldl_nil, cutAt]
      rcases cutAtPair_cases rnd merged next seam p.i p.j p.a p.b
        (pairs.foldl (cutAt rnd merged next seam) best) with hkept | ⟨distance, k, hk, hmoved⟩
      · rw [hkept]
        rcases ih with hsame | ⟨q, hq, hcut⟩
        · exact Or.inl hsame
        · exact Or.inr ⟨q, List.mem_append_left _ hq, hcut⟩
      · exact Or.inr ⟨p, List.mem_append_right _ (List.mem_singleton_self p), distance, k, hk, hmoved⟩

/-- The next words as a stitch with this cut takes them. -/
def reconciledNext (rnd : Rounding) (tables : CharTables) (merged next : List WordInfo)
    (overlap : TimeRange) : Option (Nat × Nat) → List WordInfo
  | some (oldEnd, 0) => reconcileSeamCase rnd tables merged oldEnd next overlap
  | _ => next

theorem length_reconciledNext (cut : Option (Nat × Nat)) :
    (reconciledNext rnd tables merged next overlap cut).length = next.length := by
  unfold reconciledNext
  split
  · rename_i oldEnd
    rcases reconcileSeamCase_cases rnd tables merged oldEnd next overlap with
      hsame | ⟨first, rest, lower, rfl, hreworded⟩
    · rw [hsame]
    · rw [hreworded]
      rfl
  · rfl

theorem nonempty_of_alignedCut {cut : Nat × Nat}
    (hcut : alignedCut rnd tables merged next overlap = some cut) :
    merged.isEmpty ≠ true ∧ next.isEmpty ≠ true := by
  constructor
  · intro hempty
    rw [List.isEmpty_iff.mp hempty] at hcut
    cases hcut
  · intro hempty
    rw [List.isEmpty_iff.mp hempty] at hcut
    simp [alignedCut, slice] at hcut

theorem stitchChunkWordsRetained_of_cut
    (hcut : alignedCut rnd tables merged next overlap = some (a, b)) :
    stitchChunkWordsRetained rnd tables merged next overlap =
      (merged.take a ++ (reconciledNext rnd tables merged next overlap (some (a, b))).drop b, a) := by
  obtain ⟨hmerged, hnext⟩ := nonempty_of_alignedCut hcut
  unfold stitchChunkWordsRetained
  rw [if_neg hmerged, if_neg hnext, hcut]
  cases b <;> rfl

/-- A cut keeps one word of each selected pair. -/
theorem count_kept (hordered : (alignedPairs rnd tables merged next overlap).Pairwise Pair.After)
    (hlen : ∀ p ∈ alignedPairs rnd tables merged next overlap,
      p.i < merged.length ∧ p.j < next.length)
    (hfold : (((alignedPairs rnd tables merged next overlap).foldl
      (cutAt rnd merged next (overlap.seam rnd)) none).map Prod.snd) = some (a, b)) :
    ∀ p ∈ alignedPairs rnd tables merged next overlap,
      (keptPositions merged.length next.length a b).countP
        (fun x => x = Sum.inl p.i ∨ x = Sum.inr p.j) = 1 := by
  obtain ⟨⟨distance, cut⟩, hbest, rfl⟩ := Option.map_eq_some_iff.mp hfold
  rcases foldl_cutAt_cases rnd merged next (overlap.seam rnd)
    (alignedPairs rnd tables merged next overlap) none with hnone | ⟨q, hq, _, k, hk, hcut⟩
  · rw [hnone] at hbest
    cases hbest
  · rw [hcut] at hbest
    cases hbest
    intro p hp
    exact count_keptPositions (hlen p hp).1 (hlen p hp).2 (beside_cut hordered hq hp hk)

end Cut

section Best

def totalDrift (pairs : List (Pair WordInfo WordInfo)) : ℚ :=
  (pairs.map fun p => |p.a.start - p.b.start|).sum

/-- A matching weighs no more when it has fewer pairs, or as many and no less drift. -/
theorem total_matchWeight_le {pairs other : List (Pair WordInfo WordInfo)} :
    total matchWeight other ≤ total matchWeight pairs ↔ other.length ≤ pairs.length ∧
      (other.length = pairs.length → totalDrift pairs ≤ totalDrift other) := by
  rw [total_matchWeight, total_matchWeight, Prod.Lex.toLex_le_toLex', OrderDual.toDual_le_toDual]
  rfl

/-- In exact arithmetic the selected matching has the most pairs, and of those with as many the
least drift. When it yields a cut, the stitched list keeps one word of each pair. -/
theorem alignedPairs_best (tables : CharTables) {merged next : List WordInfo} {overlap : TimeRange}
    (hmerged : SortedWords merged) (hnext : SortedWords next)
    (hold : merged.countP (fun w => InOverlap overlap w) ≤ maxOverlapWords)
    (hnew : next.countP (fun w => InOverlap overlap w) ≤ maxOverlapWords) :
    let pairs := alignedPairs .exact tables merged next overlap
    IsMatching (MayMatch tables overlap) merged next pairs ∧
    (∀ other, IsMatching (MayMatch tables overlap) merged next other →
      other.length ≤ pairs.length ∧
        (other.length = pairs.length → totalDrift pairs ≤ totalDrift other)) ∧
    alignedCut .exact tables merged next overlap =
      (pairs.foldl (cutAt .exact merged next (overlap.seam .exact)) none).map Prod.snd ∧
    ∀ a b, alignedCut .exact tables merged next overlap = some (a, b) →
      (stitchChunkWordsRetained .exact tables merged next overlap).1.map some =
        (keptPositions merged.length next.length a b).map
          (Sum.elim (fun i => merged[i]?) (fun j =>
            (reconciledNext .exact tables merged next overlap (some (a, b)))[j]?)) ∧
      ∀ p ∈ pairs, (keptPositions merged.length next.length a b).countP
        (fun x => x = Sum.inl p.i ∨ x = Sum.inr p.j) = 1 := by
  intro pairs
  have htraced := selectedPairs_traced tables
    (slice merged (overlap.bounds merged).1 (overlap.bounds merged).2).reverse
    (slice next (overlap.bounds next).1 (overlap.bounds next).2).reverse
    (Nat.le_of_eq (by rw [List.length_reverse, List.length_reverse]))
  obtain ⟨hselected, hlargest⟩ := htraced.largest (scores_recurrence tables)
  rw [List.reverse_reverse, List.reverse_reverse] at hselected hlargest
  have hmatching : IsMatching (MayMatch tables overlap) merged next pairs :=
    isMatching_shift hmerged hnext hselected
  have hfold := alignedCut_eq_foldl .exact tables ((length_overlap_le hmerged).trans hold)
    ((length_overlap_le hnext).trans hnew)
  refine ⟨hmatching, ?_, hfold, ?_⟩
  · intro other hother
    have hle := hlargest _ (isMatching_unshift hmerged hnext hother)
    rw [total_map_unshift] at hle
    refine total_matchWeight_le.mp (hle.trans_eq ?_)
    exact (total_map_shift _ _ _ _).symm
  · intro a b hcut
    refine ⟨?_, count_kept hmatching.ordered ?_ (hfold ▸ hcut)⟩
    · rw [stitchChunkWordsRetained_of_cut hcut, ← map_keptPositions, length_reconciledNext]
    · intro p hp
      exact ⟨(List.getElem?_eq_some_iff.mp (hmatching.left p hp)).1,
        (List.getElem?_eq_some_iff.mp (hmatching.right p hp)).1⟩

/-- Two windows whose overlap has one word in common. -/
theorem alignedPairs_best_two :
    let word := fun (text : String) (start : ℚ) =>
      ({ word := text.toList, start, stop := start + 1 / 5, confidence := 1, speaker := none } :
        WordInfo)
    let merged := [word "да" 1, word "нет" 2]
    let next := [word "Нет" 2, word "да" 4]
    let overlap : TimeRange := { start := 2, stop := 3 }
    let pairs := alignedPairs .exact .russian merged next overlap
    (SortedWords merged ∧ SortedWords next) ∧
      IsMatching (MayMatch .russian overlap) merged next pairs ∧
      ∀ other, IsMatching (MayMatch .russian overlap) merged next other →
        other.length ≤ pairs.length ∧
          (other.length = pairs.length → totalDrift pairs ≤ totalDrift other) := by
  intro word merged next overlap pairs
  have hmerged : SortedWords merged := by simp [SortedWords, merged, word]
  have hnext : SortedWords next := by
    simp [SortedWords, next, word]
    norm_num
  obtain ⟨hmatching, hbest, _⟩ := @alignedPairs_best .russian merged next overlap hmerged
    hnext (List.countP_le_length.trans (by simp [merged, maxOverlapWords]))
    (List.countP_le_length.trans (by simp [next, maxOverlapWords]))
  exact ⟨⟨hmerged, hnext⟩, hmatching, hbest⟩

end Best

end Gigastt
