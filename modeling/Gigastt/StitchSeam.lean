import Gigastt.Stitch

/-!
A stitch cuts both lists inside the overlap and in order of time. So it keeps the words before the
overlap and after it, the result is sorted, and the retained prefix is the old one.
-/

namespace Gigastt

open Slices

section Partition

variable {α : Type*} {p q : α → Bool} {l : List α}

theorem partitionPoint_mono (h : ∀ a, p a = true → q a = true) :
    partitionPoint p l ≤ partitionPoint q l := by
  induction l with
  | nil => exact Nat.le_refl _
  | cons a l ih =>
      by_cases ha : p a
      · rw [partitionPoint, partitionPoint, List.takeWhile_cons_of_pos ha,
          List.takeWhile_cons_of_pos (h a ha)]
        exact Nat.succ_le_succ ih
      · rw [partitionPoint, List.takeWhile_cons_of_neg ha]
        exact Nat.zero_le _

theorem dropWhile_eq_filter (h : l.Pairwise fun a b => p b = true → p a = true) :
    l.dropWhile p = l.filter fun a => !p a := by
  induction l with
  | nil => rfl
  | cons a l ih =>
      obtain ⟨hhead, htail⟩ := List.pairwise_cons.mp h
      by_cases ha : p a
      · rw [List.dropWhile_cons_of_pos ha, ih htail, List.filter_cons_of_neg (by simp [ha])]
      · rw [List.dropWhile_cons_of_neg ha]
        refine (List.filter_eq_self.mpr fun b hb => ?_).symm
        rcases List.mem_cons.mp hb with rfl | hb
        · simpa using ha
        · have hpb : ¬p b = true := fun hpb => ha (hhead b hb hpb)
          simpa using hpb

end Partition

section Sorted

variable {words : List WordInfo}

theorem SortedWords.before (h : SortedWords words) (t : ℚ) :
    words.take (partitionPoint (fun w => w.start < t) words) =
      words.filter fun w => w.start < t := by
  rw [take_partitionPoint]
  refine takeWhile_eq_filter (h.imp fun hab hb => ?_)
  simp only [decide_eq_true_eq] at hb ⊢
  exact lt_of_le_of_lt hab hb

theorem SortedWords.upTo (h : SortedWords words) (t : ℚ) :
    words.take (partitionPoint (fun w => w.start ≤ t) words) =
      words.filter fun w => w.start ≤ t := by
  rw [take_partitionPoint]
  refine takeWhile_eq_filter (h.imp fun hab hb => ?_)
  simp only [decide_eq_true_eq] at hb ⊢
  exact le_trans hab hb

theorem SortedWords.past (h : SortedWords words) (t : ℚ) :
    words.drop (partitionPoint (fun w => w.start ≤ t) words) =
      words.filter fun w => t < w.start := by
  rw [drop_partitionPoint, dropWhile_eq_filter]
  · apply List.filter_congr
    intro w _
    simp only [← decide_not, not_le]
  · refine h.imp fun hab hb => ?_
    simp only [decide_eq_true_eq] at hb ⊢
    exact le_trans hab hb

end Sorted

/-- What a stitch promises about its result and the retained count. -/
structure Stitched (merged next : List WordInfo) (overlap : TimeRange)
    (result : List WordInfo × Nat) : Prop where
  sorted : SortedWords result.1
  retained_le : result.2 ≤ merged.length
  unchanged : result.1.take result.2 = merged.take result.2
  older : (merged.filter fun w => w.start < overlap.start) <+: result.1
  newer : (next.filter fun w => overlap.stop < w.start) <:+ result.1
  empty : next = [] → result = (merged, merged.length)

/-- A cut inside the overlap that is in order of time. -/
structure SeamCut (merged next : List WordInfo) (overlap : TimeRange) (a b : Nat) : Prop where
  old_ge : (overlap.bounds merged).1 ≤ a
  old_le : a ≤ merged.length
  new_le : b ≤ (overlap.bounds next).2
  ordered : ∀ x ∈ merged.take a, ∀ y ∈ next.drop b, x.start ≤ y.start

variable {merged next : List WordInfo} {overlap : TimeRange} {a b : Nat}

theorem SeamCut.stitched (h : SeamCut merged next overlap a b) (hmerged : SortedWords merged)
    (hnext : SortedWords next) (hsome : next ≠ []) :
    Stitched merged next overlap (merged.take a ++ next.drop b, a) where
  sorted := by
    refine List.pairwise_append.mpr ⟨hmerged.sublist (List.take_sublist ..),
      hnext.sublist (List.drop_sublist ..), h.ordered⟩
  retained_le := h.old_le
  unchanged := by
    rw [List.take_append_of_le_length (by rw [List.length_take, Nat.min_eq_left h.old_le]),
      List.take_take, Nat.min_self]
  older := by
    rw [← hmerged.before]
    have hbegins : merged.take (overlap.bounds merged).1 <+: merged.take a :=
      List.take_prefix_take_left h.old_ge
    exact hbegins.trans (List.prefix_append ..)
  newer := by
    rw [← hnext.past]
    have hsuffix : next.drop (overlap.bounds next).2 <:+ next.drop b := by
      rw [← Nat.add_sub_cancel' h.new_le, ← List.drop_drop]
      exact List.drop_suffix ..
    exact hsuffix.trans (List.suffix_append ..)
  empty hempty := absurd hempty hsome

section Aligned

variable (rnd : Rounding) (tables : CharTables)

/-- The best cut found, if any, lies within the aligned words and is in order. -/
def BestCut.Within (merged next : List WordInfo) (oldStart oldEnd newEnd : Nat)
    (best : BestCut) : Prop :=
  ∀ distance a b, best = some (distance, a, b) →
    oldStart ≤ a ∧ a ≤ oldEnd ∧ b ≤ newEnd ∧ orderedCut merged next a b = true

variable {oldStart newStart oldEnd newEnd : Nat}

theorem cutAtPair_within {seam : ℚ} {i j : Nat} {old new : WordInfo} {best : BestCut}
    (hbest : best.Within merged next oldStart oldEnd newEnd) (hstart : oldStart ≤ i)
    (hi : i < oldEnd) (hj : j < newEnd) :
    (cutAtPair rnd merged next seam i j old new best).Within merged next oldStart oldEnd newEnd := by
  have hpair : ∀ {distance : ℚ} {keepOld : Nat}, keepOld ≤ 1 →
      (orderedCut merged next (i + keepOld) (j + keepOld) && best.improvedBy distance) = true →
      BestCut.Within merged next oldStart oldEnd newEnd
        (some (distance, i + keepOld, j + keepOld)) := by
    intro distance keepOld hkeep hfits _ _ _ heq
    cases heq
    rw [Bool.and_eq_true] at hfits
    exact ⟨by omega, by omega, by omega, hfits.1⟩
  unfold cutAtPair
  dsimp only
  generalize hside : (if rnd.div (rnd.add old.start new.start) 2 ≤ seam then 1 else 0) = preferred
  have hle : preferred ≤ 1 := by
    rw [← hside]
    split <;> omega
  split
  · rename_i hfits
    exact hpair hle hfits
  · split
    · rename_i hfits
      exact hpair (Nat.sub_le _ _) hfits
    · exact hbest

theorem backtrack_within {seam : ℚ} {fuel : Nat} {olds news : List WordInfo} {best : BestCut}
    (hbest : best.Within merged next oldStart oldEnd newEnd)
    (holds : oldStart + olds.length ≤ oldEnd) (hnews : newStart + news.length ≤ newEnd) :
    (backtrack rnd tables merged next seam oldStart newStart fuel olds news best).Within merged next
      oldStart oldEnd newEnd := by
  induction fuel generalizing olds news best with
  | zero => exact hbest
  | succ fuel ih =>
      cases olds with
      | nil => exact hbest
      | cons old olds =>
          cases news with
          | nil => exact hbest
          | cons new news =>
              rw [List.length_cons] at holds hnews
              rw [backtrack]
              split
              · exact ih (cutAtPair_within rnd hbest (Nat.le_add_right _ _) (by omega) (by omega))
                  (by omega) (by omega)
              · split
                · exact ih hbest (by omega) (by rw [List.length_cons]; omega)
                · exact ih hbest (by rw [List.length_cons]; omega) (by omega)

theorem bounds_fst_le (horder : overlap.start ≤ overlap.stop) (words : List WordInfo) :
    (overlap.bounds words).1 ≤ (overlap.bounds words).2 := by
  apply partitionPoint_mono
  intro w hw
  simp only [decide_eq_true_eq] at hw ⊢
  exact le_trans hw.le horder

theorem bounds_snd_le (overlap : TimeRange) (words : List WordInfo) :
    (overlap.bounds words).2 ≤ words.length :=
  partitionPoint_le_length

/-- Sortedness turns the comparison at the cut into one of all kept words. -/
theorem orderedCut_ordered (hmerged : SortedWords merged) (hnext : SortedWords next)
    (ha : a ≤ merged.length) (hb : b ≤ next.length) (hcut : orderedCut merged next a b = true) :
    ∀ x ∈ merged.take a, ∀ y ∈ next.drop b, x.start ≤ y.start := by
  intro x hx y hy
  obtain ⟨i, hi, rfl⟩ := List.mem_take_iff_getElem.mp hx
  obtain ⟨j, hj, rfl⟩ := List.mem_drop_iff_getElem.mp hy
  have hlast : a - 1 < merged.length := by omega
  have hfirst : b < next.length := by omega
  have hle : merged[a - 1].start ≤ next[b].start := by
    simpa [orderedCut, List.getElem?_eq_getElem hlast, List.getElem?_eq_getElem hfirst,
      show a ≠ 0 by omega, show b ≠ next.length by omega] using hcut
  calc merged[i].start ≤ merged[a - 1].start := by
        rcases Nat.lt_or_ge i (a - 1) with hlt | hge
        · exact List.pairwise_iff_getElem.mp hmerged i (a - 1) _ _ hlt
        · have heq : i = a - 1 := by omega
          simp only [heq, le_refl]
    _ ≤ next[b].start := hle
    _ ≤ next[b + j].start := by
        rcases Nat.eq_zero_or_pos j with rfl | hpos
        · exact le_refl _
        · exact List.pairwise_iff_getElem.mp hnext b (b + j) _ _ (by omega)

/-- An aligned cut lies in the overlap, where the new window then has a word. -/
theorem alignedCut_within (horder : overlap.start ≤ overlap.stop)
    (hcut : alignedCut rnd tables merged next overlap = some (a, b)) :
    ((overlap.bounds merged).1 ≤ a ∧ a ≤ (overlap.bounds merged).2 ∧ b ≤ (overlap.bounds next).2 ∧
      orderedCut merged next a b = true) ∧ 0 < (overlap.bounds next).2 := by
  unfold alignedCut at hcut
  dsimp only at hcut
  split at hcut
  · cases hcut
  · rename_i hguard
    obtain ⟨⟨distance, cut⟩, hbest, hab⟩ := Option.map_eq_some_iff.mp hcut
    obtain rfl : cut = (a, b) := hab
    have hold := bounds_fst_le horder merged
    have hnew := bounds_fst_le horder next
    have hlen_old : (slice merged (overlap.bounds merged).1 (overlap.bounds merged).2).length = _ :=
      length_slice (bounds_snd_le overlap merged)
    have hlen_new : (slice next (overlap.bounds next).1 (overlap.bounds next).2).length = _ :=
      length_slice (bounds_snd_le overlap next)
    rw [Bool.or_eq_true, Bool.or_eq_true, Bool.or_eq_true, not_or, not_or, not_or] at hguard
    have hnonempty : slice next (overlap.bounds next).1 (overlap.bounds next).2 ≠ [] := by
      simpa using hguard.1.1.2
    have hpos := List.length_pos_of_ne_nil hnonempty
    have hnone : BestCut.Within merged next (overlap.bounds merged).1 (overlap.bounds merged).2
        (overlap.bounds next).2 none := fun _ _ _ h => by cases h
    refine ⟨backtrack_within rnd tables hnone ?_ ?_ _ _ _ hbest, by omega⟩
    · rw [List.length_reverse, hlen_old]
      omega
    · rw [List.length_reverse, hlen_new]
      omega

theorem alignedCut_seamCut (hmerged : SortedWords merged) (hnext : SortedWords next)
    (horder : overlap.start ≤ overlap.stop)
    (hcut : alignedCut rnd tables merged next overlap = some (a, b)) :
    SeamCut merged next overlap a b := by
  obtain ⟨⟨ha_ge, ha_le, hb_le, hordered⟩, _⟩ := alignedCut_within rnd tables horder hcut
  have hold_le := bounds_snd_le overlap merged
  have hnew_le := bounds_snd_le overlap next
  refine ⟨ha_ge, by omega, hb_le, ?_⟩
  exact orderedCut_ordered hmerged hnext (by omega) (by omega) hordered

/-- The repair touches at most the text of the first word. -/
theorem reconcileSeamCase_cases (old : List WordInfo) (boundary : Nat) (next : List WordInfo)
    (overlap : TimeRange) :
    reconcileSeamCase rnd tables old boundary next overlap = next ∨
      ∃ first rest lower, next = first :: rest ∧
        reconcileSeamCase rnd tables old boundary next overlap =
          { first with word := lower } :: rest := by
  unfold reconcileSeamCase
  split
  · rename_i first rest before aligned _
    split
    · exact .inl rfl
    · split
      · exact .inl rfl
      · rename_i lower _
        dsimp only
        split
        · exact .inr ⟨first, rest, lower, rfl, rfl⟩
        · exact .inl rfl
  · exact .inl rfl

/-- Rewording the first word, which lies in the overlap, keeps every promise of the cut. -/
theorem SeamCut.stitched_reworded {first : WordInfo} {rest : List WordInfo} {lower : Text}
    (h : SeamCut merged (first :: rest) overlap a 0) (hmerged : SortedWords merged)
    (hnext : SortedWords (first :: rest)) (hfirst : first.start ≤ overlap.stop) :
    Stitched merged (first :: rest) overlap
      (merged.take a ++ ({ first with word := lower } :: rest : List WordInfo).drop 0, a) := by
  have hreworded : SeamCut merged ({ first with word := lower } :: rest) overlap a 0 := by
    refine ⟨h.old_ge, h.old_le, Nat.zero_le _, fun x hx y hy => ?_⟩
    rcases List.mem_cons.mp hy with rfl | hy
    · exact h.ordered x hx first (List.mem_cons_self ..)
    · exact h.ordered x hx y (List.mem_cons_of_mem _ hy)
  have hsorted : SortedWords ({ first with word := lower } :: rest) := by
    obtain ⟨hhead, htail⟩ := List.pairwise_cons.mp hnext
    exact List.pairwise_cons.mpr ⟨hhead, htail⟩
  obtain ⟨hs, hle, hunchanged, holder, hnewer, _⟩ :=
    hreworded.stitched hmerged hsorted (List.cons_ne_nil _ _)
  refine ⟨hs, hle, hunchanged, holder, ?_, fun hnil => absurd hnil (List.cons_ne_nil _ _)⟩
  rw [List.filter_cons_of_neg (by simpa using hfirst)] at hnewer ⊢
  exact hnewer

theorem start_le_of_bounds_pos {first : WordInfo} {rest : List WordInfo}
    (h : 0 < (overlap.bounds (first :: rest)).2) : first.start ≤ overlap.stop := by
  by_contra hgt
  have hzero : partitionPoint (fun w => w.start ≤ overlap.stop) (first :: rest) = 0 := by
    rw [partitionPoint, List.takeWhile_cons_of_neg (by simpa using hgt), List.length_nil]
  exact absurd h (by rw [TimeRange.bounds, hzero]; exact Nat.lt_irrefl 0)

/-- The midpoint cut is inside the overlap too. -/
theorem midpoint_seamCut (hmerged : SortedWords merged) (hnext : SortedWords next)
    (hstart : rnd.IsValue overlap.start) (hstop : rnd.IsValue overlap.stop)
    (horder : overlap.start ≤ overlap.stop) :
    SeamCut merged next overlap (partitionPoint (fun w => w.start ≤ overlap.seam rnd) merged)
      (partitionPoint (fun w => w.start ≤ overlap.seam rnd) next) where
  old_ge := by
    apply partitionPoint_mono
    intro w hw
    simp only [decide_eq_true_eq] at hw ⊢
    exact le_trans hw.le (rnd.le_midpoint hstart horder)
  old_le := partitionPoint_le_length
  new_le := by
    apply partitionPoint_mono
    intro w hw
    simp only [decide_eq_true_eq] at hw ⊢
    exact le_trans hw (rnd.midpoint_le hstop horder)
  ordered x hx y hy := by
    rw [hmerged.upTo, List.mem_filter, decide_eq_true_eq] at hx
    rw [hnext.past, List.mem_filter, decide_eq_true_eq] at hy
    exact (lt_of_le_of_lt hx.2 hy.2).le

theorem stitchChunkWordsRetained_stitched (hmerged : SortedWords merged) (hnext : SortedWords next)
    (hstart : rnd.IsValue overlap.start) (hstop : rnd.IsValue overlap.stop)
    (horder : overlap.start ≤ overlap.stop) :
    Stitched merged next overlap (stitchChunkWordsRetained rnd tables merged next overlap) := by
  unfold stitchChunkWordsRetained
  split
  · rename_i hnil
    obtain rfl := List.isEmpty_iff.mp hnil
    refine ⟨hnext, Nat.zero_le _, rfl, List.nil_prefix, ?_, fun hnil => by rw [hnil]; rfl⟩
    rw [← hnext.past]
    exact List.drop_suffix ..
  · split
    · rename_i hnil
      obtain rfl := List.isEmpty_iff.mp hnil
      refine ⟨hmerged, Nat.le_refl _, rfl, ?_, List.nil_suffix, fun _ => rfl⟩
      rw [← hmerged.before]
      exact List.take_prefix ..
    · rename_i hsome
      have hne : next ≠ [] := fun hnil => hsome (by simp [hnil])
      dsimp only
      cases haligned : alignedCut rnd tables merged next overlap with
      | none =>
          exact (midpoint_seamCut rnd hmerged hnext hstart hstop horder).stitched hmerged hnext hne
      | some cut =>
          obtain ⟨a, b⟩ := cut
          have hcut := alignedCut_seamCut rnd tables hmerged hnext horder haligned
          have hpos := (alignedCut_within rnd tables horder haligned).2
          cases b with
          | succ b => exact hcut.stitched hmerged hnext hne
          | zero =>
              change Stitched merged next overlap
                (merged.take a ++ (reconcileSeamCase rnd tables merged a next overlap).drop 0, a)
              rcases reconcileSeamCase_cases rnd tables merged a next overlap with
                hsame | ⟨first, rest, lower, rfl, hreworded⟩
              · rw [hsame]
                exact hcut.stitched hmerged hnext hne
              · rw [hreworded]
                exact hcut.stitched_reworded hmerged hnext (start_le_of_bounds_pos hpos)

/-- The retained words are unchanged, whatever the order of the words. -/
theorem stitchChunkWordsRetained_unchanged (horder : overlap.start ≤ overlap.stop) :
    let result := stitchChunkWordsRetained rnd tables merged next overlap
    result.2 ≤ merged.length ∧ result.1.take result.2 = merged.take result.2 := by
  have hkept : ∀ {n : Nat} (rest : List WordInfo), n ≤ merged.length →
      n ≤ merged.length ∧ (merged.take n ++ rest).take n = merged.take n := by
    intro n rest hn
    have hlen : (merged.take n).length = n := List.length_take_of_le hn
    exact ⟨hn, List.take_left' hlen⟩
  unfold stitchChunkWordsRetained
  split
  · exact ⟨Nat.zero_le _, rfl⟩
  · split
    · exact ⟨Nat.le_refl _, rfl⟩
    · dsimp only
      cases haligned : alignedCut rnd tables merged next overlap with
      | none => exact hkept _ partitionPoint_le_length
      | some cut =>
          obtain ⟨⟨_, hold, _⟩, _⟩ := alignedCut_within rnd tables horder haligned
          exact hkept _ (hold.trans (bounds_snd_le overlap merged))

end Aligned

section Run

variable (rnd : Rounding) (tables : CharTables)

theorem overlapSeconds_le (prevEnd startSample : Nat) :
    (overlapSeconds rnd prevEnd startSample).start ≤
      (overlapSeconds rnd prevEnd startSample).stop := by
  refine rnd.monotone (div_le_div_of_nonneg_right ?_ (by norm_num))
  exact_mod_cast Nat.le_max_right prevEnd startSample

theorem stitchReport_false (merged : List WordInfo) (prevEnd startSample : Nat)
    (words : List WordInfo) :
    stitchReport rnd tables false merged prevEnd startSample words =
      stitchChunkWordsRetained rnd tables merged words
        (overlapSeconds rnd prevEnd startSample) := by
  rw [stitchReport, Bool.false_and, if_neg Bool.false_ne_true]

theorem stitchReport_unchanged (aborted : Bool) (merged : List WordInfo) (prevEnd startSample : Nat)
    (words : List WordInfo) :
    let result := stitchReport rnd tables aborted merged prevEnd startSample words
    result.2 ≤ merged.length ∧ result.1.take result.2 = merged.take result.2 := by
  have hcases : stitchReport rnd tables aborted merged prevEnd startSample words =
        (merged, merged.length) ∨
      stitchReport rnd tables aborted merged prevEnd startSample words =
        stitchChunkWordsRetained rnd tables merged words
          (overlapSeconds rnd prevEnd startSample) := ite_eq_or_eq _ _ _
  dsimp only
  rcases hcases with hreport | hreport
  · rw [hreport]
    exact ⟨Nat.le_refl _, rfl⟩
  · rw [hreport]
    exact stitchChunkWordsRetained_unchanged rnd tables (overlapSeconds_le rnd prevEnd startSample)

theorem stitchWindows_concat (front : List DecodedWindow) (w : DecodedWindow) :
    stitchWindows rnd tables (front ++ [w]) =
      ((stitchReport rnd tables false (stitchWindows rnd tables front).1
        (stitchWindows rnd tables front).2 w.startSample w.words).1, w.stop) := by
  rw [stitchWindows, List.foldl_append, List.foldl_cons, List.foldl_nil, stitchWindows]

/-- One window, onto a sorted transcript. -/
theorem stitchReport_stitched {merged words : List WordInfo} (hmerged : SortedWords merged)
    (hwords : SortedWords words) (prevEnd startSample : Nat) :
    Stitched merged words (overlapSeconds rnd prevEnd startSample)
      (stitchReport rnd tables false merged prevEnd startSample words) := by
  rw [stitchReport_false]
  exact stitchChunkWordsRetained_stitched rnd tables hmerged hwords (rnd.isValue_round _)
    (rnd.isValue_round _) (overlapSeconds_le rnd prevEnd startSample)

theorem sorted_stitchWindows {windows : List DecodedWindow}
    (hwords : ∀ w ∈ windows, SortedWords w.words) :
    SortedWords (stitchWindows rnd tables windows).1 := by
  induction windows using List.reverseRecOn with
  | nil => exact List.Pairwise.nil
  | append_singleton front w ih =>
      rw [stitchWindows_concat]
      have hfront := ih fun x hx => hwords x (List.mem_append_left _ hx)
      exact (stitchReport_stitched rnd tables hfront (hwords w (by simp)) _ _).sorted

/-- Every step of the window loop keeps the transcript sorted, keeps what lies outside the overlap,
and reports a prefix it leaves unchanged. The windows may lie anywhere. -/
theorem stitch_run (front : List DecodedWindow) (w : DecodedWindow)
    (hwords : ∀ x ∈ front ++ [w], SortedWords x.words) :
    let merged := (stitchWindows rnd tables front).1
    let overlap := overlapSeconds rnd (stitchWindows rnd tables front).2 w.startSample
    let result := stitchChunkWordsRetained rnd tables merged w.words overlap
    (stitchWindows rnd tables (front ++ [w])).1 = result.1 ∧
      Stitched merged w.words overlap result := by
  intro merged overlap result
  have hmerged : SortedWords merged :=
    sorted_stitchWindows rnd tables fun x hx => hwords x (List.mem_append_left _ hx)
  have hstitched := stitchReport_stitched rnd tables hmerged (hwords w (by simp))
    (stitchWindows rnd tables front).2 w.startSample
  rw [stitchReport_false] at hstitched
  refine ⟨?_, hstitched⟩
  rw [stitchWindows_concat, stitchReport_false]

/-- Two windows that both heard the word at their seam. -/
theorem stitch_run_two :
    let word := fun (text : String) (start : ℚ) =>
      ({ word := text.toList, start, stop := start + 1 / 5, confidence := 1, speaker := none } :
        WordInfo)
    let first : DecodedWindow := { startSample := 0, stop := 48000, words := [word "да" 1, word "нет" 2] }
    let second : DecodedWindow :=
      { startSample := 32000, stop := 80000, words := [word "Нет" 2, word "да" 4] }
    (∀ x ∈ [first] ++ [second], SortedWords x.words) ∧
      let merged := (stitchWindows Rounding.binary64 CharTables.russian [first]).1
      let overlap := overlapSeconds Rounding.binary64
        (stitchWindows Rounding.binary64 CharTables.russian [first]).2 second.startSample
      let result := stitchChunkWordsRetained Rounding.binary64 CharTables.russian merged
        second.words overlap
      (stitchWindows Rounding.binary64 CharTables.russian ([first] ++ [second])).1 = result.1 ∧
        Stitched merged second.words overlap result := by
  intro word first second
  have hwords : ∀ x ∈ [first] ++ [second], SortedWords x.words := by
    intro x hx
    simp only [List.cons_append, List.nil_append, List.mem_cons, List.not_mem_nil, or_false] at hx
    rcases hx with rfl | rfl <;> simp [SortedWords, first, second, word]
    norm_num
  exact ⟨hwords, stitch_run Rounding.binary64 CharTables.russian [first] second hwords⟩

end Run

end Gigastt
