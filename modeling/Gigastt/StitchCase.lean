import Gigastt.StitchMatching
import Mathlib.Data.List.TakeWhile

/-!
The repair of a window-start capital beside the plain cut: at most the first kept word of the next
window is respelled, as the aligned copy that the cut drops.
-/

namespace Gigastt

open Slices Alignment

section Positions

variable (rnd : Rounding) (tables : CharTables) {merged next : List WordInfo} {overlap : TimeRange}

/-- In any arithmetic the selected pairs are a matching of copies. -/
theorem selectedPairs_aligns (fuel : Nat) (olds news : List WordInfo) :
    Aligns (fun old new => copies rnd tables old new = true) olds news
      (selectedPairs rnd tables fuel olds news) := by
  induction fuel generalizing olds news with
  | zero => exact Aligns.nil olds news
  | succ fuel ih =>
      cases olds with
      | nil => exact Aligns.nil [] news
      | cons old olds =>
          cases news with
          | nil => exact Aligns.nil (old :: olds) []
          | cons new news =>
              rw [selectedPairs]
              split_ifs with hpair
              · exact Aligns.pair (Bool.and_eq_true_iff.mp hpair).1 (ih olds news)
              · exact Aligns.left (ih olds (new :: news))
              · exact Aligns.right (ih (old :: olds) news)

theorem selectedPairs_isMatching (fuel : Nat) (old new : List WordInfo) :
    IsMatching (fun old new => copies rnd tables old new = true) old new
      (selectedPairs rnd tables fuel old.reverse new.reverse) := by
  have hmatching := (selectedPairs_aligns rnd tables fuel old.reverse new.reverse).isMatching
  rwa [List.reverse_reverse, List.reverse_reverse] at hmatching

/-- An overlap word is at its position of the list. -/
theorem getElem?_of_slice {words : List WordInfo} {start stop i : Nat} {w : WordInfo}
    (h : (slice words start stop)[i]? = some w) :
    words[start + i]? = some w ∧ start + i < stop := by
  rw [getElem?_slice] at h
  split_ifs at h with hlt
  exact ⟨h, hlt⟩

/-- A pair of overlap words at these positions is among the selected ones. -/
structure Selected (merged next : List WordInfo) (overlap : TimeRange) (i j : Nat)
    (old new : WordInfo) : Prop where
  old_at : merged[i]? = some old
  new_at : next[j]? = some new
  old_in : (overlap.bounds merged).1 ≤ i ∧ i < (overlap.bounds merged).2
  new_in : (overlap.bounds next).1 ≤ j ∧ j < (overlap.bounds next).2
  copies_eq : copies rnd tables old new = true

theorem alignedPairs_selected {p : Pair WordInfo WordInfo}
    (hp : p ∈ alignedPairs rnd tables merged next overlap) :
    Selected rnd tables merged next overlap p.i p.j p.a p.b := by
  obtain ⟨q, hq, rfl⟩ := List.mem_map.mp hp
  have hmatching := selectedPairs_isMatching rnd tables
    ((slice merged (overlap.bounds merged).1 (overlap.bounds merged).2).length +
      (slice next (overlap.bounds next).1 (overlap.bounds next).2).length)
    (slice merged (overlap.bounds merged).1 (overlap.bounds merged).2)
    (slice next (overlap.bounds next).1 (overlap.bounds next).2)
  obtain ⟨hold, hold_in⟩ := getElem?_of_slice (hmatching.left q hq)
  obtain ⟨hnew, hnew_in⟩ := getElem?_of_slice (hmatching.right q hq)
  exact ⟨hold, hnew, ⟨Nat.le_add_right _ _, hold_in⟩, ⟨Nat.le_add_right _ _, hnew_in⟩,
    hmatching.allowed q hq⟩

theorem length_le_of_alignedCut {cut : Nat × Nat}
    (hcut : alignedCut rnd tables merged next overlap = some cut) :
    (slice merged (overlap.bounds merged).1 (overlap.bounds merged).2).length ≤ maxOverlapWords ∧
      (slice next (overlap.bounds next).1 (overlap.bounds next).2).length ≤ maxOverlapWords := by
  unfold alignedCut at hcut
  dsimp only at hcut
  split_ifs at hcut with hguard
  simp only [Bool.or_eq_true, decide_eq_true_eq, not_or, not_lt] at hguard
  exact ⟨hguard.1.2, hguard.2⟩

/-- A cut that keeps the whole next list drops the aligned copy of its first word. -/
theorem selected_of_cut_zero {a : Nat}
    (hcut : alignedCut rnd tables merged next overlap = some (a, 0)) :
    ∃ old new, Selected rnd tables merged next overlap a 0 old new := by
  obtain ⟨hold, hnew⟩ := length_le_of_alignedCut rnd tables hcut
  rw [alignedCut_eq_foldl rnd tables hold hnew] at hcut
  obtain ⟨⟨distance, cut⟩, hbest, hpair⟩ := Option.map_eq_some_iff.mp hcut
  obtain rfl : cut = (a, 0) := hpair
  rcases foldl_cutAt_cases rnd merged next (overlap.seam rnd)
    (alignedPairs rnd tables merged next overlap) none with hnone | ⟨p, hp, _, k, _, hmoved⟩
  · rw [hnone] at hbest
    cases hbest
  · rw [hmoved] at hbest
    simp only [Option.some.injEq, Prod.mk.injEq] at hbest
    obtain ⟨_, hi, hj⟩ := hbest
    have hselected := alignedPairs_selected rnd tables hp
    have hk : k = 0 := by omega
    rw [hk, Nat.add_zero] at hi
    rw [hi, show p.j = 0 by omega] at hselected
    exact ⟨p.a, p.b, hselected⟩

end Positions

section Unique

variable (rnd : Rounding) (tables : CharTables)

/-- The overlap word at position `i` has the key and starts close to the anchor. -/
def SoundsLike (words : List WordInfo) (overlap : TimeRange) (anchor : WordInfo) (key : Text)
    (i : Nat) : Prop :=
  (overlap.bounds words).1 ≤ i ∧ i < (overlap.bounds words).2 ∧ ∃ w, words[i]? = some w ∧
    startDrift rnd w anchor ≤ maxStartDrift rnd ∧ wordKey tables w.word = key

/-- Two positions of a list that meet `p` make two elements of its filter. -/
theorem eq_of_length_filter {α : Type*} {p : α → Bool} {l : List α} (h : (l.filter p).length = 1)
    {i j : Nat} {a b : α} (hi : l[i]? = some a) (hj : l[j]? = some b) (ha : p a = true)
    (hb : p b = true) : i = j := by
  induction l generalizing i j with
  | nil => cases hi
  | cons x l ih =>
      by_cases hx : p x
      · rw [List.filter_cons_of_pos hx, List.length_cons, Nat.add_eq_right,
          List.length_eq_zero_iff, List.filter_eq_nil_iff] at h
        have hzero : ∀ {k : Nat} {c : α}, (x :: l)[k]? = some c → p c = true → k = 0 := by
          intro k c hk hc
          cases k with
          | zero => rfl
          | succ k => exact absurd hc (h c (List.mem_of_getElem? hk))
        rw [hzero hi ha, hzero hj hb]
      · rw [List.filter_cons_of_neg hx] at h
        cases i with
        | zero =>
            rw [List.getElem?_cons_zero, Option.some.injEq] at hi
            exact absurd ha (hi ▸ hx)
        | succ i =>
            cases j with
            | zero =>
                rw [List.getElem?_cons_zero, Option.some.injEq] at hj
                exact absurd hb (hj ▸ hx)
            | succ j => exact congrArg Nat.succ (ih h hi hj)

variable {rnd tables} {words : List WordInfo} {overlap : TimeRange} {anchor w : WordInfo}
  {key : Text} {i : Nat}

theorem soundsLike_iff_of_unique (h : uniqueOverlapMatch rnd tables words anchor key overlap = true)
    (hi : SoundsLike rnd tables words overlap anchor key i) (j : Nat) :
    SoundsLike rnd tables words overlap anchor key j ↔ j = i := by
  have hlength : ((slice words (overlap.bounds words).1 (overlap.bounds words).2).filter fun w =>
      startDrift rnd w anchor ≤ maxStartDrift rnd && wordKey tables w.word = key).length = 1 := by
    have htake : (((slice words (overlap.bounds words).1 (overlap.bounds words).2).filter fun w =>
        startDrift rnd w anchor ≤ maxStartDrift rnd && wordKey tables w.word = key).take 2).length =
          1 := of_decide_eq_true h
    rw [List.length_take] at htake
    omega
  have hat : ∀ {k : Nat}, SoundsLike rnd tables words overlap anchor key k → ∃ w,
      (slice words (overlap.bounds words).1 (overlap.bounds words).2)[
        k - (overlap.bounds words).1]? = some w ∧
      (decide (startDrift rnd w anchor ≤ maxStartDrift rnd) &&
        decide (wordKey tables w.word = key)) = true := by
    rintro k ⟨hstart, hstop, w, hw, hnear, hkey⟩
    refine ⟨w, ?_, by simp [hnear, hkey]⟩
    rw [getElem?_slice, Nat.add_sub_cancel' hstart, if_pos hstop]
    exact hw
  refine ⟨fun hj => ?_, fun hj => hj ▸ hi⟩
  obtain ⟨a, ha, hpa⟩ := hat hi
  obtain ⟨b, hb, hpb⟩ := hat hj
  have heq := eq_of_length_filter hlength hb ha hpb hpa
  have hi' := hi.1
  have hj' := hj.1
  omega

end Unique

section Reworded

variable (rnd : Rounding) (tables : CharTables)

/-- The stitch without the repair. -/
def plainCut (merged next : List WordInfo) (overlap : TimeRange) : List WordInfo × Nat :=
  if merged.isEmpty then (next, 0)
  else if next.isEmpty then (merged, merged.length)
  else
    let (oldEnd, newStart) := (alignedCut rnd tables merged next overlap).getD
      (partitionPoint (fun w => w.start ≤ overlap.seam rnd) merged,
        partitionPoint (fun w => w.start ≤ overlap.seam rnd) next)
    (merged.take oldEnd ++ next.drop newStart, oldEnd)

/-- The aligned cut keeps all of the next words and drops, at position `a`, the copy of the first of
them. The copy differs in the case of a Cyrillic initial, and no other overlap word of either list
sounds like the two. -/
structure SeamCapital (merged next : List WordInfo) (overlap : TimeRange) (a : Nat)
    (first aligned : WordInfo) : Prop where
  cut : alignedCut rnd tables merged next overlap = some (a, 0)
  dropped : merged[a]? = some aligned
  kept : next.head? = some first
  initial : ∃ before capital after, first.word = before ++ capital :: after ∧
    (∀ c ∈ before, tables.isAlphabetic c = false) ∧ tables.isAlphabetic capital = true ∧
    CharTables.cyrillicUpper capital = true ∧
    aligned.word = before ++ tables.toLowercase capital ++ after
  key_eq : wordKey tables aligned.word = wordKey tables first.word
  unique_old : ∀ i, SoundsLike rnd tables merged overlap first (wordKey tables first.word) i ↔ i = a
  unique_new : ∀ j, SoundsLike rnd tables next overlap aligned (wordKey tables first.word) j ↔ j = 0

variable {rnd tables}

theorem lowerInitial_eq_some {word lower : Text} (h : lowerInitial tables word = some lower) :
    ∃ before capital after, word = before ++ capital :: after ∧
      (∀ c ∈ before, tables.isAlphabetic c = false) ∧ tables.isAlphabetic capital = true ∧
      CharTables.cyrillicUpper capital = true ∧
      lower = before ++ tables.toLowercase capital ++ after := by
  have hsplit := List.takeWhile_append_dropWhile (p := fun c => !tables.isAlphabetic c) (l := word)
  unfold lowerInitial at h
  split at h
  · cases h
  · rename_i capital after hrest
    dsimp only at h
    split_ifs at h with hupper
    have hne : word.dropWhile (fun c => !tables.isAlphabetic c) ≠ [] := by
      rw [hrest]
      exact List.cons_ne_nil _ _
    have hhead := List.head_dropWhile_not (fun c => !tables.isAlphabetic c) hne
    refine ⟨_, capital, after, (hrest ▸ hsplit).symm, ?_, ?_, ?_, (Option.some.inj h).symm⟩
    · intro c hc
      simpa using List.mem_takeWhile_imp hc
    · simpa [hrest] using hhead
    · simpa using hupper

/-- A repair that changes the words has found the conditions for it. -/
theorem reconcileSeamCase_eq (rnd : Rounding) (tables : CharTables) (old next : List WordInfo)
    (boundary : Nat) (overlap : TimeRange) :
    reconcileSeamCase rnd tables old boundary next overlap = next ∨
      ∃ first rest aligned, next = first :: rest ∧ old[boundary]? = some aligned ∧
        lowerInitial tables first.word = some aligned.word ∧
        uniqueOverlapMatch rnd tables old first (wordKey tables first.word) overlap = true ∧
        uniqueOverlapMatch rnd tables next aligned (wordKey tables first.word) overlap = true ∧
        reconcileSeamCase rnd tables old boundary next overlap =
          { first with word := aligned.word } :: rest := by
  unfold reconcileSeamCase
  split
  · rename_i first rest before aligned haligned
    split_ifs with hends
    · exact Or.inl rfl
    · split
      · exact Or.inl rfl
      · rename_i lower hlower
        dsimp only
        split_ifs with hmatch
        · simp only [Bool.and_eq_true, decide_eq_true_eq] at hmatch
          obtain ⟨⟨hword, hold⟩, hnew⟩ := hmatch
          exact Or.inr ⟨first, rest, aligned, rfl, haligned, hword ▸ hlower, hold, hnew,
            by rw [hword]⟩
        · exact Or.inl rfl
  · exact Or.inl rfl

theorem startDrift_comm (hodd : ∀ x, rnd.round (-x) = -rnd.round x) (v w : WordInfo) :
    startDrift rnd v w = startDrift rnd w v := by
  rw [startDrift, startDrift, Rounding.sub, Rounding.sub, ← neg_sub, hodd, abs_neg]

theorem plainCut_of_cut {merged next : List WordInfo} {overlap : TimeRange} {a b : Nat}
    (hcut : alignedCut rnd tables merged next overlap = some (a, b)) :
    plainCut rnd tables merged next overlap = (merged.take a ++ next.drop b, a) := by
  obtain ⟨hmerged, hnext⟩ := nonempty_of_alignedCut hcut
  unfold plainCut
  rw [if_neg hmerged, if_neg hnext, hcut]
  rfl

/-- A stitch is the plain cut, but for a window-start capital that the dropped copy of the word has
in lower case. Only that spelling changes, and not its key. -/
theorem stitch_conservative (hodd : ∀ x, rnd.round (-x) = -rnd.round x)
    (merged next : List WordInfo) (overlap : TimeRange) :
    stitchChunkWordsRetained rnd tables merged next overlap =
        plainCut rnd tables merged next overlap ∨
      ∃ a first rest aligned, SeamCapital rnd tables merged next overlap a first aligned ∧
        plainCut rnd tables merged next overlap = (merged.take a ++ first :: rest, a) ∧
        stitchChunkWordsRetained rnd tables merged next overlap =
          (merged.take a ++ { first with word := aligned.word } :: rest, a) := by
  cases hcut : alignedCut rnd tables merged next overlap with
  | none =>
      unfold stitchChunkWordsRetained plainCut
      rw [hcut]
      exact Or.inl rfl
  | some cut =>
      obtain ⟨a, b⟩ := cut
      rw [stitchChunkWordsRetained_of_cut hcut, plainCut_of_cut hcut]
      cases b with
      | succ b => exact Or.inl rfl
      | zero =>
          rw [reconciledNext]
          rcases reconcileSeamCase_eq rnd tables merged next a overlap with
            hsame | ⟨first, rest, aligned, rfl, haligned, hlower, hold, hnew, heq⟩
          · rw [hsame]
            exact Or.inl rfl
          · rw [heq]
            refine Or.inr ⟨a, first, rest, aligned, ?_, rfl, rfl⟩
            obtain ⟨old, new, hselected⟩ := selected_of_cut_zero rnd tables hcut
            have holdat := hselected.old_at
            rw [haligned, Option.some.injEq] at holdat
            have hnewat := hselected.new_at
            rw [List.getElem?_cons_zero, Option.some.injEq] at hnewat
            subst holdat hnewat
            have hcopies := hselected.copies_eq
            simp only [copies, Bool.and_eq_true, decide_eq_true_eq] at hcopies
            obtain ⟨⟨_, hkey⟩, hnear⟩ := hcopies
            refine ⟨hcut, haligned, rfl, lowerInitial_eq_some hlower, hkey, ?_, ?_⟩
            · exact soundsLike_iff_of_unique hold
                ⟨hselected.old_in.1, hselected.old_in.2, _, haligned, hnear, hkey⟩
            · refine soundsLike_iff_of_unique hnew
                ⟨hselected.new_in.1, hselected.new_in.2, _, rfl, ?_, rfl⟩
              rw [startDrift_comm hodd]
              exact hnear

/-- A window that begins a sentence in the middle of one. -/
theorem stitch_conservative_capital :
    let word := fun (text : String) (start : ℚ) =>
      ({ word := text.toList, start, stop := start + 1 / 5, confidence := 1, speaker := none } :
        WordInfo)
    let merged := [word "да" 1, word "нет" 2]
    let next := [word "Нет" 2, word "да" 4]
    let overlap : TimeRange := { start := 2, stop := 3 }
    let stitched := stitchChunkWordsRetained .binary64 .russian merged next overlap
    stitched = plainCut .binary64 .russian merged next overlap ∨
      ∃ a first rest aligned, SeamCapital .binary64 .russian merged next overlap a first aligned ∧
        plainCut .binary64 .russian merged next overlap = (merged.take a ++ first :: rest, a) ∧
        stitched = (merged.take a ++ { first with word := aligned.word } :: rest, a) := by
  intro word merged next overlap stitched
  exact stitch_conservative (Rounding.binary_neg 52) merged next overlap

end Reworded

end Gigastt
