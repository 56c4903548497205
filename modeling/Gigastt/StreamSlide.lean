import Gigastt.Stream
import Mathlib.Data.List.TakeWhile

/-!
The window of a stream at its cap: which words are committed, and how far the window slides after it.
-/

namespace Gigastt

namespace StreamingState

variable {α : Type} (rnd : Rounding)

/-- One second before the end of the window. -/
def commitHorizon (s : StreamingState α) : ℚ :=
  rnd.sub (rnd.div ↑(s.windowStartSamples + s.audioBuffer.length) 16000) streamCommitHorizonSecs

/-- Where the committed coverage ends, in samples. -/
def coverageSamples (s : StreamingState α) : Nat :=
  (s.assembler.committedCoverageEnd.map fun stop => roundUsize (rnd.mul stop 16000)).getD 0

section Commit

variable {rnd} {s : StreamingState α}

/-- What is left of a list after the end of its first part is dropped. -/
theorem take_dropWhile_reverse {β : Type} (l : List β) (n : Nat) (p : β → Bool) :
    l.take ((l.take n).reverse.dropWhile p).length = ((l.take n).reverse.dropWhile p).reverse := by
  have hends : (l.take n).reverse.dropWhile p <:+ (l.take n).reverse := List.dropWhile_suffix p
  have hstarts := List.reverse_prefix.mpr hends
  rw [List.reverse_reverse] at hstarts
  have hall := hstarts.trans (List.take_prefix n l)
  rw [List.prefix_iff_eq_take, List.length_reverse] at hall
  exact hall.symm

/-- Only words within the horizon are committed. -/
theorem capCommitCount_within (hordered : InOrder s.assembler.words) :
    ∀ w ∈ s.assembler.words.take (s.capCommitCount rnd).1, w.stop ≤ s.commitHorizon rnd := by
  have hstreak : ∀ w ∈ s.assembler.words.take
      (s.assembler.words.takeWhile fun w => w.stop ≤ s.commitHorizon rnd).length,
        w.stop ≤ s.commitHorizon rnd := by
    rw [List.prefix_iff_eq_take.mp (List.takeWhile_prefix _) |>.symm]
    intro w hw
    simpa using List.mem_takeWhile_imp hw
  have hagreed : ∀ w ∈ s.assembler.words.take ((s.assembler.words.take s.agreedPrefix).reverse.dropWhile
      fun w => s.commitHorizon rnd < w.stop).length, w.stop ≤ s.commitHorizon rnd := by
    rw [take_dropWhile_reverse]
    intro w hw
    rw [List.mem_reverse] at hw
    cases hkept : (s.assembler.words.take s.agreedPrefix).reverse.dropWhile
        fun w => s.commitHorizon rnd < w.stop with
    | nil => rw [hkept] at hw; cases hw
    | cons last rest =>
        -- the last word that is left stands within the horizon, and the others end before it
        have hlast : last.stop ≤ s.commitHorizon rnd := by
          have hhead := List.head?_dropWhile_not (fun w : WordInfo => s.commitHorizon rnd < w.stop)
            (s.assembler.words.take s.agreedPrefix).reverse
          rw [hkept] at hhead
          simpa using hhead
        have hpairs : (last :: rest).Pairwise fun v w => w.stop ≤ v.start := by
          rw [← hkept]
          exact ((List.pairwise_reverse.mpr
            (hordered.apart.sublist (List.take_sublist _ _))).sublist (List.dropWhile_sublist _))
        have hmem : last ∈ s.assembler.words := by
          have hin : last ∈ (s.assembler.words.take s.agreedPrefix).reverse :=
            (List.dropWhile_sublist _).subset (hkept ▸ List.mem_cons_self)
          exact List.mem_of_mem_take (List.mem_reverse.mp hin)
        rw [hkept] at hw
        rcases List.mem_cons.mp hw with rfl | hw
        · exact hlast
        · have hbefore := (List.pairwise_cons.mp hpairs).1 w hw
          exact (hbefore.trans (hordered.forward last hmem)).trans hlast
  unfold capCommitCount
  dsimp only
  split_ifs
  · exact hstreak
  · exact fun w hw => absurd hw List.not_mem_nil
  · exact hagreed

theorem capCommitStablePrefix_zero (h : (s.capCommitStablePrefix rnd).2 = 0) :
    (s.capCommitStablePrefix rnd).1.assembler = s.assembler := by
  unfold capCommitStablePrefix TranscriptAssembler.commitPrefix at h ⊢
  dsimp only at h ⊢
  split_ifs with hzero
  · rfl
  · rw [if_neg hzero] at h
    exact absurd h hzero

/-- The words in front of the live tail that are committed. -/
theorem capCommitStablePrefix_words (s : StreamingState α) :
    let t := (s.capCommitStablePrefix rnd).1
    let n := (s.capCommitStablePrefix rnd).2
    n ≤ s.assembler.words.length ∧ n ≤ (s.capCommitCount rnd).1 ∧
      t.assembler.committedWords = s.assembler.committedWords ++ s.assembler.words.take n ∧
      t.assembler.words = s.assembler.words.drop n ∧
      t.windowStartSamples = s.windowStartSamples ∧ t.audioBuffer = s.audioBuffer := by
  unfold capCommitStablePrefix TranscriptAssembler.commitPrefix
  dsimp only
  split_ifs with hzero
  · simp
  · refine ⟨Nat.min_le_right _ _, Nat.min_le_left _ _, rfl, rfl, rfl, rfl⟩

end Commit

section Slide

variable {rnd} {s : StreamingState α} {first : Option ℚ}

/-- The window stays, or moves to its anchored start, or the move is a panic. -/
theorem slideStreamingWindowAnchored_eq (s : StreamingState α) (first : Option ℚ) :
    s.slideStreamingWindowAnchored rnd first =
      if s.coverageSamples rnd ≤ s.windowStartSamples then some s
      else
        let newStart := s.anchoredStart rnd (s.coverageSamples rnd) first
        if newStart < s.windowStartSamples ∨
            s.windowStartSamples + s.audioBuffer.length < newStart then none
        else some { s with
          audioBuffer := s.audioBuffer.drop (newStart - s.windowStartSamples)
          windowStartSamples := newStart
          contextSamples := s.coverageSamples rnd - newStart } := by
  unfold slideStreamingWindowAnchored coverageSamples
  cases s.assembler.committedCoverageEnd with
  | none => simp
  | some stop =>
      dsimp only [Option.map_some, Option.getD_some]
      generalize s.anchoredStart rnd (roundUsize (rnd.mul stop 16000)) first = newStart
      by_cases hcovered : roundUsize (rnd.mul stop 16000) ≤ s.windowStartSamples
      · rw [if_pos hcovered, if_pos hcovered]
      rw [if_neg hcovered, if_neg hcovered]
      by_cases hback : newStart < s.windowStartSamples
      · rw [if_pos hback, if_pos (Or.inl hback)]
      rw [if_neg hback, consumeAudioBuffer]
      by_cases hfits : newStart - s.windowStartSamples ≤ s.audioBuffer.length
      · have hwithin : ¬(newStart < s.windowStartSamples ∨
            s.windowStartSamples + s.audioBuffer.length < newStart) := by omega
        have hsum : s.windowStartSamples + (newStart - s.windowStartSamples) = newStart := by omega
        rw [if_pos hfits, if_neg hwithin, Option.map_some, hsum]
      · rw [if_neg hfits, if_pos (Or.inr (by omega))]
        rfl

theorem coverageSamples_eq {stop : ℚ} (hend : s.assembler.committedCoverageEnd = some stop) :
    s.coverageSamples rnd = roundUsize (rnd.mul stop 16000) := by
  rw [coverageSamples, hend]
  rfl

/-- The anchored start lies between the old one and the end of the coverage, and not past the first
live word. -/
theorem anchoredStart_between {stop : ℚ} (hend : s.assembler.committedCoverageEnd = some stop)
    (hcovers : s.windowStartSamples < s.coverageSamples rnd)
    (hfirst : ∀ start ∈ first, stop ≤ start) :
    s.windowStartSamples ≤ s.anchoredStart rnd (s.coverageSamples rnd) first ∧
      s.anchoredStart rnd (s.coverageSamples rnd) first ≤ s.coverageSamples rnd ∧
      ∀ start ∈ first, (s.anchoredStart rnd (s.coverageSamples rnd) first : ℚ) ≤
        rnd.mul start 16000 := by
  rw [coverageSamples_eq hend] at hcovers ⊢
  have hcoverage : ∀ start ∈ first,
      roundUsize (rnd.mul stop 16000) ≤ floorUsize (rnd.mul start 16000) + 1 ∧
        0 ≤ rnd.mul start 16000 := by
    intro start hstart
    have hmono : rnd.mul stop 16000 ≤ rnd.mul start 16000 :=
      rnd.monotone (mul_le_mul_of_nonneg_right (hfirst start hstart) (by norm_num))
    have hround : ⌊rnd.mul stop 16000 + 1 / 2⌋ ≤ ⌊rnd.mul start 16000⌋ + 1 := by
      rw [← Int.floor_add_one]
      exact Int.floor_le_floor (by linarith)
    have hpos : (1 : ℤ) ≤ ⌊rnd.mul stop 16000 + 1 / 2⌋ := by
      unfold roundUsize at hcovers
      omega
    have hhalf : (1 : ℚ) ≤ rnd.mul stop 16000 + 1 / 2 := by
      exact_mod_cast Int.le_floor.mp hpos
    unfold roundUsize floorUsize
    exact ⟨by omega, by linarith⟩
  unfold anchoredStart
  cases first with
  | none =>
      dsimp only
      exact ⟨Nat.le_max_right _ _, by omega, nofun⟩
  | some start =>
      dsimp only
      obtain ⟨hnear, hnonneg⟩ := hcoverage start rfl
      refine ⟨by omega, by omega, fun start' hstart' => ?_⟩
      obtain rfl := Option.mem_some.mp hstart'
      calc ((min (max (roundUsize (rnd.mul stop 16000) - streamLeftContextSamples)
              s.windowStartSamples) (floorUsize (rnd.mul start 16000)) : ℕ) : ℚ)
          ≤ (floorUsize (rnd.mul start 16000) : ℚ) := by exact_mod_cast Nat.min_le_right _ _
        _ = ((⌊rnd.mul start 16000⌋ : ℤ) : ℚ) := by
            rw [floorUsize, ← Int.cast_natCast, Int.toNat_of_nonneg (Int.floor_nonneg.mpr hnonneg)]
        _ ≤ rnd.mul start 16000 := Int.floor_le _

end Slide

section Safe

variable {rnd}

/-- Three roundings do not use up the second before the end of the window. -/
theorem roundUsize_le_of_within (hrnd : rnd.Precise) {stop : ℚ} {size : Nat} (hsize : size < 2 ^ 64)
    (hstop : stop ≤ rnd.sub (rnd.div ↑size 16000) streamCommitHorizonSecs) :
    roundUsize (rnd.mul stop 16000) ≤ size := by
  have hedge : rnd.div ↑size 16000 ≤ size / 16000 * (1 + 1 / 2 ^ 53) :=
    hrnd.le_round (by positivity)
  have hbound : rnd.mul stop 16000 ≤ size := by
    rcases le_total (rnd.div ↑size 16000 - streamCommitHorizonSecs) 0 with hneg | hnonneg
    · have hhorizon : rnd.sub (rnd.div ↑size 16000) streamCommitHorizonSecs ≤ 0 :=
        (rnd.monotone hneg).trans_eq rnd.round_zero
      calc rnd.mul stop 16000 ≤ rnd.round 0 := rnd.monotone (by linarith)
        _ = 0 := rnd.round_zero
        _ ≤ size := Nat.cast_nonneg size
    · have hsecond : streamCommitHorizonSecs = 1 := rfl
      have hhorizon := hstop.trans (hrnd.le_round hnonneg)
      have hscaled : rnd.mul stop 16000 ≤
          (rnd.div ↑size 16000 - streamCommitHorizonSecs) * (1 + 1 / 2 ^ 53) * 16000 *
            (1 + 1 / 2 ^ 53) :=
        (rnd.monotone (mul_le_mul_of_nonneg_right hhorizon (by norm_num))).trans
          (hrnd.le_round (by positivity))
      have hlarge : (size : ℚ) ≤ 2 ^ 64 := by exact_mod_cast hsize.le
      rw [hsecond] at hscaled
      linarith
  have hfloor : ⌊rnd.mul stop 16000 + 1 / 2⌋ ≤ size := by
    refine Int.le_of_lt_add_one (Int.floor_lt.mpr ?_)
    push_cast
    linarith
  exact Int.toNat_le.mpr hfloor

theorem cap_commit_safe (hrnd : rnd.Precise) (s : StreamingState α)
    (hordered : InOrder s.assembler.words)
    (hsize : s.windowStartSamples + s.audioBuffer.length < 2 ^ 64) :
    let t := (s.capCommitStablePrefix rnd).1
    let n := (s.capCommitStablePrefix rnd).2
    let first := t.assembler.words.head?.map WordInfo.start
    let newStart := t.anchoredStart rnd (t.coverageSamples rnd) first
    (t.assembler.committedWords = s.assembler.committedWords ++ s.assembler.words.take n ∧
      ∀ w ∈ s.assembler.words.take n, w.stop ≤ s.commitHorizon rnd) ∧
    (n = 0 → t.assembler = s.assembler) ∧
    (0 < n → ∃ u, t.slideStreamingWindowAnchored rnd first = some u ∧
      (t.windowStartSamples < t.coverageSamples rnd →
        t.windowStartSamples ≤ newStart ∧ newStart ≤ t.coverageSamples rnd ∧
        newStart - t.windowStartSamples ≤ t.audioBuffer.length ∧
        u.windowStartSamples = newStart ∧ u.contextSamples = t.coverageSamples rnd - newStart) ∧
      (u.windowStartSamples ≠ t.windowStartSamples →
        ∀ start ∈ first, (u.windowStartSamples : ℚ) ≤ rnd.mul start 16000)) := by
  intro t n first newStart
  obtain ⟨hlength, hcount, hcommitted, hlive, hstart, hbuffer⟩ := @capCommitStablePrefix_words _ rnd s
  have hwithin : ∀ w ∈ s.assembler.words.take n, w.stop ≤ s.commitHorizon rnd := fun w hw =>
    capCommitCount_within hordered w ((List.take_prefix_take_left hcount).subset hw)
  refine ⟨⟨hcommitted, hwithin⟩, capCommitStablePrefix_zero, fun hpos => ?_⟩
  obtain ⟨last, hlast⟩ : ∃ last, (s.assembler.words.take n).getLast? = some last := by
    rw [← Option.isSome_iff_exists, List.getLast?_isSome, ← List.length_pos_iff, List.length_take]
    exact lt_min hpos (lt_of_lt_of_le hpos hlength)
  have hend : t.assembler.committedCoverageEnd = some last.stop := by
    rw [TranscriptAssembler.committedCoverageEnd, hcommitted, List.getLast?_append, hlast]
    rfl
  have hfirst : ∀ start ∈ first, last.stop ≤ start := by
    intro start hstart
    obtain ⟨w, hw, rfl⟩ := Option.mem_map.mp hstart
    have hsplit := hordered.apart
    rw [← List.take_append_drop n s.assembler.words] at hsplit
    refine (List.pairwise_append.mp hsplit).2.2 last (List.mem_of_getLast? hlast) w ?_
    rw [← hlive]
    exact List.mem_of_mem_head? hw
  have hfits : t.coverageSamples rnd ≤ t.windowStartSamples + t.audioBuffer.length := by
    rw [coverageSamples_eq hend, hstart, hbuffer]
    exact roundUsize_le_of_within hrnd hsize (hwithin last (List.mem_of_getLast? hlast))
  rw [slideStreamingWindowAnchored_eq]
  by_cases hcovers : t.windowStartSamples < t.coverageSamples rnd
  · obtain ⟨hforward, hcontext, hword⟩ := anchoredStart_between hend hcovers hfirst
    have hpossible : ¬(newStart < t.windowStartSamples ∨
        t.windowStartSamples + t.audioBuffer.length < newStart) := by
      have hle : newStart ≤ t.coverageSamples rnd := hcontext
      have hge : t.windowStartSamples ≤ newStart := hforward
      omega
    rw [if_neg (not_le.mpr hcovers)]
    dsimp only
    rw [if_neg hpossible]
    refine ⟨_, rfl, fun _ => ⟨hforward, hcontext, ?_, rfl, rfl⟩, fun _ => hword⟩
    exact Nat.sub_le_iff_le_add'.mpr (hcontext.trans hfits)
  · rw [if_pos (not_lt.mp hcovers)]
    exact ⟨t, rfl, fun h => absurd h hcovers, fun h => absurd rfl h⟩

/-- Four seconds of audio, and words of which the last two decodes agree on the first. -/
def fourSeconds (committed live : List WordInfo) : StreamingState Unit where
  commitPolicy := .stablePrefix
  failed := false
  audioBuffer := List.replicate 64000 ()
  assembler := ((TranscriptAssembler.new.append committed).commitLive).setWords live
  windowStartSamples := 0
  contextSamples := 0
  pendingSamples := 0
  vadEndpointer := false
  punctuation := none
  itn := none
  endpointMode := .auto
  endpointSilence := ⟨600⟩
  agreedPrefix := 1
  capStreak := 0

theorem cap_commit_safe_two_words :
    let s := fourSeconds [] [⟨['д', 'а'], 0, 1, 1, none⟩, ⟨['н', 'у'], 1, 2, 1, none⟩]
    let t := (s.capCommitStablePrefix .binary64).1
    let n := (s.capCommitStablePrefix .binary64).2
    let first := t.assembler.words.head?.map WordInfo.start
    let newStart := t.anchoredStart .binary64 (t.coverageSamples .binary64) first
    (t.assembler.committedWords = s.assembler.committedWords ++ s.assembler.words.take n ∧
      ∀ w ∈ s.assembler.words.take n, w.stop ≤ s.commitHorizon .binary64) ∧
    (n = 0 → t.assembler = s.assembler) ∧
    (0 < n → ∃ u, t.slideStreamingWindowAnchored .binary64 first = some u ∧
      (t.windowStartSamples < t.coverageSamples .binary64 →
        t.windowStartSamples ≤ newStart ∧ newStart ≤ t.coverageSamples .binary64 ∧
        newStart - t.windowStartSamples ≤ t.audioBuffer.length ∧
        u.windowStartSamples = newStart ∧
        u.contextSamples = t.coverageSamples .binary64 - newStart) ∧
      (u.windowStartSamples ≠ t.windowStartSamples →
        ∀ start ∈ first, (u.windowStartSamples : ℚ) ≤ Rounding.binary64.mul start 16000)) := by
  refine cap_commit_safe Rounding.binary64_precise
    (fourSeconds [] [⟨['д', 'а'], 0, 1, 1, none⟩, ⟨['н', 'у'], 1, 2, 1, none⟩]) ⟨?_, ?_⟩ ?_
  · decide
  · decide
  · rw [show (fourSeconds _ _).audioBuffer.length = 64000 from List.length_replicate]
    exact Nat.lt_of_lt_of_le (m := 64001) (by decide) (by decide)

end Safe

section Boundary

variable {s t : StreamingState α} {first : Option ℚ} {stop : ℚ}

/-- The boundary falls short of the context by what is cut off the window start. -/
theorem contextBoundary_exact (s : StreamingState α) :
    s.contextBoundary .exact * 16000 + ↑(s.windowStartSamples % frameSamples) =
      s.windowStartSamples + s.contextSamples := by
  have hsplit : (s.windowStartSamples : ℚ) =
      ↑(frameSamples * (s.windowStartSamples / frameSamples)) +
        ↑(s.windowStartSamples % frameSamples) := by
    exact_mod_cast (Nat.div_add_mod s.windowStartSamples frameSamples).symm
  rw [hsplit]
  simp only [contextBoundary, secondsPerFrame, Rounding.add, Rounding.mul, Rounding.div,
    Rounding.exact]
  push_cast
  ring

theorem roundUsize_natCast (m : Nat) : roundUsize (m : ℚ) = m := by
  have hfloor : ⌊(m : ℚ) + 1 / 2⌋ = m := by
    rw [Int.floor_eq_iff]
    constructor
    · push_cast
      linarith
    · push_cast
      linarith
  rw [roundUsize, hfloor, Int.toNat_natCast]

/-- In exact arithmetic the left context ends with the committed coverage exactly when the window moves
to the start of an encoder frame and the coverage ends on a sample. -/
theorem boundary_exact_iff (engine : Engine)
    (hend : s.assembler.committedCoverageEnd = some stop)
    (hcovers : s.windowStartSamples < s.coverageSamples .exact)
    (hslide : s.slideStreamingWindowAnchored .exact first = some t)
    (hstable : t.stablePrefixEnabled engine = true) :
    (t.contextBoundary .exact = stop ∧
      ∀ w, t.newWord .exact engine w = decide (stop + epsilon < w.stop)) ↔
    frameSamples ∣ s.anchoredStart .exact (s.coverageSamples .exact) first ∧
      stop * 16000 = s.coverageSamples .exact := by
  have hcoverage : s.coverageSamples .exact = roundUsize (stop * 16000) := coverageSamples_eq hend
  have hpos : 0 < s.coverageSamples .exact := Nat.lt_of_le_of_lt (Nat.zero_le _) hcovers
  have hle : s.anchoredStart .exact (s.coverageSamples .exact) first ≤ s.coverageSamples .exact := by
    unfold anchoredStart
    cases first with
    | none =>
        dsimp only
        omega
    | some start =>
        dsimp only
        omega
  rw [slideStreamingWindowAnchored_eq, if_neg (not_le.mpr hcovers)] at hslide
  dsimp only at hslide
  split_ifs at hslide
  have hboundary : t.contextBoundary .exact * 16000 +
      ↑(s.anchoredStart .exact (s.coverageSamples .exact) first % frameSamples) =
        s.coverageSamples .exact := by
    have hexact := contextBoundary_exact t
    have ht := Option.some.inj hslide
    have hstart : t.windowStartSamples = s.anchoredStart .exact (s.coverageSamples .exact) first := by
      rw [← ht]
    have hcontext : t.contextSamples = s.coverageSamples .exact -
        s.anchoredStart .exact (s.coverageSamples .exact) first := by
      rw [← ht]
    rw [hstart, hcontext, Nat.cast_sub hle] at hexact
    linarith
  generalize s.anchoredStart .exact (s.coverageSamples .exact) first = newStart at hle hboundary ⊢
  constructor
  · rintro ⟨heq, _⟩
    rw [heq] at hboundary
    have hrest : newStart % frameSamples ≤ s.coverageSamples .exact :=
      (Nat.mod_le _ _).trans hle
    have hwhole : stop * 16000 = ↑(s.coverageSamples .exact - newStart % frameSamples) := by
      rw [Nat.cast_sub hrest]
      linarith
    rw [hwhole, roundUsize_natCast] at hcoverage
    have hzero : newStart % frameSamples = 0 := by omega
    refine ⟨Nat.dvd_of_mod_eq_zero hzero, ?_⟩
    rw [hwhole, hzero, Nat.sub_zero]
  · rintro ⟨hframe, hsample⟩
    rw [Nat.mod_eq_zero_of_dvd hframe, ← hsample, Nat.cast_zero, add_zero] at hboundary
    have heq : t.contextBoundary .exact = stop := mul_right_cancel₀ (by norm_num) hboundary
    have hstop : 0 < stop := by
      have hcast : (0 : ℚ) < s.coverageSamples .exact := by exact_mod_cast hpos
      linarith
    refine ⟨heq, fun w => ?_⟩
    simp only [newWord, hstable, heq, if_true, decide_eq_false (not_le.mpr hstop), Bool.false_or]
    rfl

/-- After one committed word that ends at a whole second the window keeps a second and a half. -/
theorem slide_fourSeconds {w : WordInfo} {n : Nat} (hstop : w.stop = n) (hpos : 0 < n) (hle : n ≤ 4) :
    let s := fourSeconds [w] []
    s.assembler.committedCoverageEnd = some ↑n ∧ s.coverageSamples .exact = 16000 * n ∧
      ∃ t, s.slideStreamingWindowAnchored .exact none = some t ∧
        t.windowStartSamples = 16000 * n - 24000 ∧
        t.contextSamples = 16000 * n - (16000 * n - 24000) ∧ ∀ engine, t.stablePrefixEnabled engine = true := by
  intro s
  have hend : s.assembler.committedCoverageEnd = some ↑n := congrArg some hstop
  have hscale : Rounding.exact.mul ↑n 16000 = ((16000 * n : ℕ) : ℚ) := by
    rw [Rounding.mul, Rounding.exact]
    push_cast
    ring
  have hcoverage : s.coverageSamples .exact = 16000 * n := by
    rw [coverageSamples_eq hend, hscale, roundUsize_natCast]
  have hanchor : s.anchoredStart .exact (16000 * n) none = 16000 * n - 24000 := Nat.max_zero _
  have hlength : s.audioBuffer.length = 64000 := List.length_replicate
  have hzero : s.windowStartSamples = 0 := rfl
  refine ⟨hend, hcoverage, ?_⟩
  rw [slideStreamingWindowAnchored_eq, hcoverage, hanchor, hlength, hzero, if_neg (by omega)]
  dsimp only
  rw [if_neg (by omega)]
  exact ⟨_, rfl, rfl, rfl, fun engine => Bool.or_true _⟩

/-- The window stays at the start of the stream. -/
theorem boundary_exact_first_second :
    let s := fourSeconds [⟨['д', 'а'], 0, 1, 1, none⟩] []
    ∃ t, s.slideStreamingWindowAnchored .exact none = some t ∧ ∀ engine,
      ((t.contextBoundary .exact = 1 ∧
        ∀ w, t.newWord .exact engine w = decide (1 + epsilon < w.stop)) ↔
      frameSamples ∣ s.anchoredStart .exact (s.coverageSamples .exact) none ∧
        (1 : ℚ) * 16000 = s.coverageSamples .exact) := by
  intro s
  have hstop : (⟨['д', 'а'], 0, 1, 1, none⟩ : WordInfo).stop = (1 : Nat) := Nat.cast_one.symm
  obtain ⟨hend, hcoverage, t, hslide, _, _, hstable⟩ :=
    slide_fourSeconds hstop (by decide) (by decide)
  rw [Nat.cast_one] at hend
  have hcovers : s.windowStartSamples < s.coverageSamples .exact := by
    rw [hcoverage]
    decide
  exact ⟨t, hslide, fun engine => boundary_exact_iff engine hend hcovers hslide (hstable engine)⟩

/-- The window moves by half an encoder frame, and the committed word is heard again. -/
theorem boundary_off_by_half_frame :
    let s := fourSeconds [⟨['н', 'у'], 1, 2, 1, none⟩] []
    s.assembler.committedCoverageEnd = some 2 ∧
    ∃ t, s.slideStreamingWindowAnchored .exact none = some t ∧
      t.contextBoundary .exact = 198 / 100 ∧
      ∀ engine, t.newWord .exact engine ⟨['н', 'у'], 1, 2, 1, none⟩ = true := by
  intro s
  have hstop : (⟨['н', 'у'], 1, 2, 1, none⟩ : WordInfo).stop = (2 : Nat) := Nat.cast_ofNat.symm
  obtain ⟨hend, _, t, hslide, hstart, hcontext, hstable⟩ :=
    slide_fourSeconds hstop (by decide) (by decide)
  have hboundary : t.contextBoundary .exact = 198 / 100 := by
    have hexact := contextBoundary_exact t
    rw [hstart, hcontext, show (16000 * 2 - 24000) % frameSamples = 320 from rfl] at hexact
    push_cast at hexact
    linarith
  refine ⟨hend, t, hslide, hboundary, fun engine => ?_⟩
  unfold newWord
  rw [hboundary, if_pos (hstable engine)]
  decide +kernel

end Boundary

end StreamingState

end Gigastt
