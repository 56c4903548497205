import Mathlib.Data.List.TakeWhile
import Gigastt.RegionRemap
import Gigastt.SnapshotChain
import Gigastt.StitchSeam

/-!
Provisional transcripts of a file decode. Every stitched window or wave publishes: words before the
first changed one, and before the first whose time may still move, stay as they were published; the
rest is remapped again. The regions of a source with silence removed grow between publications.
-/

namespace Gigastt

open Transition
open Vad (Span)

/-- The clock of a window source. One that removes silence has decided regions, and has released
the samples of an initial part of them. -/
inductive PcmTimeline where
  | plain
  | vad (regions : List Span) (released : Nat)
  deriving DecidableEq, Repr

namespace PcmTimeline

/-- Regions and released samples later on. A window has been lent by then, so some sample is
released, and only samples of regions are. -/
def grow (timeline : PcmTimeline) (g : RegionGrowth) (released : Nat) : Option PcmTimeline :=
  match timeline with
  | plain => some plain
  | vad regions before => do
      let regions ← g.apply regions
      if 0 < released ∧ before ≤ released ∧ released ≤ (regions.map fun r => r.2 - r.1).sum then
        some (vad regions released)
      else none

variable (rnd : Rounding)

/-- No bound is infinity. -/
def remapStableBefore : PcmTimeline → Option ℚ
  | plain => none
  | vad _ released => some (rnd.div (rnd.round released) 16000)

def remapWord (timeline : PcmTimeline) (word : WordInfo) : WordInfo :=
  match timeline with
  | plain => word
  | vad regions _ =>
      { word with
        start := remapCompressedSeconds rnd word.start regions 16000
        stop := remapCompressedSeconds rnd word.stop regions 16000 }

def remapWords (timeline : PcmTimeline) (words : List WordInfo) : List WordInfo :=
  words.map (timeline.remapWord rnd)

/-- The word reaches beyond the times that `remap_stable_before` calls permanent. -/
def unsettled (timeline : PcmTimeline) (word : WordInfo) : Bool :=
  match timeline.remapStableBefore rnd with
  | none => false
  | some boundary => boundary < word.start || boundary < word.stop

end PcmTimeline

/-- How many published words keep their place for good. -/
structure WindowPublisher where
  mappedStable : Nat
  deriving DecidableEq, Repr

section

variable (rnd : Rounding)

/-- The suffix a publication sends again. -/
def WindowPublisher.suffix (p : WindowPublisher) (words : List WordInfo) (retained : Nat) :
    List WordInfo :=
  words.drop (min retained p.mappedStable)

def WindowPublisher.publish (p : WindowPublisher) (timeline : PcmTimeline) (words : List WordInfo)
    (retained : Nat) (timestamp : ℚ) : WindowPublisher × Update :=
  let suffix := p.suffix words retained
  let retained := min retained p.mappedStable
  ({ mappedStable := retained + suffix.findIdx (timeline.unsettled rnd) },
    { retained, words := timeline.remapWords rnd suffix, channel := none, timestamp })

variable (tables : CharTables)

/-- The transcript so far and where its last window ends. -/
structure MergedWords where
  words : List WordInfo
  prevEnd : Nat
  deriving DecidableEq, Repr

/-- A decoded window, and whether an abort is seen while it is stitched. -/
structure WindowResult where
  window : DecodedWindow
  aborted : Bool
  deriving DecidableEq, Repr

/-- The transcript with a window stitched on, and how many of its words are unchanged. -/
def MergedWords.stitch (m : MergedWords) (w : WindowResult) : MergedWords × Nat :=
  let stitched :=
    stitchReport rnd tables w.aborted m.words m.prevEnd w.window.startSample w.window.words
  ({ words := stitched.1, prevEnd := w.window.stop }, stitched.2)

/-- One window of the wave loop: the minimum over the wave counts. -/
def MergedWords.stitchInWave (done : MergedWords × Nat) (w : WindowResult) : MergedWords × Nat :=
  let (merged, unchanged) := done.1.stitch rnd tables w
  (merged, min done.2 unchanged)

/-- What is stitched between two publications. -/
inductive Stitching where
  | serial (w : WindowResult)
  | wave (ws : List WindowResult)
  deriving DecidableEq, Repr

def Stitching.apply (m : MergedWords) : Stitching → MergedWords × Nat
  | serial w => m.stitch rnd tables w
  | wave ws => ws.foldl (MergedWords.stitchInWave rnd tables) (m, m.words.length)

structure PublishStep where
  stitching : Stitching
  growth : RegionGrowth
  released : Nat
  timestamp : ℚ
  deriving DecidableEq, Repr

/-- A file decode with the publisher of its snapshot. -/
structure Publishing where
  merged : MergedWords
  timeline : PcmTimeline
  publisher : WindowPublisher
  snapshot : SnapshotPublisher
  deriving DecidableEq, Repr

namespace Publishing

def new (timeline : PcmTimeline) : Publishing where
  merged := { words := [], prevEnd := 0 }
  timeline
  publisher := { mappedStable := 0 }
  snapshot := .new

def step (s : Publishing) (a : PublishStep) : Option Publishing := do
  let timeline ← s.timeline.grow a.growth a.released
  let (merged, retained) := a.stitching.apply rnd tables s.merged
  let (publisher, update) :=
    s.publisher.publish rnd timeline merged.words retained a.timestamp
  return { merged, timeline, publisher, snapshot := s.snapshot.publish update }

/-- The words a reader of the snapshot gets. -/
def shown (rnd32 : Rounding) (s : Publishing) (timestamp : ℚ) : List WordInfo :=
  ((s.snapshot.data timestamp).read rnd rnd32).words

end Publishing

end

section Unchanged

variable {rnd : Rounding} {tables : CharTables}

/-- `old` and `new` begin with the same `n` words. -/
def SameStart (old new : List WordInfo) (n : Nat) : Prop :=
  n ≤ old.length ∧ new.take n = old.take n

theorem SameStart.le_right {old new : List WordInfo} {n : Nat} (h : SameStart old new n) :
    n ≤ new.length := by
  have hlen := congrArg List.length h.2
  rw [List.length_take, List.length_take, Nat.min_eq_left h.1] at hlen
  exact hlen ▸ Nat.min_le_right n _

theorem SameStart.shrink {old new : List WordInfo} {n m : Nat} (h : SameStart old new n)
    (hle : m ≤ n) : SameStart old new m := by
  refine ⟨hle.trans h.1, ?_⟩
  calc new.take m = (new.take n).take m := by rw [List.take_take, Nat.min_eq_left hle]
    _ = (old.take n).take m := by rw [h.2]
    _ = old.take m := by rw [List.take_take, Nat.min_eq_left hle]

theorem SameStart.trans {a b c : List WordInfo} {n m : Nat} (hab : SameStart a b n)
    (hbc : SameStart b c m) : SameStart a c (min n m) := by
  have hleft := hab.shrink (Nat.min_le_left n m)
  have hright := hbc.shrink (Nat.min_le_right n m)
  exact ⟨hleft.1, hright.2.trans hleft.2⟩

theorem stitch_sameStart (m : MergedWords) (w : WindowResult) :
    SameStart m.words (m.stitch rnd tables w).1.words (m.stitch rnd tables w).2 :=
  stitchReport_unchanged rnd tables w.aborted m.words m.prevEnd w.window.startSample w.window.words

theorem wave_sameStart (ws : List WindowResult) {old : List WordInfo} {done : MergedWords × Nat}
    (h : SameStart old done.1.words done.2) :
    SameStart old (ws.foldl (MergedWords.stitchInWave rnd tables) done).1.words
      (ws.foldl (MergedWords.stitchInWave rnd tables) done).2 := by
  induction ws generalizing done with
  | nil => exact h
  | cons w ws ih => exact ih (h.trans (stitch_sameStart done.1 w))

theorem apply_sameStart (m : MergedWords) (stitching : Stitching) :
    SameStart m.words (stitching.apply rnd tables m).1.words
      (stitching.apply rnd tables m).2 := by
  cases stitching with
  | serial w => exact stitch_sameStart m w
  | wave ws => exact wave_sameStart ws ⟨Nat.le_refl _, rfl⟩

end Unchanged

namespace PcmTimeline

variable (rnd : Rounding)

/-- The regions known now are as long as both times of the word, so growth cannot move them. -/
def Covers (timeline : PcmTimeline) (word : WordInfo) : Prop :=
  match timeline with
  | plain => True
  | vad regions _ =>
      WithinRegions rnd word.start regions 16000 ∧ WithinRegions rnd word.stop regions 16000

instance (timeline : PcmTimeline) (word : WordInfo) : Decidable (timeline.Covers rnd word) :=
  match timeline with
  | plain => inferInstanceAs (Decidable True)
  | vad _ _ => inferInstanceAs (Decidable (_ ∧ _))

def ReachedWord (timeline : PcmTimeline) (word : WordInfo) : Prop :=
  match timeline with
  | plain => True
  | vad regions _ => Reached rnd word.start regions 16000 ∧ Reached rnd word.stop regions 16000

variable {rnd} {timeline grown : PcmTimeline} {g : RegionGrowth} {released : Nat} {word : WordInfo}

theorem Covers.reached (h : timeline.Covers rnd word) : timeline.ReachedWord rnd word := by
  cases timeline with
  | plain => trivial
  | vad regions _ => exact ⟨h.1.reached, h.2.reached⟩

theorem grow_cases (h : timeline.grow g released = some grown) :
    (timeline = plain ∧ grown = plain) ∨ ∃ regions before later,
      timeline = vad regions before ∧ grown = vad later released ∧
        g.apply regions = some later ∧ 0 < released ∧
          released ≤ (later.map fun r => r.2 - r.1).sum := by
  cases timeline with
  | plain =>
      cases h
      exact .inl ⟨rfl, rfl⟩
  | vad regions before =>
      obtain ⟨later, hlater, hcheck⟩ := Option.bind_eq_some_iff.mp h
      split at hcheck
      · rename_i hreleased
        cases hcheck
        exact .inr ⟨regions, before, later, rfl, rfl, hlater, hreleased.1, hreleased.2.2⟩
      · cases hcheck

theorem ReachedWord.grow (h : timeline.ReachedWord rnd word)
    (hgrow : timeline.grow g released = some grown) :
    grown.ReachedWord rnd word ∧ grown.remapWord rnd word = timeline.remapWord rnd word := by
  rcases grow_cases hgrow with ⟨rfl, rfl⟩ | ⟨regions, before, later, rfl, rfl, hlater, _⟩
  · exact ⟨trivial, rfl⟩
  · obtain ⟨hstart, hremap_start⟩ := Reached.grow h.1 hlater
    obtain ⟨hstop, hremap_stop⟩ := Reached.grow h.2 hlater
    refine ⟨⟨hstart, hstop⟩, ?_⟩
    simp only [remapWord, hremap_start, hremap_stop]

end PcmTimeline

namespace Publishing

section Run

variable (rnd rnd32 : Rounding) (tables : CharTables)

/-- Every word the publication counts as settled is covered by the regions known at that moment. -/
def Settles (s : Publishing) (a : PublishStep) : Prop :=
  ∀ timeline ∈ s.timeline.grow a.growth a.released,
    let (merged, retained) := a.stitching.apply rnd tables s.merged
    ∀ w ∈ (s.publisher.suffix merged.words retained).takeWhile (!timeline.unsettled rnd ·),
      timeline.Covers rnd w

instance (s : Publishing) (a : PublishStep) : Decidable (Settles rnd tables s a) :=
  inferInstanceAs (Decidable (∀ timeline ∈ s.timeline.grow a.growth a.released, _))

/-- Between publications: the settled words keep their image from now on, and unless there are none
the snapshot shows the remapped transcript. -/
structure Ready (s : Publishing) : Prop where
  settled_le : s.publisher.mappedStable ≤ s.merged.words.length
  settled : ∀ w ∈ s.merged.words.take s.publisher.mappedStable, s.timeline.ReachedWord rnd w
  shows : ∃ r, s.snapshot.Represents r ∧ (s.publisher.mappedStable = 0 ∨
    r = { channels := [s.timeline.remapWords rnd s.merged.words], split := false })

theorem ready_new (timeline : PcmTimeline) : Ready rnd (.new timeline) where
  settled_le := Nat.le_refl _
  settled := fun _ h => (List.not_mem_nil h).elim
  shows := ⟨.new, SnapshotPublisher.represents_new, .inl rfl⟩

variable {rnd tables}

theorem step_eq {s t : Publishing} {a : PublishStep} (h : step rnd tables s a = some t) :
    ∃ timeline merged retained, s.timeline.grow a.growth a.released = some timeline ∧
      a.stitching.apply rnd tables s.merged = (merged, retained) ∧
      SameStart s.merged.words merged.words (min retained s.publisher.mappedStable) ∧
      let (publisher, update) :=
        s.publisher.publish rnd timeline merged.words retained a.timestamp
      t = { merged, timeline, publisher, snapshot := s.snapshot.publish update } := by
  obtain ⟨timeline, hgrow, hrest⟩ := Option.bind_eq_some_iff.mp h
  exact ⟨timeline, _, _, hgrow, rfl,
    (apply_sameStart s.merged a.stitching).shrink (Nat.min_le_left ..), (Option.some.inj hrest).symm⟩

/-- Truncating what the snapshot shows to the settled words and sending the rest again gives the
whole transcript under the grown regions. -/
theorem resend_eq {old new : List WordInfo} {timeline grown : PcmTimeline} {g : RegionGrowth}
    {released n : Nat} (hgrow : timeline.grow g released = some grown) (hsame : SameStart old new n)
    (hsettled : ∀ w ∈ old.take n, timeline.ReachedWord rnd w) :
    (timeline.remapWords rnd old).take n ++ grown.remapWords rnd (new.drop n) =
      grown.remapWords rnd new := by
  have hkept : (timeline.remapWords rnd old).take n = grown.remapWords rnd (new.take n) := by
    rw [PcmTimeline.remapWords, ← List.map_take, hsame.2]
    exact List.map_congr_left fun w hw => ((hsettled w hw).grow hgrow).2.symm
  rw [hkept, PcmTimeline.remapWords, PcmTimeline.remapWords, ← List.map_append,
    List.take_append_drop]
  rfl

theorem take_findIdx {α : Type} (p : α → Bool) (l : List α) :
    l.take (l.findIdx p) = l.takeWhile (!p ·) := by
  simp only [List.takeWhile_eq_take_findIdx_not, Bool.not_not]

/-- An update of a request with one channel. -/
theorem publish_channel {r : NaiveRequest} {u : Update} {words : List WordInfo}
    (hchannel : u.channel = none) (hle : u.retained ≤ words.length)
    (hr : u.retained = 0 ∨ r = { channels := [words], split := false }) :
    r.publish u = some { channels := [words.take u.retained ++ u.words], split := false } := by
  unfold NaiveRequest.publish NaiveRequest.current Update.labelled
  by_cases hzero : u.retained = 0
  · simp [hzero, hchannel, setChannel]
  · obtain rfl := hr.resolve_left hzero
    simp [hzero, hchannel, setChannel, hle]

/-- The settled words in front of the first `n` unchanged ones. -/
theorem Ready.settled_take {s : Publishing} (h : Ready rnd s) {n : Nat}
    (hle : n ≤ s.publisher.mappedStable) :
    ∀ w ∈ s.merged.words.take n, s.timeline.ReachedWord rnd w := by
  intro w hw
  refine h.settled w (List.mem_of_mem_take (i := n) ?_)
  rwa [List.take_take, Nat.min_eq_left hle]

/-- The snapshot after a publication that keeps `n` settled words. -/
theorem Ready.represents_publish {s : Publishing} (h : Ready rnd s) {timeline : PcmTimeline}
    {g : RegionGrowth} {released n : Nat} {words : List WordInfo} (timestamp : ℚ)
    (hgrow : s.timeline.grow g released = some timeline) (hle : n ≤ s.publisher.mappedStable)
    (hsame : SameStart s.merged.words words n) :
    (s.snapshot.publish ⟨n, timeline.remapWords rnd (words.drop n), none, timestamp⟩).Represents
      { channels := [timeline.remapWords rnd words], split := false } := by
  obtain ⟨r, hrep, hshows⟩ := h.shows
  have hlength : n ≤ (s.timeline.remapWords rnd s.merged.words).length := by
    rw [PcmTimeline.remapWords, List.length_map]
    exact hsame.1
  have hstart : n = 0 ∨
      r = { channels := [s.timeline.remapWords rnd s.merged.words], split := false } :=
    hshows.imp_left fun hzero => by omega
  have hpublished := hrep.publish
    (publish_channel (u := ⟨n, timeline.remapWords rnd (words.drop n), none, timestamp⟩) rfl hlength
      hstart)
  dsimp only at hpublished
  rwa [resend_eq hgrow hsame (h.settled_take hle)] at hpublished

/-- The words settled by a publication, after those that were so before. -/
theorem settled_append {timeline : PcmTimeline} {words : List WordInfo} {n : Nat}
    (hkept : ∀ w ∈ words.take n, timeline.ReachedWord rnd w)
    (hcovers : ∀ w ∈ (words.drop n).takeWhile (!timeline.unsettled rnd ·), timeline.Covers rnd w) :
    ∀ w ∈ words.take (n + (words.drop n).findIdx (timeline.unsettled rnd)),
      timeline.ReachedWord rnd w := by
  intro w hw
  rw [List.take_add, take_findIdx, List.mem_append] at hw
  rcases hw with hw | hw
  · exact hkept w hw
  · exact (hcovers w hw).reached

/-- The snapshot shows the remapped transcript after a publication. -/
theorem Ready.represents {s t : Publishing} {a : PublishStep} (h : Ready rnd s)
    (hstep : step rnd tables s a = some t) : t.snapshot.Represents
      { channels := [t.timeline.remapWords rnd t.merged.words], split := false } := by
  obtain ⟨timeline, merged, retained, hgrow, _, hsame, rfl⟩ := step_eq hstep
  exact h.represents_publish a.timestamp hgrow (Nat.min_le_right ..) hsame

/-- What is settled stays so, if a publication settles covered words only. -/
theorem Ready.step {s t : Publishing} {a : PublishStep} (h : Ready rnd s)
    (hstep : step rnd tables s a = some t) (hguard : Settles rnd tables s a) : Ready rnd t := by
  have hrepresents := h.represents hstep
  obtain ⟨timeline, merged, retained, hgrow, happly, hsame, rfl⟩ := step_eq hstep
  have hcovers := hguard timeline hgrow
  rw [happly] at hcovers
  refine ⟨?_, ?_, ⟨_, hrepresents, .inr rfl⟩⟩
  · have hindex : (s.publisher.suffix merged.words retained).findIdx (timeline.unsettled rnd) ≤ _ :=
      List.findIdx_le_length
    have hright := hsame.le_right
    rw [WindowPublisher.suffix, List.length_drop] at hindex
    dsimp only [WindowPublisher.publish, WindowPublisher.suffix]
    omega
  · refine settled_append (fun w hw => ?_) hcovers
    rw [hsame.2] at hw
    exact ((h.settled_take (Nat.min_le_right ..) w hw).grow hgrow).1

theorem shown_eq {s : Publishing} {words : List WordInfo}
    (h : s.snapshot.Represents { channels := [words], split := false }) (timestamp : ℚ) :
    s.shown rnd rnd32 timestamp = words := by
  have hsplit : s.snapshot.split = false := h.split_eq
  have hchannels : s.snapshot.channels.flatMap Chain.collectWords = words := by
    rw [List.flatMap_def, h.channels_eq, List.flatten_cons, List.flatten_nil, List.append_nil]
  unfold Publishing.shown SnapshotPublisher.data SnapshotData.read
  simp only [hsplit, hchannels, Bool.false_eq_true, if_false]

/-- Without rounding every publication qualifies: a settled time is before the end of the released
samples, and these are samples of the regions. -/
theorem settles_exact (s : Publishing) (a : PublishStep) : Settles .exact tables s a := by
  intro timeline hgrow w hw
  have hsettled : timeline.unsettled .exact w = false := by
    simpa using List.mem_takeWhile_imp hw
  rcases PcmTimeline.grow_cases hgrow with ⟨_, rfl⟩ | ⟨_, _, regions, _, rfl, _, hpos, hle⟩
  · trivial
  · have hkept : addLengths .exact 0 regions = ((regions.map fun r => r.2 - r.1).sum : ℕ) := by
      rw [addLengths_exact, zero_add]
    have hsome : regions ≠ [] := by
      rintro rfl
      rw [List.map_nil, List.sum_nil] at hle
      omega
    have hwithin : ∀ {t : ℚ}, t ≤ (a.released : ℚ) / 16000 → WithinRegions .exact t regions 16000 := by
      intro t ht
      refine ⟨hsome, max_le ?_ ?_⟩
      · calc t * 16000 ≤ a.released := (le_div_iff₀ (by norm_num)).mp ht
          _ ≤ addLengths .exact 0 regions := by
            rw [hkept]
            exact_mod_cast hle
      · rw [hkept]
        exact Nat.cast_nonneg _
    have hbounds : ¬ (a.released : ℚ) / 16000 < w.start ∧ ¬ (a.released : ℚ) / 16000 < w.stop := by
      simpa [PcmTimeline.unsettled, PcmTimeline.remapStableBefore, Rounding.exact, Rounding.div]
        using hsettled
    exact ⟨hwithin (not_lt.mp hbounds.1), hwithin (not_lt.mp hbounds.2)⟩

end Run

section Binary64

/-- The frame grid as the decoders compute it. -/
def frameSeconds (rnd : Rounding) (frame : Nat) : ℚ := rnd.mul frame (rnd.div 640 16000)

/-- A word that ends with the last released sample, which is also the last one of the only region,
and a second region later. -/
def clampedSteps : List PublishStep :=
  let word := fun start stop : Nat =>
    (⟨['д', 'а'], frameSeconds .binary64 start, frameSeconds .binary64 stop, 1, none⟩ : WordInfo)
  [{ stitching := .serial ⟨⟨0, 257920, [word 350 403]⟩, false⟩
     growth := ⟨none, [(0, 257920)]⟩
     released := 257920
     timestamp := 0 },
   { stitching := .serial ⟨⟨225280, 267920, [word 410 412]⟩, false⟩
     growth := ⟨none, [(300000, 310000)]⟩
     released := 267920
     timestamp := 1 }]

end Binary64

end Publishing

end Gigastt
