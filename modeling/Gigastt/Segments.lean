import Gigastt.Grouping
import Gigastt.Rounding
import Gigastt.Words

/-!
Transcript segments at natural boundaries: a pause, a change of speaker, the end of a sentence, or a
segment that would become too long.
-/

namespace Gigastt

structure Segment where
  start : ℚ
  stop : ℚ
  text : Text
  words : List WordInfo
  speaker : Option ℕ
  deriving DecidableEq, Repr

/-- The speaker that all the words have, if they are labelled. -/
def segmentSpeaker (words : List WordInfo) : Option ℕ :=
  (words.head?.bind (·.speaker)).filter fun first => words.all (·.speaker = some first)

section Natural

variable (rnd : Rounding)

def segmentPauseThreshold : ℚ := rnd.round (9 / 10)

def maxSegmentDuration : ℚ := rnd.round 30

def segmentSentenceEndPunctuation : List Char := ['.', '!', '?']

/-- The word ends with the end of a sentence. -/
def endedSentence (word : Text) : Bool :=
  (trimEnd word).getLast?.any (segmentSentenceEndPunctuation.contains ·)

/-- A boundary in front of `word`, which follows `prev`, in a segment that began at `start`. -/
def segmentBreak (start : ℚ) (prev word : WordInfo) : Bool :=
  segmentPauseThreshold rnd < rnd.sub word.start prev.stop ||
    word.speaker ≠ prev.speaker ||
    endedSentence prev.word ||
    maxSegmentDuration rnd < rnd.sub word.stop start

namespace Segment

/-- A segment that begins with a word. -/
def begin (word : WordInfo) : Segment where
  start := word.start
  stop := word.stop
  text := word.word
  words := [word]
  speaker := word.speaker

def push (segment : Segment) (word : WordInfo) : Segment :=
  { segment with
    text := segment.text ++ ' ' :: word.word
    stop := word.stop
    words := segment.words ++ [word] }

/-- A segment with the speaker of its words. -/
def close (segment : Segment) : Segment :=
  { segment with speaker := segmentSpeaker segment.words }

end Segment

/-- The body of the loop: the segments so far and the one under way, at a word and the one before. -/
def segmentStep (s : List Segment × Segment) (pair : WordInfo × WordInfo) : List Segment × Segment :=
  if segmentBreak rnd s.2.start pair.1 pair.2 then (s.1 ++ [s.2.close], .begin pair.2)
  else (s.1, s.2.push pair.2)

def buildSegments : List WordInfo → List Segment
  | [] => []
  | first :: rest =>
      let s := ((first :: rest).zip rest).foldl (segmentStep rnd) ([], .begin first)
      s.1 ++ [s.2.close]

end Natural

section Groups

variable {rnd : Rounding} {segment : Segment} {words : List WordInfo}

/-- A boundary in front of `word`, after the words of a segment. -/
def groupBreak (rnd : Rounding) (words : List WordInfo) (word : WordInfo) : Bool :=
  words.head?.any fun first => words.getLast?.any fun prev => segmentBreak rnd first.start prev word

/-- The times of a segment are those of its first and last word. -/
structure Segment.Spans (segment : Segment) : Prop where
  start : segment.words.head?.map (·.start) = some segment.start
  stop : segment.words.getLast?.map (·.stop) = some segment.stop

theorem Segment.spans_begin (word : WordInfo) : (Segment.begin word).Spans := ⟨rfl, rfl⟩

theorem Segment.Spans.ne_nil (h : segment.Spans) : segment.words ≠ [] := by
  intro hempty
  have hstart := h.start
  rw [hempty] at hstart
  cases hstart

theorem Segment.Spans.push (h : segment.Spans) (word : WordInfo) : (segment.push word).Spans where
  start := by
    rw [Segment.push, List.head?_append_of_ne_nil _ h.ne_nil]
    exact h.start
  stop := by
    rw [Segment.push, List.getLast?_concat]
    rfl

theorem Segment.Spans.close (h : segment.Spans) : segment.close.Spans := ⟨h.start, h.stop⟩

theorem groupBreak_eq (h : segment.Spans) {prev : WordInfo}
    (hprev : segment.words.getLast? = some prev) (word : WordInfo) :
    groupBreak rnd segment.words word = segmentBreak rnd segment.start prev word := by
  obtain ⟨first, hfirst, hstart⟩ := Option.map_eq_some_iff.mp h.start
  rw [groupBreak, hfirst, hprev, Option.any_some, Option.any_some, hstart]

/-- The words of the segments are the groups, and every segment has the times and the speaker of its
words. -/
theorem foldl_segmentStep (rnd : Rounding) (segments : List Segment) {prev : WordInfo}
    (rest : List WordInfo) (h : segment.Spans) (hprev : segment.words.getLast? = some prev) :
    let s := ((prev :: rest).zip rest).foldl (segmentStep rnd) (segments, segment)
    ∃ added, s.1 ++ [s.2.close] = segments ++ added ∧
      added.map Segment.words = Grouping.groupFrom (groupBreak rnd) segment.words rest ∧
      ∀ t ∈ added, t.Spans ∧ t.speaker = segmentSpeaker t.words := by
  induction rest generalizing prev segment segments with
  | nil =>
      refine ⟨[segment.close], rfl, rfl, fun t ht => ?_⟩
      rw [List.mem_singleton.mp ht]
      exact ⟨h.close, rfl⟩
  | cons word rest ih =>
      rw [List.zip_cons_cons, List.foldl_cons, segmentStep, Grouping.groupFrom, groupBreak_eq h hprev]
      dsimp only
      split
      · have hword : (Segment.begin word).words.getLast? = some word := rfl
        obtain ⟨added, hsegments, hgroups, hall⟩ :=
          ih (segments ++ [segment.close]) (Segment.spans_begin word) hword
        refine ⟨segment.close :: added, ?_, ?_, ?_⟩
        · rw [hsegments, List.append_assoc, List.singleton_append]
        · rw [List.map_cons, hgroups]
          rfl
        · intro t ht
          rcases List.mem_cons.mp ht with rfl | ht
          · exact ⟨h.close, rfl⟩
          · exact hall t ht
      · exact ih segments (h.push word) (by rw [Segment.push, List.getLast?_concat])

theorem buildSegments_groups (rnd : Rounding) (words : List WordInfo) :
    (buildSegments rnd words).map Segment.words = Grouping.group (groupBreak rnd) words ∧
      ∀ s ∈ buildSegments rnd words, s.Spans ∧ s.speaker = segmentSpeaker s.words := by
  cases words with
  | nil => exact ⟨rfl, fun s hs => absurd hs List.not_mem_nil⟩
  | cons first rest =>
      have hfirst : (Segment.begin first).words.getLast? = some first := rfl
      obtain ⟨added, hsegments, hgroups, hall⟩ :=
        foldl_segmentStep rnd [] rest (Segment.spans_begin first) hfirst
      rw [List.nil_append] at hsegments
      rw [buildSegments, hsegments]
      exact ⟨hgroups, hall⟩

/-- No pause, change of speaker or end of a sentence inside a segment, and no word too late for it. -/
theorem segmentBreak_eq_false {start : ℚ} {prev word : WordInfo}
    (h : segmentBreak rnd start prev word = false) :
    word.speaker = prev.speaker ∧ rnd.sub word.stop start ≤ maxSegmentDuration rnd := by
  simp only [segmentBreak, Bool.or_eq_false_iff, decide_eq_false_iff_not, not_lt, ne_eq,
    not_not] at h
  exact ⟨h.1.1.2, h.2⟩

/-- A group of one speaker that lasts no longer than allowed, unless it is one word. -/
structure NaturalGroup (rnd : Rounding) (words : List WordInfo) : Prop where
  speaker : ∀ v ∈ words, ∀ w ∈ words, v.speaker = w.speaker
  short : 1 < words.length → ∀ first ∈ words.head?, ∀ last ∈ words.getLast?,
    rnd.sub last.stop first.start ≤ maxSegmentDuration rnd

theorem naturalGroup_single (rnd : Rounding) (word : WordInfo) : NaturalGroup rnd [word] where
  speaker v hv w hw := by rw [List.mem_singleton.mp hv, List.mem_singleton.mp hw]
  short h := absurd h (Nat.lt_irrefl 1)

theorem NaturalGroup.concat (h : NaturalGroup rnd words) {word : WordInfo} (hwords : words ≠ [])
    (hstays : groupBreak rnd words word = false) : NaturalGroup rnd (words ++ [word]) := by
  obtain ⟨first, hfirst⟩ : ∃ first, words.head? = some first :=
    ⟨_, List.head?_eq_some_head hwords⟩
  obtain ⟨prev, hprev⟩ : ∃ prev, words.getLast? = some prev :=
    ⟨_, List.getLast?_eq_some_getLast hwords⟩
  rw [groupBreak, hfirst, hprev, Option.any_some, Option.any_some] at hstays
  obtain ⟨hspeaker, hshort⟩ := segmentBreak_eq_false hstays
  have hsame : ∀ v ∈ words ++ [word], v.speaker = prev.speaker := by
    intro v hv
    rcases List.mem_append.mp hv with hv | hv
    · exact h.speaker v hv prev (List.mem_of_getLast? hprev)
    · rw [List.mem_singleton.mp hv, hspeaker]
  refine ⟨fun v hv w hw => (hsame v hv).trans (hsame w hw).symm, ?_⟩
  intro _ first' hfirst' last hlast
  rw [List.head?_append_of_ne_nil _ hwords, hfirst] at hfirst'
  rw [List.getLast?_concat] at hlast
  cases hfirst'
  cases hlast
  exact hshort

theorem naturalGroup_of_mem {group : List WordInfo}
    (hgroup : group ∈ Grouping.group (groupBreak rnd) words) : NaturalGroup rnd group := by
  refine (Grouping.of_mem_group (P := fun g => g ≠ [] ∧ NaturalGroup rnd g) ?_ ?_ _ hgroup).2
  · exact fun word _ => ⟨List.cons_ne_nil word [], naturalGroup_single rnd word⟩
  · intro g word _ hg hstays
    exact ⟨List.append_ne_nil_of_left_ne_nil hg.1 _, hg.2.concat hg.1 hstays⟩

theorem segmentSpeaker_eq (h : NaturalGroup rnd words) {word : WordInfo} (hword : word ∈ words) :
    segmentSpeaker words = word.speaker := by
  obtain ⟨first, hfirst⟩ : ∃ first, words.head? = some first :=
    ⟨_, List.head?_eq_some_head (List.ne_nil_of_mem hword)⟩
  have hmem := List.mem_of_mem_head? hfirst
  rw [segmentSpeaker, hfirst, Option.bind_some, h.speaker word hword first hmem]
  cases hspeaker : first.speaker with
  | none => rfl
  | some n =>
      rw [Option.filter_some_pos]
      rw [List.all_eq_true]
      intro v hv
      rw [decide_eq_true_eq, h.speaker v hv first hmem, hspeaker]

end Groups

/-- Segments cut at exactly the natural boundaries. -/
structure NaturalSegments (rnd : Rounding) (words : List WordInfo) (segments : List Segment) :
    Prop where
  partition : segments.flatMap Segment.words = words
  nonempty : ∀ s ∈ segments, s.words ≠ []
  /-- A segment begins where the one before it may not go on. -/
  broken : segments.IsChain fun s t => ∃ prev ∈ s.words.getLast?, ∃ word ∈ t.words.head?,
    segmentBreak rnd s.start prev word = true
  /-- There is no boundary inside a segment. -/
  whole : ∀ s ∈ segments, ∀ front prev word back, s.words = front ++ prev :: word :: back →
    segmentBreak rnd s.start prev word = false
  start : ∀ s ∈ segments, s.words.head?.map (·.start) = some s.start
  stop : ∀ s ∈ segments, s.words.getLast?.map (·.stop) = some s.stop
  short : ∀ s ∈ segments, 1 < s.words.length → rnd.sub s.stop s.start ≤ maxSegmentDuration rnd
  speaker : ∀ s ∈ segments, ∀ w ∈ s.words, w.speaker = s.speaker

theorem buildSegments_natural (rnd : Rounding) (words : List WordInfo) :
    NaturalSegments rnd words (buildSegments rnd words) := by
  obtain ⟨hgroups, hall⟩ := buildSegments_groups rnd words
  have hgroup : ∀ s ∈ buildSegments rnd words, s.words ∈ Grouping.group (groupBreak rnd) words :=
    fun s hs => hgroups ▸ List.mem_map_of_mem hs
  refine ⟨?_, ?_, ?_, ?_, ?_, ?_, ?_, ?_⟩
  · rw [List.flatMap_def, hgroups, Grouping.flatten_group]
  · exact fun s hs => Grouping.ne_nil_of_mem_group (hgroup s hs)
  · have hchain := Grouping.isChain_group (groupBreak rnd) words
    rw [← hgroups, List.isChain_map] at hchain
    apply hchain.imp_of_mem_imp
    rintro s t hs _ ⟨word, hword, hbreak⟩
    have hspans := (hall s hs).1
    obtain ⟨prev, hprev⟩ : ∃ prev, s.words.getLast? = some prev :=
      ⟨_, List.getLast?_eq_some_getLast hspans.ne_nil⟩
    exact ⟨prev, hprev, word, hword, (groupBreak_eq hspans hprev word).symm.trans hbreak⟩
  · intro s hs front prev word back hsplit
    have hspans := (hall s hs).1
    have hmem := hgroup s hs
    have hsplit' : s.words = (front ++ [prev]) ++ word :: back := by
      rw [hsplit, List.append_assoc, List.singleton_append]
    rw [hsplit'] at hmem
    have hfront : front ++ [prev] ≠ [] := List.append_ne_nil_of_right_ne_nil _ (List.cons_ne_nil prev [])
    obtain ⟨first, hfirst, hstart⟩ := Option.map_eq_some_iff.mp hspans.start
    rw [hsplit', List.head?_append_of_ne_nil _ hfront] at hfirst
    have hstays := Grouping.not_breaks_of_mem_group hmem hfront
    rwa [groupBreak, hfirst, List.getLast?_concat, Option.any_some, Option.any_some, hstart]
      at hstays
  · exact fun s hs => (hall s hs).1.start
  · exact fun s hs => (hall s hs).1.stop
  · intro s hs hmany
    obtain ⟨first, hfirst, hstart⟩ := Option.map_eq_some_iff.mp (hall s hs).1.start
    obtain ⟨last, hlast, hstop⟩ := Option.map_eq_some_iff.mp (hall s hs).1.stop
    rw [← hstart, ← hstop]
    exact (naturalGroup_of_mem (hgroup s hs)).short hmany first hfirst last hlast
  · intro s hs w hw
    rw [(hall s hs).2, segmentSpeaker_eq (naturalGroup_of_mem (hgroup s hs)) hw]

end Gigastt
