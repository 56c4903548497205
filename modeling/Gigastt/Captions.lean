import Gigastt.Segments
import Gigastt.Utf8

/-!
Caption cues with limits on a line's length and words. A change of speaker begins a cue with the
speaker's label; the label counts as text of the line before any word is in it, so a word that is too long
to follow its own label leaves the label behind, as a cue without words.
-/

namespace Gigastt

structure Cue where
  start : ℚ
  stop : ℚ
  text : Text
  words : List WordInfo
  deriving DecidableEq, Repr

def speakerLabel : Option ℕ → Text
  | none => []
  | some speaker => "[SPEAKER_".toList ++ Nat.toDigits 10 speaker ++ "] ".toList

/-- A word behind the text of a line, with a space between them unless there is one. -/
def appendWord (text word : Text) : Text :=
  (if text ≠ [] ∧ text.getLast? ≠ some ' ' then text ++ [' '] else text) ++ word

/-- The cues so far and the one under way. -/
structure CueBuilder where
  cues : List Cue
  current : Cue
  currentSpeaker : Option ℕ
  wordCount : ℕ
  deriving DecidableEq, Repr

namespace CueBuilder

def new (first : WordInfo) : CueBuilder where
  cues := []
  current := { start := first.start, stop := first.stop, text := [], words := [] }
  currentSpeaker := none
  wordCount := 0

def flush (s : CueBuilder) : CueBuilder :=
  if s.current.text = [] then s
  else
    { s with
      cues := s.cues ++ [{ s.current with text := trimEnd s.current.text }]
      current := { s.current with text := [], words := [] } }

def changeSpeaker (s : CueBuilder) (word : WordInfo) : CueBuilder :=
  if word.speaker = s.currentSpeaker then s
  else
    let s := s.flush
    { s with
      current := { s.current with
        start := word.start
        text := s.current.text ++ speakerLabel word.speaker }
      currentSpeaker := word.speaker
      wordCount := 0 }

/-- The length in bytes of the line with the word added. -/
def wouldChars (s : CueBuilder) (word : WordInfo) : ℕ :=
  if s.current.text = [] then Utf8.size word.word
  else Utf8.size s.current.text + 1 + Utf8.size word.word

section Limits

-- no limit when zero
variable (maxChars maxWords : ℕ)

def breakLine (s : CueBuilder) (word : WordInfo) : Bool :=
  s.current.text ≠ [] &&
    ((0 < maxChars && maxChars < s.wouldChars word) || (0 < maxWords && maxWords < s.wordCount + 1))

def newLine (s : CueBuilder) (word : WordInfo) : CueBuilder :=
  let s := s.flush
  { s with
    current := { s.current with
      start := word.start
      stop := word.stop
      text := s.current.text ++ speakerLabel word.speaker }
    wordCount := 0 }

def push (s : CueBuilder) (word : WordInfo) : CueBuilder :=
  { s with
    current := { s.current with
      stop := word.stop
      text := appendWord s.current.text word.word
      words := s.current.words ++ [word] }
    wordCount := s.wordCount + 1 }

/-- The line limits, and then the word. -/
def addWord (s : CueBuilder) (word : WordInfo) : CueBuilder :=
  (if s.breakLine maxChars maxWords word then s.newLine word else s).push word

/-- The body of the loop. -/
def step (s : CueBuilder) (word : WordInfo) : CueBuilder :=
  (s.changeSpeaker word).addWord maxChars maxWords word

end Limits

end CueBuilder

open CueBuilder in
def buildCues (words : List WordInfo) (maxChars maxWords : ℕ) : List Cue :=
  match words with
  | [] => []
  | first :: rest => ((first :: rest).foldl (step maxChars maxWords) (new first)).flush.cues

def toSegments (words : List WordInfo) (maxChars maxWords : ℕ) : List Segment :=
  (buildCues words maxChars maxWords).map fun cue =>
    { start := cue.start
      stop := cue.stop
      text := cue.text
      words := cue.words
      speaker := segmentSpeaker cue.words }

/-- A cue of words of one speaker, no more than allowed, with the times of its first and last word. -/
structure Cue.Whole (maxWords : ℕ) (cue : Cue) : Prop where
  some_word : cue.words ≠ []
  short : 0 < maxWords → cue.words.length ≤ maxWords
  speaker : ∀ v ∈ cue.words, ∀ w ∈ cue.words, v.speaker = w.speaker
  start : cue.words.head?.map (·.start) = some cue.start
  stop : cue.words.getLast?.map (·.stop) = some cue.stop

/-- The cues carry the words. -/
structure Carries (maxWords : ℕ) (words : List WordInfo) (cues : List Cue) : Prop where
  partition : cues.flatMap Cue.words = words
  whole : ∀ cue ∈ cues, cue.Whole maxWords

/-- The word fits on a line behind the label of its speaker, if it has one. -/
def LabelFits (maxChars : ℕ) (word : WordInfo) : Prop :=
  maxChars = 0 ∨ word.speaker = none ∨
    Utf8.size (speakerLabel word.speaker) + 1 + Utf8.size word.word ≤ maxChars

instance (maxChars : ℕ) (word : WordInfo) : Decidable (LabelFits maxChars word) :=
  inferInstanceAs (Decidable (_ ∨ _))

/-- Every word that begins a speaker's turn fits behind the label; `previous` is the speaker before. -/
def LabelsFit (maxChars : ℕ) : Option ℕ → List WordInfo → Prop
  | _, [] => True
  | previous, word :: rest =>
      (word.speaker = previous ∨ LabelFits maxChars word) ∧ LabelsFit maxChars word.speaker rest

namespace CueBuilder

variable {maxChars maxWords : ℕ} {s : CueBuilder} {word : WordInfo} {past : List WordInfo}

/-- A cue has just begun, with the label of the word to come. -/
structure Fresh (maxWords : ℕ) (past : List WordInfo) (word : WordInfo) (s : CueBuilder) : Prop where
  carries : Carries maxWords past s.cues
  words : s.current.words = []
  text : s.current.text = speakerLabel word.speaker
  start : s.current.start = word.start
  speaker : s.currentSpeaker = word.speaker
  count : s.wordCount = 0

/-- The cue under way has words, and is whole so far. -/
structure Running (maxWords : ℕ) (past : List WordInfo) (s : CueBuilder) : Prop where
  partition : s.cues.flatMap Cue.words ++ s.current.words = past
  whole : ∀ cue ∈ s.cues, cue.Whole maxWords
  text : s.current.text ≠ []
  current : s.current.Whole maxWords
  speaker : ∀ w ∈ s.current.words, w.speaker = s.currentSpeaker
  count : s.wordCount = s.current.words.length

theorem appendWord_ne_nil {word : Text} (text : Text) (h : word ≠ []) : appendWord text word ≠ [] :=
  List.append_ne_nil_of_right_ne_nil _ h

/-- The cue under way is done. -/
theorem Running.flush (h : Running maxWords past s) : Carries maxWords past s.flush.cues := by
  rw [CueBuilder.flush, if_neg h.text]
  constructor
  · rw [List.flatMap_append, List.flatMap_singleton]
    exact h.partition
  · intro cue hcue
    rcases List.mem_append.mp hcue with hcue | hcue
    · exact h.whole cue hcue
    · rw [List.mem_singleton.mp hcue]
      exact { h.current with }

theorem Running.newLine (h : Running maxWords past s) (hspeaker : word.speaker = s.currentSpeaker) :
    Fresh maxWords past word (s.newLine word) where
  carries := h.flush
  words := by rw [CueBuilder.newLine, CueBuilder.flush, if_neg h.text]
  text := by
    rw [CueBuilder.newLine, CueBuilder.flush, if_neg h.text]
    rfl
  start := rfl
  speaker := by
    rw [CueBuilder.newLine, CueBuilder.flush, if_neg h.text, hspeaker]
  count := rfl

theorem Running.changeSpeaker (h : Running maxWords past s) (hspeaker : word.speaker ≠ s.currentSpeaker) :
    Fresh maxWords past word (s.changeSpeaker word) := by
  rw [CueBuilder.changeSpeaker, if_neg hspeaker]
  exact
    { carries := h.flush
      words := by rw [CueBuilder.flush, if_neg h.text]
      text := by
        rw [CueBuilder.flush, if_neg h.text]
        rfl
      start := rfl
      speaker := rfl
      count := rfl }

theorem fresh_new (maxWords : ℕ) (first : WordInfo) :
    Fresh maxWords [] first ((new first).changeSpeaker first) := by
  have hnone : Carries maxWords [] [] := ⟨rfl, fun cue hcue => absurd hcue List.not_mem_nil⟩
  rw [CueBuilder.changeSpeaker]
  split
  · rename_i hspeaker
    refine ⟨hnone, rfl, ?_, rfl, hspeaker.symm, rfl⟩
    rw [hspeaker]
    rfl
  · exact ⟨hnone, rfl, rfl, rfl, rfl, rfl⟩

theorem Fresh.push (h : Fresh maxWords past word s) (hword : word.word ≠ []) :
    Running maxWords (past ++ [word]) (s.push word) := by
  have hwords : (s.push word).current.words = [word] := by
    rw [CueBuilder.push, h.words, List.nil_append]
  refine ⟨?_, h.carries.whole, appendWord_ne_nil _ hword, ⟨?_, ?_, ?_, ?_, ?_⟩, ?_, ?_⟩
  · rw [hwords]
    exact congrArg (· ++ [word]) h.carries.partition
  · rw [hwords]
    exact List.cons_ne_nil word []
  · rw [hwords]
    exact id
  · rw [hwords]
    intro v hv w hw
    rw [List.mem_singleton.mp hv, List.mem_singleton.mp hw]
  · rw [hwords]
    exact congrArg some h.start.symm
  · rw [hwords]
    rfl
  · rw [hwords]
    intro w hw
    rw [List.mem_singleton.mp hw]
    exact h.speaker.symm
  · rw [hwords, CueBuilder.push, h.count]
    rfl

theorem Running.push (h : Running maxWords past s) (hspeaker : word.speaker = s.currentSpeaker)
    (hstays : s.breakLine maxChars maxWords word = false) :
    Running maxWords (past ++ [word]) (s.push word) := by
  have hroom : 0 < maxWords → s.current.words.length + 1 ≤ maxWords := by
    simp only [breakLine, h.text, h.count, ne_eq, not_false_eq_true, decide_true, Bool.true_and,
      Bool.or_eq_false_iff, Bool.and_eq_false_iff, decide_eq_false_iff_not] at hstays
    omega
  have hsame : ∀ w ∈ s.current.words ++ [word], w.speaker = s.currentSpeaker := by
    intro w hw
    rcases List.mem_append.mp hw with hw | hw
    · exact h.speaker w hw
    · rw [List.mem_singleton.mp hw, hspeaker]
  refine ⟨?_, h.whole, ?_, ⟨?_, ?_, ?_, ?_, ?_⟩, hsame, ?_⟩
  · rw [← h.partition, List.append_assoc]
    rfl
  · rw [CueBuilder.push, appendWord]
    split <;> simp [h.text]
  · exact List.append_ne_nil_of_right_ne_nil _ (List.cons_ne_nil word [])
  · intro hmax
    rw [CueBuilder.push, List.length_append, List.length_singleton]
    exact hroom hmax
  · exact fun v hv w hw => (hsame v hv).trans (hsame w hw).symm
  · rw [CueBuilder.push, List.head?_append_of_ne_nil _ h.current.some_word]
    exact h.current.start
  · rw [CueBuilder.push, List.getLast?_concat]
    rfl
  · rw [CueBuilder.push, List.length_append, List.length_singleton, h.count]

theorem speakerLabel_eq_nil {speaker : Option ℕ} : speakerLabel speaker = [] ↔ speaker = none := by
  cases speaker with
  | none => exact iff_of_true rfl rfl
  | some n =>
      have hlabel : speakerLabel (some n) ≠ [] :=
        List.append_ne_nil_of_right_ne_nil _ (by decide)
      exact iff_of_false hlabel (Option.some_ne_none n)

theorem Fresh.breakLine_iff (h : Fresh maxWords past word s) :
    s.breakLine maxChars maxWords word = true ↔ ¬LabelFits maxChars word := by
  have hwords : ¬(0 < maxWords ∧ maxWords < 1) := by omega
  simp only [breakLine, wouldChars, h.text, h.count, LabelFits, Nat.zero_add, ne_eq,
    speakerLabel_eq_nil, Bool.and_eq_true, Bool.or_eq_true, decide_eq_true_eq, hwords, or_false]
  by_cases hspeaker : word.speaker = none
  · simp [hspeaker]
  · rw [if_neg hspeaker]
    simp only [hspeaker, not_false_eq_true, true_and, false_or]
    omega

/-- The label that a word does not fit behind is left as a cue. -/
theorem Fresh.label_left (h : Fresh maxWords past word s) (hword : ¬LabelFits maxChars word) :
    ∃ cue ∈ (s.addWord maxChars maxWords word).cues, cue.words = [] := by
  have hbreak := h.breakLine_iff.mpr hword
  have htext : s.current.text ≠ [] := by
    rw [breakLine, Bool.and_eq_true, decide_eq_true_eq] at hbreak
    exact hbreak.1
  rw [addWord, if_pos hbreak]
  refine ⟨{ s.current with text := trimEnd s.current.text }, ?_, h.words⟩
  rw [CueBuilder.push, newLine, CueBuilder.flush, if_neg htext]
  exact List.mem_append_right _ (List.mem_singleton_self _)

theorem Fresh.addWord (h : Fresh maxWords past word s) (hword : word.word ≠ [])
    (hfits : LabelFits maxChars word) :
    Running maxWords (past ++ [word]) (s.addWord maxChars maxWords word) := by
  rw [CueBuilder.addWord, if_neg (mt h.breakLine_iff.mp (not_not_intro hfits))]
  exact h.push hword

theorem Running.addWord (h : Running maxWords past s) (hspeaker : word.speaker = s.currentSpeaker)
    (hword : word.word ≠ []) :
    Running maxWords (past ++ [word]) (s.addWord maxChars maxWords word) := by
  rw [CueBuilder.addWord]
  split
  · exact (h.newLine hspeaker).push hword
  · rename_i hstays
    exact h.push hspeaker (Bool.eq_false_of_not_eq_true hstays)

theorem flush_cues (s : CueBuilder) : s.cues <+: s.flush.cues := by
  rw [CueBuilder.flush]
  split
  · exact List.prefix_rfl
  · exact List.prefix_append _ _

theorem step_cues (s : CueBuilder) (word : WordInfo) :
    s.cues <+: (s.step maxChars maxWords word).cues := by
  have hchange : s.cues <+: (s.changeSpeaker word).cues := by
    rw [CueBuilder.changeSpeaker]
    split
    · exact List.prefix_rfl
    · exact s.flush_cues
  apply hchange.trans
  rw [step, CueBuilder.addWord]
  split
  · exact flush_cues _
  · exact List.prefix_rfl

theorem foldl_step_cues (s : CueBuilder) (words : List WordInfo) :
    s.cues <+: (words.foldl (step maxChars maxWords) s).cues := by
  induction words generalizing s with
  | nil => exact List.prefix_rfl
  | cons word words ih => exact (s.step_cues word).trans (ih _)

theorem not_carries {words : List WordInfo} {cue : Cue} (hcue : cue ∈ s.cues)
    (hempty : cue.words = []) (maxChars : ℕ) (rest : List WordInfo) :
    ¬Carries maxWords words (rest.foldl (step maxChars maxWords) s).flush.cues := by
  intro hcarries
  have hgrows := (foldl_step_cues s rest).trans (flush_cues (rest.foldl (step maxChars maxWords) s))
  exact (hcarries.whole cue (hgrows.subset hcue)).some_word hempty

theorem Running.currentSpeaker (h : Running maxWords (past ++ [word]) s) :
    s.currentSpeaker = word.speaker := by
  obtain ⟨words, last, hwords⟩ : ∃ words last, s.current.words = words ++ [last] :=
    ⟨_, _, (List.dropLast_append_getLast h.current.some_word).symm⟩
  have hpartition := h.partition
  rw [hwords, ← List.append_assoc] at hpartition
  obtain ⟨-, hlast⟩ := List.append_inj' hpartition rfl
  cases hlast
  exact (h.speaker word (hwords ▸ List.mem_append_right words (List.mem_singleton_self word))).symm

/-- From a cue under way the words are carried if and only if no label is left behind. -/
theorem Running.foldl_step (h : Running maxWords past s) (maxChars : ℕ) {rest : List WordInfo}
    (hrest : ∀ w ∈ rest, w.word ≠ []) :
    Carries maxWords (past ++ rest) (rest.foldl (step maxChars maxWords) s).flush.cues ↔
      LabelsFit maxChars s.currentSpeaker rest := by
  induction rest generalizing s past with
  | nil =>
      rw [List.append_nil]
      exact iff_of_true h.flush trivial
  | cons word rest ih =>
      have hword := hrest word List.mem_cons_self
      have hrest' : ∀ w ∈ rest, w.word ≠ [] := fun w hw => hrest w (List.mem_cons_of_mem _ hw)
      rw [List.foldl_cons, LabelsFit, ← List.singleton_append, ← List.append_assoc]
      by_cases hspeaker : word.speaker = s.currentSpeaker
      · have hsame : s.changeSpeaker word = s := by rw [CueBuilder.changeSpeaker, if_pos hspeaker]
        have hnext : Running maxWords (past ++ [word]) (s.step maxChars maxWords word) := by
          rw [step, hsame]
          exact h.addWord hspeaker hword
        rw [ih hnext hrest', hnext.currentSpeaker, and_iff_right (Or.inl hspeaker)]
      · by_cases hfits : LabelFits maxChars word
        · have hnext : Running maxWords (past ++ [word]) (s.step maxChars maxWords word) :=
            (h.changeSpeaker hspeaker).addWord hword hfits
          rw [ih hnext hrest', hnext.currentSpeaker, and_iff_right (Or.inr hfits)]
        · obtain ⟨cue, hcue, hempty⟩ := (h.changeSpeaker hspeaker).label_left hfits
          exact iff_of_false (not_carries hcue hempty maxChars rest) fun hall =>
            hall.1.elim hspeaker hfits

end CueBuilder

open CueBuilder in
/-- The cues carry the words, each with the times of its own, if and only if every word that begins a
speaker's turn fits behind the label. -/
theorem buildCues_carries_iff {words : List WordInfo} (hwords : ∀ w ∈ words, w.word ≠ [])
    (maxChars maxWords : ℕ) :
    Carries maxWords words (buildCues words maxChars maxWords) ↔ LabelsFit maxChars none words := by
  cases words with
  | nil => exact iff_of_true ⟨rfl, fun cue hcue => absurd hcue List.not_mem_nil⟩ trivial
  | cons first rest =>
      have hfirst := hwords first List.mem_cons_self
      have hrest : ∀ w ∈ rest, w.word ≠ [] := fun w hw => hwords w (List.mem_cons_of_mem _ hw)
      have hfresh := fresh_new maxWords first
      rw [buildCues, List.foldl_cons, LabelsFit]
      by_cases hfits : LabelFits maxChars first
      · have hnext : Running maxWords ([] ++ [first]) ((new first).step maxChars maxWords first) :=
          hfresh.addWord hfirst hfits
        have hrun := hnext.foldl_step maxChars hrest
        rw [hnext.currentSpeaker] at hrun
        rw [and_iff_right (Or.inr hfits)]
        exact hrun
      · obtain ⟨cue, hcue, hempty⟩ := hfresh.label_left hfits
        apply iff_of_false (not_carries hcue hempty maxChars rest)
        intro hall
        exact hall.1.elim (fun hnone => hfits (Or.inr (Or.inl hnone))) hfits

theorem buildCues_carries_two :
    let words : List WordInfo :=
      [⟨"да".toList, 0, 1 / 2, 1, some 0⟩, ⟨"нет".toList, 1 / 2, 1, 1, some 1⟩]
    Carries 14 words (buildCues words 80 14) ↔ LabelsFit 80 none words :=
  buildCues_carries_iff (by decide) 80 14

open CueBuilder in
/-- A line that the label and the word are too long for gives a cue without words. -/
theorem buildCues_label_left :
    let words : List WordInfo := [⟨"стенограмма".toList, 0, 1, 1, some 0⟩]
    ¬Carries 14 words (buildCues words 20 14) := by
  intro words
  obtain ⟨cue, hcue, hempty⟩ :=
    (fresh_new 14 ⟨"стенограмма".toList, 0, 1, 1, some 0⟩).label_left (by decide : ¬LabelFits 20 _)
  exact not_carries hcue hempty 20 []

end Gigastt
