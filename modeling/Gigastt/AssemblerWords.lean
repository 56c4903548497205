import Gigastt.Transcript

/-!
The assembler as a pair of word lists, the committed words and the live ones. The texts it keeps beside
them are those words joined with single spaces.
-/

namespace Gigastt

section Joining

/-- Words joined with single spaces. -/
def spaced (words : List WordInfo) : Text := [' '].intercalate (words.map WordInfo.word)

/-- No word is empty. -/
def Spoken (words : List WordInfo) : Prop := ∀ w ∈ words, w.word ≠ []

variable {words front back : List WordInfo}

theorem spaced_cons (w : WordInfo) (hwords : words ≠ []) :
    spaced (w :: words) = w.word ++ ' ' :: spaced words := by
  rw [spaced, spaced, List.map_cons, List.intercalate_cons_of_ne_nil (by simpa using hwords),
    List.append_assoc, List.singleton_append]

theorem spaced_append (hfront : front ≠ []) (hback : back ≠ []) :
    spaced (front ++ back) = spaced front ++ ' ' :: spaced back := by
  induction front with
  | nil => exact absurd rfl hfront
  | cons w rest ih =>
      cases rest with
      | nil =>
          rw [List.singleton_append, spaced_cons w hback]
          simp [spaced]
      | cons v rest =>
          rw [List.cons_append, spaced_cons w (by simp), ih (List.cons_ne_nil v rest),
            spaced_cons w (List.cons_ne_nil v rest), List.append_assoc, List.cons_append]

theorem joinWords_eq (words : List WordInfo) : joinWords words = spaced words := by
  induction words with
  | nil => rfl
  | cons w rest ih =>
      cases rest with
      | nil => simp [joinWords, spaced]
      | cons v rest =>
          rw [joinWords, ih, spaced_cons w (List.cons_ne_nil v rest)]
          exact List.cons_ne_nil v rest

theorem Spoken.spaced_eq_nil (h : Spoken words) : spaced words = [] ↔ words = [] := by
  constructor
  · intro hnil
    cases words with
    | nil => rfl
    | cons w rest =>
        have hword := h w List.mem_cons_self
        cases rest with
        | nil => exact absurd (by simpa [spaced] using hnil) hword
        | cons v rest =>
            rw [spaced_cons w (List.cons_ne_nil v rest)] at hnil
            exact absurd (List.append_eq_nil_iff.mp hnil).1 hword
  · intro hnil
    rw [hnil]
    rfl

theorem Spoken.append (hfront : Spoken front) (hback : Spoken back) : Spoken (front ++ back) := by
  intro w hw
  exact (List.mem_append.mp hw).elim (hfront w) (hback w)

theorem Spoken.pushWord (h : Spoken words) (w : WordInfo) :
    pushWord (spaced words) w = spaced (words ++ [w]) := by
  unfold Gigastt.pushWord
  by_cases hwords : words = []
  · rw [hwords]
    simp [spaced]
  · have htext : (spaced words).isEmpty = false := by
      rw [List.isEmpty_eq_false_iff]
      exact fun hnil => hwords (h.spaced_eq_nil.mp hnil)
    rw [htext, spaced_append hwords (List.cons_ne_nil w [])]
    simp [spaced]

theorem Spoken.foldl_pushWord (hfront : Spoken front) (hback : Spoken back) :
    back.foldl Gigastt.pushWord (spaced front) = spaced (front ++ back) := by
  induction back generalizing front with
  | nil => rw [List.append_nil, List.foldl_nil]
  | cons w back ih =>
      have hw : Spoken [w] := fun v hv => hback v (List.mem_of_mem_head? (List.mem_singleton.mp hv ▸ rfl))
      rw [List.foldl_cons, hfront.pushWord w,
        ih (hfront.append hw) fun v hv => hback v (List.mem_cons_of_mem w hv),
        List.append_assoc, List.singleton_append]

end Joining

/-- What an utterance has heard: words that stay, and words of the last hypothesis. -/
structure Utterance where
  committed : List WordInfo
  live : List WordInfo

namespace Utterance

variable (u : Utterance)

def words : List WordInfo := u.committed ++ u.live

/-- The live words, after a space where committed ones stand before them. -/
def tentative : Text :=
  if u.committed = [] ∨ u.live = [] then spaced u.live else ' ' :: spaced u.live

end Utterance

/-- What is done with an assembler. -/
inductive AssemblerOp where
  | append (words : List WordInfo)
  | setWords (words : List WordInfo)
  | commitPrefix (n : Nat)
  | commitLive
  | partialSegment (timestamp : ℚ)
  | finalizeWithReason (timestamp : ℚ) (reason : EndpointReason)
  deriving DecidableEq, Repr

namespace AssemblerOp

variable (rnd rnd32 : Rounding)

/-- The assembler after the operation. -/
def apply (a : TranscriptAssembler) : AssemblerOp → TranscriptAssembler
  | append words => a.append words
  | setWords words => a.setWords words
  | commitPrefix n => (a.commitPrefix n).1
  | commitLive => a.commitLive
  | partialSegment _ => a
  | finalizeWithReason timestamp reason => (a.finalizeWithReason rnd rnd32 timestamp reason).2

/-- The words after the operation. -/
def step (u : Utterance) : AssemblerOp → Utterance
  | append words => ⟨u.committed, u.live ++ words⟩
  | setWords words => ⟨u.committed, words⟩
  | commitPrefix n => ⟨u.committed ++ u.live.take n, u.live.drop n⟩
  | commitLive => ⟨u.committed ++ u.live, []⟩
  | partialSegment _ => u
  | finalizeWithReason _ _ => ⟨[], []⟩

/-- The words that come with the operation. -/
def given : AssemblerOp → List WordInfo
  | append words => words
  | setWords words => words
  | _ => []

end AssemblerOp

namespace TranscriptAssembler

/-- The assembler holds the words of the utterance, and their texts. -/
structure Represents (a : TranscriptAssembler) (u : Utterance) : Prop where
  committedWords : a.committedWords = u.committed
  words : a.words = u.live
  committedText : a.committedText = spaced u.committed
  text : a.text = spaced u.live
  spokenCommitted : Spoken u.committed
  spokenLive : Spoken u.live

variable {a : TranscriptAssembler} {u : Utterance}

namespace Represents

theorem commitLive (h : Represents a u) : Represents a.commitLive ⟨u.committed ++ u.live, []⟩ := by
  obtain ⟨hcommittedWords, hwords, hcommittedText, htext, hcommitted, hlive⟩ := h
  unfold TranscriptAssembler.commitLive
  rw [hwords, hcommittedWords, hcommittedText, htext]
  by_cases hnone : u.live = []
  · rw [hnone]
    exact ⟨by simpa using hcommittedWords, by simpa [hnone] using hwords, by simpa using hcommittedText,
      by simpa [hnone] using htext, by simpa using hcommitted, fun _ hw => absurd hw List.not_mem_nil⟩
  rw [if_neg (by simpa using hnone)]
  refine ⟨rfl, rfl, ?_, rfl, hcommitted.append hlive, fun _ hw => absurd hw List.not_mem_nil⟩
  dsimp only
  by_cases hfirst : u.committed = []
  · simp [hfirst, spaced]
  · have hboth : (!(spaced u.committed).isEmpty && !(spaced u.live).isEmpty) = true := by
      simp [hcommitted.spaced_eq_nil, hlive.spaced_eq_nil, hfirst, hnone]
    rw [if_pos hboth, spaced_append hfirst hnone]

theorem commitPrefix (h : Represents a u) (n : Nat) :
    Represents (a.commitPrefix n).1 ⟨u.committed ++ u.live.take n, u.live.drop n⟩ ∧
      (a.commitPrefix n).2 = (u.live.take n).length := by
  obtain ⟨hcommittedWords, hwords, hcommittedText, htext, hcommitted, hlive⟩ := h
  have hfront : Spoken (u.live.take n) := fun w hw => hlive w (List.mem_of_mem_take hw)
  have hback : Spoken (u.live.drop n) := fun w hw => hlive w (List.mem_of_mem_drop hw)
  unfold TranscriptAssembler.commitPrefix
  rw [hwords, List.length_take]
  dsimp only
  by_cases hzero : min n u.live.length = 0
  · rw [if_pos hzero, hzero]
    rcases Nat.min_eq_zero_iff.mp hzero with hn | hn
    · subst hn
      refine ⟨⟨?_, hwords, ?_, htext, ?_, hback⟩, rfl⟩
      · simpa using hcommittedWords
      · simpa using hcommittedText
      · simpa using hcommitted
    · have hnil := List.length_eq_zero_iff.mp hn
      rw [hnil] at hwords htext ⊢
      refine ⟨⟨?_, ?_, ?_, ?_, ?_, ?_⟩, rfl⟩
      · simpa using hcommittedWords
      · simpa using hwords
      · simpa using hcommittedText
      · simpa using htext
      · simpa using hcommitted
      · simp [Spoken]
  · have htake : u.live.take (min n u.live.length) = u.live.take n := by
      rw [← List.take_take, List.take_length]
    have hdrop : u.live.drop (min n u.live.length) = u.live.drop n := by
      rcases Nat.le_total n u.live.length with hn | hn
      · rw [Nat.min_eq_left hn]
      · rw [Nat.min_eq_right hn, List.drop_length, List.drop_of_length_le hn]
    rw [if_neg hzero, htake, hdrop]
    refine ⟨⟨?_, rfl, ?_, joinWords_eq _, hcommitted.append hfront, hback⟩, rfl⟩
    · rw [hcommittedWords]
    · rw [hcommittedText]
      exact hcommitted.foldl_pushWord hfront

/-- Every operation does to the assembler what it does to the words. -/
theorem apply (rnd rnd32 : Rounding) (h : Represents a u) {op : AssemblerOp} (hgiven : Spoken op.given) :
    Represents (op.apply rnd rnd32 a) (op.step u) := by
  cases op with
  | append words =>
      refine ⟨h.committedWords, ?_, h.committedText, ?_, h.spokenCommitted, h.spokenLive.append hgiven⟩
      · exact congrArg (· ++ words) h.words
      · exact (congrArg (words.foldl pushWord) h.text).trans (h.spokenLive.foldl_pushWord hgiven)
  | setWords words =>
      exact ⟨h.committedWords, rfl, h.committedText, joinWords_eq words, h.spokenCommitted, hgiven⟩
  | commitPrefix n => exact (h.commitPrefix n).1
  | commitLive => exact h.commitLive
  | partialSegment timestamp => exact h
  | finalizeWithReason timestamp reason =>
      exact ⟨rfl, rfl, rfl, rfl, fun _ hw => absurd hw List.not_mem_nil,
        fun _ hw => absurd hw List.not_mem_nil⟩

theorem fullWords (h : Represents a u) : a.fullWords = u.words := by
  rw [TranscriptAssembler.fullWords, h.committedWords, h.words, Utterance.words]

theorem fullText_append (h : Represents a u) : a.fullText = spaced u.committed ++ u.tentative := by
  rw [TranscriptAssembler.fullText, h.committedText, h.text, Utterance.tentative]
  by_cases hfirst : u.committed = []
  · simp [hfirst, spaced]
  by_cases hnone : u.live = []
  · simp [hnone, spaced]
  · simp [h.spokenCommitted.spaced_eq_nil, h.spokenLive.spaced_eq_nil, hfirst, hnone]

theorem fullText (h : Represents a u) : a.fullText = spaced u.words := by
  rw [h.fullText_append, Utterance.tentative, Utterance.words]
  by_cases hfirst : u.committed = []
  · simp [hfirst, spaced]
  by_cases hnone : u.live = []
  · simp [hnone, spaced]
  · rw [spaced_append hfirst hnone, if_neg (not_or.mpr ⟨hfirst, hnone⟩)]

end Represents

theorem represents_new : Represents new ⟨[], []⟩ :=
  ⟨rfl, rfl, rfl, rfl, fun _ hw => absurd hw List.not_mem_nil, fun _ hw => absurd hw List.not_mem_nil⟩

variable (rnd rnd32 : Rounding)

theorem represents_foldl {ops : List AssemblerOp} (h : Represents a u)
    (hgiven : ∀ op ∈ ops, Spoken op.given) :
    Represents (ops.foldl (AssemblerOp.apply rnd rnd32) a) (ops.foldl AssemblerOp.step u) := by
  induction ops generalizing a u with
  | nil => exact h
  | cons op ops ih =>
      exact ih (h.apply rnd rnd32 (hgiven op List.mem_cons_self))
        fun op' hop' => hgiven op' (List.mem_cons_of_mem op hop')

/-- After any operations with words that are not empty, the assembler shows the words of the utterance
and their texts; commits keep the words and the text, and a final takes them all and leaves none. -/
theorem assembler_refines {ops : List AssemblerOp} (hgiven : ∀ op ∈ ops, Spoken op.given)
    (timestamp : ℚ) :
    let a := ops.foldl (AssemblerOp.apply rnd rnd32) new
    let u := ops.foldl AssemblerOp.step ⟨[], []⟩
    let segment := a.partialSegment rnd rnd32 timestamp
    (a.committedWords = u.committed ∧ a.words = u.live ∧ a.fullWords = u.words) ∧
    (a.committedText = spaced u.committed ∧ a.text = spaced u.live ∧ a.fullText = spaced u.words) ∧
    (segment.words = u.words ∧ segment.text = spaced u.words ∧
      segment.committed = spaced u.committed ∧ segment.tentative = u.tentative) ∧
    (a.commitLive.fullWords = a.fullWords ∧ a.commitLive.fullText = a.fullText) ∧
    (∀ n, (a.commitPrefix n).1.fullWords = a.fullWords ∧
      (a.commitPrefix n).1.fullText = a.fullText ∧
      (a.commitPrefix n).2 = (u.live.take n).length) ∧
    ∀ reason, let closed := a.finalizeWithReason rnd rnd32 timestamp reason
      closed.1.words = u.words ∧ closed.1.text = spaced u.words ∧ closed.1.committed = spaced u.words ∧
        closed.1.tentative = [] ∧ closed.2.fullWords = [] ∧ closed.2.fullText = [] := by
  intro a u segment
  have h : Represents a u := represents_foldl rnd rnd32 represents_new hgiven
  have htentative : segment.tentative = u.tentative := by
    calc segment.tentative = a.fullText.drop a.committedText.length := rfl
      _ = u.tentative := by rw [h.fullText_append, h.committedText, List.drop_left]
  refine ⟨⟨h.committedWords, h.words, h.fullWords⟩, ⟨h.committedText, h.text, h.fullText⟩,
    ⟨h.fullWords, h.fullText, h.committedText, htentative⟩, ?_, fun n => ?_, ?_⟩
  · have hcommit := h.commitLive
    rw [hcommit.fullWords, hcommit.fullText, h.fullWords, h.fullText]
    simp [Utterance.words]
  · obtain ⟨hcommit, hcount⟩ := h.commitPrefix n
    rw [hcommit.fullWords, hcommit.fullText, h.fullWords, h.fullText]
    refine ⟨?_, ?_, hcount⟩
    · simp [Utterance.words]
    · simp [Utterance.words]
  · intro reason closed
    have hcommit := h.commitLive
    exact ⟨hcommit.committedWords, hcommit.committedText, hcommit.committedText, rfl, rfl, rfl⟩

theorem assembler_refines_two_words :
    let w : WordInfo := ⟨['д', 'а'], 0, 1, 1, none⟩
    let v : WordInfo := ⟨['н', 'у'], 1, 2, 1, none⟩
    let ops : List AssemblerOp := [.setWords [w, v], .commitPrefix 1]
    let a := ops.foldl (AssemblerOp.apply .exact .exact) new
    a.fullText = ['д', 'а', ' ', 'н', 'у'] ∧
      (a.partialSegment .exact .exact 0).tentative = [' ', 'н', 'у'] := by
  intro w v ops a
  have hgiven : ∀ op ∈ ops, Spoken op.given := by
    intro op hop
    rcases List.mem_pair.mp hop with rfl | rfl
    · intro x hx
      rcases List.mem_pair.mp hx with rfl | rfl
      · decide
      · decide
    · exact fun x hx => absurd hx List.not_mem_nil
  obtain ⟨_, ⟨_, _, hfull⟩, ⟨_, _, _, htentative⟩, _⟩ :=
    assembler_refines .exact .exact hgiven 0
  exact ⟨hfull, htentative⟩

end TranscriptAssembler

end Gigastt
