import Gigastt.Captions

/-!
The line limit of captions without speaker labels. The limit is on characters, and the builder counts
bytes, and a space in front of every word; both agree exactly on lines of one-byte characters whose words
do not end in a space.
-/

namespace Gigastt

/-- The text of a line of words. -/
def lineOf (words : List WordInfo) : Text := words.foldl (fun text w => appendWord text w.word) []

open CueBuilder in
/-- The builder starts a new cue at a word only if the line under way would be too long with it. -/
def OnlyWhenFull (words : List WordInfo) (maxChars maxWords : ℕ) : Prop :=
  ∀ first rest word after, words = first :: rest ++ word :: after →
    let s := (first :: rest).foldl (step maxChars maxWords) (new first)
    s.breakLine maxChars maxWords word = true →
      (0 < maxChars ∧ maxChars < (appendWord s.current.text word.word).length) ∨
      (0 < maxWords ∧ maxWords < s.current.words.length + 1)

/-- Every word behind some text stands behind a word that does not end in a space, and up to it there
are only one-byte characters. -/
def CountsCharacters (words : List WordInfo) : Prop :=
  ∀ before word after, words = before ++ word :: after → (∃ w ∈ before, w.word ≠ []) →
    (∃ c, (before.getLast?.bind fun w => w.word.getLast?) = some c ∧ c ≠ ' ') ∧
    ∀ w ∈ before ++ [word], ∀ c ∈ w.word, c.utf8Size = 1

section Line

variable {words : List WordInfo} {word : WordInfo} {text : Text}

theorem lineOf_concat (words : List WordInfo) (word : WordInfo) :
    lineOf (words ++ [word]) = appendWord (lineOf words) word.word := List.foldl_concat _ _ _ _

theorem appendWord_eq_nil {word : Text} : appendWord text word = [] ↔ text = [] ∧ word = [] := by
  rw [appendWord, List.append_eq_nil_iff]
  split
  · rename_i h
    simp [h.1]
  · exact Iff.rfl

theorem lineOf_eq_nil : lineOf words = [] ↔ ∀ w ∈ words, w.word = [] := by
  induction words using List.reverseRecOn with
  | nil => simp [lineOf]
  | append_singleton words word ih =>
      rw [lineOf_concat, appendWord_eq_nil, ih]
      simp only [List.mem_append, List.mem_singleton, or_imp, forall_and, forall_eq]

/-- A line ends as its last word does, if it has one. -/
theorem getLast?_lineOf (h : word.word ≠ []) :
    (lineOf (words ++ [word])).getLast? = word.word.getLast? := by
  rw [lineOf_concat, appendWord, List.getLast?_append_of_ne_nil _ h]

/-- A word without text behind a line leaves a space at its end. -/
theorem getLast?_lineOf_empty (hline : lineOf words ≠ []) (h : word.word = []) :
    (lineOf (words ++ [word])).getLast? = some ' ' := by
  rw [lineOf_concat, appendWord, h, List.append_nil]
  split
  · exact List.getLast?_concat
  · rename_i hspace
    simpa [hline] using hspace

theorem lineOf_ne_nil : lineOf words ≠ [] ↔ ∃ w ∈ words, w.word ≠ [] := by
  rw [ne_eq, lineOf_eq_nil]
  push Not
  exact Iff.rfl

/-- A line does not end in a space exactly if its last word ends in another character. -/
theorem getLast?_lineOf_ne (hline : lineOf words ≠ []) :
    (lineOf words).getLast? ≠ some ' ' ↔
      ∃ c, (words.getLast?.bind fun w => w.word.getLast?) = some c ∧ c ≠ ' ' := by
  rcases List.eq_nil_or_concat words with rfl | ⟨front, last, rfl⟩
  · exact absurd rfl hline
  · rw [List.concat_eq_append] at hline ⊢
    rw [List.getLast?_concat, Option.bind_some]
    by_cases hlast : last.word = []
    · have hfront : lineOf front ≠ [] := by
        intro hempty
        rw [lineOf_concat, hempty, hlast] at hline
        exact hline rfl
      rw [getLast?_lineOf_empty hfront hlast, hlast]
      simp
    · rw [getLast?_lineOf hlast, List.getLast?_eq_some_getLast hlast]
      simp

theorem mem_lineOf {w : WordInfo} (hw : w ∈ words) {c : Char} (hc : c ∈ w.word) :
    c ∈ lineOf words := by
  induction words using List.reverseRecOn with
  | nil => cases hw
  | append_singleton words word ih =>
      rw [lineOf_concat, appendWord]
      rcases List.mem_append.mp hw with hw | hw
      · apply List.mem_append_left
        split
        · exact List.mem_append_left _ (ih hw)
        · exact ih hw
      · rw [List.mem_singleton.mp hw] at hc
        exact List.mem_append_right _ hc

theorem size_le_appendWord (text word : Text) : Utf8.size text ≤ Utf8.size (appendWord text word) := by
  rw [appendWord, Utf8.size_append]
  split
  · rw [Utf8.size_append]
    omega
  · omega

theorem size_appendWord {word : Text} (htext : text ≠ []) (hspace : text.getLast? ≠ some ' ') :
    Utf8.size (appendWord text word) = Utf8.size text + 1 + Utf8.size word := by
  rw [appendWord, if_pos ⟨htext, hspace⟩, Utf8.size_append, Utf8.size_append]
  rfl

theorem length_appendWord {word : Text} (htext : text ≠ []) :
    (appendWord text word).length =
      text.length + (if text.getLast? = some ' ' then 0 else 1) + word.length := by
  rw [appendWord, List.length_append]
  by_cases hspace : text.getLast? = some ' '
  · rw [if_neg (fun h => h.2 hspace), if_pos hspace, Nat.add_zero]
  · rw [if_pos ⟨htext, hspace⟩, if_neg hspace, List.length_append, List.length_singleton]

theorem size_lineOf_le (words more : List WordInfo) :
    Utf8.size (lineOf words) ≤ Utf8.size (lineOf (words ++ more)) := by
  induction more using List.reverseRecOn with
  | nil => rw [List.append_nil]
  | append_singleton more word ih =>
      rw [← List.append_assoc, lineOf_concat]
      exact ih.trans (size_le_appendWord _ _)

end Line

namespace CueBuilder

variable {maxChars maxWords : ℕ} {s : CueBuilder} {word : WordInfo} {past : List WordInfo}

/-- Without labels the line under way is made of the words of the cue under way. -/
structure Unlabelled (past : List WordInfo) (s : CueBuilder) : Prop where
  line : s.current.text = lineOf s.current.words
  count : s.wordCount = s.current.words.length
  speaker : s.currentSpeaker = none
  recent : s.current.words <:+ past

theorem unlabelled_new (first : WordInfo) : Unlabelled [] (new first) := ⟨rfl, rfl, rfl, List.nil_suffix⟩

theorem Unlabelled.changeSpeaker (h : Unlabelled past s) (hword : word.speaker = none) :
    s.changeSpeaker word = s := by
  rw [CueBuilder.changeSpeaker, if_pos (hword.trans h.speaker.symm)]

theorem Unlabelled.push (h : Unlabelled past s) (word : WordInfo) :
    Unlabelled (past ++ [word]) (s.push word) where
  line := by
    rw [CueBuilder.push, lineOf_concat, ← h.line]
  count := by
    rw [CueBuilder.push, List.length_append, List.length_singleton, h.count]
  speaker := h.speaker
  recent := by
    obtain ⟨front, hfront⟩ := h.recent
    exact ⟨front, by rw [CueBuilder.push, ← List.append_assoc, hfront]⟩

theorem Unlabelled.newLine (h : Unlabelled past s) (htext : s.current.text ≠ [])
    (hword : word.speaker = none) : Unlabelled past (s.newLine word) := by
  rw [CueBuilder.newLine, CueBuilder.flush, if_neg htext, hword]
  exact ⟨rfl, rfl, h.speaker, List.nil_suffix⟩

theorem Unlabelled.step (h : Unlabelled past s) (hword : word.speaker = none) :
    Unlabelled (past ++ [word]) (s.step maxChars maxWords word) := by
  rw [CueBuilder.step, h.changeSpeaker hword, addWord]
  split
  · rename_i hbreak
    rw [breakLine, Bool.and_eq_true, decide_eq_true_eq] at hbreak
    exact (h.newLine hbreak.1 hword).push word
  · exact h.push word

theorem Unlabelled.foldl_step (h : Unlabelled past s) (maxChars maxWords : ℕ) {words : List WordInfo}
    (hwords : ∀ w ∈ words, w.speaker = none) :
    Unlabelled (past ++ words) (words.foldl (CueBuilder.step maxChars maxWords) s) := by
  induction words generalizing s past with
  | nil => rwa [List.append_nil]
  | cons word words ih =>
      rw [List.foldl_cons, ← List.singleton_append, ← List.append_assoc]
      exact ih (h.step (hwords word List.mem_cons_self)) fun w hw =>
        hwords w (List.mem_cons_of_mem _ hw)

theorem Unlabelled.breakLine_iff (h : Unlabelled past s) :
    s.breakLine maxChars maxWords word = true ↔ lineOf s.current.words ≠ [] ∧
      ((0 < maxChars ∧
          maxChars < Utf8.size (lineOf s.current.words) + 1 + Utf8.size word.word) ∨
        (0 < maxWords ∧ maxWords < s.current.words.length + 1)) := by
  rw [breakLine, wouldChars, h.line, h.count, Bool.and_eq_true, decide_eq_true_eq]
  apply and_congr_right
  intro htext
  rw [if_neg htext, Bool.or_eq_true, Bool.and_eq_true, Bool.and_eq_true]
  simp only [decide_eq_true_eq]

/-- A limit that no word exceeds leaves all words on one line. -/
theorem one_line (first : WordInfo) {words : List WordInfo} (hwords : ∀ w ∈ words, w.speaker = none)
    (hfits : ∀ before word after, words = before ++ word :: after → lineOf before ≠ [] →
      Utf8.size (lineOf before) + 1 + Utf8.size word.word ≤ maxChars) :
    (words.foldl (step maxChars 0) (new first)).current.words = words := by
  induction words using List.reverseRecOn with
  | nil => rfl
  | append_singleton words word ih =>
      have hbefore : ∀ w ∈ words, w.speaker = none := fun w hw => hwords w (List.mem_append_left _ hw)
      have hline := ih hbefore fun before word' after hsplit =>
        hfits before word' (after ++ [word]) (by rw [hsplit, List.append_assoc, List.cons_append])
      have h := (unlabelled_new first).foldl_step maxChars 0 hbefore
      have hstays : ¬(words.foldl (step maxChars 0) (new first)).breakLine maxChars 0 word = true := by
        rw [h.breakLine_iff, hline]
        rintro ⟨htext, hover | hover⟩
        · have := hfits words word [] rfl htext
          omega
        · exact absurd hover.1 (Nat.lt_irrefl 0)
      rw [List.foldl_concat, step, h.changeSpeaker (hwords word (by simp)), addWord, if_neg hstays,
        CueBuilder.push, hline]

end CueBuilder

section Limits

variable {words : List WordInfo}

open CueBuilder

/-- A line that stands behind the words before `word` counts as many characters as bytes. -/
theorem CountsCharacters.line (h : CountsCharacters words) {before line after : List WordInfo}
    {word : WordInfo} (hwords : words = before ++ line ++ word :: after) (hline : lineOf line ≠ []) :
    (lineOf line).getLast? ≠ some ' ' ∧ Utf8.size word.word ≤ word.word.length ∧
      ∀ w ∈ line, Utf8.size w.word ≤ w.word.length := by
  have hbefore : ∃ w ∈ before ++ line, w.word ≠ [] := by
    obtain ⟨w, hw, htext⟩ := lineOf_ne_nil.mp hline
    exact ⟨w, List.mem_append_right _ hw, htext⟩
  obtain ⟨hlast, hchars⟩ := h (before ++ line) word after hwords hbefore
  refine ⟨(getLast?_lineOf_ne hline).mpr ?_, Utf8.size_le_length_iff.mpr (hchars word (by simp)),
    fun v hv => Utf8.size_le_length_iff.mpr (hchars v (by simp [hv]))⟩
  have hne : line ≠ [] := fun hempty => hline (by rw [hempty]; rfl)
  rwa [List.getLast?_append_of_ne_nil _ hne] at hlast

theorem size_lineOf_le_length {line : List WordInfo}
    (h : ∀ w ∈ line, Utf8.size w.word ≤ w.word.length) :
    Utf8.size (lineOf line) ≤ (lineOf line).length := by
  induction line using List.reverseRecOn with
  | nil => exact Nat.le_refl 0
  | append_singleton line word ih =>
      have hline := ih fun w hw => h w (List.mem_append_left _ hw)
      have hword := h word (by simp)
      rw [lineOf_concat, appendWord, Utf8.size_append, List.length_append]
      split
      · rw [Utf8.size_append, List.length_append, Utf8.size_cons, Utf8.size_nil]
        have hspace : ' '.utf8Size = 1 := rfl
        rw [hspace, List.length_singleton]
        omega
      · omega

/-- Where characters are counted, a new cue begins only at a word that does not fit. -/
theorem CountsCharacters.onlyWhenFull (h : CountsCharacters words)
    (hspeakers : ∀ w ∈ words, w.speaker = none) (maxChars maxWords : ℕ) :
    OnlyWhenFull words maxChars maxWords := by
  intro first rest word after hwords s hbreak
  have hpast : ∀ w ∈ first :: rest, w.speaker = none := by
    intro w hw
    apply hspeakers
    rw [hwords]
    exact List.mem_append_left _ hw
  have hs : Unlabelled ([] ++ first :: rest) s :=
    (unlabelled_new first).foldl_step maxChars maxWords hpast
  obtain ⟨hline, hlimit⟩ := hs.breakLine_iff.mp hbreak
  rcases hlimit with hchars | hcount
  · obtain ⟨before, hbefore⟩ := hs.recent
    rw [List.nil_append] at hbefore
    rw [← hbefore] at hwords
    obtain ⟨hspace, hword, hall⟩ := h.line hwords hline
    have hsize := size_lineOf_le_length hall
    left
    rw [hs.line, length_appendWord hline, if_neg hspace]
    exact ⟨hchars.1, by omega⟩
  · exact Or.inr hcount

/-- A line that fits but for the next word is broken there. When the break has a reason, the line counts
as many characters as bytes. -/
theorem counted_of_onlyWhenFull {first word : WordInfo} {rest after : List WordInfo}
    (hpast : ∀ w ∈ first :: rest, w.speaker = none) (hwords : words = first :: rest ++ word :: after)
    (hline : lineOf (first :: rest) ≠ [])
    (hfits : ∀ before' word' after', first :: rest = before' ++ word' :: after' →
      lineOf before' ≠ [] → Utf8.size (lineOf before') + 1 + Utf8.size word'.word ≤
        Utf8.size (lineOf (first :: rest)) + Utf8.size word.word)
    (h : OnlyWhenFull words (Utf8.size (lineOf (first :: rest)) + Utf8.size word.word) 0) :
    (lineOf (first :: rest)).getLast? ≠ some ' ' ∧
      Utf8.size (lineOf (first :: rest)) ≤ (lineOf (first :: rest)).length ∧
      Utf8.size word.word ≤ word.word.length := by
  have hs := (unlabelled_new first).foldl_step
    (Utf8.size (lineOf (first :: rest)) + Utf8.size word.word) 0 hpast
  have hone := one_line first hpast hfits
  have hpos := Utf8.size_pos hline
  have hbreak : ((first :: rest).foldl
      (step (Utf8.size (lineOf (first :: rest)) + Utf8.size word.word) 0) (new first)).breakLine
        (Utf8.size (lineOf (first :: rest)) + Utf8.size word.word) 0 word = true := by
    rw [hs.breakLine_iff, hone]
    exact ⟨hline, Or.inl ⟨by omega, by omega⟩⟩
  have hfull := h first rest word after hwords hbreak
  rw [hs.line, hone, length_appendWord hline] at hfull
  have hline_size := Utf8.length_le_size (lineOf (first :: rest))
  have hword_size := Utf8.length_le_size word.word
  have hspace : (lineOf (first :: rest)).getLast? ≠ some ' ' := by
    intro hspace
    rw [if_pos hspace] at hfull
    omega
  rw [if_neg hspace] at hfull
  exact ⟨hspace, by omega, by omega⟩

/-- A limit just short of a line breaks it, which only a line of as many characters as bytes allows. -/
theorem countsCharacters_of_onlyWhenFull (hspeakers : ∀ w ∈ words, w.speaker = none)
    (h : ∀ maxChars maxWords, OnlyWhenFull words maxChars maxWords) : CountsCharacters words := by
  intro before
  -- the words up to the first one that is not counted right all fit on one line
  induction hlength : before.length using Nat.strong_induction_on generalizing before with
  | _ n ih =>
      intro word after hwords hsome
      have hline : lineOf before ≠ [] := lineOf_ne_nil.mpr hsome
      obtain ⟨first, rest, rfl⟩ : ∃ first rest, before = first :: rest :=
        List.exists_cons_of_ne_nil fun hempty => hline (by rw [hempty]; rfl)
      have hpast : ∀ w ∈ first :: rest, w.speaker = none := fun w hw =>
        hspeakers w (hwords ▸ List.mem_append_left _ hw)
      have hfits : ∀ before' word' after', first :: rest = before' ++ word' :: after' →
          lineOf before' ≠ [] → Utf8.size (lineOf before') + 1 + Utf8.size word'.word ≤
            Utf8.size (lineOf (first :: rest)) + Utf8.size word.word := by
        intro before' word' after' hsplit hline'
        have hshorter : before'.length < n := by
          rw [← hlength, hsplit, List.length_append, List.length_cons]
          omega
        have hwords' : words = before' ++ word' :: (after' ++ word :: after) := by
          rw [hwords, hsplit, List.append_assoc, List.cons_append]
        obtain ⟨hlast, -⟩ :=
          ih _ hshorter before' rfl word' _ hwords' (lineOf_ne_nil.mp hline')
        have hgrown := size_lineOf_le (before' ++ [word']) after'
        rw [← size_appendWord hline' ((getLast?_lineOf_ne hline').mpr hlast), ← lineOf_concat]
        rw [List.append_assoc, List.singleton_append, ← hsplit] at hgrown
        omega
      obtain ⟨hspace, hline_chars, hword_chars⟩ :=
        counted_of_onlyWhenFull hpast hwords hline hfits (h _ 0)
      refine ⟨(getLast?_lineOf_ne hline).mp hspace, fun w hw c hc => ?_⟩
      rcases List.mem_append.mp hw with hw | hw
      · exact Utf8.size_le_length_iff.mp hline_chars c (mem_lineOf hw hc)
      · rw [List.mem_singleton.mp hw] at hc
        exact Utf8.size_le_length_iff.mp hword_chars c hc

/-- At every limit a new cue begins only where it must, if and only if every line of words counts as
many characters as bytes. -/
theorem onlyWhenFull_iff (hspeakers : ∀ w ∈ words, w.speaker = none) :
    (∀ maxChars maxWords, OnlyWhenFull words maxChars maxWords) ↔ CountsCharacters words :=
  ⟨countsCharacters_of_onlyWhenFull hspeakers, fun h => h.onlyWhenFull hspeakers⟩

theorem onlyWhenFull_iff_ascii :
    let words : List WordInfo := [⟨"yes".toList, 0, 1 / 2, 1, none⟩, ⟨"no".toList, 1 / 2, 1, 1, none⟩]
    (∀ maxChars maxWords, OnlyWhenFull words maxChars maxWords) ↔ CountsCharacters words :=
  onlyWhenFull_iff (by decide)

/-- Two words of six characters with their space are kept apart by a limit of six. -/
theorem not_onlyWhenFull_cyrillic :
    ¬OnlyWhenFull [⟨"да".toList, 0, 1 / 2, 1, none⟩, ⟨"нет".toList, 1 / 2, 1, 1, none⟩] 6 14 := by
  intro h
  have hfull := h ⟨"да".toList, 0, 1 / 2, 1, none⟩ [] ⟨"нет".toList, 1 / 2, 1, 1, none⟩ [] rfl
    (by decide)
  exact absurd hfull (by decide)

end Limits

end Gigastt
