import Gigastt.Itn
import Gigastt.WordPieceEncode

/-!
The words of a text by their offsets, and the part of the text that a range of them spans.
-/

namespace Gigastt.Punctuation

open Utf8 Splitting WordPiece

/-- The byte offsets of the words of a text, where one may be under way. -/
def wordSpansFrom (text : Text) : Option ℕ → ℕ → Text → List (ℕ × ℕ)
  | start, _, [] => (start.map fun s => (s, size text)).toList
  | start, i, c :: rest =>
      if isWhitespace c then
        (start.map fun s => (s, i)).toList ++ wordSpansFrom text none (i + c.utf8Size) rest
      else wordSpansFrom text (some (start.getD i)) (i + c.utf8Size) rest

def wordSpans (text : Text) : List (ℕ × ℕ) := wordSpansFrom text none 0 text

/-- The text from the first word of a range to its last. -/
def chunkOf (text : Text) (spans : List (ℕ × ℕ)) (start stop : ℕ) : Option Text :=
  match spans[start]?, spans[stop - 1]? with
  | some first, some last => sub text first.1 last.2
  | _, _ => none

section Locate

/-- The word under way, with what is before it. -/
def flushWord (before word : Text) : List (Text × Text) := if word.isEmpty then [] else [(before, word)]

/-- The words of a text, each with what is before it. -/
def locateFrom : Text → Text → Text → List (Text × Text)
  | before, word, [] => flushWord before word
  | before, word, c :: rest =>
      if isWhitespace c then
        flushWord before word ++ locateFrom (before ++ word ++ [c]) [] rest
      else locateFrom before (word ++ [c]) rest

def locate (text : Text) : List (Text × Text) := locateFrom [] [] text

/-- The offsets of a word. -/
def spanOf (located : Text × Text) : ℕ × ℕ := (size located.1, size (located.1 ++ located.2))

theorem map_spanOf_flushWord (before word : Text) : (flushWord before word).map spanOf =
    ((startOf before word).map fun s => (s, size (before ++ word))).toList := by
  cases word <;> rfl

theorem map_snd_flushWord (before word : Text) :
    (flushWord before word).map Prod.snd = flush word := by
  cases word <;> rfl

theorem wordSpansFrom_spec (before word rest : Text) :
    wordSpansFrom (before ++ word ++ rest) (startOf before word) (size (before ++ word)) rest =
      (locateFrom before word rest).map spanOf := by
  induction rest generalizing before word with
  | nil =>
      rw [wordSpansFrom, locateFrom, List.append_nil]
      exact (map_spanOf_flushWord before word).symm
  | cons c rest ih =>
      rw [wordSpansFrom, locateFrom]
      by_cases hspace : isWhitespace c = true
      · have hassoc : before ++ word ++ c :: rest = before ++ word ++ [c] ++ [] ++ rest := by simp
        have hsize : size (before ++ word) + c.utf8Size = size (before ++ word ++ [c] ++ []) := by
          simp only [size_append, size_cons, size_nil]
          omega
        rw [if_pos hspace, if_pos hspace, hassoc, hsize, List.map_append, ← ih, map_spanOf_flushWord]
        rfl
      · have hassoc : before ++ word ++ c :: rest = before ++ (word ++ [c]) ++ rest := by simp
        have hsize : size (before ++ word) + c.utf8Size = size (before ++ (word ++ [c])) := by
          simp only [size_append, size_cons, size_nil]
          omega
        rw [if_neg hspace, if_neg hspace, startOf_append, hassoc, hsize, ih]

theorem wordSpans_eq (text : Text) : wordSpans text = (locate text).map spanOf :=
  wordSpansFrom_spec [] [] text

theorem map_snd_locateFrom (before word rest : Text) :
    (locateFrom before word rest).map Prod.snd = splitFrom spaceKind word rest := by
  induction rest generalizing before word with
  | nil => exact map_snd_flushWord before word
  | cons c rest ih =>
      rw [locateFrom, splitFrom, spaceKind]
      by_cases hspace : isWhitespace c = true
      · rw [if_pos hspace, if_pos hspace, List.map_append, map_snd_flushWord, ih]
      · rw [if_neg hspace, if_neg hspace, ih]

/-- The located words are the words of the text. -/
theorem map_snd_locate (text : Text) : (locate text).map Prod.snd = splitWhitespace text :=
  map_snd_locateFrom [] [] text

theorem length_wordSpans (text : Text) : (wordSpans text).length = (splitWhitespace text).length := by
  rw [wordSpans_eq, ← map_snd_locate, List.length_map, List.length_map]

theorem split_of_word {word : Text} (hword : ∀ c ∈ word, isWhitespace c = false) :
    splitWhitespace word = flush word := by
  have hparts : ∀ c ∈ word, spaceKind c = .part := fun c hc => spaceKind_eq_part.mpr (hword c hc)
  have hsplit := splitFrom_of_parts hparts [] []
  rw [List.append_nil] at hsplit
  exact hsplit

theorem getElem?_flushWord {before word b w : Text} {i : ℕ}
    (h : (flushWord before word)[i]? = some (b, w)) : i = 0 ∧ b = before ∧ w = word := by
  unfold flushWord at h
  split_ifs at h
  · cases h
  · cases i with
    | zero =>
        cases h
        exact ⟨rfl, rfl, rfl⟩
    | succ i => cases h

/-- A located word stands in the text, behind the words before it. -/
theorem getElem?_locateFrom {before word rest : Text} {done : List Text}
    (hdone : ∀ r, splitWhitespace (before ++ r) = done ++ splitWhitespace r)
    (hword : ∀ c ∈ word, isWhitespace c = false) {i : ℕ} {b w : Text}
    (h : (locateFrom before word rest)[i]? = some (b, w)) :
    (∃ a, before ++ word ++ rest = b ++ w ++ a) ∧
      ∀ r, splitWhitespace (b ++ r) =
        done ++ (splitFrom spaceKind word rest).take i ++ splitWhitespace r := by
  induction rest generalizing before word done i with
  | nil =>
      obtain ⟨rfl, rfl, rfl⟩ := getElem?_flushWord h
      refine ⟨⟨[], rfl⟩, fun r => ?_⟩
      rw [List.take_zero, List.append_nil, hdone]
  | cons c rest ih =>
      rw [locateFrom] at h
      by_cases hspace : isWhitespace c = true
      · have hkind : spaceKind c = .gap := if_pos hspace
        have hpieces : splitFrom spaceKind word (c :: rest) = flush word ++ splitFrom spaceKind [] rest := by
          rw [splitFrom, hkind]
        have hlength : (flushWord before word).length = (flush word).length := by
          rw [← map_snd_flushWord before word, List.length_map]
        rw [if_pos hspace, List.getElem?_append] at h
        rw [hpieces]
        split_ifs at h with hlt
        · obtain ⟨rfl, rfl, rfl⟩ := getElem?_flushWord h
          refine ⟨⟨c :: rest, rfl⟩, fun r => ?_⟩
          rw [List.take_zero, List.append_nil, hdone]
        · have hnext : ∀ r, splitWhitespace (before ++ word ++ [c] ++ r) =
              done ++ flush word ++ splitWhitespace r := by
            intro r
            have hgap := splitFrom_append_gap hkind [] word r
            rw [List.append_assoc, List.append_assoc, hdone, List.singleton_append, splitWhitespace, split,
              hgap, ← split, ← splitWhitespace, split_of_word hword, ← List.append_assoc]
            rfl
          obtain ⟨hat, hsplit⟩ := ih hnext (fun _ h => absurd h List.not_mem_nil) h
          rw [hlength] at hlt hsplit
          refine ⟨by simpa using hat, fun r => ?_⟩
          rw [hsplit, List.take_append, List.take_of_length_le (Nat.le_of_not_lt hlt),
            List.append_assoc done]
      · have hkind : spaceKind c = .part := spaceKind_eq_part.mpr (Bool.not_eq_true _ ▸ hspace)
        rw [if_neg hspace] at h
        have hword' : ∀ d ∈ word ++ [c], isWhitespace d = false := by
          intro d hd
          rcases List.mem_append.mp hd with hd | hd
          · exact hword d hd
          · rw [List.mem_singleton.mp hd]
            exact Bool.not_eq_true _ ▸ hspace
        have hpieces : splitFrom spaceKind word (c :: rest) = splitFrom spaceKind (word ++ [c]) rest := by
          rw [splitFrom, hkind]
        obtain ⟨hat, hsplit⟩ := ih hdone hword' h
        rw [hpieces]
        exact ⟨by simpa using hat, hsplit⟩

/-- The place of a word of the text. -/
theorem getElem?_locate {text before word : Text} {k : ℕ} (h : (locate text)[k]? = some (before, word)) :
    (∃ after, text = before ++ word ++ after) ∧
      ∀ rest, splitWhitespace (before ++ rest) =
        (splitWhitespace text).take k ++ splitWhitespace rest := by
  have hnone : ∀ r, splitWhitespace ([] ++ r) = [] ++ splitWhitespace r := fun _ => rfl
  exact getElem?_locateFrom hnone (fun _ h => absurd h List.not_mem_nil) h

theorem word_of_getElem?_locate {text before word : Text} {k : ℕ}
    (h : (locate text)[k]? = some (before, word)) : (splitWhitespace text)[k]? = some word := by
  rw [← map_snd_locate, List.getElem?_map, h]
  rfl

/-- What is before a word is not longer than what is up to the end of a later one. -/
theorem prefix_of_locate {text b w b' w' : Text} {i j : ℕ} (hij : i ≤ j)
    (h : (locate text)[i]? = some (b, w)) (h' : (locate text)[j]? = some (b', w')) : b <+: b' ++ w' := by
  obtain ⟨⟨after, htext⟩, hbefore⟩ := getElem?_locate h
  obtain ⟨⟨after', htext'⟩, hbefore'⟩ := getElem?_locate h'
  rcases Nat.eq_or_lt_of_le hij with rfl | hlt
  · rw [h] at h'
    cases h'
    exact List.prefix_append b w
  · have hb : b <+: text := htext ▸ (List.append_assoc b w after ▸ List.prefix_append b _)
    have hb' : b' ++ w' <+: text := htext' ▸ List.prefix_append _ after'
    apply List.prefix_of_prefix_length_le hb hb'
    by_contra hlonger
    -- then the words before the later one are among those before the first
    obtain ⟨more, hmore⟩ := List.prefix_of_prefix_length_le hb' hb (Nat.le_of_not_le hlonger)
    have hwords := congrArg (fun r => (splitWhitespace r).length) hmore
    have hfewer := congrArg List.length (hbefore [])
    have hat := congrArg List.length (hbefore' (w' ++ more))
    simp only [List.append_assoc, List.append_nil, List.length_append, List.length_take] at hwords hat hfewer
    rw [hwords] at hat
    have hlast := (List.getElem?_eq_some_iff.mp (word_of_getElem?_locate h')).1
    have hnil : (splitWhitespace ([] : Text)).length = 0 := rfl
    omega

/-- The part of the text from one word to another has the words of this range. -/
theorem chunkOf_spec {text : Text} {start stop : ℕ} (hrange : start < stop)
    (hstop : stop ≤ (wordSpans text).length) :
    ∃ chunk, chunkOf text (wordSpans text) start stop = some chunk ∧
      splitWhitespace chunk = ((splitWhitespace text).take stop).drop start := by
  rw [wordSpans_eq, List.length_map] at hstop
  obtain ⟨⟨b, w⟩, hfirst⟩ : ∃ e, (locate text)[start]? = some e :=
    ⟨_, List.getElem?_eq_getElem (by omega)⟩
  obtain ⟨⟨b', w'⟩, hlast⟩ : ∃ e, (locate text)[stop - 1]? = some e :=
    ⟨_, List.getElem?_eq_getElem (by omega)⟩
  obtain ⟨_, hbefore⟩ := getElem?_locate hfirst
  obtain ⟨⟨after', htext'⟩, hbefore'⟩ := getElem?_locate hlast
  have hword := word_of_getElem?_locate hlast
  have htoken := isToken_of_mem (List.mem_of_getElem? hword)
  have hlength := length_wordSpans text
  rw [wordSpans_eq, List.length_map] at hlength
  obtain ⟨chunk, hchunk⟩ := prefix_of_locate (Nat.le_sub_one_of_lt hrange) hfirst hlast
  refine ⟨chunk, ?_, ?_⟩
  · have hsub := sub_append b chunk after'
    rw [← size_append, hchunk, ← htext'] at hsub
    rw [chunkOf, wordSpans_eq, List.getElem?_map, List.getElem?_map, hfirst, hlast]
    exact hsub
  · have hwords := hbefore chunk
    have hall : splitWhitespace (b' ++ w') = (splitWhitespace text).take stop := by
      rw [hbefore', split_of_word htoken.2, flush_of_ne_nil htoken.1]
      obtain ⟨hlt, hget⟩ := List.getElem?_eq_some_iff.mp hword
      rw [← hget, ← List.take_succ_eq_append_getElem hlt, Nat.sub_add_cancel (by omega)]
    rw [hchunk, hall] at hwords
    rw [hwords, List.drop_left']
    rw [List.length_take]
    omega

end Locate

end Gigastt.Punctuation
