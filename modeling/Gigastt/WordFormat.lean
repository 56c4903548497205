import Gigastt.Logits
import Gigastt.Stream
import Gigastt.Tokenizer

/-!
Tokens grouped into words. The two builders are separate scans over the tokens: one splits in front of
every token that begins with the boundary marker, the other at the marker.
-/

namespace Gigastt

/-- The words so far, and the word under way with its first and last frame. -/
structure WordScan where
  words : List WordInfo
  currentWord : Text
  wordStartFrame : Option Nat
  wordEndFrame : Nat
  wordConfidences : List ℚ
  deriving DecidableEq, Repr

namespace WordScan

def new : WordScan :=
  { words := [], currentWord := [], wordStartFrame := none, wordEndFrame := 0, wordConfidences := [] }

/-- A piece of text of the word under way. -/
def push (s : WordScan) (text : Text) (token : TokenInfo ℚ) : WordScan :=
  if text = [] then s
  else
    { s with
      currentWord := s.currentWord ++ text
      wordStartFrame := s.wordStartFrame.or (some token.frameIndex)
      wordEndFrame := token.frameIndex
      wordConfidences := s.wordConfidences ++ [token.confidence] }

section

variable (rnd rnd32 : Rounding) (frameOffset : Nat)

def seconds (frame : Nat) : ℚ :=
  rnd.mul ↑(frame + frameOffset) (secondsPerFrame rnd)

/-- The word under way, with the mean confidence of its tokens. -/
def word (s : WordScan) : WordInfo where
  word := s.currentWord
  start := seconds rnd frameOffset (s.wordStartFrame.getD 0)
  stop := seconds rnd frameOffset s.wordEndFrame
  confidence :=
    if s.wordConfidences = [] then 1
    else rnd32.div (s.wordConfidences.foldl rnd32.add 0) s.wordConfidences.length
  speaker := none

/-- The word under way is done. -/
def emit (s : WordScan) : WordScan :=
  { s with
    words := s.words ++ [s.word rnd rnd32 frameOffset]
    currentWord := []
    wordStartFrame := none
    wordConfidences := [] }

def flush (s : WordScan) : WordScan :=
  if s.currentWord = [] then s else s.emit rnd rnd32 frameOffset

end

end WordScan

/-- A text that begins with the boundary marker. -/
def startsWord (text : Text) : Bool := text.head? = some wordBoundary

/-- `strip_prefix`. -/
def stripBoundary (text : Text) : Text := if startsWord text then text.tail else text

section Builders

variable (rnd rnd32 : Rounding) (tokenizer : Tokenizer) (frameOffset : Nat)

/-- A token that begins a word ends the one before. -/
def wordStep (s : WordScan) (token : TokenInfo ℚ) : WordScan :=
  let text := tokenizer.tokenText token.tokenId
  let s :=
    if startsWord text ∧ s.currentWord ≠ [] then s.emit rnd rnd32 frameOffset else s
  s.push (stripBoundary text) token

def tokensToWords (tokens : List (TokenInfo ℚ)) : List WordInfo :=
  if tokens = [] then []
  else
    let s := tokens.foldl (wordStep rnd rnd32 tokenizer frameOffset) .new
    if s.currentWord ≠ [] then s.words ++ [s.word rnd rnd32 frameOffset] else s.words

/-- A token that begins with the marker is dropped whole. -/
def ctcWordStep (s : WordScan) (token : TokenInfo ℚ) : WordScan :=
  let text := tokenizer.tokenText token.tokenId
  if startsWord text then s.flush rnd rnd32 frameOffset else s.push text token

def ctcTokensToWords (tokens : List (TokenInfo ℚ)) : List WordInfo :=
  ((tokens.foldl (ctcWordStep rnd rnd32 tokenizer frameOffset) .new).flush rnd rnd32 frameOffset).words

end Builders

section Scan

variable (rnd rnd32 : Rounding) (tokenizer : Tokenizer) (frameOffset : Nat)

theorem seconds_mono {a b : Nat} (h : a ≤ b) :
    WordScan.seconds rnd frameOffset a ≤ WordScan.seconds rnd frameOffset b := by
  have hframe : 0 ≤ secondsPerFrame rnd := by
    calc (0 : ℚ) = rnd.round 0 := rnd.round_zero.symm
      _ ≤ secondsPerFrame rnd := rnd.monotone (by positivity)
  refine rnd.monotone (mul_le_mul_of_nonneg_right ?_ hframe)
  exact_mod_cast Nat.add_le_add_right h frameOffset

/-- The text of a token without the marker in front. -/
def plainText (token : TokenInfo ℚ) : Text := stripBoundary (tokenizer.tokenText token.tokenId)

namespace WordScan

/-- Words and the word under way hold the text of the tokens. -/
structure Holds (text : Text) (s : WordScan) : Prop where
  text_eq : s.words.flatMap WordInfo.word ++ s.currentWord = text
  nonempty : ∀ w ∈ s.words, w.word ≠ []
  started : s.currentWord ≠ [] → ∃ frame, s.wordStartFrame = some frame

variable {s : WordScan} {text : Text}

theorem holds_new : Holds [] new :=
  ⟨rfl, fun _ hw => absurd hw List.not_mem_nil, fun hne => absurd rfl hne⟩

theorem Holds.push (h : Holds text s) (piece : Text) (token : TokenInfo ℚ) :
    Holds (text ++ piece) (s.push piece token) := by
  unfold WordScan.push
  split_ifs with hpiece
  · rw [hpiece, List.append_nil]
    exact h
  · refine ⟨?_, h.nonempty, fun _ => ?_⟩
    · rw [← h.text_eq, List.append_assoc]
    · cases s.wordStartFrame with
      | none => exact ⟨token.frameIndex, rfl⟩
      | some frame => exact ⟨frame, rfl⟩

theorem Holds.flush (h : Holds text s) : Holds text (s.flush rnd rnd32 frameOffset) := by
  unfold WordScan.flush
  split_ifs with hcurrent
  · exact h
  · refine ⟨?_, fun w hw => ?_, fun hne => absurd rfl hne⟩
    · rw [← h.text_eq]
      simp [emit, word]
    · rcases List.mem_append.mp hw with hold | hnew
      · exact h.nonempty w hold
      · rw [List.mem_singleton.mp hnew]
        exact hcurrent

/-- The words are over by the given frame, and before the word under way starts. -/
structure Timed (bound : Nat) (s : WordScan) : Prop where
  ordered : InOrder s.words
  ended : ∀ w ∈ s.words, w.stop ≤ seconds rnd frameOffset bound
  current : ∀ frame, s.wordStartFrame = some frame → frame ≤ s.wordEndFrame ∧
    s.wordEndFrame ≤ bound ∧ ∀ w ∈ s.words, w.stop ≤ seconds rnd frameOffset frame

variable {rnd frameOffset} {bound : Nat}

theorem timed_new : Timed rnd frameOffset bound new :=
  ⟨⟨fun _ hw => absurd hw List.not_mem_nil, List.Pairwise.nil⟩,
    fun _ hw => absurd hw List.not_mem_nil, fun _ h => by cases h⟩

theorem Timed.mono (h : Timed rnd frameOffset bound s) {later : Nat} (hlater : bound ≤ later) :
    Timed rnd frameOffset later s :=
  ⟨h.ordered, fun w hw => (h.ended w hw).trans (seconds_mono rnd frameOffset hlater),
    fun frame hframe =>
      let ⟨hstart, hend, hwords⟩ := h.current frame hframe
      ⟨hstart, hend.trans hlater, hwords⟩⟩

theorem Timed.push (h : Timed rnd frameOffset bound s) (piece : Text) {token : TokenInfo ℚ}
    (hbound : bound ≤ token.frameIndex) :
    Timed rnd frameOffset token.frameIndex (s.push piece token) := by
  have hlater : ∀ w ∈ s.words, w.stop ≤ seconds rnd frameOffset token.frameIndex := fun w hw =>
    (h.ended w hw).trans (seconds_mono rnd frameOffset hbound)
  unfold WordScan.push
  split_ifs
  · refine ⟨h.ordered, hlater, fun frame hframe => ?_⟩
    obtain ⟨hstart, hend, hwords⟩ := h.current frame hframe
    exact ⟨hstart, hend.trans hbound, hwords⟩
  · refine ⟨h.ordered, hlater, fun frame hframe => ?_⟩
    dsimp only at hframe ⊢
    cases hstart : s.wordStartFrame with
    | none =>
        rw [hstart, Option.none_or, Option.some.injEq] at hframe
        subst hframe
        exact ⟨le_rfl, le_rfl, hlater⟩
    | some first =>
        rw [hstart, Option.some_or, Option.some.injEq] at hframe
        subst hframe
        obtain ⟨hfirst, hend, hwords⟩ := h.current first hstart
        exact ⟨(hfirst.trans hend).trans hbound, le_rfl, hwords⟩

theorem Timed.flush (h : Timed rnd frameOffset bound s)
    (hstarted : s.currentWord ≠ [] → ∃ frame, s.wordStartFrame = some frame) :
    Timed rnd frameOffset bound (s.flush rnd rnd32 frameOffset) := by
  unfold WordScan.flush
  split_ifs with hcurrent
  · exact h
  · obtain ⟨frame, hframe⟩ := hstarted hcurrent
    obtain ⟨hstart, hend, hwords⟩ := h.current frame hframe
    have hword : (s.word rnd rnd32 frameOffset).start = seconds rnd frameOffset frame := by
      rw [word, hframe, Option.getD_some]
    have hmem : ∀ {p : WordInfo → Prop}, (∀ w ∈ s.words, p w) → p (s.word rnd rnd32 frameOffset) →
        ∀ w ∈ s.words ++ [s.word rnd rnd32 frameOffset], p w := by
      intro p hold hnew w hw
      rcases List.mem_append.mp hw with hw | hw
      · exact hold w hw
      · rw [List.mem_singleton.mp hw]
        exact hnew
    refine ⟨⟨hmem h.ordered.forward ?_, ?_⟩, hmem h.ended (seconds_mono rnd frameOffset hend),
      fun _ h => by cases h⟩
    · rw [hword]
      exact seconds_mono rnd frameOffset hstart
    · refine List.pairwise_append.mpr ⟨h.ordered.apart, List.pairwise_singleton _ _, ?_⟩
      intro v hv w hw
      rw [List.mem_singleton.mp hw, hword]
      exact hwords v hv

end WordScan

section Words

open WordScan

theorem wordStep_eq (s : WordScan) (token : TokenInfo ℚ) :
    wordStep rnd rnd32 tokenizer frameOffset s token =
      (if startsWord (tokenizer.tokenText token.tokenId) then s.flush rnd rnd32 frameOffset else s).push
        (plainText tokenizer token) token := by
  unfold wordStep WordScan.flush plainText
  dsimp only
  by_cases hstarts : startsWord (tokenizer.tokenText token.tokenId) = true
  · by_cases hcurrent : s.currentWord = []
    · simp [hstarts, hcurrent]
    · simp [hstarts, hcurrent]
  · simp [hstarts]

theorem tokensToWords_eq (tokens : List (TokenInfo ℚ)) :
    tokensToWords rnd rnd32 tokenizer frameOffset tokens =
      ((tokens.foldl (wordStep rnd rnd32 tokenizer frameOffset) .new).flush
        rnd rnd32 frameOffset).words := by
  unfold tokensToWords
  by_cases htokens : tokens = []
  · rw [htokens]
    rfl
  · rw [if_neg htokens]
    unfold WordScan.flush
    by_cases hcurrent : (tokens.foldl (wordStep rnd rnd32 tokenizer frameOffset) .new).currentWord = []
    · simp [hcurrent]
    · simp [hcurrent, WordScan.emit]

theorem holds_foldl (tokens : List (TokenInfo ℚ)) :
    Holds (tokens.flatMap (plainText tokenizer))
      (tokens.foldl (wordStep rnd rnd32 tokenizer frameOffset) .new) := by
  induction tokens using List.reverseRecOn with
  | nil => exact holds_new
  | append_singleton tokens token ih =>
      rw [List.foldl_append, List.flatMap_append, List.foldl_cons, List.foldl_nil,
        List.flatMap_singleton, wordStep_eq]
      split_ifs
      · exact (ih.flush rnd rnd32 frameOffset).push _ token
      · exact ih.push _ token

theorem timed_foldl {tokens : List (TokenInfo ℚ)}
    (hframes : tokens.Pairwise fun a b => a.frameIndex ≤ b.frameIndex) {bound : Nat}
    (hbound : ∀ token ∈ tokens, token.frameIndex ≤ bound) :
    Timed rnd frameOffset bound (tokens.foldl (wordStep rnd rnd32 tokenizer frameOffset) .new) := by
  induction tokens using List.reverseRecOn generalizing bound with
  | nil => exact timed_new
  | append_singleton tokens token ih =>
      obtain ⟨hearlier, _, hlast⟩ := List.pairwise_append.mp hframes
      have htimed : Timed rnd frameOffset token.frameIndex
          (tokens.foldl (wordStep rnd rnd32 tokenizer frameOffset) .new) :=
        ih hearlier fun a ha => hlast a ha token (List.mem_singleton_self token)
      have hstarted := (holds_foldl rnd rnd32 tokenizer frameOffset tokens).started
      rw [List.foldl_append, List.foldl_cons, List.foldl_nil, wordStep_eq]
      refine (?_ : Timed rnd frameOffset token.frameIndex _).mono (hbound token (by simp))
      split_ifs
      · exact (htimed.flush rnd32 hstarted).push _ le_rfl
      · exact htimed.push _ le_rfl

/-- Every word holds text, and together they hold that of the tokens. -/
theorem tokensToWords_text (tokens : List (TokenInfo ℚ)) :
    (∀ w ∈ tokensToWords rnd rnd32 tokenizer frameOffset tokens, w.word ≠ []) ∧
      (tokensToWords rnd rnd32 tokenizer frameOffset tokens).flatMap WordInfo.word =
        tokens.flatMap (plainText tokenizer) := by
  have hholds := (holds_foldl rnd rnd32 tokenizer frameOffset tokens).flush rnd rnd32 frameOffset
  rw [tokensToWords_eq]
  refine ⟨hholds.nonempty, ?_⟩
  rw [← hholds.text_eq, WordScan.flush]
  split_ifs with hcurrent
  · rw [hcurrent, List.append_nil]
  · exact (List.append_nil _).symm

/-- The words of tokens in order of their frames are in order. -/
theorem tokensToWords_inOrder {tokens : List (TokenInfo ℚ)}
    (hframes : tokens.Pairwise fun a b => a.frameIndex ≤ b.frameIndex) :
    InOrder (tokensToWords rnd rnd32 tokenizer frameOffset tokens) := by
  obtain ⟨bound, hbound⟩ : ∃ bound, ∀ token ∈ tokens, token.frameIndex ≤ bound :=
    ⟨(tokens.map TokenInfo.frameIndex).sum, fun token htoken =>
      List.le_sum_of_mem (List.mem_map_of_mem htoken)⟩
  rw [tokensToWords_eq]
  exact ((timed_foldl rnd rnd32 tokenizer frameOffset hframes hbound).flush rnd32
    (holds_foldl rnd rnd32 tokenizer frameOffset tokens).started).ordered

variable {tokenizer} in
theorem tokenText_of_bare
    (hbare : ∀ tok ∈ tokenizer.tokens, startsWord tok = true → tok = [wordBoundary]) {id : Nat}
    (hstarts : startsWord (tokenizer.tokenText id) = true) :
    tokenizer.tokenText id = [wordBoundary] := by
  have hne : tokenizer.tokenText id ≠ [] := fun hnil => by
    rw [hnil] at hstarts
    cases hstarts
  exact hbare _ (Tokenizer.tokenText_mem hne) hstarts

variable {tokenizer} in
/-- A vocabulary in which nothing but the marker begins with it. -/
theorem plainText_of_bare
    (hbare : ∀ tok ∈ tokenizer.tokens, startsWord tok = true → tok = [wordBoundary])
    (token : TokenInfo ℚ) : plainText tokenizer token =
      if tokenizer.tokenText token.tokenId = [wordBoundary] then []
      else tokenizer.tokenText token.tokenId := by
  unfold plainText stripBoundary
  by_cases hstarts : startsWord (tokenizer.tokenText token.tokenId) = true
  · rw [tokenText_of_bare hbare hstarts]
    rfl
  · have hne : tokenizer.tokenText token.tokenId ≠ [wordBoundary] := fun heq => by
      rw [heq] at hstarts
      exact hstarts rfl
    rw [if_neg hstarts, if_neg hne]

variable {tokenizer} in
theorem ctcWordStep_eq
    (hbare : ∀ tok ∈ tokenizer.tokens, startsWord tok = true → tok = [wordBoundary]) :
    ctcWordStep rnd rnd32 tokenizer frameOffset = wordStep rnd rnd32 tokenizer frameOffset := by
  funext s token
  rw [wordStep_eq]
  unfold ctcWordStep plainText stripBoundary
  dsimp only
  split_ifs with hstarts
  · rw [tokenText_of_bare hbare hstarts]
    exact (if_pos rfl).symm
  · rfl

/-- Where no token but the marker begins with it, the builders agree. -/
theorem words_agree (hbare : ∀ tok ∈ tokenizer.tokens, startsWord tok = true → tok = [wordBoundary])
    (tokens : List (TokenInfo ℚ)) :
    let words := tokensToWords rnd rnd32 tokenizer frameOffset tokens
    ctcTokensToWords rnd rnd32 tokenizer frameOffset tokens = words ∧
      (∀ w ∈ words, w.word ≠ []) ∧
      words.flatMap WordInfo.word = ((tokens.map fun token =>
        tokenizer.tokenText token.tokenId).filter (· ≠ [wordBoundary])).flatten ∧
      ((tokens.Pairwise fun a b => a.frameIndex ≤ b.frameIndex) →
        (∀ w ∈ words, w.start ≤ w.stop) ∧ SortedWords words) := by
  obtain ⟨hnonempty, htext⟩ := tokensToWords_text rnd rnd32 tokenizer frameOffset tokens
  refine ⟨?_, hnonempty, ?_, fun hframes => ?_⟩
  · rw [ctcTokensToWords, ctcWordStep_eq rnd rnd32 frameOffset hbare, tokensToWords_eq]
  · rw [htext]
    clear hnonempty htext
    induction tokens with
    | nil => rfl
    | cons token tokens ih =>
        rw [List.flatMap_cons, List.map_cons, ih, plainText_of_bare hbare]
        by_cases hmarker : tokenizer.tokenText token.tokenId = [wordBoundary]
        · simp [hmarker]
        · simp [hmarker]
  · have hordered := tokensToWords_inOrder rnd rnd32 tokenizer frameOffset hframes
    exact ⟨hordered.forward, hordered.sorted⟩

/-- A leading, a repeated and a trailing marker. -/
theorem words_agree_markers :
    let tokenizer := Tokenizer.fromTokens [[wordBoundary], ['а'], ['б'], blk]
    let tokens : List (TokenInfo ℚ) := [⟨0, 0, 1⟩, ⟨1, 2, 1⟩, ⟨0, 3, 1⟩, ⟨0, 4, 1⟩, ⟨2, 5, 1⟩, ⟨0, 6, 1⟩]
    let words := tokensToWords .exact .exact tokenizer 0 tokens
    ctcTokensToWords .exact .exact tokenizer 0 tokens = words ∧
      (∀ w ∈ words, w.word ≠ []) ∧
      words.flatMap WordInfo.word = ((tokens.map fun token =>
        tokenizer.tokenText token.tokenId).filter (· ≠ [wordBoundary])).flatten ∧
      ((tokens.Pairwise fun a b => a.frameIndex ≤ b.frameIndex) →
        (∀ w ∈ words, w.start ≤ w.stop) ∧ SortedWords words) :=
  words_agree .exact .exact (.fromTokens [[wordBoundary], ['а'], ['б'], blk]) 0 (by decide)
    [⟨0, 0, 1⟩, ⟨1, 2, 1⟩, ⟨0, 3, 1⟩, ⟨0, 4, 1⟩, ⟨2, 5, 1⟩, ⟨0, 6, 1⟩]

end Words

end Scan

end Gigastt
