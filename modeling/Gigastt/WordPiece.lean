import Gigastt.Utf8
import Gigastt.WordPieceFile
import Gigastt.WordPieceUnicode

/-!
The encoding of a text. Added tokens are cut out first, what is between them is normalized and split into
words, and the words are spelled with the longest entries of the vocabulary. Offsets count bytes; a slice
that is refused ends everything, which is written as no result.
-/

namespace Gigastt.WordPiece

open Utf8

/-- Token ids, with the words that they belong to. -/
structure Encoding where
  ids : List ℕ
  attentionMask : List ℕ
  wordIds : List (Option ℕ)
  deriving DecidableEq, Repr

inductive Span where
  | text (slice : Text)
  | added (token : AddedToken)
  deriving DecidableEq

section Words

/-- A character of a clean text: nothing for a control character, and one kind of space. -/
def cleanChar (c : Char) : Text :=
  if c.toNat = 0 ∨ c.toNat = 0xFFFD ∨ isControl c then [] else [if isWhitespace c then ' ' else c]

def spaceChar (c : Char) : Text := if isChineseChar c then [' ', c, ' '] else [c]

/-- The word under way, if there is one, up to `stop`. -/
def wordSlice (text : Text) (wordStart : Option ℕ) (stop : ℕ) : Option (List Text) :=
  match wordStart with
  | some start => (sub text start stop).map fun word => [word]
  | none => some []

/-- The words of a text, from the characters at `i` on. -/
def bertPreTokenizeFrom (text : Text) : Option ℕ → ℕ → Text → Option (List Text)
  | wordStart, _, [] => wordSlice text wordStart (size text)
  | wordStart, i, c :: rest =>
      if isWhitespace c then do
        let word ← wordSlice text wordStart i
        let words ← bertPreTokenizeFrom text none (i + c.utf8Size) rest
        return word ++ words
      else if isBertPunc c then do
        let word ← wordSlice text wordStart i
        let punc ← sub text i (i + c.utf8Size)
        let words ← bertPreTokenizeFrom text none (i + c.utf8Size) rest
        return word ++ punc :: words
      else bertPreTokenizeFrom text (some (wordStart.getD i)) (i + c.utf8Size) rest

/-- White space is left out, and punctuation is a word of its own. -/
def bertPreTokenize (text : Text) : Option (List Text) := bertPreTokenizeFrom text none 0 text

end Words

section Strip

/-- White space in front of `start` is taken as well, but none before `spanStart`. -/
def stripLeft (text : Text) (spanStart start : ℕ) : Option ℕ :=
  if spanStart < start then
    match sub text 0 start with
    | none => none
    | some front =>
        match front.getLast? with
        | some c =>
            if isWhitespace c then stripLeft text spanStart (start - c.utf8Size) else some start
        | none => some start
  else some start
termination_by start
decreasing_by
  have hpos := c.utf8Size_pos
  omega

def stripRight (text : Text) (stop : ℕ) : Option {stop' // stop ≤ stop'} :=
  match _ : sub text stop (size text) with
  | none => none
  | some [] => some ⟨stop, Nat.le_refl stop⟩
  | some (c :: _) =>
      if isWhitespace c then
        (stripRight text (stop + c.utf8Size)).map fun r : {stop' // stop + c.utf8Size ≤ stop'} =>
          ⟨r.1, Nat.le_trans (Nat.le_add_right _ _) r.2⟩
      else some ⟨stop, Nat.le_refl stop⟩
termination_by size text - stop
decreasing_by
  rename_i hrest _
  obtain ⟨_, _, _, _, hsize⟩ := sub_eq_some_iff.mp hrest
  have hpos := c.utf8Size_pos
  rw [size_cons] at hsize
  omega

end Strip

/-- The length of the last character; one byte if there is none. -/
def lastLen (text : Text) : ℕ := (text.getLast?.map Char.utf8Size).getD 1

def firstLen (text : Text) : ℕ := (text.head?.map Char.utf8Size).getD 1

theorem lastLen_pos (text : Text) : 0 < lastLen text := by
  unfold lastLen
  cases text.getLast? with
  | none => exact Nat.one_pos
  | some c => exact c.utf8Size_pos

theorem firstLen_pos (text : Text) : 0 < firstLen text := by
  cases text with
  | nil => exact Nat.one_pos
  | cons c _ => exact c.utf8Size_pos

/-- The ids and words so far, and the index of the next word. -/
structure EncodeState where
  ids : List ℕ
  wordIds : List (Option ℕ)
  nextWord : ℕ
  deriving DecidableEq, Repr

namespace Tokenizer

variable (t : Tokenizer)

def normalize (text : Text) : Text :=
  match t.normalizer with
  | .none => text
  | .bert cleanText handleChineseChars =>
      let out := if cleanText then text.flatMap cleanChar else text
      if handleChineseChars then out.flatMap spaceChar else out

/-- The id of a piece; inside of a word it is looked up with the prefix. -/
def entry (inner : Bool) (piece : Text) : Option ℕ :=
  t.vocab.find (if inner then t.continuingSubwordPrefix ++ piece else piece)

/-- The longest piece of a word from `start` that has an id and ends at `stop` or before. -/
def probe (word : Text) (start stop : ℕ) : Option (Option (ℕ × {stop // start < stop})) :=
  if hmore : start < stop then
    match sub word start stop with
    | none => none
    | some substr =>
        match t.entry (decide (0 < start)) substr with
        | some id => some (some (id, ⟨stop, hmore⟩))
        | none => probe word start (stop - lastLen substr)
  else some none
termination_by stop
decreasing_by
  have hpos := lastLen_pos substr
  omega

/-- The ids of a word from `start` on are appended. The flag tells that some character is not covered. -/
def tokenizeFrom (word : Text) (start : ℕ) (out : List ℕ) : Option (Bool × List ℕ) :=
  if _ : start < size word then
    match t.probe word start (size word) with
    | none => none
    | some none => some (true, out)
    | some (some (id, stop)) => tokenizeFrom word stop (out ++ [id])
  else some (false, out)
termination_by size word - start
decreasing_by
  have := stop.2
  omega

def tokenizeWord (word : Text) (out : List ℕ) : Option (List ℕ) :=
  if t.maxInputCharsPerWord < word.length then some (out ++ [t.unkId])
  else
    (t.tokenizeFrom word 0 out).map fun r =>
      if r.1 then r.2.take out.length ++ [t.unkId] else r.2

/-- The better of the best added token so far and the next one. -/
def betterAdded (rest : Text) (best : Option AddedToken) (token : AddedToken) : Option AddedToken :=
  if token.content.isPrefixOf rest then
    match best with
    | some b => if size token.content ≤ size b.content then best else some token
    | none => some token
  else best

/-- The longest added token that a text begins with, the first of equal ones. -/
def bestAdded (rest : Text) : Option AddedToken := t.addedTokens.foldl (betterAdded rest) none

/-- The spans from `spanStart` on, where no added token begins before `pos`. -/
def extractFrom (text : Text) (spanStart pos : ℕ) : Option (List Span) :=
  if _ : pos < size text then
    match sub text pos (size text) with
    | none => none
    | some rest =>
        match t.bestAdded rest with
        | none => extractFrom text spanStart (pos + firstLen rest)
        | some token =>
            let start := if token.lstrip then stripLeft text spanStart pos else some pos
            let stop := if token.rstrip then stripRight text (pos + size token.content)
              else some ⟨pos + size token.content, Nat.le_refl _⟩
            match start, stop with
            | some start, some stop =>
                let front := if spanStart < start then (sub text spanStart start).map fun s => [.text s]
                  else some []
                match front, extractFrom text stop stop with
                | some front, some spans => some (front ++ .added token :: spans)
                | _, _ => none
            | _, _ => none
  else if spanStart < size text then (sub text spanStart (size text)).map fun s => [.text s]
  else some []
termination_by size text - pos
decreasing_by
  · have hpos := firstLen_pos rest
    omega
  · have hpos := size_pos token.content_ne
    have := stop.2
    omega

def extractAdded (text : Text) : Option (List Span) :=
  if t.addedTokens = [] then some (if text = [] then [] else [.text text])
  else t.extractFrom text 0 0

/-- `resize`: the list is cut or filled up. -/
def resize (wordIds : List (Option ℕ)) (length : ℕ) (fill : Option ℕ) : List (Option ℕ) :=
  wordIds.take length ++ List.replicate (length - wordIds.length) fill

def encodeWord (s : EncodeState) (word : Text) : Option EncodeState :=
  (t.tokenizeWord word s.ids).map fun ids =>
    ⟨ids, resize s.wordIds ids.length (some s.nextWord), s.nextWord + 1⟩

/-- The words of a text between added tokens. -/
def preTokens (slice : Text) : Option (List Text) :=
  let normalized := t.normalize slice
  if t.bertPreTokenizer then bertPreTokenize normalized
  else if normalized = [] then some []
  else some [normalized]

def encodeSpan (s : EncodeState) : Span → Option EncodeState
  | .added token => some ⟨s.ids ++ [token.id], s.wordIds ++ [some s.nextWord], s.nextWord + 1⟩
  | .text slice => do
      let words ← t.preTokens slice
      words.foldlM t.encodeWord s

def encode (text : Text) (addSpecialTokens : Bool) : Option Encoding := do
  let cls := if addSpecialTokens then t.cls.toList else []
  let sep := if addSpecialTokens then t.sep.toList else []
  let spans ← t.extractAdded text
  let s ← spans.foldlM t.encodeSpan ⟨cls, cls.map fun _ => none, 0⟩
  let ids := s.ids ++ sep
  return ⟨ids, List.replicate ids.length 1, s.wordIds ++ sep.map fun _ => none⟩

end Tokenizer

end Gigastt.WordPiece
