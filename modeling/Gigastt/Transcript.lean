import Gigastt.Rounding
import Gigastt.Words

/-!
Transcript segments and their assembler: a committed prefix that never changes until the utterance
ends, and a live tail that every decode may replace.
-/

namespace Gigastt

/-- Why an utterance was closed. -/
inductive EndpointReason where
  | vad
  | blank
  | stop
  deriving DecidableEq, Repr

structure TranscriptSegment where
  text : Text
  committed : Text
  tentative : Text
  words : List WordInfo
  isFinal : Bool
  speechFinal : Bool
  endpointReason : Option EndpointReason
  truncated : Bool
  timestamp : ℚ
  confidence : Option ℚ
  deriving DecidableEq, Repr

/-- Words joined with single spaces. -/
def joinWords : List WordInfo → Text
  | [] => []
  | [w] => w.word
  | w :: rest => w.word ++ ' ' :: joinWords rest

/-- Append a word, after a space unless the text is still empty. -/
def pushWord (text : Text) (w : WordInfo) : Text :=
  if text.isEmpty then w.word else text ++ ' ' :: w.word

section Confidence

variable (rnd rnd32 : Rounding)

/-- The mean confidence weighted by duration, or the plain mean when all durations are zero. -/
def aggregateConfidence (words : List WordInfo) : Option ℚ :=
  if words.isEmpty then none
  else
    let weight := fun w : WordInfo => max (rnd.sub w.stop w.start) 0
    let weightedSum := words.foldl (fun sum w =>
      rnd.add sum (rnd.mul w.confidence (weight w))) 0
    let totalWeight := words.foldl (fun sum w => rnd.add sum (weight w)) 0
    let mean :=
      if 0 < totalWeight then rnd.div weightedSum totalWeight
      else rnd.div (words.foldl (fun sum w => rnd.add sum w.confidence) 0) words.length
    some (rnd32.round mean)

end Confidence

namespace TranscriptSegment

def emptyFinal (timestamp : ℚ) : TranscriptSegment where
  text := []
  committed := []
  tentative := []
  words := []
  isFinal := true
  speechFinal := true
  endpointReason := some .stop
  truncated := false
  timestamp
  confidence := none

def emptyTruncatedFinal (timestamp : ℚ) : TranscriptSegment :=
  { emptyFinal timestamp with truncated := true }

/-- Turn a segment into a terminal final. Its text wins over an empty committed prefix. -/
def intoTruncatedFinal (segment : TranscriptSegment) : TranscriptSegment :=
  let segment := if segment.text.isEmpty && !segment.committed.isEmpty
    then { segment with text := segment.committed } else segment
  let segment := if !segment.text.isEmpty
    then { segment with committed := segment.text, tentative := [] } else segment
  { segment with
    isFinal := true
    speechFinal := true
    truncated := true
    endpointReason := segment.endpointReason.or (some .stop) }

end TranscriptSegment

structure TranscriptAssembler where
  committedText : Text
  committedWords : List WordInfo
  text : Text
  words : List WordInfo
  deriving DecidableEq, Repr

namespace TranscriptAssembler

def new : TranscriptAssembler :=
  { committedText := [], committedWords := [], text := [], words := [] }

/-- Append words to the live tail. -/
def append (a : TranscriptAssembler) (newWords : List WordInfo) : TranscriptAssembler :=
  { a with text := newWords.foldl pushWord a.text, words := a.words ++ newWords }

/-- Replace the live tail. -/
def setWords (a : TranscriptAssembler) (words : List WordInfo) : TranscriptAssembler :=
  { a with text := joinWords words, words }

/-- Move the live tail into the committed prefix. -/
def commitLive (a : TranscriptAssembler) : TranscriptAssembler :=
  if a.words.isEmpty then a
  else
    { committedText :=
        if !a.committedText.isEmpty && !a.text.isEmpty then a.committedText ++ ' ' :: a.text
        else a.committedText ++ a.text
      committedWords := a.committedWords ++ a.words
      text := []
      words := [] }

def committedCoverageEnd (a : TranscriptAssembler) : Option ℚ :=
  a.committedWords.getLast?.map WordInfo.stop

/-- Move the first `n` live words into the committed prefix, and how many there were. -/
def commitPrefix (a : TranscriptAssembler) (n : Nat) : TranscriptAssembler × Nat :=
  let n := min n a.words.length
  if n = 0 then (a, 0)
  else
    ({ committedText := (a.words.take n).foldl pushWord a.committedText
       committedWords := a.committedWords ++ a.words.take n
       text := joinWords (a.words.drop n)
       words := a.words.drop n }, n)

def fullText (a : TranscriptAssembler) : Text :=
  if a.committedText.isEmpty then a.text
  else if a.text.isEmpty then a.committedText
  else a.committedText ++ ' ' :: a.text

def fullWords (a : TranscriptAssembler) : List WordInfo := a.committedWords ++ a.words

def isEmpty (a : TranscriptAssembler) : Bool := a.committedText.isEmpty && a.text.isEmpty

variable (rnd rnd32 : Rounding)

/-- A final segment of everything, and the assembler reset. -/
def finalizeWithReason (a : TranscriptAssembler) (timestamp : ℚ) (reason : EndpointReason) :
    TranscriptSegment × TranscriptAssembler :=
  let a := a.commitLive
  ({ text := a.committedText
     committed := a.committedText
     tentative := []
     words := a.committedWords
     isFinal := true
     speechFinal := true
     endpointReason := some reason
     truncated := false
     timestamp
     confidence := aggregateConfidence rnd rnd32 a.committedWords }, new)

/-- A partial segment of everything; the separating space belongs to the tentative part. -/
def partialSegment (a : TranscriptAssembler) (timestamp : ℚ) : TranscriptSegment where
  text := a.fullText
  committed := a.committedText
  tentative := a.fullText.drop a.committedText.length
  words := a.fullWords
  isFinal := false
  speechFinal := false
  endpointReason := none
  truncated := false
  timestamp
  confidence := aggregateConfidence rnd rnd32 a.fullWords

end TranscriptAssembler

end Gigastt
