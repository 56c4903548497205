import Gigastt.Rounding
import Gigastt.Slices
import Gigastt.Words

/-!
Word alignment at a window seam: the cut through a pair of matching overlap words, found by dynamic
programming, the midpoint cut when there is none, and the repair of a window-start capital.
-/

namespace Gigastt

open Slices

/-- At most this many overlap words on a side are aligned. -/
def maxOverlapWords : Nat := 64

/-- An inclusive time range, in seconds. -/
structure TimeRange where
  start : ℚ
  stop : ℚ
  deriving DecidableEq, Repr

structure Score where
  hits : Nat
  drift : ℚ
  deriving DecidableEq, Repr

def Score.zero : Score := { hits := 0, drift := 0 }

def Score.betterThan (a b : Score) : Bool :=
  b.hits < a.hits || (a.hits = b.hits && a.drift < b.drift)

section

variable (rnd : Rounding) (tables : CharTables)

/-- Ten encoder frames. -/
def maxStartDrift : ℚ := rnd.round (4 / 10)

def Score.withMatch (s : Score) (drift : ℚ) : Score :=
  { hits := s.hits + 1, drift := rnd.add s.drift drift }

def TimeRange.seam (overlap : TimeRange) : ℚ := rnd.div (rnd.add overlap.start overlap.stop) 2

def overlapSeconds (prevEndSample startSample : Nat) : TimeRange where
  start := rnd.div startSample 16000
  stop := rnd.div ↑(max prevEndSample startSample) 16000

def wordKey (word : Text) : Text :=
  ((word.flatMap tables.toLowercase).filter tables.isAlphanumeric).map fun c =>
    if c = 'ё' then 'е' else c

def startDrift (a b : WordInfo) : ℚ := |rnd.sub a.start b.start|

/-- Two overlap words may be copies of one spoken word. -/
def copies (old new : WordInfo) : Bool :=
  !(wordKey tables old.word).isEmpty && wordKey tables old.word = wordKey tables new.word &&
    startDrift rnd old new ≤ maxStartDrift rnd

/-- One cell of the score table from the cells above, to the left, and diagonally before it. -/
def scoreCell (above left diagonal : Score) (old new : WordInfo) : Score :=
  let best := if left.betterThan above then left else above
  if copies rnd tables old new then
    let paired := diagonal.withMatch rnd (startDrift rnd old new)
    if paired.betterThan best then paired else best
  else best

/-- The row of `old` in the score table, from the row above it. A prefix of the new words is given
reversed, its last word first. -/
def scoreRow (above : List WordInfo → Score) (old : WordInfo) : List WordInfo → Score
  | [] => .zero
  | new :: news =>
      scoreCell rnd tables (above (new :: news)) (scoreRow above old news) (above news) old new

/-- The score of two prefixes of the overlap words, both reversed. -/
def scores : List WordInfo → List WordInfo → Score
  | [] => fun _ => .zero
  | old :: olds => scoreRow rnd tables (scores olds) old

/-- Keeping `merged[..a]` and `next[b..]` is in order of time. -/
def orderedCut (merged next : List WordInfo) (a b : Nat) : Bool :=
  a = 0 || b = next.length ||
    match merged[a - 1]?, next[b]? with
    | some last, some first => last.start ≤ first.start
    | _, _ => true

/-- The best cut so far with its distance from the seam. -/
abbrev BestCut := Option (ℚ × Nat × Nat)

def BestCut.improvedBy (best : BestCut) (distance : ℚ) : Bool :=
  match best with
  | some (bestDistance, _) => distance < bestDistance
  | none => true

/-- Cut at a matching pair that `i` old and `j` new words of the lists precede: after both copies or
before both, on the side with more context if that is in order. -/
def cutAtPair (merged next : List WordInfo) (seam : ℚ) (i j : Nat) (old new : WordInfo)
    (best : BestCut) : BestCut :=
  let center := rnd.div (rnd.add old.start new.start) 2
  let distance := |rnd.sub center seam|
  let preferred := if center ≤ seam then 1 else 0
  let fits := fun keepOld => orderedCut merged next (i + keepOld) (j + keepOld) &&
    best.improvedBy distance
  if fits preferred then some (distance, i + preferred, j + preferred)
  else if fits (1 - preferred) then some (distance, i + (1 - preferred), j + (1 - preferred))
  else best

/-- Walk the score table back from its last cell; every round drops a word. -/
def backtrack (merged next : List WordInfo) (seam : ℚ) (oldStart newStart : Nat) :
    Nat → List WordInfo → List WordInfo → BestCut → BestCut
  | fuel + 1, old :: olds, new :: news, best =>
      let score := scores rnd tables (old :: olds) (new :: news)
      if copies rnd tables old new &&
          score = (scores rnd tables olds news).withMatch rnd (startDrift rnd old new) then
        backtrack merged next seam oldStart newStart fuel olds news
          (cutAtPair rnd merged next seam (oldStart + olds.length) (newStart + news.length) old new
            best)
      else if score = scores rnd tables olds (new :: news) then
        backtrack merged next seam oldStart newStart fuel olds (new :: news) best
      else backtrack merged next seam oldStart newStart fuel (old :: olds) news best
  | _, _, _, best => best

/-- How many words start before the range, and how many up to its end. -/
def TimeRange.bounds (overlap : TimeRange) (words : List WordInfo) : Nat × Nat :=
  (partitionPoint (fun w => w.start < overlap.start) words,
    partitionPoint (fun w => w.start ≤ overlap.stop) words)

def alignedCut (merged next : List WordInfo) (overlap : TimeRange) : Option (Nat × Nat) :=
  let (oldStart, oldEnd) := overlap.bounds merged
  let (newStart, newEnd) := overlap.bounds next
  let old := slice merged oldStart oldEnd
  let new := slice next newStart newEnd
  if old.isEmpty || new.isEmpty || maxOverlapWords < old.length || maxOverlapWords < new.length then
    none
  else
    (backtrack rnd tables merged next (overlap.seam rnd) oldStart newStart
      (old.length + new.length) old.reverse new.reverse none).map Prod.snd

/-- Does `word` end a sentence, ignoring closing quotes and brackets? -/
def endsSentence (word : Text) : Bool :=
  match word.reverse.dropWhile (['"', '\'', '»', ')', ']', '”', '’', ' '].contains ·) with
  | last :: _ => ['.', '!', '?', '…'].contains last
  | [] => false

/-- Exactly one overlap word has this key and starts close to the anchor. -/
def uniqueOverlapMatch (words : List WordInfo) (anchor : WordInfo) (key : Text)
    (overlap : TimeRange) : Bool :=
  let (start, stop) := overlap.bounds words
  (((slice words start stop).filter fun w =>
    startDrift rnd w anchor ≤ maxStartDrift rnd && wordKey tables w.word = key).take 2).length = 1

/-- `word` with its first letter in lower case, when that is a Russian capital of a word that is not
all capitals. -/
def lowerInitial (word : Text) : Option Text :=
  match word.dropWhile (!tables.isAlphabetic ·) with
  | [] => none
  | ch :: rest =>
      let letters := rest.filter tables.isAlphabetic
      if !CharTables.cyrillicUpper ch then none
      else if !letters.isEmpty && letters.all tables.isUppercase then none
      else some (word.takeWhile (!tables.isAlphabetic ·) ++ tables.toLowercase ch ++ rest)

/-- A window-start capital is dropped when the aligned older copy has the word in lower case. -/
def reconcileSeamCase (old : List WordInfo) (boundary : Nat) (next : List WordInfo)
    (overlap : TimeRange) : List WordInfo :=
  match next, boundary, old[boundary]? with
  | first :: rest, before + 1, some aligned =>
      if (old[before]?.map fun w => endsSentence w.word).getD false then next
      else match lowerInitial tables first.word with
        | none => next
        | some lower =>
            let key := wordKey tables first.word
            if aligned.word = lower && uniqueOverlapMatch rnd tables old first key overlap &&
                uniqueOverlapMatch rnd tables next aligned key overlap then
              { first with word := lower } :: rest
            else next
  | _, _, _ => next

/-- The stitched words, and how many of the merged words they keep unchanged. -/
def stitchChunkWordsRetained (merged next : List WordInfo) (overlap : TimeRange) :
    List WordInfo × Nat :=
  if merged.isEmpty then (next, 0)
  else if next.isEmpty then (merged, merged.length)
  else
    let aligned := alignedCut rnd tables merged next overlap
    let next := match aligned with
      | some (oldEnd, 0) => reconcileSeamCase rnd tables merged oldEnd next overlap
      | _ => next
    let (oldEnd, newStart) := aligned.getD
      (partitionPoint (fun w => w.start ≤ overlap.seam rnd) merged,
        partitionPoint (fun w => w.start ≤ overlap.seam rnd) next)
    (merged.take oldEnd ++ next.drop newStart, oldEnd)

/-- Stitch one decoded window onto the transcript, unless an abort cut it short before any word that
extends the transcript. -/
def stitchReport (aborted : Bool) (merged : List WordInfo) (prevEnd startSample : Nat)
    (words : List WordInfo) : List WordInfo × Nat :=
  let extendsPrevious := match words.getLast?, merged.getLast? with
    | some word, some previous => previous.stop < word.stop
    | some _, none => true
    | none, _ => false
  if aborted && !extendsPrevious then (merged, merged.length)
  else stitchChunkWordsRetained rnd tables merged words (overlapSeconds rnd prevEnd startSample)

/-- A window's range of samples with its decoded words. -/
structure DecodedWindow where
  startSample : Nat
  stop : Nat
  words : List WordInfo
  deriving DecidableEq, Repr

/-- The transcript of the windows in turn, and where the last one ends. -/
def stitchWindows (windows : List DecodedWindow) : List WordInfo × Nat :=
  windows.foldl (fun done w =>
    ((stitchReport rnd tables false done.1 done.2 w.startSample w.words).1, w.stop)) ([], 0)

end

end Gigastt
