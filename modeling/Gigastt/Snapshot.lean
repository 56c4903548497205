import Gigastt.Transcript
import Gigastt.Transition

/-!
The readable snapshot of a running request. A file request publishes its words per channel as a
chain of immutable chunks; a publication keeps a prefix of the chain and adds one chunk to it.
-/

namespace Gigastt

/-- A chunk shows the first `used` of its words; `total` counts the chain up to it. -/
structure WordChunk where
  words : List WordInfo
  used : Nat
  total : Nat
  deriving DecidableEq, Repr

/-- A chain of chunks, the newest first; a chunk's `previous` is the rest. -/
abbrev Chain := List WordChunk

namespace Chain

def total : Chain → Nat
  | [] => 0
  | chunk :: _ => chunk.total

/-- The loop of `retain_prefix`. A cut chunk is copied when more than half of it would be dead. -/
def retainLoop (retained : Nat) : Chain → Chain
  | [] => []
  | chunk :: previous =>
      if chunk.total ≤ retained then chunk :: previous
      else
        let before := chunk.total - chunk.used
        if retained ≤ before then retainLoop retained previous
        else
          let used := retained - before
          let words := if used < (chunk.words.length + 1) / 2 then chunk.words.take used
            else chunk.words
          { words, used, total := retained } :: previous

def retainPrefix (chain : Chain) (retained : Nat) : Chain :=
  if retained = 0 then [] else retainLoop retained chain

def collectWords (chain : Chain) : List WordInfo :=
  chain.reverse.flatMap fun chunk => chunk.words.take chunk.used

end Chain

inductive SnapshotData where
  | segment (segment : TranscriptSegment)
  | file (channels : List Chain) (split : Bool) (timestamp : ℚ)
  deriving DecidableEq, Repr

/-- By start, then by speaker. -/
def chronological (a b : WordInfo) : Bool :=
  a.start < b.start || (a.start = b.start && match a.speaker, b.speaker with
    | none, _ => true
    | some _, none => false
    | some s, some t => s ≤ t)

namespace SnapshotData

variable (rnd rnd32 : Rounding)

/-- What a reader of the snapshot gets. -/
def read : SnapshotData → TranscriptSegment
  | .segment last => last
  | .file channels split timestamp =>
      let words := channels.flatMap Chain.collectWords
      -- a stable sort
      let words := if split then words.mergeSort chronological else words
      let text := words.foldl pushWord []
      { text
        committed := []
        tentative := text
        words
        isFinal := false
        speechFinal := false
        endpointReason := none
        truncated := false
        timestamp
        confidence := aggregateConfidence rnd rnd32 words }

/-- What a stored segment becomes: never a final. -/
def store (segment : TranscriptSegment) : SnapshotData :=
  .segment { segment with isFinal := false, speechFinal := false, endpointReason := none }

end SnapshotData

/-- One publication: keep `retained` words of the channel and add `words`. -/
structure Update where
  retained : Nat
  words : List WordInfo
  channel : Option Nat
  timestamp : ℚ
  deriving DecidableEq, Repr

structure SnapshotPublisher where
  channels : List Chain
  split : Bool
  deriving DecidableEq, Repr

/-- Words of a split channel carry its number as their speaker. -/
def Update.labelled (u : Update) : List WordInfo :=
  match u.channel with
  | some channel => u.words.map fun w => { w with speaker := some channel }
  | none => u.words

/-- Entry `i` set to `x`, the list grown with `empty` as far as needed. -/
def setChannel {α : Type} (l : List α) (i : Nat) (empty x : α) : List α :=
  (l ++ List.replicate (i + 1 - l.length) empty).set i x

namespace SnapshotPublisher

def new : SnapshotPublisher := { channels := [], split := false }

/-- The channels an update applies to: none are left when a new request starts. -/
def current (p : SnapshotPublisher) (u : Update) : List Chain :=
  if p.split != u.channel.isSome || (u.channel.getD 0 = 0 && u.retained = 0) then []
  else p.channels

def publish (p : SnapshotPublisher) (u : Update) : SnapshotPublisher :=
  let index := u.channel.getD 0
  let channels := p.current u
  let previous : Chain := Chain.retainPrefix (channels.getD index []) u.retained
  let words := u.labelled
  let head := if words.isEmpty then previous
    else { words, used := words.length, total := Chain.total previous + words.length } :: previous
  { channels := setChannel channels index [] head, split := u.channel.isSome }

def data (p : SnapshotPublisher) (timestamp : ℚ) : SnapshotData :=
  .file p.channels p.split timestamp

end SnapshotPublisher

/-- The requests publishing into one snapshot, each with its own publisher. -/
structure Publishers (ι : Type) where
  publishers : ι → SnapshotPublisher
  snapshot : Option SnapshotData

namespace Publishers

variable {ι : Type}

def new : Publishers ι := { publishers := fun _ => .new, snapshot := none }

/-- Request `i` publishes. -/
def publish [DecidableEq ι] (s : Publishers ι) (i : ι) (u : Update) : Publishers ι :=
  let next := (s.publishers i).publish u
  { publishers := Function.update s.publishers i next
    snapshot := some (next.data u.timestamp) }

def publishAll [DecidableEq ι] (s : Publishers ι) (updates : List (ι × Update)) : Publishers ι :=
  updates.foldl (fun s u => s.publish u.1 u.2) s

end Publishers

/-- The result of one channel or one whole file. -/
structure TranscribeResult where
  text : Text
  words : List WordInfo
  durationS : ℚ
  confidence : Option ℚ
  deriving DecidableEq, Repr

/-- Merge per-channel results in chronological order, labelled by channel. -/
def mergeChannelResults (rnd rnd32 : Rounding) (perChannel : List TranscribeResult) :
    TranscribeResult :=
  let all := perChannel.zipIdx.flatMap fun r =>
    r.1.words.map fun w => { w with speaker := some r.2 }
  let words := all.mergeSort chronological
  { text := joinWords words
    words
    durationS := perChannel.foldl (fun longest r => max longest r.durationS) 0
    confidence := aggregateConfidence rnd rnd32 words }

end Gigastt
