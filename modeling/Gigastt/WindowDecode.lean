import Gigastt.Stitch
import Gigastt.WindowSource

/-!
The window loops of a file decode: one window after the other, or in waves that decode side by side
and stitch afterwards. The decoder of a window is a parameter that may fail; a source is the list of
what its pulls return, and is exhausted for good after them. No abort is raised.
-/

namespace Gigastt

variable {α : Type}

/-- Absolute end of a window. -/
def PcmWindow.stop (w : PcmWindow α) : Nat := w.startSample + w.samples.length

/-- The arguments of one publication. -/
structure Publication where
  words : List WordInfo
  retained : Nat
  deriving DecidableEq, Repr

/-- The transcript of a window loop, the windows decoded for it, and what it has published. -/
structure WindowTranscript (α : Type) where
  endSample : Nat
  words : List WordInfo
  decoded : List (PcmWindow α)
  published : List Publication

abbrev Pulls (α : Type) := List (Except GigasttError (PcmWindow α))

namespace WindowTranscript

def empty : WindowTranscript α :=
  { endSample := 0, words := [], decoded := [], published := [] }

/-- Publish the words, of which the first `retained` are as they were published before. -/
def publish (t : WindowTranscript α) (retained : Nat) : WindowTranscript α :=
  { t with published := t.published ++ [{ words := t.words, retained }] }

end WindowTranscript

section

variable (rnd : Rounding) (tables : CharTables)

namespace WindowTranscript

/-- Stitch a decoded window on, and how much of the words that leaves unchanged. -/
def stitch (t : WindowTranscript α) (w : PcmWindow α) (words : List WordInfo) :
    WindowTranscript α × Nat :=
  let stitched := stitchReport rnd tables false t.words t.endSample w.startSample words
  ({ t with endSample := w.stop, words := stitched.1, decoded := t.decoded ++ [w] }, stitched.2)

end WindowTranscript

variable (decode : PcmWindow α → Except GigasttError (List WordInfo))

def finishWindow (t : WindowTranscript α) (w : PcmWindow α) :
    Except GigasttError (WindowTranscript α × Nat) := do
  return t.stitch rnd tables w (← decode w)

def decodeWindowsSerial : Pulls α → WindowTranscript α → Except GigasttError (WindowTranscript α)
  | [], t => .ok t
  | pull :: rest, t => do
      let (t, retained) ← finishWindow rnd tables decode t (← pull)
      decodeWindowsSerial rest (t.publish retained)

/-- Decode a wave, its first window on the primary slot and the others on the extras. Every worker
is joined; the first failure in order is returned. -/
def decodeWaveParallel (wave : List (PcmWindow α)) (extras : Nat) :
    Except GigasttError (List (List WordInfo)) :=
  if 1 + extras < wave.length then
    .error (.inference "window-parallel decode ran out of session triplets")
  else match wave with
    | [] => .ok []
    | [w] => return [← decode w]
    | first :: others =>
        let joined := decode first :: (others.take extras).map decode
        joined.mapM id

/-- Pull windows until `slots` are pending or the source is exhausted. -/
def fillWave (slots : Nat) : Pulls α → List (PcmWindow α) →
    Except GigasttError (List (PcmWindow α) × Pulls α)
  | [], pending => .ok (pending, [])
  | pull :: rest, pending =>
      if pending.length < slots then do
        let w ← pull
        fillWave slots rest (pending ++ [w])
      else .ok (pending, pull :: rest)

def stitchInWave (done : WindowTranscript α × Nat) (w : PcmWindow α × List WordInfo) :
    WindowTranscript α × Nat :=
  let (t, unchanged) := done.1.stitch rnd tables w.1 w.2
  (t, min done.2 unchanged)

/-- Stitch a decoded wave in order, and how much of the words that leaves unchanged. -/
def stitchWave (t : WindowTranscript α) (wave : List (PcmWindow α × List WordInfo)) :
    WindowTranscript α × Nat :=
  wave.foldl (stitchInWave rnd tables) (t, t.words.length)

/-- The wave loop. Every round but the last takes a window, which bounds the rounds. -/
def decodeWaves (slots : Nat) : Nat → Nat → List (PcmWindow α) → Pulls α → WindowTranscript α →
    Except GigasttError (WindowTranscript α)
  | 0, _, _, _, t => .ok t
  | fuel + 1, extras, pending, source, t => do
      let (wave, rest) ← fillWave slots source pending
      if wave.isEmpty then return t
      else
        -- idle extras go back to the pool
        let extras := min extras (wave.length - 1)
        let decoded ← decodeWaveParallel decode wave extras
        let (t, retained) := stitchWave rnd tables t (wave.zip decoded)
        decodeWaves slots fuel extras [] rest (t.publish retained)

/-- `checkout` is what asking the pool for extra slots returns: `none` when it is closed. -/
def decodeWindowsMaybeParallel (checkout : Option Nat) :
    Pulls α → Except GigasttError (WindowTranscript α)
  | [] => .ok .empty
  | firstPull :: source => do
      let first ← firstPull
      match source with
      | [] =>
          let (t, retained) ← finishWindow rnd tables decode .empty first
          return t.publish retained
      | secondPull :: source => do
          let second ← secondPull
          match checkout with
          | none => .error .cancelled
          | some 0 => do
              let (t, retained) ← finishWindow rnd tables decode .empty first
              let (t, retained) ← finishWindow rnd tables decode (t.publish retained) second
              decodeWindowsSerial rnd tables decode source (t.publish retained)
          | some extras =>
              decodeWaves rnd tables decode (1 + extras) (source.length + 3) extras [first, second]
                source .empty

end

end Gigastt
