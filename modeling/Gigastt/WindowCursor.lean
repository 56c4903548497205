import Mathlib.Data.List.Basic

/-!
Window geometry of long-form decode, in samples. A spec fixes the single-pass ceiling, the window
and the frame-aligned stride; a cursor turns "this much is decoded" into the next window.
-/

namespace Gigastt

def hopLength : Nat := 160

def encoderSubsampling : Nat := 4

/-- Samples per encoder output frame. -/
def frameSamples : Nat := hopLength * encoderSubsampling

structure WindowSpec where
  singlePassMax : Nat
  window : Nat
  stride : Nat
  deriving DecidableEq, Repr

namespace WindowSpec

/-- The stride is aligned down to the frame grid and never less than one frame. -/
def new (singlePassMax window overlap : Nat) : WindowSpec where
  singlePassMax
  window
  stride := max ((window - overlap) / frameSamples * frameSamples) frameSamples

/-- Samples shared by two consecutive windows. -/
def overlap (spec : WindowSpec) : Nat := spec.window - spec.stride

end WindowSpec

structure WindowCursor where
  spec : WindowSpec
  nextStart : Nat
  prevStart : Option Nat
  done : Bool
  deriving DecidableEq, Repr

namespace WindowCursor

def new (spec : WindowSpec) : WindowCursor :=
  { spec, nextStart := 0, prevStart := none, done := false }

def lastWindowMax (c : WindowCursor) : Nat := max c.spec.singlePassMax c.spec.window

/-- Earliest sample a source must still hold for the next `take`. -/
def retainFrom (c : WindowCursor) : Nat := c.nextStart - c.spec.stride

/-- A source decodes at least this many samples, or all there are, before the next `take`. -/
def fillTarget (c : WindowCursor) : Nat := c.nextStart + c.lastWindowMax + 1

def ceilToFrame (n : Nat) : Nat := (n + (frameSamples - 1)) / frameSamples * frameSamples

def anchoredStart (c : WindowCursor) (nominal len : Nat) : Nat :=
  match c.prevStart with
  | none => nominal
  | some prevStart =>
      if len < c.spec.window || c.spec.overlap == 0 then nominal
      else min (max (ceilToFrame (len - c.spec.window)) (prevStart + frameSamples)) nominal

/-- The last window takes the whole remainder from its nominal start. -/
def absorbs (c : WindowCursor) (availEnd : Nat) (eof : Bool) : Bool :=
  let remaining := availEnd - c.nextStart
  eof && remaining ≤ c.lastWindowMax && (c.spec.window ≤ remaining || c.prevStart.isNone)

/-- The window `take` decides on when there is something left. -/
def select (c : WindowCursor) (availEnd : Nat) (eof : Bool) : Nat × Nat :=
  let start := c.nextStart
  if c.absorbs availEnd eof then (start, availEnd)
  else
    let stop := min (start + c.spec.window) availEnd
    if eof && stop == availEnd then (c.anchoredStart start availEnd, availEnd) else (start, stop)

/-- The next `[start, end)` window, given the samples decoded so far and whether the stream has
ended. -/
def take (c : WindowCursor) (availEnd : Nat) (eof : Bool) : Option (Nat × Nat) × WindowCursor :=
  if c.done then (none, c)
  else if availEnd ≤ c.nextStart then (none, { c with done := true })
  else
    let w := c.select availEnd eof
    if eof && w.2 == availEnd then (some w, { c with done := true, prevStart := some w.1 })
    else (some w, { c with nextStart := w.1 + c.spec.stride, prevStart := some w.1 })

/-- The windows of at most `fuel` successive takes over a fully decoded signal. -/
def takes (total : Nat) : Nat → WindowCursor → List (Nat × Nat)
  | 0, _ => []
  | fuel + 1, c =>
      match c.take total true with
      | (some w, next) => w :: takes total fuel next
      | (none, _) => []

end WindowCursor

/-- The windows of a fully decoded signal. -/
def WindowSpec.windows (spec : WindowSpec) (total : Nat) : List (Nat × Nat) :=
  WindowCursor.takes total (total + 1) (WindowCursor.new spec)

end Gigastt
