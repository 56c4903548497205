import Gigastt.Slices
import Mathlib.Algebra.GroupWithZero.Nat

/-!
The framing of Opus packets: a table-of-contents byte, the lengths that are not implied, the frames,
and the padding.
-/

namespace Gigastt.Opus

open Slices

/-- A packet is refused, or a slice of it is out of range. -/
inductive SplitError where
  | malformed (message : String)
  | panic
  deriving DecidableEq

def opusMaxPacketSamples : Nat := 5760

def opusMaxFrames : Nat := 48

/-- SILK narrowband, mediumband and wideband, hybrid super-wideband and fullband, CELT narrowband,
wideband, super-wideband and fullband. -/
def frameDuration48k : List Nat :=
  [480, 960, 1920, 2880, 480, 960, 1920, 2880, 480, 960, 1920, 2880, 480, 960, 480, 960,
    120, 240, 480, 960, 120, 240, 480, 960, 120, 240, 480, 960, 120, 240, 480, 960]

/-- The samples of a frame, by the five bits of its configuration. -/
def opusSamplesPerFrame (toc : UInt8) : Nat := frameDuration48k.getD (toc.toNat / 8) 0

structure OpusFraming where
  toc : UInt8
  samplesPerFrame : Nat
  frames : List (List UInt8)
  deriving DecidableEq

def OpusFraming.packetSamples (framing : OpusFraming) : Nat :=
  framing.samplesPerFrame * framing.frames.length

/-- `&bytes[start..stop]`. -/
def cut (bytes : List UInt8) (start stop : Nat) : Except SplitError (List UInt8) :=
  if start ≤ stop ∧ stop ≤ bytes.length then .ok (slice bytes start stop) else .error .panic

/-- `bytes.get(start..stop)`. -/
def getRange (bytes : List UInt8) (start stop : Nat) (message : String) :
    Except SplitError (List UInt8) :=
  if start ≤ stop ∧ stop ≤ bytes.length then .ok (slice bytes start stop)
  else .error (.malformed message)

/-- A frame length, and how many bytes it takes. -/
def opusFrameLen : List UInt8 → Except SplitError (Nat × Nat)
  | [] => .error (.malformed "Opus packet: truncated frame length")
  | first :: rest =>
      if first.toNat < 252 then .ok (first.toNat, 1)
      else
        match rest with
        | [] => .error (.malformed "Opus packet: truncated frame length")
        | second :: _ => .ok (second.toNat * 4 + first.toNat, 2)

/-- The length of the padding, and how many bytes its count takes. -/
def opusPaddingLen : List UInt8 → Except SplitError (Nat × Nat)
  | [] => .error (.malformed "Opus packet: truncated padding count")
  | byte :: rest =>
      if byte.toNat = 255 then
        (opusPaddingLen rest).map fun (padding, used) => (254 + padding, used + 1)
      else .ok (byte.toNat, 1)

/-- The lengths on the wire of all frames but the last, and where they end. -/
def readSizes (payload : List UInt8) (stop : Nat) : Nat → Nat → Except SplitError (List Nat × Nat)
  | 0, pos => .ok ([], pos)
  | n + 1, pos => do
      let data ← getRange payload pos stop "Opus packet: code 3 lengths overrun packet"
      let (size, used) ← opusFrameLen data
      let (sizes, pos) ← readSizes payload stop n (pos + used)
      return (size :: sizes, pos)

/-- The frames of given sizes, and where they end. -/
def cutFrames (payload : List UInt8) (stop : Nat) :
    List Nat → Nat → Except SplitError (List (List UInt8) × Nat)
  | [], pos => .ok ([], pos)
  | size :: sizes, pos =>
      if pos + size ≤ stop then do
        let frame ← cut payload pos (pos + size)
        let (frames, pos) ← cutFrames payload stop sizes (pos + size)
        return (frame :: frames, pos)
      else .error (.malformed "Opus packet: code 3 frame overruns packet")

/-- Where the data of a code 3 packet starts and stops. -/
def dataRange (payload : List UInt8) (padded : Bool) : Except SplitError (Nat × Nat) :=
  if padded then do
    let data ← getRange payload 1 payload.length "Opus packet: truncated padding count"
    let (padding, used) ← opusPaddingLen data
    if payload.length < padding then .error (.malformed "Opus packet: padding overruns packet")
    else if payload.length - padding < 1 + used then
      .error (.malformed "Opus packet: padding overlaps the frame data")
    else return (1 + used, payload.length - padding)
  else return (1, payload.length)

/-- The sizes of the frames of a code 3 packet, and where the first starts. -/
def frameSizes (payload : List UInt8) (vbr : Bool) (count pos stop : Nat) :
    Except SplitError (List Nat × Nat) :=
  if vbr then do
    let (sizes, pos) ← readSizes payload stop (count - 1) pos
    if stop < pos then .error (.malformed "Opus packet: code 3 lengths overrun packet")
    else if stop - pos < sizes.sum then
      .error (.malformed "Opus packet: code 3 frame lengths overrun packet")
    else return (sizes ++ [stop - pos - sizes.sum], pos)
  else if stop < pos then .error (.malformed "Opus packet: code 3 header overruns packet")
  else if (stop - pos) % count = 0 then return (List.replicate count ((stop - pos) / count), pos)
  else
    .error (.malformed
      s!"Opus packet: code 3 CBR payload of {stop - pos} does not divide into {count} frames")

/-- A code 3 packet: any count of frames. -/
def splitCounted (payload : List UInt8) : Except SplitError (List (List UInt8)) :=
  match payload with
  | [] => .error (.malformed "Opus packet: code 3 is missing its frame count")
  | countByte :: _ =>
      let count := countByte.toNat % 64
      if 1 ≤ count ∧ count ≤ opusMaxFrames then do
        let vbr := countByte.toNat / 128 % 2 = 1
        let padded := countByte.toNat / 64 % 2 = 1
        let (pos, stop) ← dataRange payload padded
        let (sizes, pos) ← frameSizes payload vbr count pos stop
        let (frames, pos) ← cutFrames payload stop sizes pos
        if pos = stop then return frames
        else .error (.malformed "Opus packet: code 3 frames do not fill the packet")
      else .error (.malformed s!"Opus packet: code 3 frame count {count} out of range")

/-- A code 1 packet: two frames of one length. -/
def splitEqual (payload : List UInt8) : Except SplitError (List (List UInt8)) :=
  if payload.length % 2 = 0 then do
    let half := payload.length / 2
    return [← cut payload 0 half, ← cut payload half payload.length]
  else .error (.malformed "Opus packet: code 1 payload is not evenly divisible")

/-- A code 2 packet: two frames, the first with its length. -/
def splitSized (payload : List UInt8) : Except SplitError (List (List UInt8)) := do
  let (firstLen, used) ← opusFrameLen payload
  let rest ← getRange payload used payload.length "Opus packet: code 2 length overruns packet"
  if rest.length < firstLen then
    .error (.malformed "Opus packet: code 2 first frame overruns packet")
  else return [← cut rest 0 firstLen, ← cut rest firstLen rest.length]

/-- The frames after the table of contents, by the code in its last two bits. -/
def splitPayload (code : Nat) (payload : List UInt8) : Except SplitError (List (List UInt8)) :=
  match code with
  | 0 => .ok [payload]
  | 1 => splitEqual payload
  | 2 => splitSized payload
  | _ => splitCounted payload

def splitOpusPacket : List UInt8 → Except SplitError OpusFraming
  | [] => .error (.malformed "Opus packet is empty")
  | toc :: payload => do
      let frames ← splitPayload (toc.toNat % 4) payload
      let framing : OpusFraming := { toc, samplesPerFrame := opusSamplesPerFrame toc, frames }
      if opusMaxPacketSamples < framing.packetSamples then
        .error (.malformed s!"Opus packet: {framing.packetSamples} samples exceeds 120 ms")
      else return framing

end Gigastt.Opus
