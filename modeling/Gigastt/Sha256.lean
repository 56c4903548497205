import Mathlib.Data.List.Basic

/-!
SHA-256 as FIPS 180-4 defines it, for a message that arrives in pieces: a block is compressed as
soon as it is full.
-/

namespace Sha256

abbrev Word := BitVec 32

structure Working where
  a : Word
  b : Word
  c : Word
  d : Word
  e : Word
  f : Word
  g : Word
  h : Word

def initial : Working :=
  { a := 0x6a09e667, b := 0xbb67ae85, c := 0x3c6ef372, d := 0xa54ff53a,
    e := 0x510e527f, f := 0x9b05688c, g := 0x1f83d9ab, h := 0x5be0cd19 }

def constants : List Word :=
  [0x428a2f98, 0x71374491, 0xb5c0fbcf, 0xe9b5dba5, 0x3956c25b, 0x59f111f1, 0x923f82a4, 0xab1c5ed5,
   0xd807aa98, 0x12835b01, 0x243185be, 0x550c7dc3, 0x72be5d74, 0x80deb1fe, 0x9bdc06a7, 0xc19bf174,
   0xe49b69c1, 0xefbe4786, 0x0fc19dc6, 0x240ca1cc, 0x2de92c6f, 0x4a7484aa, 0x5cb0a9dc, 0x76f988da,
   0x983e5152, 0xa831c66d, 0xb00327c8, 0xbf597fc7, 0xc6e00bf3, 0xd5a79147, 0x06ca6351, 0x14292967,
   0x27b70a85, 0x2e1b2138, 0x4d2c6dfc, 0x53380d13, 0x650a7354, 0x766a0abb, 0x81c2c92e, 0x92722c85,
   0xa2bfe8a1, 0xa81a664b, 0xc24b8b70, 0xc76c51a3, 0xd192e819, 0xd6990624, 0xf40e3585, 0x106aa070,
   0x19a4c116, 0x1e376c08, 0x2748774c, 0x34b0bcb5, 0x391c0cb3, 0x4ed8aa4a, 0x5b9cca4f, 0x682e6ff3,
   0x748f82ee, 0x78a5636f, 0x84c87814, 0x8cc70208, 0x90befffa, 0xa4506ceb, 0xbef9a3f7, 0xc67178f2]

def choose (x y z : Word) : Word := (x &&& y) ^^^ (~~~x &&& z)

def majority (x y z : Word) : Word := (x &&& y) ^^^ (x &&& z) ^^^ (y &&& z)

def bigSigma0 (x : Word) : Word := x.rotateRight 2 ^^^ x.rotateRight 13 ^^^ x.rotateRight 22

def bigSigma1 (x : Word) : Word := x.rotateRight 6 ^^^ x.rotateRight 11 ^^^ x.rotateRight 25

def smallSigma0 (x : Word) : Word := x.rotateRight 7 ^^^ x.rotateRight 18 ^^^ (x >>> 3)

def smallSigma1 (x : Word) : Word := x.rotateRight 17 ^^^ x.rotateRight 19 ^^^ (x >>> 10)

/-- The next `n` words of the message schedule, from the sixteen that come first. -/
def schedule : Nat → List Word → List Word
  | 0, _ => []
  | n + 1, window =>
      let next := smallSigma1 (window.getD 14 0) + window.getD 9 0
        + smallSigma0 (window.getD 1 0) + window.getD 0 0
      window.getD 0 0 :: schedule n (window.tail ++ [next])

def round (v : Working) (k w : Word) : Working :=
  let t1 := v.h + bigSigma1 v.e + choose v.e v.f v.g + k + w
  let t2 := bigSigma0 v.a + majority v.a v.b v.c
  { a := t1 + t2, b := v.a, c := v.b, d := v.c, e := v.d + t1, f := v.e, g := v.f, h := v.g }

/-- The big-endian words of a block. -/
def words : List UInt8 → List Word
  | b0 :: b1 :: b2 :: b3 :: rest =>
      let word : BitVec (8 + 8 + 8 + 8) :=
        b0.toBitVec ++ b1.toBitVec ++ b2.toBitVec ++ b3.toBitVec
      word :: words rest
  | _ => []

def compress (v : Working) (block : List UInt8) : Working :=
  let r := (constants.zip (schedule 64 (words block))).foldl (fun v x => round v x.1 x.2) v
  { a := v.a + r.a, b := v.b + r.b, c := v.c + r.c, d := v.d + r.d,
    e := v.e + r.e, f := v.f + r.f, g := v.g + r.g, h := v.h + r.h }

structure State where
  working : Working
  /-- The block being filled. -/
  block : List UInt8
  length : Nat

def new : State := { working := initial, block := [], length := 0 }

def push (s : State) (byte : UInt8) : State :=
  let block := s.block ++ [byte]
  if block.length = 64 then
    { working := compress s.working block, block := [], length := s.length + 1 }
  else { s with block, length := s.length + 1 }

def update (s : State) (bytes : List UInt8) : State := bytes.foldl push s

/-- The `n` bytes of a number, big end first. -/
def bigEndian (n value : Nat) : List UInt8 :=
  (List.range n).map fun i => UInt8.ofNat (value >>> (8 * (n - 1 - i)))

/-- A one bit, zeros up to the last eight bytes of a block, and the length in bits. -/
def padding (length : Nat) : List UInt8 :=
  0x80 :: List.replicate ((119 - length % 64) % 64) 0 ++ bigEndian 8 (8 * length)

def finalize (s : State) : List UInt8 :=
  let v := (update s (padding s.length)).working
  [v.a, v.b, v.c, v.d, v.e, v.f, v.g, v.h].flatMap fun w => bigEndian 4 w.toNat

def digest (message : List UInt8) : List UInt8 := finalize (update new message)

/-- The digest of a message does not depend on the pieces it comes in. -/
theorem finalize_foldl (pieces : List (List UInt8)) :
    finalize (pieces.foldl update new) = digest pieces.flatten := by
  rw [digest, update, List.foldl_flatten]
  rfl

end Sha256
