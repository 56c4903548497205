import Mathlib.Data.List.Basic
import Mathlib.Data.Rat.Defs

/-!
The samples of PCM16 frames. A frame that ends between the two bytes of a sample leaves the first to
the next frame, so that the samples of a stream do not depend on where it is cut.
-/

namespace Gigastt.Pcm

variable {F : Type} (sample : UInt8 → UInt8 → F)

/-- The samples of a run of bytes, and the byte left over. -/
def samplePairs : List UInt8 → List F × Option UInt8
  | [] => ([], none)
  | [b0] => ([], some b0)
  | b0 :: b1 :: rest =>
      let (out, pending) := samplePairs rest
      (sample b0 b1 :: out, pending)

/-- The samples of a frame, where `sample` is the value of two bytes in little endian. -/
def parsePcm16WithCarry (data : List UInt8) (pending : Option UInt8) : List F × Option UInt8 :=
  if pending.isSome || data.length % 2 ≠ 0 then
    match pending, data with
    | none, bytes => samplePairs sample bytes
    | some prev, [] => ([], some prev)
    | some prev, b :: bytes =>
        let (out, pending) := samplePairs sample bytes
        (sample prev b :: out, pending)
  else ((samplePairs sample data).1, none)

/-- An even run leaves no byte over. -/
theorem samplePairs_even {bytes : List UInt8} (h : bytes.length % 2 = 0) :
    (samplePairs sample bytes).2 = none := by
  fun_induction samplePairs sample bytes with
  | case1 => rfl
  | case2 b0 => cases h
  | case3 b0 b1 rest out pending hrest ih =>
      rw [List.length_cons, List.length_cons] at h
      exact (congrArg Prod.snd hrest).symm.trans (ih (by omega))

/-- A frame starts with the byte the last one has left. -/
theorem parsePcm16WithCarry_eq (data : List UInt8) (pending : Option UInt8) :
    parsePcm16WithCarry sample data pending = samplePairs sample (pending.toList ++ data) := by
  unfold parsePcm16WithCarry
  cases pending with
  | none =>
      split
      · rfl
      · rename_i heven
        have hrest : (samplePairs sample data).2 = none :=
          samplePairs_even sample (by simpa using heven)
        exact Prod.ext rfl hrest.symm
  | some prev =>
      cases data with
      | nil => rfl
      | cons b bytes => rfl

/-- `data.as_chunks::<2>().0`. -/
def asChunks (data : List UInt8) : List (UInt8 × UInt8) :=
  (List.range (data.length / 2)).map fun k => (data.getD (2 * k) 0, data.getD (2 * k + 1) 0)

/-- The samples of the aligned path, chunk by chunk. -/
def alignedSamples (data : List UInt8) : List F := (asChunks data).map fun c => sample c.1 c.2

/-- The last byte of an odd run. -/
def unpaired (data : List UInt8) : Option UInt8 :=
  if data.length % 2 = 1 then data.getLast? else none

theorem asChunks_cons (b0 b1 : UInt8) (rest : List UInt8) :
    asChunks (b0 :: b1 :: rest) = (b0, b1) :: asChunks rest := by
  have hlength : (b0 :: b1 :: rest).length / 2 = rest.length / 2 + 1 := by
    rw [List.length_cons, List.length_cons]
    omega
  rw [asChunks, hlength, List.range_succ_eq_map, List.map_cons, List.map_map]
  rfl

theorem unpaired_cons (b0 b1 : UInt8) (rest : List UInt8) :
    unpaired (b0 :: b1 :: rest) = unpaired rest := by
  have hlength : (b0 :: b1 :: rest).length % 2 = rest.length % 2 := by
    rw [List.length_cons, List.length_cons]
    omega
  rw [unpaired, unpaired, hlength]
  cases rest with
  | nil => rfl
  | cons b rest => rw [List.getLast?_cons_cons, List.getLast?_cons_cons]

/-- The combining loop reads the samples of the aligned path, and keeps what is left over. -/
theorem samplePairs_eq (bytes : List UInt8) :
    samplePairs sample bytes = (alignedSamples sample bytes, unpaired bytes) := by
  fun_induction samplePairs sample bytes with
  | case1 => simp [alignedSamples, asChunks, unpaired]
  | case2 b0 => simp [alignedSamples, asChunks, unpaired]
  | case3 b0 b1 rest out pending hrest ih =>
      rw [hrest, Prod.mk.injEq] at ih
      rw [alignedSamples, asChunks_cons, unpaired_cons, ih.1, ih.2]
      rfl

/-- What a run leaves over comes before the bytes that follow it. -/
theorem samplePairs_append (bytes more : List UInt8) :
    samplePairs sample (bytes ++ more) =
      ((samplePairs sample bytes).1 ++
          (samplePairs sample ((samplePairs sample bytes).2.toList ++ more)).1,
        (samplePairs sample ((samplePairs sample bytes).2.toList ++ more)).2) := by
  fun_induction samplePairs sample bytes with
  | case1 => rfl
  | case2 b0 => rfl
  | case3 b0 b1 rest out pending hrest ih =>
      rw [hrest] at ih
      simp only [List.cons_append, samplePairs, ih]

/-- The outputs of the frames of a stream, and the byte carried at its end. -/
def parseFrames : List (List UInt8) → Option UInt8 → List (List F) × Option UInt8
  | [], pending => ([], pending)
  | data :: frames, pending =>
      let (out, pending) := parsePcm16WithCarry sample data pending
      let (outs, pending) := parseFrames frames pending
      (out :: outs, pending)

theorem parseFrames_pairs (frames : List (List UInt8)) (pending : Option UInt8) :
    ((parseFrames sample frames pending).1.flatten, (parseFrames sample frames pending).2) =
      samplePairs sample (pending.toList ++ frames.flatten) := by
  induction frames generalizing pending with
  | nil => cases pending <;> rfl
  | cons data frames ih =>
      have hframe := samplePairs_append sample (pending.toList ++ data) frames.flatten
      rw [← parsePcm16WithCarry_eq, List.append_assoc] at hframe
      rw [List.flatten_cons, hframe, ← ih]
      rfl

/-- `i16::from_le_bytes([b0, b1])`. -/
def i16FromLeBytes (b0 b1 : UInt8) : Int16 := Int16.ofNat (b0.toNat + 256 * b1.toNat)

/-- `i16::from_le_bytes([b0, b1]) as f32 / 32768.0`, a value that single precision has exactly. -/
def pcmSample (b0 b1 : UInt8) : ℚ := (i16FromLeBytes b0 b1).toInt / 32768

/-- After every frame of a stream the outputs are the samples of the bytes seen so far and the
carried byte is the one without a partner, and both paths read the same samples. -/
theorem parseFrames_invariant (frames : List (List UInt8)) :
    (∀ n, let seen := (frames.take n).flatten
      (parseFrames pcmSample (frames.take n) none).1.flatten = alignedSamples pcmSample seen ∧
        (parseFrames pcmSample (frames.take n) none).2 = unpaired seen) ∧
    ∀ data, samplePairs pcmSample data = (alignedSamples pcmSample data, unpaired data) := by
  refine ⟨fun n => ?_, samplePairs_eq pcmSample⟩
  have hpairs := parseFrames_pairs pcmSample (frames.take n) none
  rw [Option.toList_none, List.nil_append, samplePairs_eq, Prod.mk.injEq] at hpairs
  exact hpairs

end Gigastt.Pcm
