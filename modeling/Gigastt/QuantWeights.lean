import Gigastt.OnnxProto
import Mathlib.Algebra.Order.Floor.Ring
import Mathlib.Data.Rat.Floor

/-!
The extraction of a weight and its symmetric INT8 quantization with one scale per channel.
-/

namespace Gigastt.Quantize

/-- The pass ends early: with an error, or at an index out of range. -/
inductive Halt where
  | error (message : String)
  | panic
  deriving DecidableEq

structure QuantizedWeight where
  q_name : String
  s_name : String
  zp_name : String

section Extract

-- the number that four bytes in little endian stand for
variable (fromLeBytes : UInt8 → UInt8 → UInt8 → UInt8 → ℚ)

def floatChunks : List UInt8 → List ℚ
  | b0 :: b1 :: b2 :: b3 :: rest => fromLeBytes b0 b1 b2 b3 :: floatChunks rest
  | _ => []

def extractFloatData (tensor : TensorProto) : Except Halt (List ℚ) :=
  if tensor.float_data ≠ [] then .ok tensor.float_data
  else if tensor.raw_data ≠ [] then
    if tensor.raw_data.length % 4 = 0 then .ok (floatChunks fromLeBytes tensor.raw_data)
    else .error (.error ("Tensor '" ++ tensor.name ++ "' raw_data length " ++
      toString tensor.raw_data.length ++ " is not aligned to 4 bytes"))
  else .error (.error ("Tensor '" ++ tensor.name ++ "' has no float data"))

end Extract

/-- An integer attribute of a node, by name. -/
def attrInt (node : NodeProto) (name : String) : Option Int64 :=
  (node.attributes.find? (·.name = name)).bind (·.i)

/-- The output-channel axis of a weight, by the operator that consumes it. -/
def perChannelAxis (op_type : String) (node : NodeProto) (rank : ℕ) : ℕ :=
  let last := rank - 1
  if op_type = "Conv" then 0
  else if op_type = "Gemm" then
    if (attrInt node "transB").getD 0 ≠ 0 then 0 else min last 1
  else last

/-- A product of lengths, as `usize` multiplies. -/
def usizeProduct (lengths : List ℕ) : ℕ := lengths.prod % 2 ^ 64

/-- The nearest integer, halves away from zero. -/
def roundAway (v : ℚ) : ℤ := if 0 ≤ v then ⌊v + 1 / 2⌋ else -⌊-v + 1 / 2⌋

/-- `v.round().clamp(-128.0, 127.0) as i8`. -/
def toI8 (v : ℚ) : Int8 := Int8.ofInt (max (-128) (min (roundAway v) 127))

/-- The elements between two successive indices along the axis. -/
def strideOf (dims : List Int64) (axis : ℕ) : ℕ :=
  max (usizeProduct (sizes (dims.drop (axis + 1)))) 1

def channelsOf (dims : List Int64) (axis : ℕ) : ℕ := max ((sizes dims).getD axis 0) 1

/-- The largest magnitude of every channel. -/
def absMax (data : List ℚ) (stride channels : ℕ) : List ℚ :=
  data.zipIdx.foldl
    (fun abs_max vf => abs_max.modify (vf.2 / stride % channels) (fun m => max m |vf.1|))
    (List.replicate channels 0)

/-- The quantized values in the order of the elements, and one scale per channel. -/
def quantizePerChannel (data : List ℚ) (dims : List Int64) (axis : ℕ) : List Int8 × List ℚ :=
  let channels := channelsOf dims axis
  let stride := strideOf dims axis
  let scales := (absMax data stride channels).map fun m => if m = 0 then 1 else m / 127
  let quantized := data.zipIdx.map fun vf =>
    toI8 (vf.1 / scales.getD (vf.2 / stride % channels) 0)
  (quantized, scales)

@[simp] theorem length_sizes (dims : List Int64) : (sizes dims).length = dims.length :=
  List.length_map _

theorem length_absMax (data : List ℚ) (stride channels : ℕ) :
    (absMax data stride channels).length = channels := by
  have hstep : ∀ (l : List (ℚ × ℕ)) (acc : List ℚ),
      (l.foldl (fun abs_max vf => abs_max.modify (vf.2 / stride % channels)
        (fun m => max m |vf.1|)) acc).length = acc.length := by
    intro l
    induction l with
    | nil => exact fun acc => rfl
    | cons vf l ih =>
        intro acc
        rw [List.foldl_cons, ih, List.length_modify]
  rw [absMax, hstep, List.length_replicate]

@[simp] theorem length_quantized (data : List ℚ) (dims : List Int64) (axis : ℕ) :
    (quantizePerChannel data dims axis).1.length = data.length := by
  simp [quantizePerChannel]

@[simp] theorem length_scales (data : List ℚ) (dims : List Int64) (axis : ℕ) :
    (quantizePerChannel data dims axis).2.length = channelsOf dims axis := by
  simp [quantizePerChannel, length_absMax]

end Gigastt.Quantize
