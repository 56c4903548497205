import Mathlib.Algebra.BigOperators.Group.List.Basic
import Mathlib.Data.Rat.Defs
import Mathlib.Tactic.NormNum

/-!
The parts of an ONNX graph that quantization reads and writes. A missing optional field reads as its
default.
-/

namespace Gigastt.Quantize

structure AttributeProto where
  name : String := ""
  i : Option Int64 := none
  ints : List Int64 := []
  s : String := ""
  type : Int32 := 0
  /-- the tensors of the graph that subgraphs under the attribute read -/
  captures : List String := []

structure NodeProto where
  op_type : String := ""
  input : List String := []
  output : List String := []
  name : String := ""
  attributes : List AttributeProto := []

structure TensorProto where
  name : String := ""
  dims : List Int64 := []
  data_type : Int32 := 0
  float_data : List ℚ := []
  raw_data : List UInt8 := []

/-- Graph inputs and outputs by name. -/
structure GraphProto where
  node : List NodeProto
  initializer : List TensorProto
  input : List String
  output : List String

/-- ONNX data types. -/
def FLOAT : Int32 := 1
def INT8 : Int32 := 3
def INT64 : Int32 := 7

/-- ONNX attribute types. -/
def ATTR_INT : Int32 := 2

/-- `v.to_le_bytes()`. -/
def toLeBytes (v : Int64) : List UInt8 :=
  (List.range 8).map fun k => UInt8.ofNat (v.toUInt64.toNat / 256 ^ k)

def ofLeBytes (bytes : List UInt8) : Int64 :=
  (UInt64.ofNat (bytes.foldr (fun b acc => b.toNat + 256 * acc) 0)).toInt64

/-- The dimensions as lengths. -/
def sizes (dims : List Int64) : List ℕ := dims.map Int64.toNatClampNeg

theorem ofLeBytes_toLeBytes (v : Int64) : ofLeBytes (toLeBytes v) = v := by
  have hlt : v.toUInt64.toNat < 2 ^ 64 := v.toUInt64.toNat_lt
  have hsum : (toLeBytes v).foldr (fun b acc => b.toNat + 256 * acc) 0 = v.toUInt64.toNat := by
    simp only [toLeBytes, List.range_succ_eq_map, List.range_zero, List.map_cons,
      List.map_nil, List.foldr_cons, List.foldr_nil, UInt8.toNat_ofNat']
    norm_num
    omega
  rw [ofLeBytes, hsum, UInt64.ofNat_toNat, Int64.toInt64_toUInt64]

end Gigastt.Quantize
