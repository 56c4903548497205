import Gigastt.QuantChains

/-!
The quantization of a graph: the eligible nodes, every distinct weight quantized once, the nodes
replaced by their chains and the weights that nothing reads any more removed.
-/

namespace Gigastt.Quantize

structure QuantizeOps where
  conv : Bool
  deriving DecidableEq

namespace QuantizeOps

/-- `MatMul` and `Gemm`, with the convolutions left in float. -/
def default : QuantizeOps := ⟨false⟩

def allows (ops : QuantizeOps) (op : String) : Bool :=
  if op = "MatMul" ∨ op = "Gemm" then true else if op = "Conv" then ops.conv else false

end QuantizeOps

def minElements : ℕ := 1024

/-- The initializer of a name; of several the last one. -/
def initOf (graph : GraphProto) (name : String) : Option TensorProto :=
  graph.initializer.reverse.find? (·.name = name)

/-- A product of dimensions, as `i64` multiplies. -/
def numElements (dims : List Int64) : Int64 := dims.foldl (· * ·) 1

def Large (dims : List Int64) : Prop :=
  0 < numElements dims ∧ minElements ≤ (numElements dims).toNatClampNeg

instance (dims : List Int64) : Decidable (Large dims) := inferInstanceAs (Decidable (_ ∧ _))

/-- A `Gemm` that scales, transposes or has a bias. -/
def generalGemm (node : NodeProto) : Bool :=
  node.op_type = "Gemm" ∧ (node.attributes ≠ [] ∨ ∃ bias ∈ node.input[2]?, bias ≠ "")

/-- The weight of a node that is to be quantized. -/
def target (ops : QuantizeOps) (graph : GraphProto) (node : NodeProto) :
    Option (String × TensorProto) :=
  if ¬ ops.allows node.op_type then none
  else if generalGemm node then none
  else
    match node.input with
    | _ :: weight :: _ => do
        let init ← initOf graph weight
        if init.data_type = FLOAT ∧ Large init.dims then some (weight, init) else none
    | _ => none

/-- A node to be replaced, its weight by name and the initializer of it. -/
structure Target where
  node : NodeProto
  weight : String
  init : TensorProto

def targets (ops : QuantizeOps) (graph : GraphProto) : List Target :=
  graph.node.filterMap fun node => (target ops graph node).map fun wt => ⟨node, wt.1, wt.2⟩

/-- A weight as the pass keeps it: its values along with the tensors that are added for it. -/
structure WeightEntry where
  weight : String
  init : TensorProto
  data : List ℚ
  axis : ℕ

namespace WeightEntry

variable (e : WeightEntry)

def names : QuantizedWeight where
  q_name := e.weight ++ "_quantized"
  s_name := e.weight ++ "_scale"
  zp_name := e.weight ++ "_zero_point"

def quantizedTensor : TensorProto where
  name := e.names.q_name
  dims := e.init.dims
  data_type := INT8
  raw_data := (quantizePerChannel e.data e.init.dims e.axis).1.map Int8.toUInt8

def scaleTensor : TensorProto where
  name := e.names.s_name
  dims := [Int64.ofNat ((sizes e.init.dims).getD e.axis 0)]
  data_type := FLOAT
  float_data := (quantizePerChannel e.data e.init.dims e.axis).2

/-- A scalar zero for the whole tensor. -/
def zeroPointTensor : TensorProto where
  name := e.names.zp_name
  dims := []
  data_type := INT8
  raw_data := [0]

def initializers : List TensorProto := [e.quantizedTensor, e.scaleTensor, e.zeroPointTensor]

end WeightEntry

section Pass

-- the number that four bytes in little endian stand for
variable (fromLeBytes : UInt8 → UInt8 → UInt8 → UInt8 → ℚ)

/-- One weight; `none` where it is skipped. -/
def quantizeWeight (t : Target) : Except Halt (Option WeightEntry) := do
  let data ← extractFloatData fromLeBytes t.init
  let dims := t.init.dims
  if dims = [] then return none
  if usizeProduct (sizes dims) ≠ data.length then return none
  let axis := perChannelAxis t.node.op_type t.node dims.length
  if (sizes dims).getD axis 0 = 0 then return none
  return some { weight := t.weight, init := t.init, data := data, axis := axis }

/-- Every distinct weight once, under the axis of its first consumer. -/
def quantizeWeights : List Target → List WeightEntry → Except Halt (List WeightEntry)
  | [], entries => .ok entries
  | t :: rest, entries =>
      if entries.any (·.weight = t.weight) then quantizeWeights rest entries
      else do
        match ← quantizeWeight fromLeBytes t with
        | none => quantizeWeights rest entries
        | some e => quantizeWeights rest (entries ++ [e])

variable (ops : QuantizeOps) (graph : GraphProto)

/-- The quantized weight of a node that is to be replaced. -/
def entryOf (entries : List WeightEntry) (node : NodeProto) : Option WeightEntry :=
  (target ops graph node).bind fun wt => entries.find? (·.weight = wt.1)

/-- The nodes in the place of one node, and the initializers they come with. -/
def replaceNode (entries : List WeightEntry) (node : NodeProto) :
    Except Halt (List NodeProto × List TensorProto) :=
  match entryOf ops graph entries node with
  | none => .ok ([node], [])
  | some e =>
      if node.op_type = "Conv" then buildConvChain node e.names graph.initializer
      else (buildMatmulChain node e.names).map fun chain => (chain, [])

/-- The names that nodes or outputs of the rewritten graph read. -/
def liveNames (nodes : List NodeProto) (output : List String) : List String :=
  nodes.flatMap (·.input) ++ output

def quantizeModel : Except Halt GraphProto := do
  let entries ← quantizeWeights fromLeBytes (targets ops graph) []
  if entries = [] then
    throw (.error "No weights were quantized; refusing to write a float-only model as INT8")
  let pieces ← graph.node.mapM (replaceNode ops graph entries)
  let rebuilt := pieces.flatMap Prod.fst
  let live := liveNames rebuilt graph.output
  let kept := graph.initializer.filter fun t =>
    ¬ entries.any (·.weight = t.name) ∨ t.name ∈ live
  return { graph with
    node := rebuilt
    initializer := kept ++ entries.flatMap (·.initializers) ++ pieces.flatMap Prod.snd }

end Pass

end Gigastt.Quantize
