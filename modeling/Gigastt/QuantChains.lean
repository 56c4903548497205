import Gigastt.QuantWeights

/-!
The integer chains that replace a `MatMul`, `Gemm` or `Conv`, under names made from the node's own.
-/

namespace Gigastt.Quantize

/-- No `/` or `:` in a generated name. -/
def sanitize (s : String) : String :=
  String.ofList (s.toList.map fun c => if c = '/' ∨ c = ':' then '_' else c)

/-- The name of the node, or else its first output. -/
def nodeBaseName (node : NodeProto) : String :=
  sanitize (if node.name ≠ "" then node.name else node.output.head?.getD node.op_type)

def dynamicQuantize (base a : String) : NodeProto where
  op_type := "DynamicQuantizeLinear"
  input := [a]
  output := [base ++ "_a_q", base ++ "_a_scale", base ++ "_a_zp"]
  name := base ++ "_dynq"

def castToFloat (input output name : String) : NodeProto where
  op_type := "Cast"
  input := [input]
  output := [output]
  name := name
  attributes := [{ name := "to", i := some FLOAT.toInt64, type := ATTR_INT }]

def mulNode (a b out name : String) : NodeProto where
  op_type := "Mul"
  input := [a, b]
  output := [out]
  name := name

/-- `out = Reshape(data, shape_init)`. -/
def reshapeNode (data shape_init out name : String) : NodeProto where
  op_type := "Reshape"
  input := [data, shape_init]
  output := [out]
  name := name

/-- `Y = Cast(MatMulInteger(DynQ(A), W)) * (a_scale * W_scale)`. -/
def matmulChain (base a y : String) (qw : QuantizedWeight) : List NodeProto :=
  [dynamicQuantize base a,
    { op_type := "MatMulInteger"
      input := [base ++ "_a_q", qw.q_name, base ++ "_a_zp", qw.zp_name]
      output := [base ++ "_mm_i32"]
      name := base ++ "_matmulinteger" },
    castToFloat (base ++ "_mm_i32") (base ++ "_mm_f32") (base ++ "_cast"),
    mulNode (base ++ "_a_scale") qw.s_name (base ++ "_scale_vec") (base ++ "_scale_mul"),
    mulNode (base ++ "_mm_f32") (base ++ "_scale_vec") y (base ++ "_rescale")]

/-- The chain for a `MatMul` or `Gemm`; a node without an input or an output is out of range. -/
def buildMatmulChain (node : NodeProto) (qw : QuantizedWeight) : Except Halt (List NodeProto) :=
  match node.input, node.output with
  | a :: _, y :: _ => .ok (matmulChain (nodeBaseName node) a y qw)
  | _, _ => .error .panic

/-- `[1, C_out, 1, ...]`. -/
def channelBroadcastShape (c_out : Int64) (rank : ℕ) : List Int64 :=
  (List.replicate (max rank 2) 1).set 1 c_out

def int64ShapeInitializer (name : String) (shape : List Int64) : TensorProto where
  name := name
  dims := [Int64.ofNat shape.length]
  data_type := INT64
  raw_data := shape.flatMap toLeBytes

def convAttrs : List String :=
  ["strides", "pads", "dilations", "group", "kernel_shape", "auto_pad"]

/-- The attributes that `ConvInteger` shares with `Conv`. -/
def copyConvAttrs (node : NodeProto) : List AttributeProto :=
  node.attributes.filter fun a => a.name ∈ convAttrs

/-- The quantized convolution, and its scale on the channel axis. -/
def convScaled (base a : String) (attributes : List AttributeProto) (qw : QuantizedWeight) :
    List NodeProto :=
  [dynamicQuantize base a,
    { op_type := "ConvInteger"
      input := [base ++ "_a_q", qw.q_name, base ++ "_a_zp", qw.zp_name]
      output := [base ++ "_ci_i32"]
      name := base ++ "_convinteger"
      attributes := attributes },
    castToFloat (base ++ "_ci_i32") (base ++ "_ci_f32") (base ++ "_cast"),
    mulNode (base ++ "_a_scale") qw.s_name (base ++ "_scale_c") (base ++ "_scale_mul"),
    reshapeNode (base ++ "_scale_c") (base ++ "_scale_shape") (base ++ "_scale_reshaped")
      (base ++ "_scale_reshape")]

/-- The rescale, and the bias on the channel axis where there is one. -/
def convTail (base y : String) : Option String → List NodeProto
  | none => [mulNode (base ++ "_ci_f32") (base ++ "_scale_reshaped") y (base ++ "_rescale")]
  | some bias =>
      [mulNode (base ++ "_ci_f32") (base ++ "_scale_reshaped") (base ++ "_scaled")
          (base ++ "_rescale"),
        reshapeNode bias (base ++ "_bias_shape") (base ++ "_bias_reshaped")
          (base ++ "_bias_reshape"),
        { op_type := "Add"
          input := [base ++ "_scaled", base ++ "_bias_reshaped"]
          output := [y]
          name := base ++ "_bias_add" }]

/-- The bias of a convolution, where it is the name of an initializer. -/
def biasName (node : NodeProto) (initializers : List TensorProto) : Option String :=
  (node.input[2]?.filter (· ≠ "")).filter fun b => initializers.any (·.name = b)

/-- `Y = Cast(ConvInteger(DynQ(A), W)) * reshape(a_scale * W_scale) [+ reshape(bias)]`, and the
initializers that carry the shapes. -/
def buildConvChain (node : NodeProto) (qw : QuantizedWeight) (initializers : List TensorProto) :
    Except Halt (List NodeProto × List TensorProto) :=
  match node.input, node.output with
  | a :: w :: _, y :: _ =>
      let base := nodeBaseName node
      let weight_init := initializers.find? (·.name = w)
      let weight_rank := max ((weight_init.map fun t => t.dims.length).getD 4) 2
      -- a weight without dimensions has no `dims[0]`
      if weight_init.any fun t => t.dims.isEmpty then .error .panic
      else
        let c_out := (weight_init.map fun t => max (t.dims.headD 0) 0).getD 0
        let shape := channelBroadcastShape c_out weight_rank
        let bias := biasName node initializers
        .ok (convScaled base a (copyConvAttrs node) qw ++ convTail base y bias,
          int64ShapeInitializer (base ++ "_scale_shape") shape ::
            (bias.map fun _ => int64ShapeInitializer (base ++ "_bias_shape") shape).toList)
  | _, _ => .error .panic

/-- The geometry of a convolution survives the copy of its attributes. -/
theorem find_copyConvAttrs (node : NodeProto) {name : String} (hname : name ∈ convAttrs) :
    (copyConvAttrs node).find? (·.name = name) = node.attributes.find? (·.name = name) := by
  rw [copyConvAttrs, List.find?_filter]
  congr 1
  ext a
  by_cases h : a.name = name
  · simp [h, hname]
  · simp [h]

end Gigastt.Quantize
