import Gigastt.Contraction
import Gigastt.QuantChains
import Gigastt.Rounding

/-!
What the operators of a graph compute, in exact arithmetic: those that are quantized and those of the
chains in their place. An operator or operand of another kind is a parameter. A graph is run node by
node over the tensors known so far.
-/

namespace Gigastt.Quantize

open Tensor

/-- A tensor of numbers, or of integers of any width. -/
inductive Value where
  | float (t : Tensor ℚ)
  | int (t : Tensor ℤ)

/-- The tensors by name. -/
abbrev Env := String → Option Value

/-- What the graph leaves to the runtime. -/
structure Runtime where
  fromLeBytes : UInt8 → UInt8 → UInt8 → UInt8 → ℚ
  /-- initializers in other formats -/
  decodeOther : TensorProto → Option Value
  /-- other operators, and operands the ones below do not take -/
  evalOther : NodeProto → Env → Option (List Value)

section Operators

def saturate (v : ℤ) : ℤ := max 0 (min v 255)

/-- The range of a tensor, widened to hold zero. -/
def rangeOf (x : Tensor ℚ) : ℚ × ℚ := (x.data.foldl min 0, x.data.foldl max 0)

/-- Unsigned 8-bit values with one scale and one zero point for the whole tensor. The tensor of zeros
has scale zero. -/
def dynamicQuantizeLinear (x : Tensor ℚ) : Tensor ℤ × ℚ × ℤ :=
  let (lo, hi) := rangeOf x
  let scale := (hi - lo) / 255
  let zeroPoint := saturate (Rounding.roundEven (-lo / scale))
  (x.map fun v => saturate (Rounding.roundEven (v / scale) + zeroPoint), scale, zeroPoint)

/-- The numbers that the quantized activation stands for. -/
def dequantizedActivation (x : Tensor ℚ) : Tensor ℚ :=
  let (q, scale, zeroPoint) := dynamicQuantizeLinear x
  (q.map (· - zeroPoint)).map fun v : ℤ => (v : ℚ) * scale

section Contract

variable {α : Type*} [Zero α] [Add α] [Mul α]

def matMul (a b : Tensor α) : Option (Tensor α) :=
  (Contraction.matmul a.dims b.dims).map fun p => p.apply a b

def conv (g : Contraction.Settings) (x w : Tensor α) : Option (Tensor α) :=
  (Contraction.convolution g x.dims w.dims).map fun p => p.apply x w

end Contract

def attrInts (node : NodeProto) (name : String) : List Int64 :=
  ((node.attributes.find? (·.name = name)).map (·.ints)).getD []

def attrString (node : NodeProto) (name : String) : String :=
  ((node.attributes.find? (·.name = name)).map (·.s)).getD ""

def paddingOf : String → Option Contraction.Padding
  | "" => some .explicit
  | "NOTSET" => some .explicit
  | "VALID" => some .valid
  | "SAME_UPPER" => some .sameUpper
  | "SAME_LOWER" => some .sameLower
  | _ => none

/-- The settings of a convolution over the given kernel. A negative length is none. -/
def settingsOf (node : NodeProto) (kernel : List ℕ) : Option Contraction.Settings := do
  let strides := attrInts node "strides"
  let dilations := attrInts node "dilations"
  let pads := attrInts node "pads"
  let kernelShape := attrInts node "kernel_shape"
  let group := (attrInt node "group").getD 1
  let padding ← paddingOf (attrString node "auto_pad")
  if (strides ++ dilations ++ pads).all (0 ≤ ·) ∧ (kernelShape = [] ∨ sizes kernelShape = kernel)
  then
    some {
      strides := sizes strides
      dilations := sizes dilations
      before := sizes (pads.take (pads.length / 2))
      after := sizes (pads.drop (pads.length / 2))
      group := group.toNatClampNeg
      padding }
  else none

/-- The convolution of a node's attributes. -/
def convOf {α : Type*} [Zero α] [Add α] [Mul α] (node : NodeProto) (x w : Tensor α) :
    Option (Tensor α) :=
  (settingsOf node (w.dims.drop 2)).bind fun g => conv g x w

/-- A number added per channel, on the second axis. -/
def addBias (z b : Tensor ℚ) : Option (Tensor ℚ) :=
  if b.dims = [z.dims.getD 1 0] then some (z.mapIdx fun idx v => v + b.get [idx.getD 1 0]) else none

/-- A shape with its copied lengths (zero) and its inferred one (minus one) filled in. -/
def resolveShape (dims : List ℕ) (shape : List ℤ) : Option (List ℕ) :=
  let known := shape.zipIdx.map fun vi => if vi.1 = 0 then dims.getD vi.2 0 else vi.1.toNat
  let rest := ((known.zip shape).filter fun ls => 0 ≤ ls.2).map Prod.fst
  if shape.count (-1) ≤ 1 ∧ ∀ v ∈ shape, -1 ≤ v then
    some ((known.zip shape).map fun ls => if 0 ≤ ls.2 then ls.1 else dims.prod / rest.prod)
  else none

end Operators

section Initializers

variable (rt : Runtime)

def int64Chunks : List UInt8 → List Int64
  | b0 :: b1 :: b2 :: b3 :: b4 :: b5 :: b6 :: b7 :: rest =>
      ofLeBytes [b0, b1, b2, b3, b4, b5, b6, b7] :: int64Chunks rest
  | _ => []

def tensorOf {α : Type*} (dims : List Int64) (data : List α) : Option (Tensor α) :=
  if h : data.length = (sizes dims).prod then some ⟨sizes dims, data, h⟩ else none

/-- The tensor of an initializer. -/
def decode (t : TensorProto) : Option Value :=
  if t.data_type = FLOAT then
    let data := if t.float_data ≠ [] then t.float_data else floatChunks rt.fromLeBytes t.raw_data
    (tensorOf t.dims data).map .float
  else if t.data_type = INT8 ∧ t.raw_data ≠ [] then
    (tensorOf t.dims (t.raw_data.map fun b => b.toInt8.toInt)).map .int
  else if t.data_type = INT64 ∧ t.raw_data ≠ [] then
    (tensorOf t.dims ((int64Chunks t.raw_data).map Int64.toInt)).map .int
  else rt.decodeOther t

/-- The tensors under the names; an empty name stands for one that is left out. -/
def operands (env : Env) (names : List String) : Option (List (Option Value)) :=
  names.mapM fun name => if name = "" then some none else (env name).map some

theorem operands_cons {env : Env} {name : String} {names : List String} {values : List (Option Value)} :
    operands env (name :: names) = some values ↔ ∃ v rest,
      (if name = "" then some none else (env name).map some) = some v ∧
        operands env names = some rest ∧ values = v :: rest := by
  rw [operands, List.mapM_cons]
  constructor
  · intro h
    obtain ⟨v, hv, h⟩ := Option.bind_eq_some_iff.mp h
    obtain ⟨rest, hrest, h⟩ := Option.bind_eq_some_iff.mp h
    cases h
    exact ⟨v, rest, hv, hrest, rfl⟩
  · rintro ⟨v, rest, hv, hrest, rfl⟩
    rw [operands] at hrest
    simp only [hv, hrest]
    rfl

theorem operands_eq_nil {env : Env} {names : List String} (h : operands env names = some []) :
    names = [] := by
  cases names with
  | nil => rfl
  | cons name names =>
      obtain ⟨v, rest, _, _, heq⟩ := operands_cons.mp h
      cases heq

theorem operands_eq_none {env : Env} {names : List String} (h : operands env names = some [none]) :
    names = [""] := by
  cases names with
  | nil => cases h
  | cons name names =>
      obtain ⟨v, rest, hv, hrest, heq⟩ := operands_cons.mp h
      cases heq
      rw [operands_eq_nil hrest]
      split_ifs at hv with hempty
      · rw [hempty]
      · simp at hv

theorem operands_eq_some {env : Env} {names : List String} {v : Value}
    (h : operands env names = some [some v]) :
    ∃ name, names = [name] ∧ name ≠ "" ∧ env name = some v := by
  cases names with
  | nil => cases h
  | cons name names =>
      obtain ⟨u, rest, hu, hrest, heq⟩ := operands_cons.mp h
      cases heq
      rw [operands_eq_nil hrest]
      split_ifs at hu with hempty
      · simp at hu
      · exact ⟨name, rfl, hempty, by simpa using hu⟩

theorem operands_one {env : Env} {name : String} {names : List String} {v : Value}
    (h : operands env ((name :: names).take 1) = some [some v]) : name ≠ "" ∧ env name = some v := by
  obtain ⟨name', heq, hname, hv⟩ := operands_eq_some h
  cases heq
  exact ⟨hname, hv⟩

/-- An operator that a chain may stand for, on numbers. -/
def floatOp (node : NodeProto) : List (Option Value) → Option (Tensor ℚ)
  | [some (.float a), some (.float b)] =>
      if node.op_type = "MatMul" then matMul a b
      else if node.op_type = "Gemm" ∧ node.attributes = [] ∧ a.rank = 2 ∧ b.rank = 2 then matMul a b
      else if node.op_type = "Conv" then convOf node a b
      else none
  | [some (.float a), some (.float b), none] =>
      if node.op_type = "Gemm" ∧ node.attributes = [] ∧ a.rank = 2 ∧ b.rank = 2 then matMul a b
      else if node.op_type = "Conv" then convOf node a b
      else none
  | [some (.float a), some (.float b), some (.float c)] =>
      if node.op_type = "Conv" then (convOf node a b).bind fun z => addBias z c else none
  | _ => none

/-- The outputs of a node. -/
def eval (node : NodeProto) (env : Env) : Option (List Value) :=
  match node.op_type, operands env node.input with
  | "DynamicQuantizeLinear", some [some (.float x)] =>
      let (q, scale, zeroPoint) := dynamicQuantizeLinear x
      some [.int q, .float (scalar scale), .int (scalar zeroPoint)]
  | "MatMulInteger", some [some (.int a), some (.int b), some (.int ⟨[], [za], _⟩),
      some (.int ⟨[], [zb], _⟩)] =>
      (matMul (a.map (· - za)) (b.map (· - zb))).map fun z => [.int z]
  | "ConvInteger", some [some (.int x), some (.int w), some (.int ⟨[], [zx], _⟩),
      some (.int ⟨[], [zw], _⟩)] =>
      (convOf node (x.map (· - zx)) (w.map (· - zw))).map fun z => [.int z]
  | "Cast", some [some (.int t)] =>
      if attrInt node "to" = some FLOAT.toInt64 then
        some [.float (t.map fun v : ℤ => (v : ℚ))]
      else rt.evalOther node env
  | "Mul", some [some (.float a), some (.float b)] => (zipWith (· * ·) a b).map fun z => [.float z]
  | "Add", some [some (.float a), some (.float b)] => (zipWith (· + ·) a b).map fun z => [.float z]
  | "Reshape", some [some (.float t), some (.int shape)] =>
      ((resolveShape t.dims shape.data).bind t.reshape).map fun z => [.float z]
  | _, values =>
      match values.bind (floatOp node) with
      | some z => some [.float z]
      | none => rt.evalOther node env

/-- The outputs put under their names. -/
def bindOutputs (env : Env) (outputs : List (String × Value)) : Env :=
  outputs.foldl (fun env nv name => if name = nv.1 then some nv.2 else env name) env

def step (env : Env) (node : NodeProto) : Option Env :=
  (eval rt node env).map fun values => bindOutputs env (node.output.zip values)

def run (nodes : List NodeProto) (env : Env) : Option Env := nodes.foldlM (step rt) env

theorem run_append (nodes nodes' : List NodeProto) (env : Env) :
    run rt (nodes ++ nodes') env = (run rt nodes env).bind (run rt nodes') :=
  List.foldlM_append

theorem bindOutputs_of_not_mem {env : Env} {outputs : List (String × Value)} {name : String}
    (h : name ∉ outputs.map Prod.fst) : bindOutputs env outputs name = env name := by
  induction outputs generalizing env with
  | nil => rfl
  | cons nv outputs ih =>
      rw [List.map_cons, List.mem_cons, not_or] at h
      rw [bindOutputs, List.foldl_cons]
      apply (ih h.2).trans
      exact if_neg h.1

/-- A node touches nothing but its outputs. -/
theorem step_frame {env env' : Env} {node : NodeProto} (h : step rt env node = some env')
    {name : String} (hname : name ∉ node.output) : env' name = env name := by
  obtain ⟨values, _, rfl⟩ := Option.map_eq_some_iff.mp h
  apply bindOutputs_of_not_mem
  intro hmem
  obtain ⟨nv, hnv, rfl⟩ := List.mem_map.mp hmem
  exact hname (List.of_mem_zip hnv).1

theorem run_frame {nodes : List NodeProto} {env env' : Env} (h : run rt nodes env = some env')
    {name : String} (hname : name ∉ nodes.flatMap (·.output)) : env' name = env name := by
  induction nodes generalizing env with
  | nil => exact congrFun (Option.some.inj h).symm name
  | cons node nodes ih =>
      rw [List.flatMap_cons, List.mem_append, not_or] at hname
      obtain ⟨mid, hstep, hrest⟩ := Option.bind_eq_some_iff.mp (List.foldlM_cons.symm.trans h)
      rw [ih hrest hname.2, step_frame rt hstep hname.1]

/-- The environment a graph starts from: what is fed to its inputs, and its initializers. -/
def start (graph : GraphProto) (feed : Env) : Env := fun name =>
  if name ∈ graph.input then feed name
  else (graph.initializer.find? (·.name = name)).bind (decode rt)

end Initializers

section Eval

variable (rt : Runtime) {node : NodeProto} {env : Env}

theorem eval_dynamicQuantize {x : Tensor ℚ} (hop : node.op_type = "DynamicQuantizeLinear")
    (h : operands env node.input = some [some (.float x)]) :
    eval rt node env = some [.int (dynamicQuantizeLinear x).1,
      .float (scalar (dynamicQuantizeLinear x).2.1), .int (scalar (dynamicQuantizeLinear x).2.2)] := by
  rw [eval, hop, h]
  rfl

theorem eval_matMulInteger {a b : Tensor ℤ} {za zb : ℤ} (hop : node.op_type = "MatMulInteger")
    (h : operands env node.input =
      some [some (.int a), some (.int b), some (.int (scalar za)), some (.int (scalar zb))]) :
    eval rt node env = (matMul (a.map (· - za)) (b.map (· - zb))).map fun z => [.int z] := by
  rw [eval, hop, h]
  rfl

theorem eval_cast {t : Tensor ℤ} (hop : node.op_type = "Cast")
    (hto : attrInt node "to" = some FLOAT.toInt64) (h : operands env node.input = some [some (.int t)]) :
    eval rt node env = some [.float (t.map fun v : ℤ => (v : ℚ))] := by
  rw [eval, hop, h]
  exact if_pos hto

theorem eval_mul {a b : Tensor ℚ} (hop : node.op_type = "Mul")
    (h : operands env node.input = some [some (.float a), some (.float b)]) :
    eval rt node env = (zipWith (· * ·) a b).map fun z => [.float z] := by
  rw [eval, hop, h]
  rfl

theorem eval_convInteger {a b : Tensor ℤ} {za zb : ℤ} (hop : node.op_type = "ConvInteger")
    (h : operands env node.input =
      some [some (.int a), some (.int b), some (.int (scalar za)), some (.int (scalar zb))]) :
    eval rt node env = (convOf node (a.map (· - za)) (b.map (· - zb))).map fun z => [.int z] := by
  rw [eval, hop, h]
  rfl

theorem eval_add {a b : Tensor ℚ} (hop : node.op_type = "Add")
    (h : operands env node.input = some [some (.float a), some (.float b)]) :
    eval rt node env = (zipWith (· + ·) a b).map fun z => [.float z] := by
  rw [eval, hop, h]
  rfl

theorem eval_reshape {t : Tensor ℚ} {shape : Tensor ℤ} (hop : node.op_type = "Reshape")
    (h : operands env node.input = some [some (.float t), some (.int shape)]) :
    eval rt node env = ((resolveShape t.dims shape.data).bind t.reshape).map fun z => [.float z] := by
  rw [eval, hop, h]
  rfl

/-- One output is put under its name. -/
theorem step_one {out : String} {v : Value} (hout : node.output = [out])
    (h : eval rt node env = some [v]) :
    ∃ env', step rt env node = some env' ∧ env' out = some v ∧
      ∀ name, name ≠ out → env' name = env name := by
  refine ⟨bindOutputs env [(out, v)], ?_, if_pos rfl, fun name hname => if_neg hname⟩
  rw [step, h, hout]
  rfl

theorem step_three {out out' out'' : String} {v v' v'' : Value}
    (hout : node.output = [out, out', out'']) (hapart : [out, out', out''].Nodup)
    (h : eval rt node env = some [v, v', v'']) :
    ∃ env', step rt env node = some env' ∧
      (env' out = some v ∧ env' out' = some v' ∧ env' out'' = some v'') ∧
      ∀ name ∉ [out, out', out''], env' name = env name := by
  have hread : ∀ name, bindOutputs env [(out, v), (out', v'), (out'', v'')] name =
      if name = out'' then some v'' else if name = out' then some v' else
        if name = out then some v else env name := fun name => rfl
  simp only [List.nodup_cons, List.mem_cons, List.not_mem_nil, or_false, not_or] at hapart
  obtain ⟨⟨hfirst, hfirst'⟩, hsecond, _⟩ := hapart
  refine ⟨bindOutputs env [(out, v), (out', v'), (out'', v'')], ?_, ⟨?_, ?_, ?_⟩, ?_⟩
  · rw [step, h, hout]
    rfl
  · rw [hread, if_neg hfirst', if_neg hfirst, if_pos rfl]
  · rw [hread, if_neg hsecond, if_pos rfl]
  · rw [hread, if_pos rfl]
  · intro name hname
    simp only [List.mem_cons, List.not_mem_nil, or_false, not_or] at hname
    rw [hread, if_neg hname.2.2, if_neg hname.2.1, if_neg hname.1]

theorem run_cons_of_step {nodes : List NodeProto} {env' : Env} (h : step rt env node = some env') :
    run rt (node :: nodes) env = run rt nodes env' := by
  rw [run, List.foldlM_cons, h]
  rfl

end Eval

end Gigastt.Quantize
