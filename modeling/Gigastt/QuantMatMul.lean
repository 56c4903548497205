import Gigastt.QuantGraph

/-!
The chain in the place of a matrix product. It multiplies the numbers that the quantized activation and
the quantized weight stand for.
-/

namespace Gigastt.Quantize

open Tensor

variable (rt : Runtime)

section Scaled

theorem dequantizedActivation_eq (x : Tensor ℚ) : dequantizedActivation x =
    ((dynamicQuantizeLinear x).1.map (· - (dynamicQuantizeLinear x).2.2)).map fun v : ℤ =>
      (v : ℚ) * (dynamicQuantizeLinear x).2.1 := by
  rw [dequantizedActivation]

/-- A product of scaled integers is a scaled product of integers. -/
theorem matMul_scaled {x q : Tensor ℤ} {s : ℚ} (scales : ℕ → ℚ) {front : List ℕ} {n : ℕ}
    (hdims : q.dims = front ++ [n]) (hfront : front ≠ []) {z : Tensor ℚ}
    (h : matMul (x.map fun v : ℤ => (v : ℚ) * s)
      (q.mapIdx fun idx (v : ℤ) => (v : ℚ) * scales (idx.getLastD 0)) = some z) :
    ∃ m : Tensor ℤ, matMul x q = some m ∧ (∃ rows, m.dims = rows ++ [n]) ∧
      z = m.mapIdx fun idx (v : ℤ) => (v : ℚ) * (s * scales (idx.getLastD 0)) := by
  obtain ⟨p, hp, hz⟩ := Option.map_eq_some_iff.mp h
  rw [dims_map, dims_mapIdx, hdims] at hp
  obtain ⟨hrows, hfollows⟩ := Contraction.matmul_columns hfront hp
  refine ⟨p.apply x q, ?_, hrows, ?_⟩
  · rw [matMul, hdims, hp, Option.map_some]
  · rw [← hz]
    exact Contraction.apply_scaled hfollows (Int.castRingHom ℚ) s scales x q

end Scaled

section Chain

/-- What the inner tensors of the chain are called after the name of the node. -/
def innerSuffixes : List String :=
  ["_a_q", "_a_scale", "_a_zp", "_mm_i32", "_mm_f32", "_scale_vec"]

theorem outputs_matmulChain (base a y : String) (qw : QuantizedWeight) :
    (matmulChain base a y qw).dropLast.flatMap (·.output) = innerSuffixes.map (base ++ ·) := by
  simp only [matmulChain, dynamicQuantize, castToFloat, mulNode, innerSuffixes, List.dropLast,
    List.flatMap_cons, List.flatMap_nil, List.map_cons, List.map_nil, List.cons_append,
    List.nil_append, List.append_nil]

/-- The activation, quantized under the names of a chain. -/
theorem step_dynamicQuantize {env : Env} (base : String) {a : String} {x : Tensor ℚ} (ha : a ≠ "")
    (hx : env a = some (.float x)) :
    ∃ env', step rt env (dynamicQuantize base a) = some env' ∧
      (env' (base ++ "_a_q") = some (.int (dynamicQuantizeLinear x).1) ∧
        env' (base ++ "_a_scale") = some (.float (scalar (dynamicQuantizeLinear x).2.1)) ∧
        env' (base ++ "_a_zp") = some (.int (scalar (dynamicQuantizeLinear x).2.2))) ∧
      ∀ name ∉ [base ++ "_a_q", base ++ "_a_scale", base ++ "_a_zp"], env' name = env name := by
  apply step_three rt rfl (by simp)
  exact eval_dynamicQuantize rt rfl (by simp [operands, dynamicQuantize, ha, hx])

/-- The scale of the activation times every scale of the weight. -/
theorem eval_scales {env : Env} {base scales : String} {inner : List String} {sv : Tensor ℚ}
    {scale : ℚ} (hs : Reads env inner scales (.float sv))
    (has : env (base ++ "_a_scale") = some (.float (scalar scale))) (out name : String) :
    eval rt (mulNode (base ++ "_a_scale") scales out name) env
      = some [.float (sv.map (scale * ·))] := by
  rw [eval_mul rt (a := scalar scale) (b := sv) rfl, zipWith_scalar, Option.map_some]
  simp [operands, mulNode, has, hs.value, hs.named]

theorem run_matmulChain {env : Env} {base a y : String} {qw : QuantizedWeight} {x sv : Tensor ℚ}
    {q : Tensor ℤ} {front : List ℕ} {n : ℕ} (ha : a ≠ "") (hx : env a = some (.float x))
    (hq : Reads env (innerSuffixes.map (base ++ ·)) qw.q_name (.int q))
    (hs : Reads env (innerSuffixes.map (base ++ ·)) qw.s_name (.float sv))
    (hz : Reads env (innerSuffixes.map (base ++ ·)) qw.zp_name (.int (scalar 0))) (hsdims : sv.dims = [n])
    (hqdims : q.dims = front ++ [n]) (hfront : front ≠ []) {z : Tensor ℚ}
    (h : matMul (dequantizedActivation x)
      (q.mapIdx fun idx (v : ℤ) => (v : ℚ) * sv.get [idx.getLastD 0]) = some z) :
    ∃ env', run rt (matmulChain base a y qw) env = some env' ∧ env' y = some (.float z) := by
  rw [dequantizedActivation_eq] at h
  generalize hquantized : dynamicQuantizeLinear x = quantized at h
  obtain ⟨xq, scale, zeroPoint⟩ := quantized
  dsimp only at h
  obtain ⟨m, hm, ⟨rows, hrows⟩, hresult⟩ := matMul_scaled (fun c => sv.get [c]) hqdims hfront h
  have hzero : q.map (· - 0) = q := by
    simp only [sub_zero]
    exact ofFn_get q
  -- the activation
  obtain ⟨env₁, hstep₁, ⟨haq, has, haz⟩, hframe₁⟩ := step_dynamicQuantize rt base ha hx
  rw [hquantized] at haq has haz
  have hinner₁ : [base ++ "_a_q", base ++ "_a_scale", base ++ "_a_zp"] ⊆
      innerSuffixes.map (base ++ ·) := by
    simp [innerSuffixes]
  have hq₁ := hq.keep hframe₁ hinner₁
  have hs₁ := hs.keep hframe₁ hinner₁
  have hz₁ := hz.keep hframe₁ hinner₁
  -- the product of integers
  have hproduct : eval rt { op_type := "MatMulInteger"
                            input := [base ++ "_a_q", qw.q_name, base ++ "_a_zp", qw.zp_name]
                            output := [base ++ "_mm_i32"]
                            name := base ++ "_matmulinteger" } env₁ = some [.int m] := by
    rw [eval_matMulInteger (a := xq) (b := q) rt rfl
      (by simp [operands, haq, haz, hq₁.value, hz₁.value, hq₁.named, hz₁.named]; exact ⟨rfl, rfl⟩), hzero, hm]
    rfl
  obtain ⟨env₂, hstep₂, hmm, hframe₂⟩ := step_one rt rfl hproduct
  have hcast : eval rt (castToFloat (base ++ "_mm_i32") (base ++ "_mm_f32") (base ++ "_cast")) env₂ =
      some [.float (m.map fun v : ℤ => (v : ℚ))] :=
    eval_cast rt rfl rfl (by simp [operands, castToFloat, hmm])
  obtain ⟨env₃, hstep₃, hmf, hframe₃⟩ := step_one rt rfl hcast
  -- the scales
  have hs₃ := (hs₁.keep_one hframe₂ (by simp [innerSuffixes])).keep_one hframe₃
    (by simp [innerSuffixes])
  have has₃ : env₃ (base ++ "_a_scale") = some (.float (scalar scale)) := by
    rw [hframe₃ _ (by simp), hframe₂ _ (by simp), has]
  obtain ⟨env₄, hstep₄, hsv, hframe₄⟩ := step_one rt rfl
    (eval_scales rt hs₃ has₃ (base ++ "_scale_vec") (base ++ "_scale_mul"))
  -- the product of numbers
  have hmf₄ : env₄ (base ++ "_mm_f32") = some (.float (m.map fun v : ℤ => (v : ℚ))) := by
    rw [hframe₄ _ (by simp), hmf]
  have hrescale : eval rt (mulNode (base ++ "_mm_f32") (base ++ "_scale_vec") y (base ++ "_rescale"))
      env₄ = some [.float z] := by
    have hrows' : (m.map fun v : ℤ => (v : ℚ)).dims = rows ++ [n] := hrows
    have hsdims' : (sv.map (scale * ·)).dims = [n] := hsdims
    have hrescaled : (m.map fun v : ℤ => (v : ℚ)).mapIdx
        (fun idx v => v * (sv.map (scale * ·)).get [idx.getLastD 0]) = z := by
      rw [hresult]
      refine (mapIdx_mapIdx _ _ m).trans (mapIdx_congr fun idx _ => ?_)
      rw [get_map_zero (mul_zero scale) sv]
    rw [eval_mul (a := m.map fun v : ℤ => (v : ℚ)) (b := sv.map (scale * ·)) rt rfl
      (by simp [operands, mulNode, hmf₄, hsv]), zipWith_last (· * ·) hrows' hsdims', hrescaled]
    rfl
  obtain ⟨env₅, hstep₅, hy, _⟩ := step_one rt rfl hrescale
  refine ⟨env₅, ?_, hy⟩
  rw [matmulChain, run_cons_of_step rt hstep₁, run_cons_of_step rt hstep₂,
    run_cons_of_step rt hstep₃, run_cons_of_step rt hstep₄, run_cons_of_step rt hstep₅]
  rfl

end Chain

section Meaning

variable {ops : QuantizeOps} {graph graph' : GraphProto} {entries : List WeightEntry} {pieces : List Piece}
  {node : NodeProto} {piece : Piece} {e : WeightEntry}

/-- A `Gemm` takes matrices. -/
def GemmsOnMatrices (graph : GraphProto) : Prop :=
  ∀ node ∈ graph.node, node.op_type = "Gemm" →
    ∀ name ∈ node.input[1]?, ∀ w ∈ initOf graph name, w.dims.length = 2

theorem floatOp_matMul {a b z : Tensor ℚ} {rest : List (Option Value)} (hop : node.op_type ≠ "Conv")
    (h : floatOp node (some (.float a) :: some (.float b) :: rest) = some z) :
    matMul a b = some z := by
  unfold floatOp at h
  split at h
  · rename_i heq
    cases heq
    split_ifs at h <;> exact h
  · rename_i heq
    cases heq
    split_ifs at h
    exact h
  · rename_i heq
    cases heq
    rw [if_neg hop] at h
    cases h
  · cases h

theorem op_of_target {wt : String × TensorProto} (h : target .default graph node = some wt) :
    node.op_type = "MatMul" ∨ node.op_type = "Gemm" ∧ node.attributes = [] := by
  obtain ⟨_, _, _, _, _, hallows, hgeneral⟩ := target_eq_some h
  simp only [QuantizeOps.allows, QuantizeOps.default] at hallows
  split_ifs at hallows with hop
  · refine hop.imp_right fun hgemm => ⟨hgemm, ?_⟩
    by_contra hattributes
    rw [generalGemm, decide_eq_false_iff_not] at hgeneral
    exact hgeneral ⟨hgemm, Or.inl hattributes⟩

/-- Without convolutions the weights are quantized along their last axis. -/
theorem axis_eq_last (hgemm : GemmsOnMatrices graph)
    (h : quantizeWeights rt.fromLeBytes (targets .default graph) [] = .ok entries) (he : e ∈ entries) :
    e.axis = e.init.dims.length - 1 := by
  obtain ⟨t, ht, _, hof⟩ := entry_first h he
  obtain ⟨hnode, htarget⟩ := mem_targets.mp ht
  obtain ⟨a, rest, hinput, hinit, _⟩ := target_eq_some htarget
  rw [hof.axis, hof.init]
  rcases op_of_target htarget with hop | ⟨hop, hattributes⟩
  · simp [perChannelAxis, hop]
  · have hrank : t.init.dims.length = 2 :=
      hgemm t.node hnode hop t.weight (by simp [hinput]) t.init hinit
    simp [perChannelAxis, hop, attrInt, hattributes, hrank]

/-- A chain that is run up to multiplies the numbers behind its operands. -/
theorem Rewrites.outputs_matMul (h : Rewrites rt.fromLeBytes ops graph graph' entries pieces)
    (hfresh : Fresh graph (generated entries pieces)) {i : ℕ} (hnode : graph.node[i]? = some node)
    (hpiece : pieces[i]? = some piece) (hentry : entryOf ops graph entries node = some e)
    (hop : node.op_type ≠ "Conv") (haxis : e.axis = e.init.dims.length - 1)
    {env : Env} {y : String} {x w z : Tensor ℚ}
    (hreached : Reached rt graph' (pieces.take i) node (· - 1) e.init env y x w z) :
    Outputs rt piece env y z := by
  obtain ⟨⟨feed, hrun⟩, houtput, hx, hw, hrank, hz⟩ := hreached
  have he := (entryOf_eq_some hentry).1
  obtain ⟨a, ins, y', outs, hinput, houtput', hpieceEq⟩ :=
    replaceNode_matmul hentry hop (h.replaceNode_getElem rt hnode hpiece)
  rw [houtput'] at houtput
  cases houtput
  obtain ⟨hq, hzp, sv, hs, hsdims, hscales⟩ := h.entry_reads rt hfresh he (List.take_subset i pieces)
    hrun (List.mem_of_getElem? hpiece) hw
  rw [hpieceEq, Piece.inner, outputs_matmulChain] at hq hs hzp
  have hlength : w.dims.length = e.init.dims.length := by
    rw [(decode_entry rt h.weights he hw).1, length_sizes]
  have haxis' : e.axis = w.rank - 1 := by rw [haxis, Tensor.rank, hlength]
  rw [hinput] at hx
  obtain ⟨hempty, hx⟩ := operands_one hx
  obtain ⟨rest, _, hz⟩ := Option.bind_eq_some_iff.mp hz
  -- the scale of the last axis
  obtain ⟨front, n, hfront⟩ : ∃ front n, w.dims = front ++ [n] := by
    refine ⟨w.dims.dropLast, w.dims.getLast ?_, (List.dropLast_append_getLast _).symm⟩
    exact List.ne_nil_of_length_pos (Nat.zero_lt_of_lt hrank)
  have hrank' : w.rank = front.length + 1 := by rw [Tensor.rank, hfront, List.length_append]; rfl
  have hlast : w.dims.getD e.axis 0 = n := by
    rw [hfront, haxis', hrank', Nat.add_sub_cancel, List.getD_append_right _ _ _ _ le_rfl,
      Nat.sub_self]
    rfl
  rw [hlast] at hsdims hscales
  have hweight : dequantizedAlong (w.rank - 1) e.init.dims w =
      (quantizedAlong e.axis e.init.dims w).mapIdx fun idx (v : ℤ) =>
        (v : ℚ) * sv.get [idx.getLastD 0] := by
    rw [← haxis']
    apply mapIdx_congr
    intro idx hidx
    have hidx' : Inside idx (front ++ [n]) := hfront ▸ hidx
    obtain ⟨rows, c, rfl, hlen, hc⟩ := inside_concat hidx'
    have hchannel : (rows ++ [c]).getD e.axis 0 = c := by
      rw [haxis', hrank', Nat.add_sub_cancel, List.getD_append_right _ _ _ _ hlen.le, hlen,
        Nat.sub_self]
      rfl
    rw [hchannel, List.getLastD_concat, hscales c hc]
  rw [hweight] at hz
  rw [Outputs, hpieceEq]
  refine run_matmulChain rt hempty hx hq hs hzp hsdims hfront ?_ (floatOp_matMul hop hz)
  rintro rfl
  rw [hrank'] at hrank
  exact absurd hrank (by decide)

/-- Every node that is not replaced stays as it is, and every chain multiplies what the quantized
activation stands for with what the quantized weight stands for, one scale for each index of the last
axis. -/
theorem matMul_chains (rt : Runtime) {graph graph' : GraphProto}
    (hmodel : quantizeModel rt.fromLeBytes .default graph = .ok graph') (hgemm : GemmsOnMatrices graph) :
    ∃ entries pieces, Rewrites rt.fromLeBytes .default graph graph' entries pieces ∧
      ∀ i node, graph.node[i]? = some node → ∃ piece, pieces[i]? = some piece ∧
        (entryOf .default graph entries node = none ∨ generalGemm node = true →
          piece = ([node], [])) ∧
        (Fresh graph (generated entries pieces) →
          ∀ e, entryOf .default graph entries node = some e →
            node.input[1]? = some e.weight ∧ initOf graph e.weight = some e.init ∧
              ∀ env y x w z,
                Reached rt graph' (pieces.take i) node (fun rank => rank - 1) e.init env y x w z →
                  Outputs rt piece env y z) := by
  obtain ⟨entries, pieces, h⟩ := quantizeModel_rewrites hmodel
  refine ⟨entries, pieces, h, fun i node hnode => ?_⟩
  obtain ⟨hi, hnode'⟩ := List.getElem?_eq_some_iff.mp hnode
  have hpiece := List.getElem?_eq_getElem (h.replaced.length_eq ▸ hi : i < pieces.length)
  refine ⟨_, hpiece, fun huntouched => ?_, fun hfresh e hentry => ?_⟩
  · have hnone : entryOf .default graph entries node = none := by
      apply huntouched.elim id
      intro hgeneral
      rw [entryOf, target, if_pos hgeneral, ite_self]
      rfl
    have hreplace := h.replaceNode_getElem rt hnode hpiece
    rw [replaceNode_none hnone] at hreplace
    exact (Except.ok.inj hreplace).symm
  · obtain ⟨he, a, ins, init, hinput, htarget, hinit⟩ := entryOf_eq_some hentry
    have hop : node.op_type ≠ "Conv" := by
      rcases op_of_target htarget with hop | ⟨hop, _⟩ <;> simp [hop]
    refine ⟨by rw [hinput]; rfl, initOf_entry h.weights he, ?_⟩
    exact fun env y x w z => h.outputs_matMul rt hfresh hnode hpiece hentry hop
      (axis_eq_last rt hgemm h.weights he)

section Example

/-- A runtime without anything else. -/
def plainRuntime : Runtime := ⟨fun _ _ _ _ => 0, fun _ => none, fun _ _ => none⟩

def ones (dims : List ℕ) : Tensor ℚ := ⟨dims, List.replicate dims.prod 1, List.length_replicate⟩

def onesTensor (name : String) (dims : List Int64) : TensorProto where
  name := name
  dims := dims
  data_type := FLOAT
  float_data := List.replicate (sizes dims).prod 1

def onesEntry (weight : String) (dims : List Int64) (axis : ℕ) : WeightEntry :=
  ⟨weight, onesTensor weight dims, List.replicate (sizes dims).prod 1, axis⟩

theorem float_data_ones {name : String} {dims : List Int64} (hpos : (sizes dims).prod ≠ 0) :
    (onesTensor name dims).float_data ≠ [] := by
  rw [onesTensor, ← List.length_pos_iff, List.length_replicate]
  exact Nat.pos_of_ne_zero hpos

theorem decode_ones {name : String} {dims : List Int64} (hpos : (sizes dims).prod ≠ 0) :
    decode plainRuntime (onesTensor name dims) = some (.float (ones (sizes dims))) := by
  have htype : (onesTensor name dims).data_type = FLOAT := rfl
  have hlength : (onesTensor name dims).float_data.length = (sizes (onesTensor name dims).dims).prod :=
    List.length_replicate
  rw [decode, if_pos htype]
  dsimp only
  rw [if_pos (float_data_ones hpos), tensorOf, dif_pos hlength]
  rfl

theorem quantizeWeight_ones (fromLeBytes : UInt8 → UInt8 → UInt8 → UInt8 → ℚ) (node : NodeProto)
    {name : String} {dims : List Int64} (hpos : (sizes dims).prod ≠ 0) (hdims : dims ≠ [])
    (hfits : (sizes dims).prod < 2 ^ 64)
    (hchannels : (sizes dims).getD (perChannelAxis node.op_type node dims.length) 0 ≠ 0) :
    quantizeWeight fromLeBytes ⟨node, name, onesTensor name dims⟩ =
      .ok (some (onesEntry name dims (perChannelAxis node.op_type node dims.length))) := by
  refine quantizeWeight_eq_some.mpr ⟨rfl, rfl, ?_, rfl, hdims, ?_, hchannels⟩
  · rw [extractFloatData, if_pos (float_data_ones hpos)]
    rfl
  · rw [usizeProduct]
    exact (Nat.mod_eq_of_lt hfits).trans List.length_replicate.symm

/-- A weight that two nodes share. -/
def sharedGraph : GraphProto where
  node := [{ op_type := "MatMul", input := ["x", "w"], output := ["y"], name := "first" },
    { op_type := "Gemm", input := ["y", "w"], output := ["z"], name := "second" }]
  initializer := [onesTensor "w" [32, 32]]
  input := ["x"]
  output := ["z"]

def sharedEntry : WeightEntry := onesEntry "w" [32, 32] 1

def sharedPieces : List Piece :=
  [(matmulChain "first" "x" "y" sharedEntry.names, []),
    (matmulChain "second" "y" "z" sharedEntry.names, [])]

theorem quantizeWeights_pair (fromLeBytes : UInt8 → UInt8 → UInt8 → UInt8 → ℚ) {graph : GraphProto}
    {first second : NodeProto} (hop : first.op_type = "MatMul")
    (htargets : targets .default graph =
      [⟨first, "w", onesTensor "w" [32, 32]⟩, ⟨second, "w", onesTensor "w" [32, 32]⟩]) :
    quantizeWeights fromLeBytes (targets .default graph) [] = .ok [sharedEntry] := by
  have haxis : perChannelAxis first.op_type first [(32 : Int64), 32].length = 1 := by
    rw [hop]
    rfl
  have hfirst : quantizeWeight fromLeBytes ⟨first, "w", onesTensor "w" [32, 32]⟩ =
      .ok (some sharedEntry) := by
    rw [sharedEntry, ← haxis]
    apply quantizeWeight_ones fromLeBytes _ (by decide) (List.cons_ne_nil _ _) (by decide)
    rw [haxis]
    decide
  rw [htargets, quantizeWeights, if_neg (by simp), hfirst]
  rfl

theorem quantizeWeights_shared (fromLeBytes : UInt8 → UInt8 → UInt8 → UInt8 → ℚ) :
    quantizeWeights fromLeBytes (targets .default sharedGraph) [] = .ok [sharedEntry] :=
  quantizeWeights_pair fromLeBytes rfl rfl

theorem replaced_shared : List.Forall₂ (fun node piece =>
    replaceNode .default sharedGraph [sharedEntry] node = .ok piece) sharedGraph.node sharedPieces :=
  .cons rfl (.cons rfl .nil)

theorem fresh_shared : Fresh sharedGraph (generated [sharedEntry] sharedPieces) := by
  have hnames : generated [sharedEntry] sharedPieces =
      ["w_quantized", "w_scale", "w_zero_point",
        "first_a_q", "first_a_scale", "first_a_zp", "first_mm_i32", "first_mm_f32", "first_scale_vec",
        "second_a_q", "second_a_scale", "second_a_zp", "second_mm_i32", "second_mm_f32",
        "second_scale_vec"] := by
    rfl
  rw [hnames]
  constructor <;> decide

def sharedFeed : Env := fun name => if name = "x" then some (.float (ones [1, 32])) else none

theorem matMul_chains_shared_weight : ∃ graph' env z,
    quantizeModel plainRuntime.fromLeBytes .default sharedGraph = .ok graph' ∧
      run plainRuntime (graph'.node.take 5) (start plainRuntime graph' sharedFeed) = some env ∧
      matMul (dequantizedActivation (ones [1, 32])) (dequantizedAlong 1 [32, 32] (ones [32, 32])) =
        some z ∧
      env "y" = some (.float z) := by
  obtain ⟨graph', hmodel⟩ := exists_quantizeModel
    (quantizeWeights_shared plainRuntime.fromLeBytes) (List.cons_ne_nil _ _) replaced_shared
  have hgemm : GemmsOnMatrices sharedGraph := by
    intro node hnode hop name hname w hw
    simp only [sharedGraph, List.mem_cons, List.not_mem_nil, or_false] at hnode
    rcases hnode with rfl | rfl
    · exact absurd hop (by decide)
    · cases hname
      cases hw
      rfl
  obtain ⟨entries, pieces, h, hchains⟩ := matMul_chains plainRuntime hmodel hgemm
  obtain rfl : entries = [sharedEntry] :=
    Except.ok.inj (h.weights.symm.trans (quantizeWeights_shared _))
  obtain rfl : pieces = sharedPieces :=
    Except.ok.inj ((Outcomes.mapM_eq_ok.mpr h.replaced).symm.trans
      (Outcomes.mapM_eq_ok.mpr replaced_shared))
  obtain ⟨piece, hpiece, _, houtputs⟩ := hchains 0 sharedGraph.node[0] rfl
  cases hpiece
  obtain ⟨_, _, houtputs⟩ := houtputs fresh_shared sharedEntry rfl
  have hx : start plainRuntime graph' sharedFeed "x" = some (.float (ones [1, 32])) := by
    rw [start, h.input]
    rfl
  have hoperands : operands (start plainRuntime graph' sharedFeed) ["x"] =
      some [some (.float (ones [1, 32]))] := by
    simp [operands, hx]
  obtain ⟨z, hz⟩ : ∃ z, matMul (dequantizedActivation (ones [1, 32]))
      (dequantizedAlong 1 [32, 32] (ones [32, 32])) = some z := by
    have hdims : ∃ p, Contraction.matmul [1, 32] [32, 32] = some p := ⟨_, rfl⟩
    obtain ⟨p, hp⟩ := hdims
    exact ⟨_, congrArg (Option.map _) hp⟩
  obtain ⟨env, hrun, hy⟩ := houtputs _ "y" (ones [1, 32]) (ones [32, 32]) z
    ⟨⟨sharedFeed, rfl⟩, rfl, hoperands, decode_ones (by decide), le_rfl, hz⟩
  refine ⟨graph', env, z, hmodel, ?_, hz, hy⟩
  rw [h.node]
  exact hrun

end Example

end Meaning

end Gigastt.Quantize
