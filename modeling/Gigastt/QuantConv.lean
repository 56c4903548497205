import Gigastt.QuantMatMul

/-!
The chain in the place of a convolution. It convolves the numbers that the quantized activation and the
quantized weight stand for, and adds the bias where that is an initializer.
-/

namespace Gigastt.Quantize

open Tensor

variable (rt : Runtime)

section Attributes

/-- The convolution of integers is that of the node. -/
theorem settingsOf_congr {node node' : NodeProto} (h : node'.attributes = copyConvAttrs node)
    (kernel : List ℕ) : settingsOf node' kernel = settingsOf node kernel := by
  have hfind : ∀ name ∈ convAttrs, node'.attributes.find? (·.name = name) =
      node.attributes.find? (·.name = name) := fun name hname => by
    rw [h, find_copyConvAttrs node hname]
  have hints : ∀ name ∈ convAttrs, attrInts node' name = attrInts node name := fun name hname => by
    rw [attrInts, attrInts, hfind name hname]
  have hgroup : attrInt node' "group" = attrInt node "group" := by
    rw [attrInt, attrInt, hfind "group" (by decide)]
  have hpad : attrString node' "auto_pad" = attrString node "auto_pad" := by
    rw [attrString, attrString, hfind "auto_pad" (by decide)]
  unfold settingsOf
  rw [hints "strides" (by decide), hints "dilations" (by decide), hints "pads" (by decide),
    hints "kernel_shape" (by decide), hgroup, hpad]

/-- A convolution of scaled integers is a scaled convolution of integers. -/
theorem convOf_scaled {node : NodeProto} (node' : NodeProto)
    (hattributes : node'.attributes = copyConvAttrs node)
    {x q : Tensor ℤ} {s : ℚ} (scales : ℕ → ℚ) {z : Tensor ℚ}
    (h : convOf node (x.map fun v : ℤ => (v : ℚ) * s)
      (q.mapIdx fun idx (v : ℤ) => (v : ℚ) * scales (idx.getD 0 0)) = some z) :
    ∃ m : Tensor ℤ, convOf node' x q = some m ∧
      (∃ c cg kernel n spatial, q.dims = c :: cg :: kernel ∧ m.dims = n :: c :: spatial ∧
        spatial.length = kernel.length) ∧
      z = m.mapIdx fun idx (v : ℤ) => (v : ℚ) * (s * scales (idx.getD 1 0)) := by
  obtain ⟨g, hg, hconv⟩ := Option.bind_eq_some_iff.mp h
  obtain ⟨p, hp, hz⟩ := Option.map_eq_some_iff.mp hconv
  rw [dims_map, dims_mapIdx] at hp
  obtain ⟨c, cg, kernel, hdims⟩ := Contraction.rank_of_convolution hp
  have hp' := hp
  rw [hdims] at hp'
  obtain ⟨⟨n, spatial, hrows, hspatial⟩, hfollows⟩ := Contraction.convolution_channels hp'
  refine ⟨p.apply x q, ?_, ⟨c, cg, kernel, n, spatial, hdims, hrows, hspatial⟩, ?_⟩
  · rw [convOf, settingsOf_congr hattributes]
    rw [dims_mapIdx] at hg
    rw [hg, Option.bind_some, conv, hp, Option.map_some]
  · rw [← hz]
    exact Contraction.apply_scaled hfollows (Int.castRingHom ℚ) s scales x q

end Attributes

section Shape

theorem int64Chunks_toLeBytes (v : Int64) (rest : List UInt8) :
    int64Chunks (toLeBytes v ++ rest) = v :: int64Chunks rest := by
  have hchunk : int64Chunks (toLeBytes v ++ rest) = ofLeBytes (toLeBytes v) :: int64Chunks rest := rfl
  rw [hchunk, ofLeBytes_toLeBytes]

theorem int64Chunks_flatMap (shape : List Int64) : int64Chunks (shape.flatMap toLeBytes) = shape := by
  induction shape with
  | nil => rfl
  | cons v shape ih => rw [List.flatMap_cons, int64Chunks_toLeBytes, ih]

/-- The runtime reads the shape that was written. -/
theorem decode_int64Shape (name : String) {shape : List Int64} (hsome : shape ≠ [])
    (hlength : shape.length < 2 ^ 63) :
    ∃ t : Tensor ℤ, decode rt (int64ShapeInitializer name shape) = some (.int t) ∧
      t.data = shape.map Int64.toInt := by
  have htype : ¬(int64ShapeInitializer name shape).data_type = FLOAT := show ¬INT64 = FLOAT by decide
  have htype' : ¬(int64ShapeInitializer name shape).data_type = INT8 := show ¬INT64 = INT8 by decide
  have hchunks : int64Chunks (int64ShapeInitializer name shape).raw_data = shape :=
    int64Chunks_flatMap shape
  have hraw : (int64ShapeInitializer name shape).raw_data ≠ [] := by
    intro hnil
    rw [hnil] at hchunks
    exact hsome hchunks.symm
  have hlen : (shape.map Int64.toInt).length = (sizes (int64ShapeInitializer name shape).dims).prod := by
    rw [List.length_map]
    simp only [int64ShapeInitializer, sizes, List.map_cons, List.map_nil, List.prod_singleton]
    exact (Int64.toNatClampNeg_ofNat_of_lt hlength).symm
  refine ⟨⟨_, shape.map Int64.toInt, hlen⟩, ?_, rfl⟩
  rw [decode, if_neg htype, if_neg fun h => htype' h.1, if_pos ⟨rfl, hraw⟩, hchunks, tensorOf,
    dif_pos hlen, Option.map_some]

/-- A shape without copied or inferred lengths. -/
theorem resolveShape_pos (dims : List ℕ) {shape : List ℤ} (h : ∀ v ∈ shape, 0 < v) :
    resolveShape dims shape = some (shape.map Int.toNat) := by
  have hknown : (shape.zipIdx.map fun vi => if vi.1 = 0 then dims.getD vi.2 0 else vi.1.toNat) =
      shape.map Int.toNat := by
    apply List.ext_getElem (by simp)
    intro i hi hi'
    have hlen : i < shape.length := by simpa using hi'
    have hpos : shape[i] ≠ 0 := (h _ (List.getElem_mem hlen)).ne'
    simp [hpos]
  have hcount : shape.count (-1) ≤ 1 ∧ ∀ v ∈ shape, -1 ≤ v := by
    refine ⟨?_, fun v hv => ?_⟩
    · rw [List.count_eq_zero_of_not_mem]
      · exact Nat.zero_le 1
      · intro hmem
        have := h _ hmem
        omega
    · have := h v hv
      omega
  have hzip : ∀ f : ℤ → ℕ, (((shape.map Int.toNat).zip shape).map fun ls =>
      if 0 ≤ ls.2 then ls.1 else f ls.2) = shape.map Int.toNat := by
    intro f
    apply List.ext_getElem (by simp)
    intro i hi hi'
    have hlen : i < shape.length := by simpa using hi'
    have hpos : 0 ≤ shape[i] := (h _ (List.getElem_mem hlen)).le
    simp [hpos]
  unfold resolveShape
  dsimp only
  rw [hknown, if_pos hcount]
  exact congrArg some (hzip fun _ => _)

theorem resolveShape_channel {c : Int64} (hc : 0 < c) (dims : List ℕ) {rank : ℕ} (hrank : 2 ≤ rank) :
    resolveShape dims ((channelBroadcastShape c rank).map Int64.toInt) =
      some (channelDims c.toNatClampNeg (rank - 2)) := by
  obtain ⟨rest, rfl⟩ := Nat.exists_eq_add_of_le hrank
  have hshape : (channelBroadcastShape c (2 + rest)).map Int64.toInt =
      1 :: c.toInt :: List.replicate rest 1 := by
    rw [channelBroadcastShape, Nat.max_eq_left hrank, Nat.add_comm, List.replicate_succ,
      List.replicate_succ]
    simp
  have hpos : 0 < c.toInt := Int64.lt_iff_toInt_lt.mp hc
  rw [hshape, resolveShape_pos]
  · simp [channelDims]
  · intro v hv
    simp only [List.mem_cons, List.mem_replicate] at hv
    omega

end Shape

section Chain

/-- What the inner tensors of the chain are called after the name of the node, up to the scale. -/
def scaledSuffixes : List String :=
  ["_a_q", "_a_scale", "_a_zp", "_ci_i32", "_ci_f32", "_scale_c", "_scale_reshaped"]

theorem outputs_convScaled (base a : String) (attributes : List AttributeProto)
    (qw : QuantizedWeight) :
    (convScaled base a attributes qw).flatMap (·.output) = scaledSuffixes.map (base ++ ·) := by
  simp only [convScaled, dynamicQuantize, castToFloat, mulNode, reshapeNode, scaledSuffixes,
    List.flatMap_cons, List.flatMap_nil, List.map_cons, List.map_nil, List.cons_append,
    List.nil_append]

/-- What the chain of a convolution finds where it is run. -/
structure ConvReads (env : Env) (inner : List String) (base a : String) (qw : QuantizedWeight)
    (x sv : Tensor ℚ) (q shape : Tensor ℤ) : Prop where
  named : a ≠ ""
  activation : env a = some (.float x)
  inner_subset : scaledSuffixes.map (base ++ ·) ⊆ inner
  weight : Reads env inner qw.q_name (.int q)
  scale : Reads env inner qw.s_name (.float sv)
  zeroPoint : Reads env inner qw.zp_name (.int (scalar 0))
  shape : Reads env inner (base ++ "_scale_shape") (.int shape)

/-- The scales of activation and weights, multiplied and laid along the channel axis. -/
theorem run_scales {env : Env} {base : String} {qw : QuantizedWeight} {inner : List String}
    {m sv : Tensor ℚ} {shape : Tensor ℤ} {scale : ℚ} {c n : ℕ} {spatial : List ℕ}
    (hs : Reads env inner qw.s_name (.float sv))
    (hshape : Reads env inner (base ++ "_scale_shape") (.int shape))
    (has : env (base ++ "_a_scale") = some (.float (scalar scale)))
    (hone : base ++ "_scale_c" ∈ inner) (hsdims : sv.dims = [c])
    (hresolve : resolveShape [c] shape.data = some (channelDims c spatial.length))
    (hm : m.dims = n :: c :: spatial) :
    ∃ env' r, run rt [mulNode (base ++ "_a_scale") qw.s_name (base ++ "_scale_c")
          (base ++ "_scale_mul"),
        reshapeNode (base ++ "_scale_c") (base ++ "_scale_shape") (base ++ "_scale_reshaped")
          (base ++ "_scale_reshape")] env = some env' ∧
      env' (base ++ "_scale_reshaped") = some (.float r) ∧
      zipWith (· * ·) m r = some (m.mapIdx fun idx v => v * (scale * sv.get [idx.getD 1 0])) ∧
      ∀ name, name ≠ base ++ "_scale_c" → name ≠ base ++ "_scale_reshaped" →
        env' name = env name := by
  obtain ⟨env₁, hstep₁, hsc, hframe₁⟩ := step_one rt rfl
    (eval_scales rt hs has (base ++ "_scale_c") (base ++ "_scale_mul"))
  have hshape₁ := hshape.keep_one hframe₁ hone
  have hscdims : (sv.map (scale * ·)).dims = [c] := hsdims
  obtain ⟨r, hr, hproduct⟩ := Option.bind_eq_some_iff.mp
    (zipWith_channel (· * ·) hm hscdims)
  have hreshape : eval rt (reshapeNode (base ++ "_scale_c") (base ++ "_scale_shape")
      (base ++ "_scale_reshaped") (base ++ "_scale_reshape")) env₁ = some [.float r] := by
    have hoperands : operands env₁ [base ++ "_scale_c", base ++ "_scale_shape"] =
        some [some (.float (sv.map (scale * ·))), some (.int shape)] := by
      simp [operands, hsc, hshape₁.value]
    rw [eval_reshape rt rfl hoperands, hscdims, hresolve, Option.bind_some, hr]
    rfl
  obtain ⟨env₂, hstep₂, hsr, hframe₂⟩ := step_one rt rfl hreshape
  refine ⟨env₂, r, ?_, hsr, ?_, fun name hc hr => ?_⟩
  · rw [run_cons_of_step rt hstep₁, run_cons_of_step rt hstep₂]
    rfl
  · rw [hproduct]
    refine congrArg some (mapIdx_congr fun idx _ => ?_)
    rw [get_map_zero (mul_zero scale) sv]
  · rw [hframe₂ name hr, hframe₁ name hc]

/-- The convolution of the integers and the scale of every channel. -/
theorem run_convScaled {env : Env} {node : NodeProto} {base a : String} {qw : QuantizedWeight}
    {x sv : Tensor ℚ} {q shape : Tensor ℤ} {inner : List String} {z : Tensor ℚ}
    (hreads : ConvReads env inner base a qw x sv q shape)
    {c : ℕ} (hsdims : sv.dims = [c]) (hqdims : q.dims.getD 0 0 = c)
    (hresolve : resolveShape [c] shape.data = some (channelDims c (q.dims.length - 2)))
    (h : convOf node (dequantizedActivation x)
      (q.mapIdx fun idx (v : ℤ) => (v : ℚ) * sv.get [idx.getD 0 0]) = some z) :
    ∃ env' m r, run rt (convScaled base a (copyConvAttrs node) qw) env = some env' ∧
      env' (base ++ "_ci_f32") = some (.float m) ∧
      env' (base ++ "_scale_reshaped") = some (.float r) ∧
      zipWith (· * ·) m r = some z ∧
      ∃ n spatial, z.dims = n :: c :: spatial ∧ spatial.length = q.dims.length - 2 := by
  obtain ⟨ha, hx, hinner, hq, hs, hzp, hshape⟩ := hreads
  rw [dequantizedActivation_eq] at h
  generalize hquantized : dynamicQuantizeLinear x = quantized at h
  obtain ⟨xq, scale, zeroPoint⟩ := quantized
  dsimp only at h
  obtain ⟨m, hm, ⟨c', cg, kernel, n, spatial, hdims, hrows, hspatial⟩, hresult⟩ :=
    convOf_scaled { op_type := "ConvInteger"
                    input := [base ++ "_a_q", qw.q_name, base ++ "_a_zp", qw.zp_name]
                    output := [base ++ "_ci_i32"]
                    name := base ++ "_convinteger"
                    attributes := copyConvAttrs node } rfl (fun c => sv.get [c]) h
  have hc : c' = c := by
    rw [hdims] at hqdims
    exact hqdims
  subst hc
  have hkernel : q.dims.length - 2 = spatial.length := by
    rw [hdims, hspatial]
    rfl
  rw [hkernel] at hresolve
  have hzero : q.map (· - 0) = q := by
    simp only [sub_zero]
    exact ofFn_get q
  -- the activation
  obtain ⟨env₁, hstep₁, ⟨haq, has, haz⟩, hframe₁⟩ := step_dynamicQuantize rt base ha hx
  rw [hquantized] at haq has haz
  have hinner₁ : [base ++ "_a_q", base ++ "_a_scale", base ++ "_a_zp"] ⊆ inner := by
    refine List.Subset.trans ?_ hinner
    simp [scaledSuffixes]
  have hq₁ := hq.keep hframe₁ hinner₁
  have hs₁ := hs.keep hframe₁ hinner₁
  have hzp₁ := hzp.keep hframe₁ hinner₁
  have hshape₁ := hshape.keep hframe₁ hinner₁
  have hone : ∀ suffix ∈ scaledSuffixes, base ++ suffix ∈ inner := fun suffix hsuffix =>
    hinner (List.mem_map_of_mem hsuffix)
  -- the convolution of integers
  have hconv : eval rt { op_type := "ConvInteger"
                         input := [base ++ "_a_q", qw.q_name, base ++ "_a_zp", qw.zp_name]
                         output := [base ++ "_ci_i32"]
                         name := base ++ "_convinteger"
                         attributes := copyConvAttrs node } env₁ = some [.int m] := by
    rw [eval_convInteger (a := xq) (b := q) rt rfl
      (by simp [operands, haq, haz, hq₁.value, hzp₁.value, hq₁.named, hzp₁.named]; exact ⟨rfl, rfl⟩),
      hzero, hm]
    rfl
  obtain ⟨env₂, hstep₂, hci, hframe₂⟩ := step_one rt rfl hconv
  have hcast : eval rt (castToFloat (base ++ "_ci_i32") (base ++ "_ci_f32") (base ++ "_cast")) env₂ =
      some [.float (m.map fun v : ℤ => (v : ℚ))] :=
    eval_cast rt rfl rfl (by simp [operands, castToFloat, hci])
  obtain ⟨env₃, hstep₃, hcf, hframe₃⟩ := step_one rt rfl hcast
  -- the scales
  have hs₃ := (hs₁.keep_one hframe₂ (hone _ (by decide))).keep_one hframe₃ (hone _ (by decide))
  have hshape₃ := (hshape₁.keep_one hframe₂ (hone _ (by decide))).keep_one hframe₃
    (hone _ (by decide))
  have has₃ : env₃ (base ++ "_a_scale") = some (.float (scalar scale)) := by
    rw [hframe₃ _ (by simp), hframe₂ _ (by simp), has]
  have hcdims : (m.map fun v : ℤ => (v : ℚ)).dims = n :: c' :: spatial := hrows
  obtain ⟨env₅, r, hrun, hsr, hproduct, hframe⟩ :=
    run_scales rt hs₃ hshape₃ has₃ (hone _ (by decide)) hsdims hresolve hcdims
  refine ⟨env₅, m.map fun v : ℤ => (v : ℚ), r, ?_, ?_, hsr, ?_, n, spatial, ?_, hkernel.symm⟩
  · rw [convScaled, run_cons_of_step rt hstep₁, run_cons_of_step rt hstep₂,
      run_cons_of_step rt hstep₃, hrun]
  · rw [hframe _ (by simp) (by simp), hcf]
  · rw [hproduct, hresult]
    exact congrArg some (mapIdx_mapIdx _ _ m)
  · rw [hresult]
    exact hrows

/-- Scales of another number than the channels do not fit the shape. -/
theorem run_convScaled_ne_some {env : Env} {base a : String} {attributes : List AttributeProto}
    {qw : QuantizedWeight} {x sv : Tensor ℚ} {q shape : Tensor ℤ} {inner : List String}
    (hreads : ConvReads env inner base a qw x sv q shape) {dims : List ℕ}
    (hresolve : resolveShape sv.dims shape.data = some dims) (hprod : sv.dims.prod ≠ dims.prod)
    (env' : Env) : run rt (convScaled base a attributes qw) env ≠ some env' := by
  obtain ⟨ha, hx, hinner, _, hs, _, hshape⟩ := hreads
  intro hrun
  obtain ⟨env₁, hstep₁, ⟨_, has, _⟩, hframe₁⟩ := step_dynamicQuantize rt base ha hx
  have hinner₁ : [base ++ "_a_q", base ++ "_a_scale", base ++ "_a_zp"] ⊆ inner := by
    refine List.Subset.trans ?_ hinner
    simp [scaledSuffixes]
  have hone : ∀ suffix ∈ scaledSuffixes, base ++ suffix ∈ inner := fun suffix hsuffix =>
    hinner (List.mem_map_of_mem hsuffix)
  rw [convScaled, run_cons_of_step rt hstep₁] at hrun
  change run rt ([_, _] ++ [_, _]) env₁ = _ at hrun
  rw [run_append] at hrun
  obtain ⟨env₃, hmiddle, hrun⟩ := Option.bind_eq_some_iff.mp hrun
  -- the convolution itself touches neither the scales nor the shape
  have hframe₃ : ∀ name ∉ [base ++ "_ci_i32", base ++ "_ci_f32"], env₃ name = env₁ name :=
    fun name hname => run_frame rt hmiddle hname
  have hinner₃ : [base ++ "_ci_i32", base ++ "_ci_f32"] ⊆ inner := by
    refine List.Subset.trans ?_ hinner
    simp [scaledSuffixes]
  have hs₃ := (hs.keep hframe₁ hinner₁).keep hframe₃ hinner₃
  have hshape₃ := (hshape.keep hframe₁ hinner₁).keep hframe₃ hinner₃
  generalize (dynamicQuantizeLinear x).2.1 = scale at has
  have has₃ : env₃ (base ++ "_a_scale") = some (.float (scalar scale)) := by
    rw [hframe₃ _ (by simp), has]
  have hscales : eval rt (mulNode (base ++ "_a_scale") qw.s_name (base ++ "_scale_c")
      (base ++ "_scale_mul")) env₃ = some [.float (sv.map (scale * ·))] := by
    rw [eval_mul rt (a := scalar scale) (b := sv) rfl, zipWith_scalar, Option.map_some]
    simp [operands, mulNode, has₃, hs₃.value, hs₃.named]
  obtain ⟨env₄, hstep₄, hsc, hframe₄⟩ := step_one rt rfl hscales
  have hshape₄ := hshape₃.keep_one hframe₄ (hone _ (by decide))
  have hreshape : eval rt (reshapeNode (base ++ "_scale_c") (base ++ "_scale_shape")
      (base ++ "_scale_reshaped") (base ++ "_scale_reshape")) env₄ = none := by
    have hoperands : operands env₄ [base ++ "_scale_c", base ++ "_scale_shape"] =
        some [some (.float (sv.map (scale * ·))), some (.int shape)] := by
      simp [operands, hsc, hshape₄.value]
    rw [eval_reshape rt rfl hoperands, dims_map, hresolve, Option.bind_some,
      reshape, dif_neg (show ¬(sv.map (scale * ·)).dims.prod = dims.prod from hprod)]
    rfl
  rw [run_cons_of_step rt hstep₄, run, List.foldlM_cons, step, hreshape] at hrun
  cases hrun

theorem run_convTail_none {env : Env} {base y : String} {m r z : Tensor ℚ}
    (hm : env (base ++ "_ci_f32") = some (.float m))
    (hr : env (base ++ "_scale_reshaped") = some (.float r)) (hz : zipWith (· * ·) m r = some z) :
    ∃ env', run rt (convTail base y none) env = some env' ∧ env' y = some (.float z) := by
  have hrescale : eval rt (mulNode (base ++ "_ci_f32") (base ++ "_scale_reshaped") y
      (base ++ "_rescale")) env = some [.float z] := by
    rw [eval_mul (a := m) (b := r) rt rfl (by simp [operands, mulNode, hm, hr]), hz]
    rfl
  obtain ⟨env', hstep, hy, _⟩ := step_one rt rfl hrescale
  refine ⟨env', ?_, hy⟩
  rw [convTail, run_cons_of_step rt hstep]
  rfl

/-- The bias is added on the channel axis. -/
theorem run_convTail_some {env : Env} {base y bias : String} {m r z₀ z b : Tensor ℚ}
    {shape : Tensor ℤ} {inner : List String} (hm : env (base ++ "_ci_f32") = some (.float m))
    (hr : env (base ++ "_scale_reshaped") = some (.float r)) (hz₀ : zipWith (· * ·) m r = some z₀)
    (hbias : Reads env inner bias (.float b))
    (hshape : Reads env inner (base ++ "_bias_shape") (.int shape))
    (hscaled : base ++ "_scaled" ∈ inner) {n c : ℕ} {spatial : List ℕ}
    (hdims : z₀.dims = n :: c :: spatial)
    (hresolve : resolveShape [c] shape.data = some (channelDims c spatial.length))
    (hz : addBias z₀ b = some z) :
    ∃ env', run rt (convTail base y (some bias)) env = some env' ∧ env' y = some (.float z) := by
  have hbdims : b.dims = [c] := by
    rw [addBias, hdims] at hz
    split_ifs at hz with hbdims
    exact hbdims
  have hadd : addBias z₀ b = some (z₀.mapIdx fun idx v => v + b.get [idx.getD 1 0]) := by
    rw [addBias, hdims, hbdims]
    exact if_pos rfl
  rw [hadd] at hz
  obtain ⟨rb, hrb, hsum⟩ := Option.bind_eq_some_iff.mp (zipWith_channel (· + ·) hdims hbdims)
  have hrescale : eval rt (mulNode (base ++ "_ci_f32") (base ++ "_scale_reshaped") (base ++ "_scaled")
      (base ++ "_rescale")) env = some [.float z₀] := by
    rw [eval_mul (a := m) (b := r) rt rfl (by simp [operands, mulNode, hm, hr]), hz₀]
    rfl
  obtain ⟨env₁, hstep₁, hscaled₁, hframe₁⟩ := step_one rt rfl hrescale
  have hbias₁ := hbias.keep_one hframe₁ hscaled
  have hshape₁ := hshape.keep_one hframe₁ hscaled
  have hreshape : eval rt (reshapeNode bias (base ++ "_bias_shape") (base ++ "_bias_reshaped")
      (base ++ "_bias_reshape")) env₁ = some [.float rb] := by
    have hoperands : operands env₁ [bias, base ++ "_bias_shape"] =
        some [some (.float b), some (.int shape)] := by
      simp [operands, hbias₁.value, hbias₁.named, hshape₁.value]
    rw [eval_reshape rt rfl hoperands, hbdims, hresolve, Option.bind_some, hrb]
    rfl
  obtain ⟨env₂, hstep₂, hrb₂, hframe₂⟩ := step_one rt rfl hreshape
  have hscaled₂ : env₂ (base ++ "_scaled") = some (.float z₀) := by
    rw [hframe₂ _ (by simp), hscaled₁]
  have hadded : eval rt { op_type := "Add"
                          input := [base ++ "_scaled", base ++ "_bias_reshaped"]
                          output := [y]
                          name := base ++ "_bias_add" } env₂ = some [.float z] := by
    rw [eval_add (a := z₀) (b := rb) rt rfl (by simp [operands, hscaled₂, hrb₂]), hsum, hz]
    rfl
  obtain ⟨env₃, hstep₃, hy, _⟩ := step_one rt rfl hadded
  refine ⟨env₃, ?_, hy⟩
  rw [convTail, run_cons_of_step rt hstep₁, run_cons_of_step rt hstep₂, run_cons_of_step rt hstep₃]
  rfl

/-- The operator with its bias, where it has one. -/
theorem floatOp_conv {node : NodeProto} {a b z : Tensor ℚ} {rest : List (Option Value)}
    (hop : node.op_type = "Conv")
    (h : floatOp node (some (.float a) :: some (.float b) :: rest) = some z) :
    ∃ z₀, convOf node a b = some z₀ ∧ ((rest = [] ∨ rest = [none]) ∧ z = z₀ ∨
      ∃ c, rest = [some (.float c)] ∧ addBias z₀ c = some z) := by
  unfold floatOp at h
  split at h
  · rename_i heq
    cases heq
    simp only [hop] at h
    exact ⟨z, by simpa using h, Or.inl ⟨Or.inl rfl, rfl⟩⟩
  · rename_i heq
    cases heq
    simp only [hop] at h
    exact ⟨z, by simpa using h, Or.inl ⟨Or.inr rfl, rfl⟩⟩
  · rename_i c heq
    cases heq
    rw [if_pos hop] at h
    obtain ⟨z₀, hz₀, hz⟩ := Option.bind_eq_some_iff.mp h
    exact ⟨z₀, hz₀, Or.inr ⟨_, rfl, hz⟩⟩
  · cases h

end Chain

section Meaning

variable {ops : QuantizeOps} {graph graph' : GraphProto} {entries : List WeightEntry}
  {pieces : List Piece} {node : NodeProto} {piece : Piece} {e : WeightEntry}

/-- The bias of a convolution is left out or an initializer. -/
def BiasKept (graph : GraphProto) (node : NodeProto) : Prop :=
  ∀ bias ∈ node.input[2]?, bias ≠ "" → bias ∈ graph.initializer.map (·.name)

theorem inner_none {base a y : String} {attributes : List AttributeProto} {qw : QuantizedWeight}
    (hnodes : piece.1 = convScaled base a attributes qw ++ convTail base y none) :
    Piece.inner piece = scaledSuffixes.map (base ++ ·) := by
  rw [Piece.inner, hnodes, convTail, List.dropLast_concat, outputs_convScaled]

theorem inner_some {base a y bias : String} {attributes : List AttributeProto} {qw : QuantizedWeight}
    (hnodes : piece.1 = convScaled base a attributes qw ++ convTail base y (some bias)) :
    Piece.inner piece = scaledSuffixes.map (base ++ ·) ++ [base ++ "_scaled", base ++ "_bias_reshaped"] := by
  have hlast : convScaled base a attributes qw ++ convTail base y (some bias) =
      (convScaled base a attributes qw ++ (convTail base y (some bias)).dropLast) ++
        [{ op_type := "Add"
           input := [base ++ "_scaled", base ++ "_bias_reshaped"]
           output := [y]
           name := base ++ "_bias_add" }] := by
    rw [List.append_assoc]
    rfl
  rw [Piece.inner, hnodes, hlast, List.dropLast_concat, List.flatMap_append, outputs_convScaled]
  rfl

theorem scaled_subset_inner {base a y : String} {bias : Option String}
    {attributes : List AttributeProto} {qw : QuantizedWeight}
    (hnodes : piece.1 = convScaled base a attributes qw ++ convTail base y bias) :
    scaledSuffixes.map (base ++ ·) ⊆ Piece.inner piece := by
  cases bias with
  | none =>
      rw [inner_none hnodes]
      exact List.Subset.refl _
  | some bias =>
      rw [inner_some hnodes]
      exact List.subset_append_left _ _

/-- The chain of a convolution has the bias only where that is an initializer. -/
theorem biasName_eq_none (h : ∀ bias ∈ node.input[2]?, bias ≠ "" →
    bias ∉ graph.initializer.map (·.name)) : biasName node graph.initializer = none := by
  rw [biasName, Option.filter_eq_none_iff]
  intro bias hbias hinit
  obtain ⟨hinput, hne⟩ := Option.filter_eq_some_iff.mp hbias
  obtain ⟨t, ht, hname⟩ := List.any_eq_true.mp hinit
  exact h bias hinput (of_decide_eq_true hne) (List.mem_map.mpr ⟨t, ht, of_decide_eq_true hname⟩)

theorem biasName_eq_some {bias : String} (hinput : node.input[2]? = some bias) (hbias : bias ≠ "")
    (h : bias ∈ graph.initializer.map (·.name)) : biasName node graph.initializer = some bias := by
  obtain ⟨t, ht, hname⟩ := List.mem_map.mp h
  have hinit : graph.initializer.any (fun t => t.name = bias) = true :=
    List.any_eq_true.mpr ⟨t, ht, decide_eq_true hname⟩
  rw [biasName, hinput]
  simp [Option.filter, hbias, hinit]

theorem toNatClampNeg_max (v : Int64) : (max v 0).toNatClampNeg = v.toNatClampNeg := by
  have hmax : max v 0 = if v ≤ 0 then 0 else v := rfl
  rw [hmax]
  split_ifs with h
  · have hneg : v.toInt ≤ 0 := Int64.le_iff_toInt_le.mp h
    exact (Int.toNat_of_nonpos hneg).symm
  · rfl

/-- The shape of the chain puts the scales on the channel axis. -/
theorem resolve_convShape {w : TensorProto} (hrank : 2 ≤ w.dims.length)
    (hchannels : (sizes w.dims).getD 0 0 ≠ 0) (dims : List ℕ) :
    resolveShape dims ((convShape w).map Int64.toInt) =
      some (channelDims ((sizes w.dims).getD 0 0) (w.dims.length - 2)) := by
  have hhead : (sizes w.dims).getD 0 0 = (max (w.dims.headD 0) 0).toNatClampNeg := by
    rw [toNatClampNeg_max]
    cases w.dims <;> rfl
  rw [hhead] at hchannels ⊢
  have hpos : 0 < max (w.dims.headD 0) 0 := by
    rw [Int64.lt_iff_toInt_lt]
    exact Int.pos_iff_toNat_pos.mpr (Nat.pos_of_ne_zero hchannels)
  rw [convShape, Nat.max_eq_left hrank]
  exact resolveShape_channel hpos dims hrank

theorem length_convShape {w : TensorProto} (hrank : 2 ≤ w.dims.length) :
    (convShape w).length = w.dims.length := by
  rw [convShape, channelBroadcastShape, List.length_set, List.length_replicate,
    Nat.max_eq_left hrank, Nat.max_eq_left hrank]

/-- A weight that was quantized has channels. -/
theorem channels_ne_zero (h : quantizeWeights rt.fromLeBytes (targets ops graph) [] = .ok entries)
    (he : e ∈ entries) (hrank : 0 < e.init.dims.length) : (sizes e.init.dims).getD 0 0 ≠ 0 := by
  obtain ⟨t, _, _, hof⟩ := entry_first h he
  have hzero := zero_not_mem hof.data hof.length_eq
  rw [← hof.init] at hzero
  have hpos : 0 < (sizes e.init.dims).length := by rwa [length_sizes]
  rw [List.getD_eq_getElem _ _ hpos]
  exact fun heq => hzero (heq ▸ List.getElem_mem hpos)

/-- What the chain of a replaced convolution finds, whichever axis its weight is scaled along. -/
theorem Rewrites.conv_reads (h : Rewrites rt.fromLeBytes ops graph graph' entries pieces)
    (hfresh : Fresh graph (generated entries pieces))
    (hlengths : ∀ t ∈ graph.initializer, t.dims.length < 2 ^ 63) {i : ℕ}
    (hnode : graph.node[i]? = some node) (hpiece : pieces[i]? = some piece)
    (hentry : entryOf ops graph entries node = some e) (hop : node.op_type = "Conv")
    (hinit : graph.initializer.find? (·.name = e.weight) = some e.init)
    {env : Env} {y : String} {x w z : Tensor ℚ}
    (hreached : Reached rt graph' (pieces.take i) node (fun _ => 0) e.init env y x w z) :
    ∃ a sv shape, piece.1 = convScaled (nodeBaseName node) a (copyConvAttrs node) e.names ++
        convTail (nodeBaseName node) y (biasName node graph.initializer) ∧
      ConvReads env (Piece.inner piece) (nodeBaseName node) a e.names x sv
        (quantizedAlong e.axis e.init.dims w) shape ∧
      sv.dims = [w.dims.getD e.axis 0] ∧
      (∀ c < w.dims.getD e.axis 0, sv.get [c] = scalesAlong e.axis e.init.dims w c) ∧
      (∀ dims, resolveShape dims shape.data = some (channelDims (w.dims.getD 0 0) (w.dims.length - 2))) ∧
      (biasName node graph.initializer ≠ none → ∃ biasShape,
        Reads env (Piece.inner piece) (nodeBaseName node ++ "_bias_shape") (.int biasShape) ∧
          biasShape.data = shape.data) := by
  obtain ⟨⟨feed, hrun⟩, houtput, hx, hw, hrank, _⟩ := hreached
  have he := (entryOf_eq_some hentry).1
  have hmem : piece ∈ pieces := List.mem_of_getElem? hpiece
  obtain ⟨a, ins, y', outs, shape, hinput, houtput', hnodes, hinits, hshape⟩ :=
    replaceNode_conv hentry hop (h.replaceNode_getElem rt hnode hpiece)
  have hshape := hshape e.init hinit
  subst hshape
  rw [houtput'] at houtput
  cases houtput
  obtain ⟨hq, hzp, sv, hs, hsdims, hscales⟩ := h.entry_reads rt hfresh he (List.take_subset i pieces)
    hrun hmem hw
  rw [hinput] at hx
  obtain ⟨hempty, hx⟩ := operands_one hx
  have hdims : w.dims = sizes e.init.dims := (decode_entry rt h.weights he hw).1
  have hlength : w.rank = e.init.dims.length := by rw [Tensor.rank, hdims, length_sizes]
  rw [hlength] at hrank
  -- the shape
  have hchannels := channels_ne_zero rt h.weights he (Nat.zero_lt_of_lt hrank)
  have hsome : convShape e.init ≠ [] := by
    apply List.ne_nil_of_length_pos
    rw [length_convShape hrank]
    exact Nat.zero_lt_of_lt hrank
  have hfits : (convShape e.init).length < 2 ^ 63 := by
    rw [length_convShape hrank]
    exact hlengths e.init (List.mem_of_find?_eq_some hinit)
  have hreads : ∀ name, int64ShapeInitializer name (convShape e.init) ∈ piece.2 → name ≠ "" →
      ∃ t : Tensor ℤ, Reads env (Piece.inner piece) name (.int t) ∧
        t.data = (convShape e.init).map Int64.toInt := by
    intro name hshape hnamed
    obtain ⟨t, ht, hdata⟩ := decode_int64Shape rt name hsome hfits
    have hadded : int64ShapeInitializer name (convShape e.init) ∈ added entries pieces :=
      List.mem_append_right _ (List.mem_flatMap.mpr ⟨piece, hmem, hshape⟩)
    exact ⟨t, h.reads rt hfresh hadded (List.take_subset i pieces) hrun ht hmem hnamed, hdata⟩
  obtain ⟨shape, hshape, hdata⟩ := hreads (nodeBaseName node ++ "_scale_shape")
    (by rw [hinits]; exact List.mem_cons_self) (append_ne_empty (by decide))
  refine ⟨a, sv, shape, hnodes, ⟨hempty, hx, scaled_subset_inner hnodes, hq, hs, hzp, hshape⟩, hsdims, hscales, ?_, ?_⟩
  · intro dims
    rw [hdata, hdims, length_sizes]
    exact resolve_convShape hrank hchannels dims
  · intro hname
    obtain ⟨bias, hname⟩ := Option.ne_none_iff_exists'.mp hname
    obtain ⟨biasShape, hbiasShape, hbiasData⟩ := hreads (nodeBaseName node ++ "_bias_shape")
      (by simp [hinits, hname]) (append_ne_empty (by decide))
    exact ⟨biasShape, hbiasShape, hbiasData.trans hdata.symm⟩

/-- A chain whose weight is scaled along its first axis convolves the numbers behind its operands, and
adds the bias that the graph has for it. -/
theorem Rewrites.outputs_conv (h : Rewrites rt.fromLeBytes ops graph graph' entries pieces)
    (hfresh : Fresh graph (generated entries pieces))
    (hlengths : ∀ t ∈ graph.initializer, t.dims.length < 2 ^ 63) {i : ℕ}
    (hnode : graph.node[i]? = some node) (hpiece : pieces[i]? = some piece)
    (hentry : entryOf ops graph entries node = some e) (hop : node.op_type = "Conv")
    (haxis : e.axis = 0) (hinit : graph.initializer.find? (·.name = e.weight) = some e.init)
    {env : Env} {y : String} {x w z : Tensor ℚ}
    (hreached : Reached rt graph' (pieces.take i) node (fun _ => 0) e.init env y x w z) :
    ∃ z₀, Outputs rt piece env y z₀ ∧ (BiasKept graph node → z₀ = z) ∧
      (¬BiasKept graph node → ∃ c, operands env (node.input.drop 2) = some [some (.float c)] ∧
        addBias z₀ c = some z) := by
  obtain ⟨a, sv, shape, hnodes, hreads, hsdims, hscales, hresolve, hbiasShape⟩ :=
    h.conv_reads rt hfresh hlengths hnode hpiece hentry hop hinit hreached
  obtain ⟨_, _, _, _, hrank, hz⟩ := hreached
  have hne : w.dims ≠ [] := List.ne_nil_of_length_pos (Nat.zero_lt_of_lt hrank)
  obtain ⟨rest, hrest, hz⟩ := Option.bind_eq_some_iff.mp hz
  obtain ⟨z₀, hz₀, hbias⟩ := floatOp_conv hop hz
  rw [haxis] at hreads hsdims hscales
  have hweight : dequantizedAlong 0 e.init.dims w =
      (quantizedAlong 0 e.init.dims w).mapIdx fun idx (v : ℤ) =>
        (v : ℚ) * sv.get [idx.getD 0 0] := by
    apply mapIdx_congr
    intro idx hidx
    rw [hscales _ (hidx.getD_lt hne)]
  rw [hweight] at hz₀
  obtain ⟨env₁, m, r, hrun₁, hm, hr, hproduct, n, spatial, hzdims, hspatial⟩ :=
    run_convScaled rt hreads hsdims rfl (hresolve _) hz₀
  have hplain : biasName node graph.initializer = none → Outputs rt piece env y z₀ := by
    intro hnone
    rw [hnone] at hnodes
    obtain ⟨env', hrun', hy⟩ := run_convTail_none rt (y := y) hm hr hproduct
    refine ⟨env', ?_, hy⟩
    rw [hnodes, run_append, hrun₁]
    exact hrun'
  rcases hbias with ⟨hleft, rfl⟩ | ⟨b, rfl, hadd⟩
  · -- without a bias
    have hout : ∀ bias ∈ node.input[2]?, ¬bias ≠ "" := by
      intro bias hbias
      rw [← List.head?_drop] at hbias
      rcases hleft with rfl | rfl
      · rw [operands_eq_nil hrest] at hbias
        cases hbias
      · rw [operands_eq_none hrest] at hbias
        cases hbias
        exact not_not.mpr rfl
    have hkept : BiasKept graph node := fun bias hbias hne => absurd hne (hout bias hbias)
    refine ⟨z, hplain (biasName_eq_none fun bias hbias hne => absurd hne (hout bias hbias)),
      fun _ => rfl, fun hlost => absurd hkept hlost⟩
  · obtain ⟨bias, hins, hne, hb⟩ := operands_eq_some hrest
    have hthird : node.input[2]? = some bias := by
      rw [← List.head?_drop, hins]
      rfl
    by_cases hinitializer : bias ∈ graph.initializer.map (·.name)
    · -- the bias is an initializer
      have hname := biasName_eq_some hthird hne hinitializer
      obtain ⟨biasShape, hbiasShape, hbiasData⟩ := hbiasShape (by simp [hname])
      rw [hname] at hnodes
      have hkept : BiasKept graph node := fun bias' hbias' _ => by
        rw [hthird] at hbias'
        cases hbias'
        exact hinitializer
      have hreadsBias : Reads env (Piece.inner piece) bias (.float b) := by
        refine ⟨hb, hne, fun hin => hfresh.initializer bias ?_ hinitializer⟩
        exact List.mem_append_right _ (List.mem_flatMap.mpr ⟨piece, List.mem_of_getElem? hpiece, hin⟩)
      have hframe : ∀ name ∉ scaledSuffixes.map (nodeBaseName node ++ ·), env₁ name = env name :=
        fun name hname => run_frame rt hrun₁ (by rwa [outputs_convScaled])
      have hscaled : nodeBaseName node ++ "_scaled" ∈ Piece.inner piece := by
        rw [inner_some hnodes]
        exact List.mem_append_right _ List.mem_cons_self
      obtain ⟨env', hrun', hy⟩ := run_convTail_some rt (y := y) hm hr hproduct
        (hreadsBias.keep hframe hreads.inner_subset) (hbiasShape.keep hframe hreads.inner_subset)
        hscaled hzdims
        (by rw [hbiasData, hresolve, hspatial]; rfl) hadd
      refine ⟨z, ⟨env', ?_, hy⟩, fun _ => rfl, fun hlost => absurd hkept hlost⟩
      rw [hnodes, run_append, hrun₁]
      exact hrun'
    · -- the bias is lost
      have hlost : ¬BiasKept graph node := fun hkept => hinitializer (hkept bias hthird hne)
      refine ⟨z₀, hplain (biasName_eq_none fun bias' hbias' _ => ?_),
        fun hkept => absurd hkept hlost, fun _ => ⟨b, ?_, hadd⟩⟩
      · rw [hthird] at hbias'
        cases hbias'
        exact hinitializer
      · exact hrest

/-- A chain with another number of scales than channels has no output. -/
theorem Rewrites.not_outputs_conv (h : Rewrites rt.fromLeBytes ops graph graph' entries pieces)
    (hfresh : Fresh graph (generated entries pieces))
    (hlengths : ∀ t ∈ graph.initializer, t.dims.length < 2 ^ 63) {i : ℕ}
    (hnode : graph.node[i]? = some node) (hpiece : pieces[i]? = some piece)
    (hentry : entryOf ops graph entries node = some e) (hop : node.op_type = "Conv")
    (hcount : (sizes e.init.dims).getD e.axis 0 ≠ (sizes e.init.dims).getD 0 0)
    (hinit : graph.initializer.find? (·.name = e.weight) = some e.init)
    {env : Env} {y : String} {x w z : Tensor ℚ}
    (hreached : Reached rt graph' (pieces.take i) node (fun _ => 0) e.init env y x w z)
    (z' : Tensor ℚ) : ¬Outputs rt piece env y z' := by
  obtain ⟨a, sv, shape, hnodes, hreads, hsdims, _, hresolve, _⟩ :=
    h.conv_reads rt hfresh hlengths hnode hpiece hentry hop hinit hreached
  rintro ⟨env', hrun, _⟩
  rw [hnodes, run_append] at hrun
  obtain ⟨env₁, hrun₁, _⟩ := Option.bind_eq_some_iff.mp hrun
  refine run_convScaled_ne_some rt hreads (hresolve _) ?_ env₁ hrun₁
  rw [hsdims, List.prod_singleton, prod_channelDims,
    (decode_entry rt h.weights (entryOf_eq_some hentry).1 hreached.weight).1]
  exact hcount

theorem Outputs.unique {env : Env} {y : String} {z z' : Tensor ℚ} (h : Outputs rt piece env y z)
    (h' : Outputs rt piece env y z') : z = z' := by
  obtain ⟨env₁, hrun, hy⟩ := h
  obtain ⟨env₂, hrun', hy'⟩ := h'
  rw [hrun] at hrun'
  cases hrun'
  rw [hy] at hy'
  cases hy'
  rfl

/-- The first node that the weight is quantized for is a convolution. -/
def FirstConv (ops : QuantizeOps) (graph : GraphProto) (weight : String) : Prop :=
  ∀ t ∈ (targets ops graph).find? (·.weight = weight), t.node.op_type = "Conv"

/-- The bias is zero wherever the output has an element. -/
def BiasZero (env : Env) (node : NodeProto) (z : Tensor ℚ) : Prop :=
  ∀ b, operands env (node.input.drop 2) = some [some (.float b)] →
    ∀ idx, Inside idx z.dims → b.get [idx.getD 1 0] = 0

theorem addBias_eq_self {z₀ z b : Tensor ℚ} (h : addBias z₀ b = some z) :
    z₀ = z ↔ ∀ idx, Inside idx z.dims → b.get [idx.getD 1 0] = 0 := by
  rw [addBias] at h
  split_ifs at h with hdims
  cases h
  constructor
  · intro heq idx hidx
    have hget : z₀.get idx = (z₀.mapIdx fun idx v => v + b.get [idx.getD 1 0]).get idx :=
      congrArg (fun t => t.get idx) heq
    have hidx' : Inside idx z₀.dims := hidx
    rw [get_mapIdx hidx'] at hget
    exact left_eq_add.mp hget
  · intro hzero
    refine ext_get rfl fun idx hidx => ?_
    rw [get_mapIdx hidx, hzero idx hidx, add_zero]

theorem axis_of_firstConv (h : quantizeWeights rt.fromLeBytes (targets ops graph) [] = .ok entries)
    (he : e ∈ entries) (hfirst : FirstConv ops graph e.weight) : e.axis = 0 := by
  obtain ⟨t, _, hfind, hof⟩ := entry_first h he
  rw [hof.axis, perChannelAxis, if_pos (hfirst t hfind)]

/-- Where the first consumer of its weight is a convolution, the chain of a convolution has the output
of the operator exactly when the bias is kept or adds nothing; where the weight has another number of
scales than channels, the chain has no output. -/
theorem conv_chains_iff (rt : Runtime) {ops : QuantizeOps} {graph graph' : GraphProto}
    (hmodel : quantizeModel rt.fromLeBytes ops graph = .ok graph')
    (hlengths : ∀ t ∈ graph.initializer, t.dims.length < 2 ^ 63) :
    ∃ entries pieces, Rewrites rt.fromLeBytes ops graph graph' entries pieces ∧
      (Fresh graph (generated entries pieces) →
        ∀ i node, graph.node[i]? = some node → node.op_type = "Conv" →
          ∀ e, entryOf ops graph entries node = some e →
            graph.initializer.find? (·.name = e.weight) = initOf graph e.weight →
            initOf graph e.weight = some e.init ∧ ∃ piece, pieces[i]? = some piece ∧
              ∀ env y x w z, Reached rt graph' (pieces.take i) node (fun _ => 0) e.init env y x w z →
                (FirstConv ops graph e.weight →
                  (Outputs rt piece env y z ↔ BiasKept graph node ∨ BiasZero env node z)) ∧
                ((sizes e.init.dims).getD e.axis 0 ≠ (sizes e.init.dims).getD 0 0 →
                  ¬Outputs rt piece env y z)) := by
  obtain ⟨entries, pieces, h⟩ := quantizeModel_rewrites hmodel
  refine ⟨entries, pieces, h, fun hfresh i node hnode hop e hentry hsingle => ?_⟩
  have he := (entryOf_eq_some hentry).1
  have hinit := initOf_entry h.weights he
  obtain ⟨hi, _⟩ := List.getElem?_eq_some_iff.mp hnode
  have hpiece := List.getElem?_eq_getElem (h.replaced.length_eq ▸ hi : i < pieces.length)
  refine ⟨hinit, _, hpiece, fun env y x w z hreached => ⟨fun hfirst => ?_, fun hcount => ?_⟩⟩
  · obtain ⟨z₀, hout, hkept, hlost⟩ := h.outputs_conv rt hfresh hlengths hnode hpiece hentry hop
      (axis_of_firstConv rt h.weights he hfirst) (hsingle.trans hinit) hreached
    by_cases hbias : BiasKept graph node
    · rw [← hkept hbias]
      exact iff_of_true hout (Or.inl hbias)
    · obtain ⟨b, hb, hadd⟩ := hlost hbias
      constructor
      · intro hz
        apply Or.inr
        intro b' hb'
        rw [hb] at hb'
        cases hb'
        exact (addBias_eq_self hadd).mp (hout.unique rt hz)
      · rintro (hkept' | hzero)
        · exact absurd hkept' hbias
        · rw [← (addBias_eq_self hadd).mpr (hzero b hb)]
          exact hout
  · exact h.not_outputs_conv rt hfresh hlengths hnode hpiece hentry hop hcount
      (hsingle.trans hinit) hreached z

end Meaning

section Example

def kernel : TensorProto := onesTensor "w" [32, 32, 1]

def kernelEntry : WeightEntry := onesEntry "w" [32, 32, 1] 0

def biasTensor : TensorProto := onesTensor "b" [32]

def biasedConv : NodeProto where
  op_type := "Conv"
  input := ["x", "w", "b"]
  output := ["y"]
  name := "conv"

/-- The bias is fed to the graph, or one of its initializers. -/
def convGraph (input : List String) (biases : List TensorProto) : GraphProto where
  node := [biasedConv]
  initializer := kernel :: biases
  input := input
  output := ["y"]

def convPiece (bias : Option String) (inits : List TensorProto) : Piece :=
  (convScaled "conv" "x" [] kernelEntry.names ++ convTail "conv" "y" bias,
    int64ShapeInitializer "conv_scale_shape" [1, 32, 1] :: inits)

def convFeed : Env := fun name =>
  if name = "x" then some (.float (ones [1, 32, 1]))
  else if name = "b" then some (.float (ones [32]))
  else none

theorem quantizeWeights_kernel {graph : GraphProto} (fromLeBytes : UInt8 → UInt8 → UInt8 → UInt8 → ℚ)
    (htargets : targets ⟨true⟩ graph = [⟨biasedConv, "w", kernel⟩]) :
    quantizeWeights fromLeBytes (targets ⟨true⟩ graph) [] = .ok [kernelEntry] := by
  have hfirst : quantizeWeight fromLeBytes ⟨biasedConv, "w", kernel⟩ = .ok (some kernelEntry) :=
    quantizeWeight_ones fromLeBytes _ (by decide) (List.cons_ne_nil _ _) (by decide) (by decide)
  rw [htargets, quantizeWeights, if_neg (by simp), hfirst]
  rfl

theorem decode_kernel : decode plainRuntime kernel = some (.float (ones [32, 32, 1])) :=
  decode_ones (by decide)

/-- The settings of a convolution without attributes. -/
def unitSettings : Contraction.Settings where
  strides := []
  dilations := []
  before := []
  after := []
  group := 1
  padding := .explicit

theorem settings_biasedConv : settingsOf biasedConv [1] = some unitSettings := by
  simp [settingsOf, attrInts, attrString, attrInt, biasedConv, paddingOf, sizes, unitSettings]

theorem convolution_unit : ∃ p, Contraction.convolution unitSettings [1, 32, 1] [32, 32, 1] = some p ∧
    p.dims = [1, 32, 1] := ⟨_, rfl, rfl⟩

/-- The convolution of the example, on any numbers. -/
theorem floatOp_biasedConv {a b : Tensor ℚ} (ha : a.dims = [1, 32, 1]) (hb : b.dims = [32, 32, 1]) :
    ∃ z, floatOp biasedConv [some (.float a), some (.float b), some (.float (ones [32]))] = some z ∧
      z.dims = [1, 32, 1] := by
  obtain ⟨p, hp, hdims⟩ := convolution_unit
  have hconv : convOf biasedConv a b = some (p.apply a b) := by
    rw [convOf, hb]
    dsimp only [List.drop]
    rw [settings_biasedConv, Option.bind_some, conv, ha, hb, hp, Option.map_some]
  have hz₀ : (p.apply a b).dims = [1, 32, 1] := hdims
  refine ⟨(p.apply a b).mapIdx fun idx v => v + (ones [32]).get [idx.getD 1 0], ?_, hz₀⟩
  have hfloat : floatOp biasedConv [some (.float a), some (.float b), some (.float (ones [32]))] =
      (convOf biasedConv a b).bind fun z => addBias z (ones [32]) := rfl
  rw [hfloat, hconv, Option.bind_some, addBias, hz₀]
  rfl

theorem rewrites_conv (graph : GraphProto) (piece : Piece) (hnode : graph.node = [biasedConv])
    (htargets : targets ⟨true⟩ graph = [⟨biasedConv, "w", kernel⟩])
    (hreplace : replaceNode ⟨true⟩ graph [kernelEntry] biasedConv = .ok piece) :
    ∃ graph', quantizeModel plainRuntime.fromLeBytes ⟨true⟩ graph = .ok graph' ∧
      ∀ entries pieces, Rewrites plainRuntime.fromLeBytes ⟨true⟩ graph graph' entries pieces →
        entries = [kernelEntry] ∧ pieces = [piece] := by
  have hweights := quantizeWeights_kernel plainRuntime.fromLeBytes htargets
  have hreplaced : List.Forall₂ (fun node piece =>
      replaceNode ⟨true⟩ graph [kernelEntry] node = .ok piece) graph.node [piece] := by
    rw [hnode]
    exact .cons hreplace .nil
  obtain ⟨graph', hmodel⟩ := exists_quantizeModel hweights (List.cons_ne_nil _ _) hreplaced
  refine ⟨graph', hmodel, fun entries pieces h => ?_⟩
  obtain rfl : entries = [kernelEntry] := Except.ok.inj (h.weights.symm.trans hweights)
  exact ⟨rfl, Except.ok.inj ((Outcomes.mapM_eq_ok.mpr h.replaced).symm.trans
    (Outcomes.mapM_eq_ok.mpr hreplaced))⟩

theorem reached_conv {graph' : GraphProto}
    (hx : start plainRuntime graph' convFeed "x" = some (.float (ones [1, 32, 1])))
    (hb : start plainRuntime graph' convFeed "b" = some (.float (ones [32]))) :
    ∃ z, z.dims = [1, 32, 1] ∧ Reached plainRuntime graph' [] biasedConv (fun _ => 0) kernel
      (start plainRuntime graph' convFeed) "y" (ones [1, 32, 1]) (ones [32, 32, 1]) z := by
  obtain ⟨z, hz, hdims⟩ := floatOp_biasedConv (a := dequantizedActivation (ones [1, 32, 1]))
    (b := dequantizedAlong 0 kernel.dims (ones [32, 32, 1])) rfl rfl
  refine ⟨z, hdims, ⟨convFeed, rfl⟩, rfl, ?_, decode_kernel, by decide, ?_⟩
  · simp [biasedConv, operands, hx]
  · have hbias : operands (start plainRuntime graph' convFeed) (biasedConv.input.drop 2) =
        some [some (.float (ones [32]))] := by
      simp [biasedConv, operands, hb]
    rw [hbias, Option.bind_some]
    exact hz

/-- The bias is one of the initializers. -/
theorem conv_chains_kept_bias : ∃ (graph' : GraphProto) (pieces : List Piece) (piece : Piece) (env : Env)
    (z : Tensor ℚ),
    quantizeModel plainRuntime.fromLeBytes ⟨true⟩ (convGraph ["x"] [biasTensor]) = .ok graph' ∧
      graph'.node = pieces.flatMap Prod.fst ∧ pieces[0]? = some piece ∧
      Reached plainRuntime graph' (pieces.take 0) biasedConv (fun _ => 0) kernel env "y" (ones [1, 32, 1])
        (ones [32, 32, 1]) z ∧
      Outputs plainRuntime piece env "y" z := by
  obtain ⟨graph', hmodel, hpieces⟩ := rewrites_conv (convGraph ["x"] [biasTensor])
    (convPiece (some "b") [int64ShapeInitializer "conv_bias_shape" [1, 32, 1]]) rfl rfl rfl
  have hlengths : ∀ t ∈ (convGraph ["x"] [biasTensor]).initializer, t.dims.length < 2 ^ 63 := by
    intro t ht
    simp only [convGraph, List.mem_cons, List.not_mem_nil, or_false] at ht
    rcases ht with rfl | rfl <;> decide
  obtain ⟨entries, pieces, h, hchains⟩ := conv_chains_iff plainRuntime hmodel hlengths
  obtain ⟨rfl, rfl⟩ := hpieces entries pieces h
  have hfresh : Fresh (convGraph ["x"] [biasTensor]) (generated [kernelEntry]
      [convPiece (some "b") [int64ShapeInitializer "conv_bias_shape" [1, 32, 1]]]) := by
    have hnames : generated [kernelEntry]
        [convPiece (some "b") [int64ShapeInitializer "conv_bias_shape" [1, 32, 1]]] =
        ["w_quantized", "w_scale", "w_zero_point", "conv_scale_shape", "conv_bias_shape", "conv_a_q",
          "conv_a_scale", "conv_a_zp", "conv_ci_i32", "conv_ci_f32", "conv_scale_c",
          "conv_scale_reshaped", "conv_scaled", "conv_bias_reshaped"] := by
      rfl
    rw [hnames]
    constructor <;> decide
  have hx : start plainRuntime graph' convFeed "x" = some (.float (ones [1, 32, 1])) := by
    rw [start, h.input]
    rfl
  have hb : start plainRuntime graph' convFeed "b" = some (.float (ones [32])) := by
    rw [start, h.input, h.initializer, h.node]
    rfl
  obtain ⟨z, _, hreached⟩ := reached_conv hx hb
  obtain ⟨_, piece, hpiece, hiff⟩ := hchains hfresh 0 biasedConv rfl rfl kernelEntry rfl rfl
  have hfirst : FirstConv ⟨true⟩ (convGraph ["x"] [biasTensor]) kernelEntry.weight := by
    intro t ht
    cases ht
    rfl
  have hkept : BiasKept (convGraph ["x"] [biasTensor]) biasedConv := by
    intro bias hbias _
    cases hbias
    decide
  exact ⟨graph', _, piece, _, z, hmodel, h.node, hpiece, hreached,
    ((hiff _ _ _ _ _ hreached).1 hfirst).mpr (Or.inl hkept)⟩

/-- The bias is fed to the graph, and lost. -/
theorem conv_drops_fed_bias : ∃ (graph' : GraphProto) (entries : List WeightEntry)
    (pieces : List Piece) (piece : Piece) (env : Env) (x w z : Tensor ℚ),
    quantizeModel plainRuntime.fromLeBytes ⟨true⟩ (convGraph ["x", "b"] []) = .ok graph' ∧
      Rewrites plainRuntime.fromLeBytes ⟨true⟩ (convGraph ["x", "b"] []) graph' entries pieces ∧
      Fresh (convGraph ["x", "b"] []) (generated entries pieces) ∧ pieces[0]? = some piece ∧
      Reached plainRuntime graph' (pieces.take 0) biasedConv (fun _ => 0) kernel env "y" x w z ∧
      ¬Outputs plainRuntime piece env "y" z := by
  obtain ⟨graph', hmodel, hpieces⟩ := rewrites_conv (convGraph ["x", "b"] [])
    (convPiece none []) rfl rfl rfl
  obtain ⟨entries, pieces, h⟩ := quantizeModel_rewrites hmodel
  obtain ⟨rfl, rfl⟩ := hpieces entries pieces h
  have hlengths : ∀ t ∈ (convGraph ["x", "b"] []).initializer, t.dims.length < 2 ^ 63 := by
    intro t ht
    cases List.mem_singleton.mp ht
    decide
  have hfresh : Fresh (convGraph ["x", "b"] []) (generated [kernelEntry] [convPiece none []]) := by
    have hnames : generated [kernelEntry] [convPiece none []] =
        ["w_quantized", "w_scale", "w_zero_point", "conv_scale_shape", "conv_a_q", "conv_a_scale",
          "conv_a_zp", "conv_ci_i32", "conv_ci_f32", "conv_scale_c", "conv_scale_reshaped"] := by
      rfl
    rw [hnames]
    constructor <;> decide
  have hstart : ∀ name ∈ ["x", "b"], start plainRuntime graph' convFeed name = convFeed name := by
    intro name hname
    rw [start, h.input]
    exact if_pos hname
  have hb := (hstart "b" (by decide)).trans (rfl : convFeed "b" = some (.float (ones [32])))
  obtain ⟨z, hdims, hreached⟩ := reached_conv (hstart "x" (by decide)) hb
  refine ⟨graph', _, _, _, _, _, _, z, hmodel, h, hfresh, rfl, hreached, fun hout => ?_⟩
  have hbias : ¬BiasKept (convGraph ["x", "b"] []) biasedConv := by
    intro hkept
    exact absurd (hkept "b" rfl (by decide)) (by decide)
  obtain ⟨z₀, hout₀, _, hlost⟩ := h.outputs_conv plainRuntime hfresh hlengths (i := 0) rfl rfl
    (e := kernelEntry) rfl rfl rfl rfl hreached
  obtain ⟨b, hoperand, hadd⟩ := hlost hbias
  have hones : b = (ones [32]) := by
    simp only [biasedConv, operands, List.drop, List.mapM_cons, List.mapM_nil, hb] at hoperand
    cases hoperand
    rfl
  have hin : Inside [0, 0, 0] z.dims := by
    rw [hdims]
    decide
  have hzero := (addBias_eq_self hadd).mp (hout₀.unique plainRuntime hout) [0, 0, 0] hin
  rw [hones] at hzero
  have hone : (ones [32]).get [0] = 1 := rfl
  exact one_ne_zero (hone.symm.trans hzero)

end Example

end Gigastt.Quantize
