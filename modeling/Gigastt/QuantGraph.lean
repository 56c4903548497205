import Gigastt.Outcomes
import Gigastt.QuantEntries

/-!
The rewritten graph: one piece for every node, the names that are made up for it, and the values that
the added tensors keep however far the graph is run.
-/

namespace Gigastt.Quantize

open Tensor Outcomes

/-- The nodes in the place of one node, and the initializers they come with. -/
abbrev Piece := List NodeProto × List TensorProto

variable {fromLeBytes : UInt8 → UInt8 → UInt8 → UInt8 → ℚ} {ops : QuantizeOps}
  {graph graph' : GraphProto} {entries : List WeightEntry} {pieces : List Piece} {piece : Piece}
  {node : NodeProto} {e : WeightEntry}

/-- The tensors that are added: those of the weights and those of the chains. -/
def added (entries : List WeightEntry) (pieces : List Piece) : List TensorProto :=
  entries.flatMap (·.initializers) ++ pieces.flatMap Prod.snd

/-- The outputs of a piece that its node does not have. -/
def Piece.inner (piece : Piece) : List String := piece.1.dropLast.flatMap (·.output)

/-- The names of the tensors that are made up. -/
def generated (entries : List WeightEntry) (pieces : List Piece) : List String :=
  (added entries pieces).map (·.name) ++ pieces.flatMap Piece.inner

/-- Names that the graph does not use, and all of them different. -/
structure Fresh (graph : GraphProto) (names : List String) : Prop where
  nodup : names.Nodup
  input : ∀ name ∈ names, name ∉ graph.input
  initializer : ∀ name ∈ names, name ∉ graph.initializer.map (·.name)
  output : ∀ name ∈ names, name ∉ graph.node.flatMap (·.output)

theorem find?_of_nodup {α : Type*} {key : α → String} {l : List α} (hnodup : (l.map key).Nodup) {a : α}
    (ha : a ∈ l) : l.find? (key · = key a) = some a := by
  induction l with
  | nil => cases ha
  | cons b l ih =>
      obtain ⟨hb, hl⟩ := List.nodup_cons.mp hnodup
      rcases List.mem_cons.mp ha with rfl | ha
      · exact List.find?_cons_of_pos (decide_eq_true rfl)
      · rw [List.find?_cons_of_neg, ih hl ha]
        intro heq
        exact hb (List.mem_map.mpr ⟨a, ha, (of_decide_eq_true heq).symm⟩)

/-- The stages of a successful pass. -/
structure Rewrites (fromLeBytes : UInt8 → UInt8 → UInt8 → UInt8 → ℚ) (ops : QuantizeOps)
    (graph graph' : GraphProto) (entries : List WeightEntry) (pieces : List Piece) : Prop where
  weights : quantizeWeights fromLeBytes (targets ops graph) [] = .ok entries
  replaced : List.Forall₂ (fun node piece => replaceNode ops graph entries node = .ok piece)
    graph.node pieces
  node : graph'.node = pieces.flatMap Prod.fst
  input : graph'.input = graph.input
  output : graph'.output = graph.output
  initializer : graph'.initializer = (graph.initializer.filter fun t =>
    ¬ entries.any (·.weight = t.name) ∨ t.name ∈ liveNames graph'.node graph.output) ++
      added entries pieces

theorem quantizeModel_rewrites (h : quantizeModel fromLeBytes ops graph = .ok graph') :
    ∃ entries pieces, Rewrites fromLeBytes ops graph graph' entries pieces := by
  unfold quantizeModel at h
  obtain ⟨entries, hentries, h⟩ := bind_eq_ok.mp h
  by_cases hnone : entries = []
  · rw [if_pos hnone] at h
    cases h
  rw [if_neg hnone] at h
  obtain ⟨pieces, hpieces, h⟩ := bind_eq_ok.mp h
  cases h
  refine ⟨entries, pieces, hentries, mapM_eq_ok.mp hpieces, rfl, rfl, rfl, ?_⟩
  rw [added, List.append_assoc]

theorem exists_quantizeModel (hweights : quantizeWeights fromLeBytes (targets ops graph) [] = .ok entries)
    (hsome : entries ≠ [])
    (hreplaced : List.Forall₂ (fun node piece => replaceNode ops graph entries node = .ok piece)
      graph.node pieces) : ∃ graph', quantizeModel fromLeBytes ops graph = .ok graph' := by
  simp only [quantizeModel, hweights, mapM_eq_ok.mpr hreplaced, bind, Except.bind, if_neg hsome]
  exact ⟨_, rfl⟩

section Pieces

theorem replaceNode_none (hentry : entryOf ops graph entries node = none) :
    replaceNode ops graph entries node = .ok ([node], []) := by
  rw [replaceNode, hentry]

theorem replaceNode_matmul (hentry : entryOf ops graph entries node = some e)
    (hop : node.op_type ≠ "Conv") (h : replaceNode ops graph entries node = .ok piece) :
    ∃ a ins y outs, node.input = a :: ins ∧ node.output = y :: outs ∧
      piece = (matmulChain (nodeBaseName node) a y e.names, []) := by
  rw [replaceNode, hentry] at h
  dsimp only at h
  rw [if_neg hop] at h
  unfold buildMatmulChain at h
  split at h
  · rename_i a ins y outs hinput houtput
    cases h
    exact ⟨a, ins, y, outs, hinput, houtput, rfl⟩
  · cases h

/-- The lengths of the weight, as the chain of a convolution reads them. -/
def convShape (w : TensorProto) : List Int64 :=
  channelBroadcastShape (max (w.dims.headD 0) 0) (max w.dims.length 2)

theorem replaceNode_conv (hentry : entryOf ops graph entries node = some e)
    (hop : node.op_type = "Conv") (h : replaceNode ops graph entries node = .ok piece) :
    ∃ a ins y outs shape, node.input = a :: e.weight :: ins ∧ node.output = y :: outs ∧
      piece.1 = convScaled (nodeBaseName node) a (copyConvAttrs node) e.names ++
        convTail (nodeBaseName node) y (biasName node graph.initializer) ∧
      piece.2 = int64ShapeInitializer (nodeBaseName node ++ "_scale_shape") shape ::
        ((biasName node graph.initializer).map fun _ =>
          int64ShapeInitializer (nodeBaseName node ++ "_bias_shape") shape).toList ∧
      ∀ w, graph.initializer.find? (·.name = e.weight) = some w → shape = convShape w := by
  obtain ⟨_, a, ins, _, hinput, _⟩ := entryOf_eq_some hentry
  rw [replaceNode, hentry] at h
  dsimp only at h
  rw [if_pos hop, buildConvChain, hinput] at h
  split at h
  · rename_i a' w' ins' y outs hinput' houtput
    cases hinput'
    dsimp only at h
    split_ifs at h
    cases h
    refine ⟨a, ins, y, outs, _, hinput, houtput, rfl, rfl, fun w hw => ?_⟩
    rw [hw]
    rfl
  · cases h

/-- A chain ends at the output of the node it comes in the place of. -/
theorem replaceNode_last (h : replaceNode ops graph entries node = .ok piece) :
    ∃ nodes last, piece.1 = nodes ++ [last] ∧ last.output ⊆ node.output := by
  cases hentry : entryOf ops graph entries node with
  | none =>
      rw [replaceNode_none hentry] at h
      cases h
      exact ⟨[], node, rfl, List.Subset.refl _⟩
  | some e =>
      by_cases hop : node.op_type = "Conv"
      · obtain ⟨a, ins, y, outs, shape, _, houtput, hnodes, _⟩ := replaceNode_conv hentry hop h
        have hy : [y] ⊆ node.output := by simp [houtput]
        rw [hnodes]
        cases biasName node graph.initializer with
        | none => exact ⟨_, _, rfl, hy⟩
        | some bias => exact ⟨_, _, (List.append_assoc _ [_, _] [_]).symm, hy⟩
      · obtain ⟨a, ins, y, outs, _, houtput, rfl⟩ := replaceNode_matmul hentry hop h
        have hy : [y] ⊆ node.output := by simp [houtput]
        exact ⟨_, _, (List.dropLast_append_getLast (List.cons_ne_nil _ _)).symm, hy⟩

theorem outputs_replaceNode (h : replaceNode ops graph entries node = .ok piece) {name : String}
    (hname : name ∈ piece.1.flatMap (·.output)) : name ∈ Piece.inner piece ∨ name ∈ node.output := by
  obtain ⟨nodes, last, hpiece, hlast⟩ := replaceNode_last h
  rw [Piece.inner, hpiece, List.dropLast_concat]
  rw [hpiece, List.flatMap_append, List.mem_append, List.flatMap_singleton] at hname
  exact hname.imp_right fun hmem => hlast hmem

end Pieces

section Added

variable {before after : List Piece}

theorem Rewrites.outputs (h : Rewrites fromLeBytes ops graph graph' entries pieces)
    {name : String} (hpiece : piece ∈ pieces) (hname : name ∈ piece.1.flatMap (·.output)) :
    name ∈ pieces.flatMap Piece.inner ∨ name ∈ graph.node.flatMap (·.output) := by
  obtain ⟨i, hi, rfl⟩ := List.mem_iff_getElem.mp hpiece
  obtain ⟨hlength, hreplaced⟩ := List.forall₂_iff_get.mp h.replaced
  have hreplace := hreplaced i (hlength ▸ hi) hi
  have hnode := List.getElem_mem (hlength ▸ hi : i < graph.node.length)
  rcases outputs_replaceNode hreplace hname with hinner | hout
  · exact Or.inl (List.mem_flatMap.mpr ⟨_, hpiece, hinner⟩)
  · exact Or.inr (List.mem_flatMap.mpr ⟨_, hnode, hout⟩)

/-- An added tensor keeps its value however far the graph is run. -/
theorem Rewrites.added_value (rt : Runtime)
    (h : Rewrites fromLeBytes ops graph graph' entries pieces)
    (hfresh : Fresh graph (generated entries pieces)) {t : TensorProto}
    (ht : t ∈ added entries pieces) (hsub : before ⊆ pieces) {feed env : Env}
    (hrun : run rt (before.flatMap Prod.fst) (start rt graph' feed) = some env) :
    env t.name = decode rt t := by
  have hname : t.name ∈ (added entries pieces).map (·.name) := List.mem_map_of_mem ht
  have hmem : t.name ∈ generated entries pieces := List.mem_append_left _ hname
  obtain ⟨hnodup, _, hapart⟩ := List.nodup_append.mp hfresh.nodup
  rw [run_frame rt hrun]
  · rw [start, h.input, if_neg (hfresh.input _ hmem), h.initializer, List.find?_append,
      List.find?_eq_none.mpr, Option.none_or, find?_of_nodup hnodup ht, Option.bind_some]
    intro u hu heq
    refine hfresh.initializer _ hmem (List.mem_map.mpr ⟨u, (List.mem_filter.mp hu).1, ?_⟩)
    exact of_decide_eq_true heq
  · intro hout
    obtain ⟨node, hnode, hout⟩ := List.mem_flatMap.mp hout
    obtain ⟨piece, hpiece, hnode⟩ := List.mem_flatMap.mp hnode
    rcases h.outputs (hsub hpiece) (List.mem_flatMap.mpr ⟨node, hnode, hout⟩) with hinner | hout
    · exact hapart _ hname _ hinner rfl
    · exact hfresh.output _ hmem hout

end Added

section Reading

variable (rt : Runtime)

/-- A tensor that a chain may read, and that is none of its inner ones. -/
structure Reads (env : Env) (inner : List String) (name : String) (v : Value) : Prop where
  value : env name = some v
  named : name ≠ ""
  apart : name ∉ inner

theorem Reads.keep {env env' : Env} {inner : List String} {name : String} {v : Value}
    (h : Reads env inner name v) {outputs : List String}
    (hframe : ∀ name ∉ outputs, env' name = env name) (hsub : outputs ⊆ inner) :
    Reads env' inner name v := by
  refine ⟨?_, h.named, h.apart⟩
  rw [hframe _ fun hmem => h.apart (hsub hmem), h.value]

theorem Reads.keep_one {env env' : Env} {inner : List String} {name : String} {v : Value}
    (h : Reads env inner name v) {out : String} (hframe : ∀ name, name ≠ out → env' name = env name)
    (hout : out ∈ inner) : Reads env' inner name v := by
  have hframe' : ∀ name ∉ [out], env' name = env name := fun name hname =>
    hframe name fun heq => hname (List.mem_singleton.mpr heq)
  apply h.keep hframe'
  intro name hname
  rw [List.mem_singleton.mp hname]
  exact hout

/-- What the chain of a node finds under a name that was added for it. -/
theorem Rewrites.reads (h : Rewrites rt.fromLeBytes ops graph graph' entries pieces)
    (hfresh : Fresh graph (generated entries pieces)) {t : TensorProto}
    (ht : t ∈ added entries pieces) {before : List Piece} (hsub : before ⊆ pieces) {feed env : Env}
    (hrun : run rt (before.flatMap Prod.fst) (start rt graph' feed) = some env)
    {v : Value} (hv : decode rt t = some v) (hpiece : piece ∈ pieces)
    (hnamed : t.name ≠ "") : Reads env (Piece.inner piece) t.name v := by
  refine ⟨(h.added_value rt hfresh ht hsub hrun).trans hv, hnamed, fun hinner => ?_⟩
  obtain ⟨_, _, hapart⟩ := List.nodup_append.mp hfresh.nodup
  exact hapart _ (List.mem_map_of_mem ht) _ (List.mem_flatMap.mpr ⟨piece, hpiece, hinner⟩) rfl

theorem append_ne_empty {s t : String} (ht : t ≠ "") : s ++ t ≠ "" := fun h =>
  ht (String.append_eq_empty_iff.mp h).2

theorem Rewrites.replaceNode_getElem (h : Rewrites rt.fromLeBytes ops graph graph' entries pieces)
    {i : ℕ} (hnode : graph.node[i]? = some node) (hpiece : pieces[i]? = some piece) :
    replaceNode ops graph entries node = .ok piece := by
  obtain ⟨hi, rfl⟩ := List.getElem?_eq_some_iff.mp hnode
  obtain ⟨hi', rfl⟩ := List.getElem?_eq_some_iff.mp hpiece
  exact (List.forall₂_iff_get.mp h.replaced).2 i hi hi'

/-- What the chain of a node finds of its weight. -/
theorem Rewrites.entry_reads (h : Rewrites rt.fromLeBytes ops graph graph' entries pieces)
    (hfresh : Fresh graph (generated entries pieces)) (he : e ∈ entries) {before : List Piece}
    (hsub : before ⊆ pieces) {feed env : Env}
    (hrun : run rt (before.flatMap Prod.fst) (start rt graph' feed) = some env)
    (hpiece : piece ∈ pieces) {w : Tensor ℚ} (hw : decode rt e.init = some (.float w)) :
    Reads env (Piece.inner piece) e.names.q_name (.int (quantizedAlong e.axis e.init.dims w)) ∧
      Reads env (Piece.inner piece) e.names.zp_name (.int (scalar 0)) ∧
      ∃ sv : Tensor ℚ, Reads env (Piece.inner piece) e.names.s_name (.float sv) ∧
        sv.dims = [w.dims.getD e.axis 0] ∧
        ∀ c < w.dims.getD e.axis 0, sv.get [c] = scalesAlong e.axis e.init.dims w c := by
  obtain ⟨_, hquantized, sv, hscale, hsdims, hscales⟩ := decode_entry rt h.weights he hw
  have hadded : ∀ t ∈ e.initializers, t ∈ added entries pieces := fun t ht =>
    List.mem_append_left _ (List.mem_flatMap.mpr ⟨e, he, ht⟩)
  have hreads : ∀ t ∈ e.initializers, ∀ v, decode rt t = some v → t.name ≠ "" →
      Reads env (Piece.inner piece) t.name v := fun t ht v hv =>
    h.reads rt hfresh (hadded t ht) hsub hrun hv hpiece
  refine ⟨?_, ?_, sv, ?_, hsdims, hscales⟩
  · exact hreads e.quantizedTensor (by simp [WeightEntry.initializers]) _ hquantized
      (append_ne_empty (by decide))
  · exact hreads e.zeroPointTensor (by simp [WeightEntry.initializers]) _
      (decode_zeroPointTensor rt) (append_ne_empty (by decide))
  · exact hreads e.scaleTensor (by simp [WeightEntry.initializers]) _ hscale
      (append_ne_empty (by decide))

/-- The graph has been run to the node, whose operator has an output on the numbers that the quantized
activation and the quantized weight stand for. -/
structure Reached (graph' : GraphProto) (before : List Piece) (node : NodeProto) (axis : ℕ → ℕ)
    (init : TensorProto) (env : Env) (y : String) (x w z : Tensor ℚ) : Prop where
  run : ∃ feed, run rt (before.flatMap Prod.fst) (start rt graph' feed) = some env
  output : node.output.head? = some y
  activation : operands env (node.input.take 1) = some [some (.float x)]
  weight : decode rt init = some (.float w)
  rank : 2 ≤ w.rank
  result : ((operands env (node.input.drop 2)).bind fun rest =>
    floatOp node (some (.float (dequantizedActivation x)) ::
      some (.float (dequantizedAlong (axis w.rank) init.dims w)) :: rest)) = some z

/-- The piece outputs the tensor under the name. -/
def Outputs (piece : Piece) (env : Env) (y : String) (z : Tensor ℚ) : Prop :=
  ∃ env', Quantize.run rt piece.1 env = some env' ∧ env' y = some (.float z)

end Reading

end Gigastt.Quantize
