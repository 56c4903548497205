import Gigastt.QuantConv
import Gigastt.Suffixes

/-!
The names that the pass makes up, read off the graph it is given: when they are new, and when they are
different.
-/

namespace Gigastt.Quantize

open Outcomes Suffixes

variable {fromLeBytes : UInt8 → UInt8 → UInt8 → UInt8 → ℚ} {ops : QuantizeOps}
  {graph graph' : GraphProto} {entries : List WeightEntry} {pieces : List Piece} {piece : Piece}
  {node : NodeProto} {e : WeightEntry}

/-- The tensors that are there before a graph is run or that its nodes output. -/
def GraphProto.produced (graph : GraphProto) : List String :=
  graph.input ++ graph.initializer.map (·.name) ++ graph.node.flatMap (·.output)

section Quantized

/-- How many numbers a weight holds. -/
def dataLength (tensor : TensorProto) : ℕ :=
  if tensor.float_data ≠ [] then tensor.float_data.length else tensor.raw_data.length / 4

/-- The weight of a node, where it is quantized: it holds as many numbers as its dimensions say. -/
def quantizedWeight (ops : QuantizeOps) (graph : GraphProto) (node : NodeProto) : Option String :=
  (target ops graph node).bind fun wt =>
    if wt.2.dims ≠ [] ∧ usizeProduct (sizes wt.2.dims) = dataLength wt.2 then some wt.1 else none

/-- The weights that are quantized, by the nodes that read them. -/
def quantizedWeights (ops : QuantizeOps) (graph : GraphProto) : List String :=
  graph.node.filterMap (quantizedWeight ops graph)

/-- The nodes that are replaced. -/
def replacedNodes (ops : QuantizeOps) (graph : GraphProto) : List NodeProto :=
  graph.node.filter fun node => (quantizedWeight ops graph node).isSome

theorem length_floatChunks (bytes : List UInt8) :
    (floatChunks fromLeBytes bytes).length = bytes.length / 4 := by
  fun_induction floatChunks fromLeBytes bytes with
  | case1 b0 b1 b2 b3 rest ih =>
      simp only [List.length_cons, ih]
      omega
  | case2 bytes hshort =>
      rcases bytes with _ | ⟨b0, _ | ⟨b1, _ | ⟨b2, _ | ⟨b3, rest⟩⟩⟩⟩
      · rfl
      · simp
      · simp
      · simp
      · exact (hshort _ _ _ _ _ rfl).elim

theorem length_extractFloatData {tensor : TensorProto} {data : List ℚ}
    (h : extractFloatData fromLeBytes tensor = .ok data) : data.length = dataLength tensor := by
  rw [extractFloatData_eq h, dataLength]
  split_ifs
  · rfl
  · exact length_floatChunks _

/-- The weights that the pass keeps are those that the graph says. -/
theorem quantizedWeight_eq (h : quantizeWeights fromLeBytes (targets ops graph) [] = .ok entries)
    (hnode : node ∈ graph.node) :
    quantizedWeight ops graph node = (entryOf ops graph entries node).map WeightEntry.weight := by
  rw [quantizedWeight, entryOf]
  cases htarget : target ops graph node with
  | none => rfl
  | some wt =>
      obtain ⟨weight, init⟩ := wt
      rw [Option.bind_some, Option.bind_some]
      cases hfind : entries.find? (·.weight = weight) with
      | some e =>
          have hweight : e.weight = weight := by simpa using List.find?_some hfind
          have he := List.mem_of_find?_eq_some hfind
          obtain ⟨_, _, _, hinit, _⟩ := target_eq_some htarget
          rw [← hweight, initOf_entry h he] at hinit
          cases hinit
          obtain ⟨t, _, _, hof⟩ := entry_first h he
          rw [if_pos, Option.map_some, hweight]
          rw [← length_extractFloatData (hof.init ▸ hof.data), hof.init]
          exact ⟨hof.dims_ne, hof.length_eq⟩
      | none =>
          rw [if_neg, Option.map_none]
          rintro ⟨hdims, hlen⟩
          have ht : ⟨node, weight, init⟩ ∈ targets ops graph := mem_targets.mpr ⟨hnode, htarget⟩
          rcases quantizeWeights_complete (fun t ht u hu => targets_same ht hu) h ht with hmem | hskip
          · obtain ⟨e, he, hweight⟩ := List.mem_map.mp hmem
            exact List.find?_eq_none.mp hfind e he (decide_eq_true hweight)
          · obtain ⟨data, hdata⟩ := extracted_of_skipped hskip
            rw [← length_extractFloatData hdata] at hlen
            obtain ⟨e, he⟩ := exists_of hdata hdims hlen
            rw [quantizeWeight_eq_some.mpr he] at hskip
            cases hskip

/-- Every quantized weight is quantized for a node. -/
theorem exists_consumer (h : quantizeWeights fromLeBytes (targets ops graph) [] = .ok entries)
    (he : e ∈ entries) : ∃ node ∈ graph.node, entryOf ops graph entries node = some e := by
  obtain ⟨t, ht, _, hof⟩ := entry_first h he
  obtain ⟨hnode, htarget⟩ := mem_targets.mp ht
  have hnodup : (entries.map WeightEntry.weight).Nodup :=
    (quantizeWeights_first (fun t ht u hu => targets_same ht hu) h).nodup List.nodup_nil
  refine ⟨t.node, hnode, ?_⟩
  rw [entryOf, htarget, Option.bind_some, ← hof.weight]
  exact find?_of_nodup hnodup he

theorem mem_quantizedWeights (h : quantizeWeights fromLeBytes (targets ops graph) [] = .ok entries)
    {name : String} :
    name ∈ quantizedWeights ops graph ↔ name ∈ entries.map WeightEntry.weight := by
  rw [quantizedWeights, List.mem_filterMap, List.mem_map]
  constructor
  · rintro ⟨node, hnode, hweight⟩
    rw [quantizedWeight_eq h hnode] at hweight
    obtain ⟨e, hentry, rfl⟩ := Option.map_eq_some_iff.mp hweight
    exact ⟨e, (entryOf_eq_some hentry).1, rfl⟩
  · rintro ⟨e, he, rfl⟩
    obtain ⟨node, hnode, hentry⟩ := exists_consumer h he
    refine ⟨node, hnode, ?_⟩
    rw [quantizedWeight_eq h hnode, hentry]
    rfl

theorem isSome_quantizedWeight (h : quantizeWeights fromLeBytes (targets ops graph) [] = .ok entries)
    (hnode : node ∈ graph.node) :
    (quantizedWeight ops graph node).isSome = (entryOf ops graph entries node).isSome := by
  rw [quantizedWeight_eq h hnode, Option.isSome_map]

end Quantized

section Suffixes

def weightSuffixes : List String := ["_quantized", "_scale", "_zero_point"]

/-- What the tensors made for a replaced node are called after its name. -/
def tensorSuffixes (graph : GraphProto) (node : NodeProto) : List String :=
  if node.op_type = "Conv" then
    if (biasName node graph.initializer).isSome then
      scaledSuffixes ++ ["_scaled", "_bias_reshaped", "_scale_shape", "_bias_shape"]
    else scaledSuffixes ++ ["_scale_shape"]
  else innerSuffixes

/-- What the nodes in its place are called. -/
def nodeSuffixes (graph : GraphProto) (node : NodeProto) : List String :=
  if node.op_type = "Conv" then
    if (biasName node graph.initializer).isSome then
      ["_dynq", "_convinteger", "_cast", "_scale_mul", "_scale_reshape", "_rescale", "_bias_reshape",
        "_bias_add"]
    else ["_dynq", "_convinteger", "_cast", "_scale_mul", "_scale_reshape", "_rescale"]
  else ["_dynq", "_matmulinteger", "_cast", "_scale_mul", "_rescale"]

def allTensorSuffixes : List String :=
  innerSuffixes ++ ["_ci_i32", "_ci_f32", "_scale_c", "_scale_reshaped", "_scaled", "_bias_reshaped",
    "_scale_shape", "_bias_shape"]

def allNodeSuffixes : List String :=
  ["_dynq", "_matmulinteger", "_convinteger", "_cast", "_scale_mul", "_scale_reshape", "_rescale",
    "_bias_reshape", "_bias_add"]

theorem free_weightSuffixes : Free weightSuffixes := by decide

theorem free_tensorSuffixes : Free allTensorSuffixes := by decide

theorem free_nodeSuffixes : Free allNodeSuffixes := by decide

theorem tensorSuffixes_spec (graph : GraphProto) (node : NodeProto) :
    tensorSuffixes graph node ⊆ allTensorSuffixes ∧ (tensorSuffixes graph node).Nodup ∧
      "_a_scale" ∈ tensorSuffixes graph node := by
  unfold tensorSuffixes
  split_ifs
  all_goals exact ⟨by decide, by decide, by decide⟩

theorem nodeSuffixes_spec (graph : GraphProto) (node : NodeProto) :
    nodeSuffixes graph node ⊆ allNodeSuffixes ∧ (nodeSuffixes graph node).Nodup ∧
      "_dynq" ∈ nodeSuffixes graph node := by
  unfold nodeSuffixes
  split_ifs
  all_goals exact ⟨by decide, by decide, by decide⟩

/-- A tensor of a weight and one of a node only meet at their scales. -/
theorem weight_eq_tensor {a b s t : String} (hs : s ∈ weightSuffixes) (ht : t ∈ allTensorSuffixes)
    (h : a ++ s = b ++ t) : a = b ++ "_a" := by
  have hleft : ∀ s ∈ weightSuffixes, ∀ t ∈ allTensorSuffixes, ¬t.toList <:+ s.toList := by decide
  have hright : ∀ s ∈ weightSuffixes, ∀ t ∈ allTensorSuffixes, s.toList <:+ t.toList →
      t = "_a" ++ s := by decide
  rcases append_eq_append h with ⟨c, rfl, _⟩ | ⟨c, rfl, ha⟩
  · exact absurd suffix_of_append (hleft _ hs t ht)
  · have hc := hright s hs _ ht suffix_of_append
    rw [ha, append_right_cancel hc]

end Suffixes

section Pieces

theorem names_of_replaced (hentry : entryOf ops graph entries node = some e)
    (h : replaceNode ops graph entries node = .ok piece) :
    ∃ y outs, node.output = y :: outs ∧
      piece.1.flatMap (·.output) = Piece.inner piece ++ [y] ∧
      Piece.inner piece ++ piece.2.map (·.name) =
        (tensorSuffixes graph node).map (nodeBaseName node ++ ·) ∧
      piece.1.map (·.name) = (nodeSuffixes graph node).map (nodeBaseName node ++ ·) := by
  by_cases hop : node.op_type = "Conv"
  · obtain ⟨a, ins, y, outs, shape, _, houtput, hnodes, hinits, _⟩ := replaceNode_conv hentry hop h
    rw [tensorSuffixes, nodeSuffixes, if_pos hop, if_pos hop]
    cases hname : biasName node graph.initializer with
    | none =>
        rw [hname] at hnodes hinits
        refine ⟨y, outs, houtput, ?_, ?_, ?_⟩
        · rw [inner_none hnodes, hnodes, List.flatMap_append, outputs_convScaled]
          rfl
        · rw [inner_none hnodes, hinits]
          simp [int64ShapeInitializer]
        · rw [hnodes]
          rfl
    | some bias =>
        rw [hname] at hnodes hinits
        refine ⟨y, outs, houtput, ?_, ?_, ?_⟩
        · rw [inner_some hnodes, hnodes, List.flatMap_append, outputs_convScaled, List.append_assoc]
          rfl
        · rw [inner_some hnodes, hinits]
          simp [int64ShapeInitializer]
        · rw [hnodes]
          rfl
  · obtain ⟨a, ins, y, outs, _, houtput, rfl⟩ := replaceNode_matmul hentry hop h
    rw [tensorSuffixes, nodeSuffixes, if_neg hop, if_neg hop]
    refine ⟨y, outs, houtput, ?_, ?_, rfl⟩
    · rfl
    · rw [Piece.inner, outputs_matmulChain]
      simp

/-- Lists that are the same piece by piece. -/
theorem flatMap_eq_of_forall₂ {α β γ : Type*} {R : α → β → Prop} {f : α → List γ} {g : β → List γ}
    {l : List α} {l' : List β} (h : List.Forall₂ R l l') (hfg : ∀ a ∈ l, ∀ b, R a b → f a = g b) :
    l.flatMap f = l'.flatMap g := by
  induction h with
  | nil => rfl
  | cons hab _ ih =>
      rw [List.flatMap_cons, List.flatMap_cons, hfg _ List.mem_cons_self _ hab,
        ih fun a ha => hfg a (List.mem_cons_of_mem _ ha)]

theorem flatMap_ite {α γ : Type*} (p : α → Bool) (f : α → List γ) (l : List α) :
    (l.flatMap fun a => if p a then f a else []) = (l.filter p).flatMap f := by
  induction l with
  | nil => rfl
  | cons a l ih =>
      rw [List.flatMap_cons, List.filter_cons, ih]
      split_ifs
      · rw [List.flatMap_cons]
      · rfl

theorem Rewrites.flatMap_pieces (h : Rewrites fromLeBytes ops graph graph' entries pieces)
    {f : NodeProto → List String} {g : Piece → List String} (hnone : ∀ node, g ([node], []) = [])
    (hsome : ∀ node ∈ graph.node, ∀ e piece, entryOf ops graph entries node = some e →
      replaceNode ops graph entries node = .ok piece → g piece = f node) :
    pieces.flatMap g = (replacedNodes ops graph).flatMap f := by
  rw [replacedNodes, ← flatMap_ite]
  refine (flatMap_eq_of_forall₂ h.replaced fun node hnode piece hreplace => ?_).symm
  rw [isSome_quantizedWeight h.weights hnode]
  cases hentry : entryOf ops graph entries node with
  | none =>
      rw [replaceNode_none hentry] at hreplace
      cases hreplace
      exact (hnone node).symm
  | some e => exact (hsome node hnode e piece hentry hreplace).symm

/-- The names that are made up, by the weights and the nodes they are made from. -/
theorem generated_perm (h : Rewrites fromLeBytes ops graph graph' entries pieces) :
    (generated entries pieces).Perm (names WeightEntry.weight (fun _ => weightSuffixes) entries ++
      names nodeBaseName (tensorSuffixes graph) (replacedNodes ops graph)) := by
  have hweights : (entries.flatMap (·.initializers)).map (·.name) =
      names WeightEntry.weight (fun _ => weightSuffixes) entries := by
    rw [List.map_flatMap]
    rfl
  have hnodes : (pieces.flatMap fun piece => Piece.inner piece ++ piece.2.map (·.name)) =
      names nodeBaseName (tensorSuffixes graph) (replacedNodes ops graph) := by
    apply h.flatMap_pieces (fun node => rfl)
    intro node _ e piece hentry hreplace
    obtain ⟨_, _, _, _, hnames, _⟩ := names_of_replaced hentry hreplace
    exact hnames
  rw [generated, added, List.map_append, hweights, List.append_assoc, ← hnodes]
  apply List.Perm.append_left _
  rw [List.map_flatMap]
  exact List.perm_append_comm.trans (List.flatMap_append_perm _ _ _)

end Pieces

section Apart

/-- The names that are made up are different from each other and from those of the graph. -/
structure NamesApart (ops : QuantizeOps) (graph : GraphProto) : Prop where
  bases : ((replacedNodes ops graph).map nodeBaseName).Nodup
  weights : ∀ weight ∈ quantizedWeights ops graph, ∀ node ∈ replacedNodes ops graph,
    weight ≠ nodeBaseName node ++ "_a"
  weightNames : ∀ weight ∈ quantizedWeights ops graph, ∀ s ∈ weightSuffixes,
    weight ++ s ∉ graph.produced
  tensorNames : ∀ node ∈ replacedNodes ops graph, ∀ s ∈ tensorSuffixes graph node,
    nodeBaseName node ++ s ∉ graph.produced

theorem fresh_iff_not_produced {names : List String} :
    Fresh graph names ↔ names.Nodup ∧ ∀ name ∈ names, name ∉ graph.produced := by
  constructor
  · rintro ⟨hnodup, hinput, hinitializer, houtput⟩
    refine ⟨hnodup, fun name hname hmem => ?_⟩
    rcases List.mem_append.mp hmem with hmem | hmem
    · exact (List.mem_append.mp hmem).elim (hinput name hname) (hinitializer name hname)
    · exact houtput name hname hmem
  · rintro ⟨hnodup, hproduced⟩
    refine ⟨hnodup, ?_, ?_, ?_⟩
    · exact fun name hname hmem => hproduced name hname
        (List.mem_append_left _ (List.mem_append_left _ hmem))
    · exact fun name hname hmem => hproduced name hname
        (List.mem_append_left _ (List.mem_append_right _ hmem))
    · exact fun name hname hmem => hproduced name hname (List.mem_append_right _ hmem)

/-- The names that are made up are fresh exactly when the weights and the nodes they are made from keep
them apart. -/
theorem fresh_iff (h : Rewrites fromLeBytes ops graph graph' entries pieces) :
    Fresh graph (generated entries pieces) ↔ NamesApart ops graph := by
  have hperm := generated_perm h
  have hweights : (names WeightEntry.weight (fun _ => weightSuffixes) entries).Nodup := by
    refine (nodup_names_iff free_weightSuffixes "_scale" ?_ ?_ ?_).mpr ?_
    · exact fun _ _ => List.Subset.refl _
    · exact fun _ _ => by decide
    · exact fun _ _ => by decide
    · exact (quantizeWeights_first (fun t ht u hu => targets_same ht hu) h.weights).nodup
        List.nodup_nil
  have hbases : (names nodeBaseName (tensorSuffixes graph) (replacedNodes ops graph)).Nodup ↔
      ((replacedNodes ops graph).map nodeBaseName).Nodup :=
    nodup_names_iff free_tensorSuffixes "_a_scale" (fun node _ => (tensorSuffixes_spec graph node).1)
      (fun node _ => (tensorSuffixes_spec graph node).2.1)
      (fun node _ => (tensorSuffixes_spec graph node).2.2)
  have hentries : ∀ {name : String}, name ∈ quantizedWeights ops graph ↔
      ∃ e ∈ entries, e.weight = name := (mem_quantizedWeights h.weights).trans List.mem_map
  have hcross : (∀ a ∈ names WeightEntry.weight (fun _ => weightSuffixes) entries,
      ∀ b ∈ names nodeBaseName (tensorSuffixes graph) (replacedNodes ops graph), a ≠ b) ↔
      ∀ weight ∈ quantizedWeights ops graph, ∀ node ∈ replacedNodes ops graph,
        weight ≠ nodeBaseName node ++ "_a" := by
    constructor
    · intro hne weight hweight node hnode heq
      obtain ⟨e, he, rfl⟩ := hentries.mp hweight
      refine hne (e.weight ++ "_scale") (mem_names.mpr ⟨e, he, _, by decide, rfl⟩)
        (nodeBaseName node ++ "_a_scale")
        (mem_names.mpr ⟨node, hnode, _, (tensorSuffixes_spec graph node).2.2, rfl⟩) ?_
      rw [heq, String.append_assoc]
      rfl
    · intro hne a ha b hb heq
      obtain ⟨e, he, s, hs, rfl⟩ := mem_names.mp ha
      obtain ⟨node, hnode, t, ht, rfl⟩ := mem_names.mp hb
      exact hne e.weight (hentries.mpr ⟨e, he, rfl⟩) node hnode
        (weight_eq_tensor hs ((tensorSuffixes_spec graph node).1 ht) heq)
  rw [fresh_iff_not_produced, hperm.nodup_iff, List.nodup_append, hbases, hcross]
  constructor
  · rintro ⟨⟨_, hnodup, hapart⟩, hproduced⟩
    refine ⟨hnodup, hapart, fun weight hweight s hs => ?_, fun node hnode s hs => ?_⟩
    · obtain ⟨e, he, rfl⟩ := hentries.mp hweight
      refine hproduced _ (hperm.mem_iff.mpr (List.mem_append_left _ ?_))
      exact mem_names.mpr ⟨e, he, s, hs, rfl⟩
    · refine hproduced _ (hperm.mem_iff.mpr (List.mem_append_right _ ?_))
      exact mem_names.mpr ⟨node, hnode, s, hs, rfl⟩
  · rintro ⟨hnodup, hapart, hleft, hright⟩
    refine ⟨⟨hweights, hnodup, hapart⟩, fun name hname => ?_⟩
    rcases List.mem_append.mp (hperm.mem_iff.mp hname) with hname | hname
    · obtain ⟨e, he, s, hs, rfl⟩ := mem_names.mp hname
      exact hleft e.weight (hentries.mpr ⟨e, he, rfl⟩) s hs
    · obtain ⟨node, hnode, s, hs, rfl⟩ := mem_names.mp hname
      exact hright node hnode s hs

end Apart

end Gigastt.Quantize
