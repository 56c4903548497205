import Gigastt.QuantNames

/-!
Well-formed graphs: every tensor and every node under a name of its own, and every tensor there before it
is read, also by the subgraphs of a node. What the rewritten graph reads and what it is made of.
-/

namespace Gigastt.Quantize

open Outcomes Suffixes

variable {fromLeBytes : UInt8 → UInt8 → UInt8 → UInt8 → ℚ} {ops : QuantizeOps}
  {graph graph' : GraphProto} {entries : List WeightEntry} {pieces : List Piece} {piece : Piece}
  {node : NodeProto} {e : WeightEntry}

/-- The tensors that the subgraphs of a node read. -/
def captured (attributes : List AttributeProto) : List String := attributes.flatMap (·.captures)

def NodeProto.reads (node : NodeProto) : List String := node.input ++ captured node.attributes

/-- Every tensor is known where it is read. -/
def Ordered : List String → List NodeProto → Prop
  | _, [] => True
  | known, node :: rest =>
      (∀ name ∈ node.reads, name ≠ "" → name ∈ known) ∧ Ordered (known ++ node.output) rest

instance Ordered.decidable : (known : List String) → (nodes : List NodeProto) →
    Decidable (Ordered known nodes)
  | _, [] => inferInstanceAs (Decidable True)
  | known, node :: rest =>
      have := Ordered.decidable (known ++ node.output) rest
      inferInstanceAs (Decidable (_ ∧ _))

/-- Names of their own, tensors known where they are read, and one output for each of the operators that
have one. -/
structure WellFormed (graph : GraphProto) : Prop where
  tensors : (graph.produced.filter (· ≠ "")).Nodup
  nodes : ((graph.node.map (·.name)).filter (· ≠ "")).Nodup
  ordered : Ordered (graph.input ++ graph.initializer.map (·.name)) graph.node
  outputs : ∀ name ∈ graph.output, name ≠ "" → name ∈ graph.produced
  single : ∀ node ∈ graph.node, node.op_type ∈ ["MatMul", "Gemm", "Conv"] → ∃ y, node.output = [y]

section Order

theorem ordered_append {known : List String} {nodes rest : List NodeProto} :
    Ordered known (nodes ++ rest) ↔
      Ordered known nodes ∧ Ordered (known ++ nodes.flatMap (·.output)) rest := by
  induction nodes generalizing known with
  | nil => simp [Ordered]
  | cons node nodes ih =>
      rw [List.cons_append, Ordered, Ordered, ih, List.flatMap_cons, List.append_assoc, and_assoc]

theorem Ordered.known {known : List String} {nodes : List NodeProto} (h : Ordered known nodes)
    (hnode : node ∈ nodes) {name : String} (hname : name ∈ node.reads) (hne : name ≠ "") :
    name ∈ known ++ nodes.flatMap (·.output) := by
  induction nodes generalizing known with
  | nil => cases hnode
  | cons other nodes ih =>
      rw [List.flatMap_cons, ← List.append_assoc]
      rcases List.mem_cons.mp hnode with rfl | hnode
      · exact List.mem_append_left _ (List.mem_append_left _ (h.1 name hname hne))
      · exact ih h.2 hnode

end Order

section Kept

/-- What the chain of a replaced node still reads of its inputs. -/
def chainInputs (graph : GraphProto) (node : NodeProto) : List String :=
  node.input.take 1 ++
    if node.op_type = "Conv" then (biasName node graph.initializer).toList else []

/-- What the rewritten graph still reads of the inputs of a node. -/
def keptInputs (ops : QuantizeOps) (graph : GraphProto) (node : NodeProto) : List String :=
  if (quantizedWeight ops graph node).isSome then chainInputs graph node else node.input

/-- And of the tensors that its subgraphs read. -/
def keptCaptured (ops : QuantizeOps) (graph : GraphProto) (node : NodeProto) : List String :=
  if (quantizedWeight ops graph node).isSome then
    if node.op_type = "Conv" then captured (copyConvAttrs node) else []
  else captured node.attributes

def stillRead (ops : QuantizeOps) (graph : GraphProto) : List String :=
  graph.node.flatMap (keptInputs ops graph) ++ graph.output

theorem keptInputs_eq (h : quantizeWeights fromLeBytes (targets ops graph) [] = .ok entries)
    (hnode : node ∈ graph.node) : keptInputs ops graph node =
      if (entryOf ops graph entries node).isSome then chainInputs graph node else node.input := by
  rw [keptInputs, isSome_quantizedWeight h hnode]

theorem keptCaptured_eq (h : quantizeWeights fromLeBytes (targets ops graph) [] = .ok entries)
    (hnode : node ∈ graph.node) : keptCaptured ops graph node =
      if (entryOf ops graph entries node).isSome then
        if node.op_type = "Conv" then captured (copyConvAttrs node) else []
      else captured node.attributes := by
  rw [keptCaptured, isSome_quantizedWeight h hnode]

/-- The tensors that the chain of a node reads. -/
theorem mem_input_chain (hentry : entryOf ops graph entries node = some e)
    (h : replaceNode ops graph entries node = .ok piece) {name : String} :
    name ∈ piece.1.flatMap (·.input) ↔ name ∈ chainInputs graph node ∨
      name ∈ (tensorSuffixes graph node).map (nodeBaseName node ++ ·) ∨
      name ∈ weightSuffixes.map (e.weight ++ ·) := by
  by_cases hop : node.op_type = "Conv"
  · obtain ⟨a, ins, y, outs, shape, hinput, _, hnodes, _⟩ := replaceNode_conv hentry hop h
    rw [tensorSuffixes, chainInputs, hinput, if_pos hop, if_pos hop]
    cases hname : biasName node graph.initializer with
    | none =>
        rw [hnodes, hname]
        simp only [convScaled, convTail, dynamicQuantize, castToFloat, mulNode, reshapeNode,
          WeightEntry.names, scaledSuffixes, weightSuffixes, List.cons_append, List.nil_append,
          List.flatMap_cons, List.flatMap_nil, List.append_nil, List.mem_cons, List.not_mem_nil,
          List.take_succ_cons, List.take_zero, Option.toList_none, or_false,
          Option.isSome_none, Bool.false_eq_true, if_false, List.map_cons, List.map_nil]
        exact iff_of_eq (by ac_rfl)
    | some bias =>
        rw [hnodes, hname]
        simp only [convScaled, convTail, dynamicQuantize, castToFloat, mulNode, reshapeNode,
          WeightEntry.names, scaledSuffixes, weightSuffixes, List.cons_append, List.nil_append,
          List.flatMap_cons, List.flatMap_nil, List.append_nil, List.mem_cons, List.not_mem_nil,
          List.take_succ_cons, List.take_zero, Option.toList_some, or_false,
          Option.isSome_some, if_true, List.map_cons, List.map_nil]
        exact iff_of_eq (by ac_rfl)
  · obtain ⟨a, ins, y, outs, hinput, _, rfl⟩ := replaceNode_matmul hentry hop h
    rw [tensorSuffixes, chainInputs, hinput, if_neg hop, if_neg hop]
    simp only [matmulChain, dynamicQuantize, castToFloat, mulNode, WeightEntry.names, innerSuffixes,
      weightSuffixes, List.cons_append, List.nil_append,
      List.flatMap_cons, List.flatMap_nil, List.append_nil, List.mem_cons, List.not_mem_nil,
      List.take_succ_cons, List.take_zero, or_false, List.map_cons, List.map_nil]
    exact iff_of_eq (by ac_rfl)

theorem captured_chain (hentry : entryOf ops graph entries node = some e)
    (h : replaceNode ops graph entries node = .ok piece) :
    piece.1.flatMap (fun n => captured n.attributes) =
      if node.op_type = "Conv" then captured (copyConvAttrs node) else [] := by
  by_cases hop : node.op_type = "Conv"
  · obtain ⟨a, ins, y, outs, shape, hinput, _, hnodes, _⟩ := replaceNode_conv hentry hop h
    have hscaled : ∀ base a attributes qw,
        (convScaled base a attributes qw).flatMap (fun n => captured n.attributes) =
          captured attributes := by
      intro base a attributes qw
      exact List.append_nil _
    have htail : ∀ base y bias, (convTail base y bias).flatMap (fun n => captured n.attributes) = [] := by
      intro base y bias
      cases bias <;> rfl
    rw [if_pos hop, hnodes, List.flatMap_append, hscaled, htail, List.append_nil]
  · obtain ⟨a, ins, y, outs, hinput, _, rfl⟩ := replaceNode_matmul hentry hop h
    rw [if_neg hop]
    rfl

/-- A chain is ordered where what it reads of the graph, its weight and its shapes are known. -/
theorem ordered_chain {known : List String} (hentry : entryOf ops graph entries node = some e)
    (h : replaceNode ops graph entries node = .ok piece)
    (hinputs : ∀ name ∈ chainInputs graph node, name ≠ "" → name ∈ known)
    (hcaptured : node.op_type = "Conv" → ∀ name ∈ captured (copyConvAttrs node), name ≠ "" →
      name ∈ known)
    (hweight : ∀ name ∈ weightSuffixes.map (e.weight ++ ·), name ∈ known)
    (hinits : ∀ t ∈ piece.2, t.name ∈ known) : Ordered known piece.1 := by
  have hq : e.names.q_name ∈ known :=
    hweight _ (List.mem_map_of_mem (by decide : "_quantized" ∈ weightSuffixes))
  have hs : e.names.s_name ∈ known :=
    hweight _ (List.mem_map_of_mem (by decide : "_scale" ∈ weightSuffixes))
  have hzp : e.names.zp_name ∈ known :=
    hweight _ (List.mem_map_of_mem (by decide : "_zero_point" ∈ weightSuffixes))
  by_cases hop : node.op_type = "Conv"
  · obtain ⟨a, ins, y, outs, shape, hinput, _, hnodes, hinit, _⟩ := replaceNode_conv hentry hop h
    have ha : a ≠ "" → a ∈ known := hinputs a (by simp [chainInputs, hinput])
    have hscale : nodeBaseName node ++ "_scale_shape" ∈ known :=
      hinits _ (by rw [hinit]; exact List.mem_cons_self)
    have hcaptured := hcaptured hop
    rw [hnodes, ordered_append]
    constructor
    · simp [convScaled, Ordered, NodeProto.reads, dynamicQuantize, castToFloat, mulNode, reshapeNode,
        captured, hq, hs, hzp, hscale]
      refine ⟨ha, fun name attr hattr hname hne => Or.inl (hcaptured name ?_ hne)⟩
      exact List.mem_flatMap.mpr ⟨attr, hattr, hname⟩
    · cases hname : biasName node graph.initializer with
      | none =>
          simp [convScaled, convTail, Ordered, NodeProto.reads, mulNode, captured, dynamicQuantize,
            castToFloat, reshapeNode]
      | some bias =>
          have hbias : bias ≠ "" → bias ∈ known := hinputs bias (by simp [chainInputs, hop, hname])
          have hshape : nodeBaseName node ++ "_bias_shape" ∈ known := by
            have := hinits (int64ShapeInitializer (nodeBaseName node ++ "_bias_shape") shape)
              (by simp [hinit, hname])
            exact this
          simp [convScaled, convTail, Ordered, NodeProto.reads, mulNode, captured, dynamicQuantize,
            castToFloat, reshapeNode, hshape]
          exact fun hne => Or.inl (hbias hne)
  · obtain ⟨a, ins, y, outs, hinput, _, rfl⟩ := replaceNode_matmul hentry hop h
    have ha : a ≠ "" → a ∈ known := hinputs a (by simp [chainInputs, hinput])
    simp [matmulChain, Ordered, NodeProto.reads, dynamicQuantize, castToFloat, mulNode, captured,
      hq, hs, hzp]
    exact ha

end Kept

section Live

theorem Rewrites.exists_piece (h : Rewrites fromLeBytes ops graph graph' entries pieces)
    (hnode : node ∈ graph.node) :
    ∃ piece ∈ pieces, replaceNode ops graph entries node = .ok piece := by
  obtain ⟨i, hi, rfl⟩ := List.mem_iff_getElem.mp hnode
  obtain ⟨hlength, hreplaced⟩ := List.forall₂_iff_get.mp h.replaced
  exact ⟨_, List.getElem_mem (hlength ▸ hi), hreplaced i hi (hlength ▸ hi)⟩

theorem Rewrites.exists_node (h : Rewrites fromLeBytes ops graph graph' entries pieces)
    (hpiece : piece ∈ pieces) :
    ∃ node ∈ graph.node, replaceNode ops graph entries node = .ok piece := by
  obtain ⟨i, hi, rfl⟩ := List.mem_iff_getElem.mp hpiece
  obtain ⟨hlength, hreplaced⟩ := List.forall₂_iff_get.mp h.replaced
  exact ⟨_, List.getElem_mem (hlength ▸ hi), hreplaced i (hlength ▸ hi) hi⟩

theorem Rewrites.mem_live (h : Rewrites fromLeBytes ops graph graph' entries pieces) {name : String} :
    name ∈ liveNames graph'.node graph.output ↔
      (∃ piece ∈ pieces, name ∈ piece.1.flatMap (·.input)) ∨ name ∈ graph.output := by
  rw [liveNames, h.node, List.flatMap_assoc, List.mem_append, List.mem_flatMap]

/-- Everything that is made up is read. -/
theorem live_of_generated (h : Rewrites fromLeBytes ops graph graph' entries pieces) {name : String}
    (hname : name ∈ generated entries pieces) : name ∈ liveNames graph'.node graph.output := by
  rw [h.mem_live]
  rcases List.mem_append.mp ((generated_perm h).mem_iff.mp hname) with hname | hname
  · obtain ⟨e, he, s, hs, rfl⟩ := mem_names.mp hname
    obtain ⟨node, hnode, hentry⟩ := exists_consumer h.weights he
    obtain ⟨piece, hpiece, hreplace⟩ := h.exists_piece hnode
    refine Or.inl ⟨piece, hpiece, (mem_input_chain hentry hreplace).mpr (Or.inr (Or.inr ?_))⟩
    exact List.mem_map_of_mem hs
  · obtain ⟨node, hnode, s, hs, rfl⟩ := mem_names.mp hname
    obtain ⟨hmem, hsome⟩ := List.mem_filter.mp hnode
    rw [isSome_quantizedWeight h.weights hmem] at hsome
    obtain ⟨e, hentry⟩ := Option.isSome_iff_exists.mp hsome
    obtain ⟨piece, hpiece, hreplace⟩ := h.exists_piece hmem
    refine Or.inl ⟨piece, hpiece, (mem_input_chain hentry hreplace).mpr (Or.inr (Or.inl ?_))⟩
    exact List.mem_map_of_mem hs

/-- What the rewritten graph reads under other names is what it still reads of the graph. -/
theorem live_iff_stillRead (h : Rewrites fromLeBytes ops graph graph' entries pieces) {name : String}
    (hname : name ∉ generated entries pieces) :
    name ∈ liveNames graph'.node graph.output ↔ name ∈ stillRead ops graph := by
  rw [(generated_perm h).mem_iff, List.mem_append, not_or] at hname
  rw [h.mem_live, stillRead, List.mem_append, List.mem_flatMap]
  refine or_congr_left ⟨?_, ?_⟩
  · rintro ⟨piece, hpiece, hread⟩
    obtain ⟨node, hnode, hreplace⟩ := h.exists_node hpiece
    refine ⟨node, hnode, ?_⟩
    cases hentry : entryOf ops graph entries node with
    | none =>
        rw [replaceNode_none hentry] at hreplace
        cases hreplace
        rw [keptInputs_eq h.weights hnode, hentry]
        simpa using hread
    | some e =>
        rw [keptInputs_eq h.weights hnode, hentry, if_pos Option.isSome_some]
        rcases (mem_input_chain hentry hreplace).mp hread with hread | hread | hread
        · exact hread
        · obtain ⟨s, hs, rfl⟩ := List.mem_map.mp hread
          refine absurd (mem_names.mpr ⟨node, List.mem_filter.mpr ⟨hnode, ?_⟩, s, hs, rfl⟩) hname.2
          rw [isSome_quantizedWeight h.weights hnode, hentry]
          rfl
        · obtain ⟨s, hs, rfl⟩ := List.mem_map.mp hread
          exact absurd (mem_names.mpr ⟨e, (entryOf_eq_some hentry).1, s, hs, rfl⟩) hname.1
  · rintro ⟨node, hnode, hread⟩
    obtain ⟨piece, hpiece, hreplace⟩ := h.exists_piece hnode
    refine ⟨piece, hpiece, ?_⟩
    cases hentry : entryOf ops graph entries node with
    | none =>
        rw [keptInputs_eq h.weights hnode, hentry] at hread
        rw [replaceNode_none hentry] at hreplace
        cases hreplace
        simpa using hread
    | some e =>
        rw [keptInputs_eq h.weights hnode, hentry, if_pos Option.isSome_some] at hread
        exact (mem_input_chain hentry hreplace).mpr (Or.inl hread)

end Live

section Names

/-- The outputs at the end of a piece. -/
def Piece.final (piece : Piece) : List String := (piece.1.getLast?.map (·.output)).getD []

theorem outputs_piece (piece : Piece) :
    piece.1.flatMap (·.output) = Piece.inner piece ++ Piece.final piece := by
  obtain ⟨nodes, inits⟩ := piece
  rcases List.eq_nil_or_concat nodes with rfl | ⟨front, last, rfl⟩
  · rfl
  · simp [Piece.inner, Piece.final]

theorem final_eq (hsingle : ∀ node ∈ graph.node, node.op_type ∈ ["MatMul", "Gemm", "Conv"] →
      ∃ y, node.output = [y]) (hnode : node ∈ graph.node)
    (h : replaceNode ops graph entries node = .ok piece) : node.output = Piece.final piece := by
  cases hentry : entryOf ops graph entries node with
  | none =>
      rw [replaceNode_none hentry] at h
      cases h
      rfl
  | some e =>
      obtain ⟨y, outs, houtput, houtputs, _⟩ := names_of_replaced hentry h
      have hop : node.op_type ∈ ["MatMul", "Gemm", "Conv"] := by
        obtain ⟨_, _, _, init, _, htarget, _⟩ := entryOf_eq_some hentry
        obtain ⟨_, _, _, _, _, hallows, _⟩ := target_eq_some htarget
        unfold QuantizeOps.allows at hallows
        split_ifs at hallows with hmatmul hconv
        · rcases hmatmul with hop | hop <;> simp [hop]
        · simp [hconv]
      obtain ⟨y', hy⟩ := hsingle node hnode hop
      rw [outputs_piece] at houtputs
      rw [List.append_cancel_left houtputs, hy]
      rw [houtput] at hy
      cases hy
      rfl

/-- The tensors of the rewritten graph: those that stay, and those that are made up. -/
theorem produced_perm (hwell : WellFormed graph)
    (h : Rewrites fromLeBytes ops graph graph' entries pieces) :
    graph'.produced.Perm ((graph.input ++ (graph.initializer.filter fun t =>
      ¬ entries.any (·.weight = t.name) ∨ t.name ∈ liveNames graph'.node graph.output).map (·.name) ++
        graph.node.flatMap (·.output)) ++ generated entries pieces) := by
  have hfinal : graph.node.flatMap (·.output) = pieces.flatMap Piece.final :=
    flatMap_eq_of_forall₂ h.replaced fun node hnode piece hreplace =>
      final_eq hwell.single hnode hreplace
  have houtputs : (graph'.node.flatMap (·.output)).Perm
      (pieces.flatMap Piece.inner ++ graph.node.flatMap (·.output)) := by
    rw [h.node, List.flatMap_assoc, hfinal]
    simp only [outputs_piece]
    exact (List.flatMap_append_perm _ _ _).symm
  rw [GraphProto.produced, h.input, h.initializer, List.map_append, generated]
  apply (List.Perm.append_left _ houtputs).trans
  simp only [List.append_assoc]
  refine List.Perm.append_left _ (List.Perm.append_left _ ?_)
  rw [← List.append_assoc]
  exact List.perm_append_comm

theorem generated_ne_empty (h : Rewrites fromLeBytes ops graph graph' entries pieces) {name : String}
    (hname : name ∈ generated entries pieces) : name ≠ "" := by
  have hsuffix : ∀ s ∈ weightSuffixes ++ allTensorSuffixes, s ≠ "" := by decide
  rcases List.mem_append.mp ((generated_perm h).mem_iff.mp hname) with hname | hname
  · obtain ⟨e, _, s, hs, rfl⟩ := mem_names.mp hname
    exact append_ne_empty (hsuffix s (List.mem_append_left _ hs))
  · obtain ⟨node, _, s, hs, rfl⟩ := mem_names.mp hname
    exact append_ne_empty
      (hsuffix s (List.mem_append_right _ ((tensorSuffixes_spec graph node).1 hs)))

/-- Every tensor has a name of its own exactly when those that are made up are fresh. -/
theorem tensors_iff (hwell : WellFormed graph)
    (h : Rewrites fromLeBytes ops graph graph' entries pieces) :
    (graph'.produced.filter (· ≠ "")).Nodup ↔ Fresh graph (generated entries pieces) := by
  have hperm := produced_perm hwell h
  generalize hkept : (graph.initializer.filter fun t => ¬ entries.any (·.weight = t.name) ∨
    t.name ∈ liveNames graph'.node graph.output) = kept at hperm
  have hsublist : (graph.input ++ kept.map (·.name) ++ graph.node.flatMap (·.output)).Sublist
      graph.produced := by
    refine List.Sublist.append_right (List.Sublist.append_left ?_ _) _
    rw [← hkept]
    exact List.filter_sublist.map _
  have hgenerated : (generated entries pieces).filter (· ≠ "") = generated entries pieces :=
    List.filter_eq_self.mpr fun name hname => decide_eq_true (generated_ne_empty h hname)
  rw [(hperm.filter _).nodup_iff, List.filter_append, hgenerated, List.nodup_append,
    fresh_iff_not_produced]
  constructor
  · rintro ⟨_, hnodup, hapart⟩
    refine ⟨hnodup, fun name hname hproduced => ?_⟩
    have hstays : name ∉ graph.input ++ kept.map (·.name) ++ graph.node.flatMap (·.output) := by
      intro hmem
      refine hapart name (List.mem_filter.mpr ⟨hmem, ?_⟩) name hname rfl
      exact decide_eq_true (generated_ne_empty h hname)
    rw [List.mem_append, List.mem_append, not_or, not_or] at hstays
    rcases List.mem_append.mp hproduced with hproduced | hout
    · rcases List.mem_append.mp hproduced with hin | hinit
      · exact hstays.1.1 hin
      · obtain ⟨t, ht, rfl⟩ := List.mem_map.mp hinit
        refine hstays.1.2 (List.mem_map_of_mem ?_)
        rw [← hkept]
        exact List.mem_filter.mpr ⟨ht, decide_eq_true (Or.inr (live_of_generated h hname))⟩
    · exact hstays.2 hout
  · rintro ⟨hnodup, hproduced⟩
    refine ⟨(hsublist.filter _).nodup hwell.tensors, hnodup, ?_⟩
    rintro a ha b hb rfl
    exact hproduced a hb (hsublist.subset (List.mem_filter.mp ha).1)

/-- The nodes that are not replaced. -/
def untouched (ops : QuantizeOps) (graph : GraphProto) : List NodeProto :=
  graph.node.filter fun node => ¬(quantizedWeight ops graph node).isSome

theorem nodes_perm (h : Rewrites fromLeBytes ops graph graph' entries pieces) :
    (graph'.node.map (·.name)).Perm ((untouched ops graph).map (·.name) ++
      names nodeBaseName (nodeSuffixes graph) (replacedNodes ops graph)) := by
  have hpieces : graph'.node.map (·.name) = graph.node.flatMap fun node =>
      (if decide (¬(quantizedWeight ops graph node).isSome) then [node.name] else []) ++
        if (quantizedWeight ops graph node).isSome then
          (nodeSuffixes graph node).map (nodeBaseName node ++ ·) else [] := by
    rw [h.node, List.map_flatMap]
    refine (flatMap_eq_of_forall₂ h.replaced fun node hnode piece hreplace => ?_).symm
    rw [isSome_quantizedWeight h.weights hnode]
    cases hentry : entryOf ops graph entries node with
    | none =>
        rw [replaceNode_none hentry] at hreplace
        cases hreplace
        rfl
    | some e =>
        obtain ⟨_, _, _, _, _, hnames⟩ := names_of_replaced hentry hreplace
        exact hnames.symm
  have huntouched : (graph.node.flatMap fun node =>
      if decide (¬(quantizedWeight ops graph node).isSome) then [node.name] else []) =
      (untouched ops graph).map (·.name) := by
    rw [flatMap_ite, List.map_eq_flatMap]
    rfl
  rw [hpieces, names, replacedNodes, ← flatMap_ite, ← huntouched]
  exact (List.flatMap_append_perm _ _ _).symm

/-- Every node has a name of its own exactly when the replaced ones have different names, and none is
made up that an untouched one has. -/
theorem nodes_iff (hwell : WellFormed graph)
    (h : Rewrites fromLeBytes ops graph graph' entries pieces) :
    ((graph'.node.map (·.name)).filter (· ≠ "")).Nodup ↔
      ((replacedNodes ops graph).map nodeBaseName).Nodup ∧
        ∀ name ∈ names nodeBaseName (nodeSuffixes graph) (replacedNodes ops graph),
          ∀ node ∈ untouched ops graph, name ≠ node.name := by
  have hne : ∀ name ∈ names nodeBaseName (nodeSuffixes graph) (replacedNodes ops graph),
      name ≠ "" := by
    intro name hname
    obtain ⟨node, _, s, hs, rfl⟩ := mem_names.mp hname
    have hsuffix : ∀ s ∈ allNodeSuffixes, s ≠ "" := by decide
    exact append_ne_empty (hsuffix s ((nodeSuffixes_spec graph node).1 hs))
  have hmade : (names nodeBaseName (nodeSuffixes graph) (replacedNodes ops graph)).filter
      (· ≠ "") = names nodeBaseName (nodeSuffixes graph) (replacedNodes ops graph) :=
    List.filter_eq_self.mpr fun name hname => decide_eq_true (hne name hname)
  have huntouched : (((untouched ops graph).map (·.name)).filter (· ≠ "")).Nodup :=
    ((List.filter_sublist.map _).filter _).nodup hwell.nodes
  have hbases : (names nodeBaseName (nodeSuffixes graph) (replacedNodes ops graph)).Nodup ↔
      ((replacedNodes ops graph).map nodeBaseName).Nodup :=
    nodup_names_iff free_nodeSuffixes "_dynq" (fun node _ => (nodeSuffixes_spec graph node).1)
      (fun node _ => (nodeSuffixes_spec graph node).2.1)
      (fun node _ => (nodeSuffixes_spec graph node).2.2)
  rw [((nodes_perm h).filter _).nodup_iff, List.filter_append, hmade, List.nodup_append, hbases]
  constructor
  · rintro ⟨_, hnodup, hapart⟩
    refine ⟨hnodup, fun name hname node hnode heq => ?_⟩
    refine hapart name (List.mem_filter.mpr ⟨?_, decide_eq_true (hne name hname)⟩) name hname rfl
    exact List.mem_map.mpr ⟨node, hnode, heq.symm⟩
  · rintro ⟨hnodup, hapart⟩
    refine ⟨huntouched, hnodup, ?_⟩
    rintro a ha b hb rfl
    obtain ⟨node, hnode, heq⟩ := List.mem_map.mp (List.mem_filter.mp ha).1
    exact hapart a hb node hnode heq.symm

end Names

end Gigastt.Quantize
