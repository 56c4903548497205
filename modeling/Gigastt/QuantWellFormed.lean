import Gigastt.QuantOrder

/-!
When the rewritten graph of a well-formed graph is well formed.
-/

namespace Gigastt.Quantize

open Outcomes Suffixes

variable {fromLeBytes : UInt8 → UInt8 → UInt8 → UInt8 → ℚ} {ops : QuantizeOps}
  {graph graph' : GraphProto} {entries : List WeightEntry} {pieces : List Piece} {piece : Piece}
  {node : NodeProto} {e : WeightEntry}

section Rewritten

/-- Nothing that the pass makes up or drops is in the way of the rest of the graph. -/
structure Undisturbed (ops : QuantizeOps) (graph : GraphProto) : Prop extends NamesApart ops graph where
  nodeNames : ∀ node ∈ replacedNodes ops graph, ∀ s ∈ nodeSuffixes graph node,
    ∀ other ∈ untouched ops graph, nodeBaseName node ++ s ≠ other.name
  captured : ∀ node ∈ graph.node, ∀ name ∈ keptCaptured ops graph node, name ≠ "" →
    name ∈ quantizedWeights ops graph → name ∈ stillRead ops graph

theorem weight_mem_initializer (h : Rewrites fromLeBytes ops graph graph' entries pieces) {name : String}
    (hname : name ∈ entries.map WeightEntry.weight) : name ∈ graph.initializer.map (·.name) := by
  obtain ⟨e, he, rfl⟩ := List.mem_map.mp hname
  have hinit := initOf_entry h.weights he
  rw [initOf] at hinit
  refine List.mem_map.mpr ⟨e.init, List.mem_reverse.mp (List.mem_of_find?_eq_some hinit), ?_⟩
  simpa using List.find?_some hinit

theorem chainInputs_subset (graph : GraphProto) (node : NodeProto) :
    chainInputs graph node ⊆ node.input := by
  intro name hname
  rcases List.mem_append.mp hname with hname | hname
  · exact List.mem_of_mem_take hname
  · split_ifs at hname with hop
    · obtain ⟨hfilter, _⟩ := Option.filter_eq_some_iff.mp (Option.mem_toList.mp hname)
      exact List.mem_of_getElem? (Option.filter_eq_some_iff.mp hfilter).1
    · cases hname

theorem keptCaptured_subset (ops : QuantizeOps) (graph : GraphProto) (node : NodeProto) :
    keptCaptured ops graph node ⊆ captured node.attributes := by
  unfold keptCaptured
  split_ifs
  · intro name hname
    obtain ⟨attr, hattr, hname⟩ := List.mem_flatMap.mp hname
    exact List.mem_flatMap.mpr ⟨attr, List.mem_of_mem_filter hattr, hname⟩
  · exact List.nil_subset _
  · exact List.Subset.refl _

/-- The pieces are ordered as their nodes are: what a node knows and something still reads is known in
front of its piece. -/
theorem Rewrites.ordered_rest (h : Rewrites fromLeBytes ops graph graph' entries pieces)
    (hcaptured : ∀ node ∈ graph.node, ∀ name ∈ keptCaptured ops graph node, name ≠ "" →
      name ∈ entries.map WeightEntry.weight → name ∈ liveNames graph'.node graph.output)
    (hsingle : ∀ node ∈ graph.node, node.op_type ∈ ["MatMul", "Gemm", "Conv"] →
      ∃ y, node.output = [y])
    {nodes : List NodeProto} {rest : List Piece}
    (hrest : List.Forall₂ (fun node piece => replaceNode ops graph entries node = .ok piece) nodes rest)
    (hnodes : nodes ⊆ graph.node) (hpieces : rest ⊆ pieces) {known known' : List String}
    (hknown : ∀ name ∈ known, name ≠ "" → (name ∈ entries.map WeightEntry.weight →
      name ∈ liveNames graph'.node graph.output) → name ∈ known')
    (hadded : ∀ t ∈ added entries pieces, t.name ∈ known') (hordered : Ordered known nodes) :
    Ordered known' (rest.flatMap Prod.fst) := by
  induction hrest generalizing known known' with
  | nil => trivial
  | @cons node piece nodes rest hreplace _ ih =>
      have hnode := hnodes List.mem_cons_self
      have hpiece := hpieces List.mem_cons_self
      have hread : ∀ name ∈ piece.1.flatMap (·.input), name ∈ liveNames graph'.node graph.output :=
        fun name hname => h.mem_live.mpr (Or.inl ⟨piece, hpiece, hname⟩)
      rw [List.flatMap_cons, ordered_append]
      constructor
      · cases hentry : entryOf ops graph entries node with
        | none =>
            rw [replaceNode_none hentry] at hreplace
            cases hreplace
            refine ⟨fun name hname hne => hknown name (hordered.1 name hname hne) hne ?_, trivial⟩
            rcases List.mem_append.mp hname with hname | hname
            · exact fun _ => hread name (by simpa using hname)
            · refine hcaptured node hnode name ?_ hne
              rw [keptCaptured_eq h.weights hnode, hentry]
              exact hname
        | some e =>
            refine ordered_chain hentry hreplace ?_ ?_ ?_ ?_
            · intro name hname hne
              have hin := List.mem_append_left (captured node.attributes) (chainInputs_subset _ _ hname)
              refine hknown name (hordered.1 name hin hne) hne fun _ => hread name ?_
              exact (mem_input_chain hentry hreplace).mpr (Or.inl hname)
            · intro hop name hname hne
              have hname : name ∈ keptCaptured ops graph node := by
                rw [keptCaptured_eq h.weights hnode, hentry, if_pos Option.isSome_some, if_pos hop]
                exact hname
              have hin := List.mem_append_right node.input (keptCaptured_subset _ _ _ hname)
              exact hknown name (hordered.1 name hin hne) hne (hcaptured node hnode name hname hne)
            · intro name hname
              have hnames : weightSuffixes.map (e.weight ++ ·) = e.initializers.map (·.name) := rfl
              rw [hnames] at hname
              obtain ⟨t, ht, rfl⟩ := List.mem_map.mp hname
              refine hadded t (List.mem_append_left _ (List.mem_flatMap.mpr ⟨e, ?_, ht⟩))
              exact (entryOf_eq_some hentry).1
            · intro t ht
              exact hadded t (List.mem_append_right _ (List.mem_flatMap.mpr ⟨piece, hpiece, ht⟩))
      · refine ih (List.subset_of_cons_subset hnodes) (List.subset_of_cons_subset hpieces) ?_ ?_ hordered.2
        · intro name hname hne hlive
          rcases List.mem_append.mp hname with hname | hname
          · exact List.mem_append_left _ (hknown name hname hne hlive)
          · apply List.mem_append_right _
            rw [outputs_piece, ← final_eq hsingle hnode hreplace]
            exact List.mem_append_right _ hname
        · exact fun t ht => List.mem_append_left _ (hadded t ht)

theorem Rewrites.ordered (h : Rewrites fromLeBytes ops graph graph' entries pieces)
    (hwell : WellFormed graph)
    (hcaptured : ∀ node ∈ graph.node, ∀ name ∈ keptCaptured ops graph node, name ≠ "" →
      name ∈ entries.map WeightEntry.weight → name ∈ liveNames graph'.node graph.output) :
    Ordered (graph'.input ++ graph'.initializer.map (·.name)) graph'.node := by
  rw [h.input, h.initializer, h.node]
  refine h.ordered_rest hcaptured hwell.single h.replaced (List.Subset.refl _) (List.Subset.refl _)
    ?_ ?_ hwell.ordered
  · intro name hname _ hlive
    rcases List.mem_append.mp hname with hname | hname
    · exact List.mem_append_left _ hname
    · obtain ⟨t, ht, rfl⟩ := List.mem_map.mp hname
      refine List.mem_append_right _ (List.mem_map_of_mem (List.mem_append_left _ ?_))
      refine List.mem_filter.mpr ⟨ht, decide_eq_true ?_⟩
      by_cases hweight : t.name ∈ entries.map WeightEntry.weight
      · rw [← h.node]
        exact Or.inr (hlive hweight)
      · refine Or.inl fun hany => hweight ?_
        obtain ⟨e, he, heq⟩ := List.any_eq_true.mp hany
        exact List.mem_map.mpr ⟨e, he, of_decide_eq_true heq⟩
  · exact fun t ht => List.mem_append_right _ (List.mem_map_of_mem (List.mem_append_right _ ht))

end Rewritten

section WellFormed

theorem op_type_chain (hentry : entryOf ops graph entries node = some e)
    (h : replaceNode ops graph entries node = .ok piece) :
    ∀ n ∈ piece.1, n.op_type ∉ ["MatMul", "Gemm", "Conv"] := by
  by_cases hop : node.op_type = "Conv"
  · obtain ⟨a, ins, y, outs, shape, _, _, hnodes, _⟩ := replaceNode_conv hentry hop h
    have hscaled : ∀ base a attributes qw, ∀ n ∈ convScaled base a attributes qw,
        n.op_type ∈ ["DynamicQuantizeLinear", "ConvInteger", "Cast", "Mul", "Reshape"] := by
      simp [convScaled, dynamicQuantize, castToFloat, mulNode, reshapeNode]
    have htail : ∀ base y bias, ∀ n ∈ convTail base y bias, n.op_type ∈ ["Mul", "Reshape", "Add"] := by
      intro base y bias
      cases bias <;> simp [convTail, mulNode, reshapeNode]
    intro n hn
    rw [hnodes] at hn
    have happ : ∀ op ∈ ["DynamicQuantizeLinear", "ConvInteger", "Cast", "Mul", "Reshape", "Add"],
        op ∉ ["MatMul", "Gemm", "Conv"] := by decide
    apply happ _
    rcases List.mem_append.mp hn with hn | hn
    · exact List.mem_append_left ["Add"] (hscaled _ _ _ _ n hn)
    · exact List.mem_append_right ["DynamicQuantizeLinear", "ConvInteger", "Cast"] (htail _ _ _ n hn)
  · obtain ⟨a, ins, y, outs, _, _, rfl⟩ := replaceNode_matmul hentry hop h
    simp [matmulChain, dynamicQuantize, castToFloat, mulNode]

theorem WellFormed.apart (hwell : WellFormed graph) {name : String} (hne : name ≠ "")
    (hname : name ∈ graph.initializer.map (·.name)) :
    name ∉ graph.input ∧ name ∉ graph.node.flatMap (·.output) := by
  have hnodup := hwell.tensors
  rw [GraphProto.produced, List.filter_append, List.filter_append] at hnodup
  obtain ⟨hleft, _, hright⟩ := List.nodup_append.mp hnodup
  obtain ⟨_, _, hleft⟩ := List.nodup_append.mp hleft
  have hmem : ∀ l : List String, name ∈ l → name ∈ l.filter (· ≠ "") := fun l hl =>
    List.mem_filter.mpr ⟨hl, decide_eq_true hne⟩
  constructor
  · exact fun hinput => hleft _ (hmem _ hinput) _ (hmem _ hname) rfl
  · exact fun hout => hright _ (List.mem_append_right _ (hmem _ hname)) _ (hmem _ hout) rfl

/-- A weight that is quantized stays under its name only where something reads it. -/
theorem stillRead_of_produced (hwell : WellFormed graph)
    (h : Rewrites fromLeBytes ops graph graph' entries pieces)
    (hfresh : Fresh graph (generated entries pieces)) {name : String} (hne : name ≠ "")
    (hweight : name ∈ entries.map WeightEntry.weight) (hproduced : name ∈ graph'.produced) :
    name ∈ stillRead ops graph := by
  have hinit := weight_mem_initializer h hweight
  have hgenerated : name ∉ generated entries pieces := fun hname => hfresh.initializer _ hname hinit
  obtain ⟨hinput, houtput⟩ := hwell.apart hne hinit
  rw [(produced_perm hwell h).mem_iff, List.mem_append, List.mem_append, List.mem_append] at hproduced
  rcases hproduced with ((hin | hkept) | hout) | hname
  · exact absurd hin hinput
  · obtain ⟨t, ht, rfl⟩ := List.mem_map.mp hkept
    obtain ⟨e, he, hname⟩ := List.mem_map.mp hweight
    rcases of_decide_eq_true (List.mem_filter.mp ht).2 with hfree | hlive
    · exact absurd (List.any_eq_true.mpr ⟨e, he, decide_eq_true hname⟩) hfree
    · exact (live_iff_stillRead h hgenerated).mp hlive
  · exact absurd hout houtput
  · exact absurd hname hgenerated

/-- What a kept subgraph reads, some node of the rewritten graph reads. -/
theorem Rewrites.exists_reader (h : Rewrites fromLeBytes ops graph graph' entries pieces)
    (hnode : node ∈ graph.node) {name : String} (hname : name ∈ keptCaptured ops graph node) :
    ∃ reader ∈ graph'.node, name ∈ reader.reads := by
  obtain ⟨piece, hpiece, hreplace⟩ := h.exists_piece hnode
  have hmem : ∀ n ∈ piece.1, n ∈ graph'.node := fun n hn => by
    rw [h.node]
    exact List.mem_flatMap.mpr ⟨piece, hpiece, hn⟩
  rw [keptCaptured_eq h.weights hnode] at hname
  cases hentry : entryOf ops graph entries node with
  | none =>
      rw [hentry] at hname
      rw [replaceNode_none hentry] at hreplace
      cases hreplace
      exact ⟨node, hmem node List.mem_cons_self, List.mem_append_right _ hname⟩
  | some e =>
      rw [hentry, if_pos Option.isSome_some, ← captured_chain hentry hreplace] at hname
      obtain ⟨reader, hreader, hname⟩ := List.mem_flatMap.mp hname
      exact ⟨reader, hmem reader hreader, List.mem_append_right _ hname⟩

theorem nodes_apart_iff : (∀ name ∈ names nodeBaseName (nodeSuffixes graph) (replacedNodes ops graph),
      ∀ node ∈ untouched ops graph, name ≠ node.name) ↔
    ∀ node ∈ replacedNodes ops graph, ∀ s ∈ nodeSuffixes graph node,
      ∀ other ∈ untouched ops graph, nodeBaseName node ++ s ≠ other.name := by
  constructor
  · exact fun hne node hnode s hs => hne _ (mem_names.mpr ⟨node, hnode, s, hs, rfl⟩)
  · intro hne name hname
    obtain ⟨node, hnode, s, hs, rfl⟩ := mem_names.mp hname
    exact hne node hnode s hs

theorem Rewrites.undisturbed (h : Rewrites fromLeBytes ops graph graph' entries pieces)
    (hwell : WellFormed graph) (hwell' : WellFormed graph') : Undisturbed ops graph := by
  have hfresh := (tensors_iff hwell h).mp hwell'.tensors
  refine { (fresh_iff h).mp hfresh with nodeNames := ?_, captured := ?_ }
  · exact nodes_apart_iff.mp ((nodes_iff hwell h).mp hwell'.nodes).2
  · intro node hnode name hname hne hweight
    obtain ⟨reader, hreader, hreads⟩ := h.exists_reader hnode hname
    exact stillRead_of_produced hwell h hfresh hne ((mem_quantizedWeights h.weights).mp hweight)
      (hwell'.ordered.known hreader hreads hne)

theorem Rewrites.outputs_produced (h : Rewrites fromLeBytes ops graph graph' entries pieces)
    (hwell : WellFormed graph) : ∀ name ∈ graph'.output, name ≠ "" → name ∈ graph'.produced := by
  intro name hname hne
  rw [h.output] at hname
  rw [(produced_perm hwell h).mem_iff]
  apply List.mem_append_left _
  rcases List.mem_append.mp (hwell.outputs name hname hne) with hproduced | hout
  · refine List.mem_append_left _ (List.mem_append.mpr ?_)
    apply (List.mem_append.mp hproduced).imp_right
    intro hinit
    obtain ⟨t, ht, rfl⟩ := List.mem_map.mp hinit
    refine List.mem_map_of_mem (List.mem_filter.mpr ⟨ht, decide_eq_true (Or.inr ?_)⟩)
    exact List.mem_append_right _ hname
  · exact List.mem_append_right _ hout

theorem Rewrites.single (h : Rewrites fromLeBytes ops graph graph' entries pieces)
    (hwell : WellFormed graph) : ∀ node ∈ graph'.node, node.op_type ∈ ["MatMul", "Gemm", "Conv"] →
      ∃ y, node.output = [y] := by
  intro n hn hop
  rw [h.node] at hn
  obtain ⟨piece, hpiece, hn⟩ := List.mem_flatMap.mp hn
  obtain ⟨node, hnode, hreplace⟩ := h.exists_node hpiece
  cases hentry : entryOf ops graph entries node with
  | none =>
      rw [replaceNode_none hentry] at hreplace
      cases hreplace
      rw [List.mem_singleton.mp hn] at hop ⊢
      exact hwell.single node hnode hop
  | some e => exact absurd hop (op_type_chain hentry hreplace n hn)

theorem Rewrites.wellFormed (h : Rewrites fromLeBytes ops graph graph' entries pieces)
    (hwell : WellFormed graph) (hundisturbed : Undisturbed ops graph) : WellFormed graph' := by
  have hfresh := (fresh_iff h).mpr hundisturbed.toNamesApart
  refine ⟨(tensors_iff hwell h).mpr hfresh, ?_, ?_, h.outputs_produced hwell, h.single hwell⟩
  · exact (nodes_iff hwell h).mpr ⟨hundisturbed.bases, nodes_apart_iff.mpr hundisturbed.nodeNames⟩
  · apply h.ordered hwell
    intro node hnode name hname hne hweight
    have hgenerated : name ∉ generated entries pieces := fun hname =>
      hfresh.initializer _ hname (weight_mem_initializer h hweight)
    rw [live_iff_stillRead h hgenerated]
    exact hundisturbed.captured node hnode name hname hne ((mem_quantizedWeights h.weights).mpr hweight)

/-- The rewritten graph of a well-formed graph is well formed exactly when the names that are made up are
apart and no kept subgraph reads a weight that nothing else reads any more. -/
theorem wellFormed_iff (hwell : WellFormed graph)
    (hmodel : quantizeModel fromLeBytes ops graph = .ok graph') :
    WellFormed graph' ↔ Undisturbed ops graph := by
  obtain ⟨entries, pieces, h⟩ := quantizeModel_rewrites hmodel
  exact ⟨h.undisturbed hwell, h.wellFormed hwell⟩

end WellFormed

section Example

theorem wellFormed_shared : WellFormed sharedGraph := by
  refine ⟨by decide, by decide, by decide, by decide, fun node hnode _ => ?_⟩
  simp only [sharedGraph, List.mem_cons, List.not_mem_nil, or_false] at hnode
  rcases hnode with rfl | rfl
  · exact ⟨"y", rfl⟩
  · exact ⟨"z", rfl⟩

theorem wellFormed_iff_shared : ∃ graph',
    quantizeModel plainRuntime.fromLeBytes .default sharedGraph = .ok graph' ∧ WellFormed graph' := by
  have hweights := quantizeWeights_shared plainRuntime.fromLeBytes
  obtain ⟨graph', hmodel⟩ := exists_quantizeModel hweights (List.cons_ne_nil _ _) replaced_shared
  obtain ⟨entries, pieces, h⟩ := quantizeModel_rewrites hmodel
  obtain rfl : entries = [sharedEntry] := Except.ok.inj (h.weights.symm.trans hweights)
  obtain rfl : pieces = sharedPieces :=
    Except.ok.inj ((mapM_eq_ok.mpr h.replaced).symm.trans (mapM_eq_ok.mpr replaced_shared))
  have hquantized : ∀ node ∈ sharedGraph.node,
      (quantizedWeight .default sharedGraph node).isSome = true ∧ node.op_type ≠ "Conv" := by
    intro node hnode
    rw [isSome_quantizedWeight hweights hnode]
    simp only [sharedGraph, List.mem_cons, List.not_mem_nil, or_false] at hnode
    rcases hnode with rfl | rfl
    · exact ⟨rfl, by decide⟩
    · exact ⟨rfl, by decide⟩
  have hundisturbed : Undisturbed .default sharedGraph := by
    refine { (fresh_iff h).mp fresh_shared with nodeNames := ?_, captured := ?_ }
    · intro _ _ _ _ other hother
      obtain ⟨hmem, hnone⟩ := List.mem_filter.mp hother
      exact absurd (hquantized other hmem).1 (of_decide_eq_true hnone)
    · intro node hnode name hname
      rw [keptCaptured, if_pos (hquantized node hnode).1, if_neg (hquantized node hnode).2] at hname
      cases hname
  exact ⟨graph', hmodel, (wellFormed_iff wellFormed_shared hmodel).mpr hundisturbed⟩

/-- Two nodes whose names only differ where `sanitize` does not tell them apart. -/
def collidingGraph : GraphProto where
  node := [{ op_type := "MatMul", input := ["x", "w"], output := ["y"], name := "a/b" },
    { op_type := "MatMul", input := ["y", "w"], output := ["z"], name := "a:b" }]
  initializer := [onesTensor "w" [32, 32]]
  input := ["x"]
  output := ["z"]

theorem wellFormed_colliding : WellFormed collidingGraph := by
  refine ⟨by decide, by decide, by decide, by decide, fun node hnode _ => ?_⟩
  simp only [collidingGraph, List.mem_cons, List.not_mem_nil, or_false] at hnode
  rcases hnode with rfl | rfl
  · exact ⟨"y", rfl⟩
  · exact ⟨"z", rfl⟩

theorem colliding_not_wellFormed : ∃ graph',
    WellFormed collidingGraph ∧
      quantizeModel plainRuntime.fromLeBytes .default collidingGraph = .ok graph' ∧
      ¬WellFormed graph' := by
  have hweights : quantizeWeights plainRuntime.fromLeBytes (targets .default collidingGraph) [] =
      .ok [sharedEntry] := quantizeWeights_pair _ rfl rfl
  have hreplaced : List.Forall₂ (fun node piece =>
      replaceNode .default collidingGraph [sharedEntry] node = .ok piece) collidingGraph.node
      [(matmulChain "a_b" "x" "y" sharedEntry.names, []),
        (matmulChain "a_b" "y" "z" sharedEntry.names, [])] := .cons rfl (.cons rfl .nil)
  obtain ⟨graph', hmodel⟩ := exists_quantizeModel hweights (List.cons_ne_nil _ _) hreplaced
  refine ⟨graph', wellFormed_colliding, hmodel, fun hwell' => ?_⟩
  obtain ⟨entries, pieces, h⟩ := quantizeModel_rewrites hmodel
  have hall : replacedNodes .default collidingGraph = collidingGraph.node := by
    apply List.filter_eq_self.mpr
    intro node hnode
    rw [isSome_quantizedWeight hweights hnode]
    simp only [collidingGraph, List.mem_cons, List.not_mem_nil, or_false] at hnode
    rcases hnode with rfl | rfl <;> rfl
  have hbases := ((fresh_iff h).mp ((tensors_iff wellFormed_colliding h).mp hwell'.tensors)).bases
  rw [hall] at hbases
  exact absurd hbases (by decide)

end Example

end Gigastt.Quantize
