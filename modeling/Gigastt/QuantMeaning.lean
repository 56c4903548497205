import Gigastt.QuantWellFormed

/-!
The rewritten graph computes what the graph computes with the replaced operators on the numbers that
their quantized operands stand for.
-/

namespace Gigastt.Quantize

open Tensor Outcomes Suffixes

variable (rt : Runtime) {ops : QuantizeOps} {graph graph' : GraphProto} {entries : List WeightEntry}
  {pieces : List Piece} {piece : Piece} {node : NodeProto} {e : WeightEntry}

section Meaning

/-- The axis of a weight with one scale for each index. -/
def scaleAxis (node : NodeProto) (rank : ℕ) : ℕ := if node.op_type = "Conv" then 0 else rank - 1

/-- An operator on the numbers that its quantized activation and its quantized weight stand for. -/
def evalQuantized (node : NodeProto) (env : Env) : Option (List Value) :=
  match operands env node.input with
  | some (some (.float x) :: some (.float w) :: rest) =>
      (floatOp node (some (.float (dequantizedActivation x)) ::
        some (.float (dequantizedAlong (scaleAxis node w.rank) (w.dims.map Int64.ofNat) w)) ::
        rest)).map fun z => [.float z]
  | _ => none

/-- A graph whose nodes with a quantized weight compute on quantized operands. -/
def evalMeant (ops : QuantizeOps) (graph : GraphProto) (node : NodeProto) (env : Env) :
    Option (List Value) :=
  if (quantizedWeight ops graph node).isSome then evalQuantized node env else eval rt node env

def stepMeant (ops : QuantizeOps) (graph : GraphProto) (env : Env) (node : NodeProto) : Option Env :=
  (evalMeant rt ops graph node env).map fun values => bindOutputs env (node.output.zip values)

def runMeant (ops : QuantizeOps) (graph : GraphProto) (nodes : List NodeProto) (env : Env) :
    Option Env :=
  nodes.foldlM (stepMeant rt ops graph) env

/-- What the runtime is left to evaluate reads nothing but the operands and the captured tensors. -/
def Runtime.Local (rt : Runtime) : Prop :=
  ∀ (node : NodeProto) (env env' : Env),
    (∀ name ∈ node.reads, name ≠ "" → env name = env' name) →
      rt.evalOther node env = rt.evalOther node env'

/-- The graphs that the chains are made for: every weight has a column axis, one kind of operator and no
bias that is not an initializer. -/
structure Fits (ops : QuantizeOps) (graph : GraphProto) : Prop where
  rank : ∀ t ∈ targets ops graph, 2 ≤ t.init.dims.length
  gemm : ∀ t ∈ targets ops graph, t.node.op_type = "Gemm" → t.init.dims.length = 2
  kind : ∀ t ∈ targets ops graph, ∀ u ∈ targets ops graph, t.weight = u.weight →
    (t.node.op_type = "Conv" ↔ u.node.op_type = "Conv")
  bias : ∀ node ∈ replacedNodes ops graph, node.op_type = "Conv" → BiasKept graph node
  lengths : ∀ t ∈ graph.initializer, t.dims.length < 2 ^ 63

end Meaning

section Locality

variable {env env' : Env}

theorem operands_congr {names : List String}
    (h : ∀ name ∈ names, name ≠ "" → env name = env' name) :
    operands env names = operands env' names := by
  induction names with
  | nil => rfl
  | cons name names ih =>
      have hrest := ih fun name hname => h name (List.mem_cons_of_mem _ hname)
      rw [operands, operands] at hrest
      rw [operands, operands, List.mapM_cons, List.mapM_cons, hrest]
      by_cases hempty : name = ""
      · rw [if_pos hempty, if_pos hempty]
      · rw [if_neg hempty, if_neg hempty, h name List.mem_cons_self hempty]

theorem eval_congr (hlocal : rt.Local)
    (h : ∀ name ∈ node.reads, name ≠ "" → env name = env' name) :
    eval rt node env = eval rt node env' := by
  have hoperands : operands env node.input = operands env' node.input :=
    operands_congr fun name hname => h name (List.mem_append_left _ hname)
  unfold eval
  rw [hoperands, hlocal node env env' h]

theorem operand_eq_some {name : String} {v : Value} :
    (if name = "" then some none else (env name).map some) = some (some v) ↔
      name ≠ "" ∧ env name = some v := by
  by_cases hempty : name = ""
  · simp [hempty]
  · simp [hempty]

theorem operands_two {a b : String} {names : List String} {v u : Value} {rest : List (Option Value)}
    (h : operands env (a :: b :: names) = some (some v :: some u :: rest)) :
    (a ≠ "" ∧ env a = some v) ∧ (b ≠ "" ∧ env b = some u) ∧ operands env names = some rest := by
  obtain ⟨v', rest', hv, hrest', heq⟩ := operands_cons.mp h
  cases heq
  obtain ⟨u', rest'', hu, hrest, heq⟩ := operands_cons.mp hrest'
  cases heq
  exact ⟨operand_eq_some.mp hv, operand_eq_some.mp hu, hrest⟩

theorem operands_take_one {a : String} {names : List String} {v : Value} (hne : a ≠ "")
    (h : env a = some v) : operands env ((a :: names).take 1) = some [some v] := by
  simp [operands, hne, h]

/-- What is bound does not depend on what was known before. -/
theorem bindOutputs_congr {outputs : List (String × Value)} {name : String}
    (h : name ∈ outputs.map Prod.fst) : bindOutputs env outputs name = bindOutputs env' outputs name := by
  induction outputs generalizing env env' with
  | nil => cases h
  | cons nv outputs ih =>
      rw [bindOutputs, bindOutputs, List.foldl_cons, List.foldl_cons, ← bindOutputs, ← bindOutputs]
      by_cases hrest : name ∈ outputs.map Prod.fst
      · exact ih hrest
      · obtain rfl := (List.mem_cons.mp h).resolve_right hrest
        rw [bindOutputs_of_not_mem hrest, bindOutputs_of_not_mem hrest, if_pos rfl, if_pos rfl]

end Locality

section Frame

/-- The nodes touch nothing but their outputs, quantized or not. -/
theorem runMeant_frame {nodes : List NodeProto} {env env' : Env}
    (h : runMeant rt ops graph nodes env = some env') {name : String}
    (hname : name ∉ nodes.flatMap (·.output)) : env' name = env name := by
  induction nodes generalizing env with
  | nil => exact congrFun (Option.some.inj h).symm name
  | cons node nodes ih =>
      rw [List.flatMap_cons, List.mem_append, not_or] at hname
      obtain ⟨mid, hstep, hrest⟩ := Option.bind_eq_some_iff.mp (List.foldlM_cons.symm.trans h)
      obtain ⟨values, _, rfl⟩ := Option.map_eq_some_iff.mp hstep
      rw [ih hrest hname.2]
      apply bindOutputs_of_not_mem
      intro hmem
      obtain ⟨nv, hnv, rfl⟩ := List.mem_map.mp hmem
      exact hname.1 (List.of_mem_zip hnv).1

end Frame

section Simulation

/-- The runs of the two graphs know the same tensors, but for those that are made up and the weights that
nothing reads any more. -/
def Agree (graph graph' : GraphProto) (entries : List WeightEntry) (pieces : List Piece)
    (env env' : Env) : Prop :=
  ∀ name, name ∉ generated entries pieces → (name ∈ entries.map WeightEntry.weight →
    name ∈ liveNames graph'.node graph.output) → env' name = env name

theorem find?_filter_of_forall {α : Type*} {p q : α → Bool} {l : List α}
    (h : ∀ a ∈ l, q a = true → p a = true) : (l.filter p).find? q = l.find? q := by
  rw [List.find?_filter]
  induction l with
  | nil => rfl
  | cons a l ih =>
      have hrest := ih fun b hb => h b (List.mem_cons_of_mem _ hb)
      cases hq : q a with
      | false => rw [List.find?_cons_of_neg (by simp [hq]), List.find?_cons_of_neg (by simp [hq]), hrest]
      | true =>
          have hp := h a List.mem_cons_self hq
          rw [List.find?_cons_of_pos (by simp [hq, hp]), List.find?_cons_of_pos (by simp [hq])]

theorem Rewrites.agree_start (h : Rewrites rt.fromLeBytes ops graph graph' entries pieces) (feed : Env) :
    Agree graph graph' entries pieces (start rt graph feed) (start rt graph' feed) := by
  intro name hgenerated hlive
  rw [start, start, h.input, h.initializer]
  split_ifs with hinput
  · rfl
  have hadded : (added entries pieces).find? (·.name = name) = none := by
    rw [List.find?_eq_none]
    intro t ht heq
    apply hgenerated
    rw [← of_decide_eq_true heq]
    exact List.mem_append_left _ (List.mem_map_of_mem ht)
  rw [List.find?_append, hadded, Option.or_none, find?_filter_of_forall]
  intro t ht heq
  obtain rfl := of_decide_eq_true heq
  rw [decide_eq_true_eq, or_iff_not_imp_left, not_not]
  intro hany
  obtain ⟨e, he, hname⟩ := List.any_eq_true.mp hany
  exact hlive (List.mem_map.mpr ⟨e, he, of_decide_eq_true hname⟩)

/-- What a node reads is no name that is made up. -/
theorem WellFormed.read_not_generated (hwell : WellFormed graph)
    (hfresh : Fresh graph (generated entries pieces)) (hnode : node ∈ graph.node) {name : String}
    (hname : name ∈ node.reads) (hne : name ≠ "") : name ∉ generated entries pieces := by
  intro hmem
  rcases List.mem_append.mp (hwell.ordered.known hnode hname hne) with hknown | hout
  · rcases List.mem_append.mp hknown with hin | hinit
    · exact hfresh.input _ hmem hin
    · exact hfresh.initializer _ hmem hinit
  · exact hfresh.output _ hmem hout

/-- What a piece reads of the graph is there in both runs. -/
theorem Rewrites.read_agree (h : Rewrites rt.fromLeBytes ops graph graph' entries pieces)
    (hwell : WellFormed graph) (hfresh : Fresh graph (generated entries pieces))
    (hnode : node ∈ graph.node) (hpiece : piece ∈ pieces) {env env' : Env}
    (hagree : Agree graph graph' entries pieces env env') {name : String}
    (hread : name ∈ node.reads) (hlive : name ∈ piece.1.flatMap (·.input)) (hne : name ≠ "") :
    env' name = env name :=
  hagree name (hwell.read_not_generated hfresh hnode hread hne) fun _ =>
    h.mem_live.mpr (Or.inl ⟨piece, hpiece, hlive⟩)

variable {env env' : Env}

/-- A node that stays as it is steps alike. -/
theorem Rewrites.step_untouched (h : Rewrites rt.fromLeBytes ops graph graph' entries pieces)
    (hwell : WellFormed graph) (hundisturbed : Undisturbed ops graph) (hlocal : rt.Local)
    (hfresh : Fresh graph (generated entries pieces)) (hnode : node ∈ graph.node)
    (hpiece : ([node], []) ∈ pieces) (hentry : entryOf ops graph entries node = none)
    (hagree : Agree graph graph' entries pieces env env') {env₁ : Env}
    (hstep : step rt env node = some env₁) :
    ∃ env₁', step rt env' node = some env₁' ∧ Agree graph graph' entries pieces env₁ env₁' := by
  have hreads : ∀ name ∈ node.reads, name ≠ "" → env' name = env name := by
    intro name hname hne
    rcases List.mem_append.mp hname with hin | hcaptured
    · apply h.read_agree rt hwell hfresh hnode hpiece hagree hname _ hne
      simpa using hin
    · have hgenerated := hwell.read_not_generated hfresh hnode hname hne
      refine hagree name hgenerated fun hweight => (live_iff_stillRead h hgenerated).mpr ?_
      refine hundisturbed.captured node hnode name ?_ hne ((mem_quantizedWeights h.weights).mpr hweight)
      rw [keptCaptured_eq h.weights hnode, hentry]
      exact hcaptured
  obtain ⟨values, hvalues, rfl⟩ := Option.map_eq_some_iff.mp hstep
  refine ⟨bindOutputs env' (node.output.zip values), ?_, ?_⟩
  · rw [step, eval_congr rt hlocal hreads, hvalues]
    rfl
  · intro name hgenerated hlive
    by_cases hout : name ∈ (node.output.zip values).map Prod.fst
    · exact bindOutputs_congr hout
    · rw [bindOutputs_of_not_mem hout, bindOutputs_of_not_mem hout]
      exact hagree name hgenerated hlive

end Simulation

section Replaced

variable {env env' feed : Env}

/-- Under a name of its own the first initializer is the last one. -/
theorem WellFormed.find?_initializer (hwell : WellFormed graph) {name : String} (hne : name ≠ "")
    {t : TensorProto} (h : initOf graph name = some t) :
    graph.initializer.find? (·.name = name) = some t := by
  have hnodup : ((graph.initializer.filter fun t => t.name ≠ "").map (·.name)).Nodup := by
    have hsub : (graph.initializer.map (·.name)).Sublist graph.produced := by
      rw [GraphProto.produced]
      exact (List.sublist_append_right _ _).trans (List.sublist_append_left _ _)
    have hnames := (hsub.filter _).nodup hwell.tensors
    rw [List.filter_map] at hnames
    exact hnames
  rw [initOf] at h
  obtain rfl : t.name = name := by simpa using List.find?_some h
  have hmem := List.mem_reverse.mp (List.mem_of_find?_eq_some h)
  have hmem' : t ∈ graph.initializer.filter fun t => t.name ≠ "" :=
    List.mem_filter.mpr ⟨hmem, decide_eq_true hne⟩
  rw [← find?_of_nodup hnodup hmem']
  refine (find?_filter_of_forall fun u _ hu => decide_eq_true ?_).symm
  rw [of_decide_eq_true hu]
  exact hne

/-- However far the graph is run, a weight keeps the value of its initializer. -/
theorem weight_value (h : Rewrites rt.fromLeBytes ops graph graph' entries pieces)
    (hwell : WellFormed graph) (he : e ∈ entries) (hne : e.weight ≠ "") {i : ℕ}
    (hrun : runMeant rt ops graph (graph.node.take i) (start rt graph feed) = some env) :
    env e.weight = decode rt e.init := by
  have hmem := weight_mem_initializer h (List.mem_map_of_mem he)
  obtain ⟨hinput, hout⟩ := hwell.apart hne hmem
  rw [runMeant_frame rt hrun, start, if_neg hinput,
    hwell.find?_initializer hne (initOf_entry h.weights he), Option.bind_some]
  intro hout'
  obtain ⟨node, hnode, hname⟩ := List.mem_flatMap.mp hout'
  exact hout (List.mem_flatMap.mpr ⟨node, List.mem_of_mem_take hnode, hname⟩)

/-- The lengths of a weight are its dimensions. -/
theorem dims_entry (h : quantizeWeights rt.fromLeBytes (targets ops graph) [] = .ok entries)
    (he : e ∈ entries) {w : Tensor ℚ} (hw : decode rt e.init = some (.float w)) :
    w.dims.map Int64.ofNat = e.init.dims := by
  obtain ⟨t, _, _, hof⟩ := entry_first h he
  have hzero := zero_not_mem hof.data hof.length_eq
  rw [(decode_entry rt h he hw).1, sizes, List.map_map, hof.init]
  apply (List.map_congr_left fun d hd => ?_).trans (List.map_id _)
  have hpos : d.toNatClampNeg ≠ 0 := fun heq => hzero (List.mem_map.mpr ⟨d, hd, heq⟩)
  apply Int64.ofNat_toNatClampNeg
  rw [Int64.le_iff_toInt_le]
  have htoNat : d.toInt.toNat ≠ 0 := hpos
  have hnonneg : 0 ≤ d.toInt := by omega
  exact hnonneg

theorem scaleAxis_conv {rank : ℕ} (hop : node.op_type = "Conv") : scaleAxis node rank = 0 :=
  if_pos hop

/-- A weight is scaled along the axis that each of its consumers has. -/
theorem axis_entry (hfits : Fits ops graph)
    (h : quantizeWeights rt.fromLeBytes (targets ops graph) [] = .ok entries)
    (hnode : node ∈ graph.node) (hentry : entryOf ops graph entries node = some e) :
    e.axis = scaleAxis node e.init.dims.length := by
  obtain ⟨he, _, _, init, _, htarget, hinit⟩ := entryOf_eq_some hentry
  obtain ⟨t, ht, _, hof⟩ := entry_first h he
  have hu : ⟨node, e.weight, init⟩ ∈ targets ops graph := mem_targets.mpr ⟨hnode, htarget⟩
  have hkind := hfits.kind t ht _ hu hof.weight.symm
  rw [hof.axis, hof.init, scaleAxis, perChannelAxis]
  dsimp only at hkind ⊢
  by_cases hconv : t.node.op_type = "Conv"
  · rw [if_pos hconv, if_pos (hkind.mp hconv)]
  rw [if_neg hconv, if_neg fun hop => hconv (hkind.mpr hop)]
  by_cases hgemm : t.node.op_type = "Gemm"
  · have hattributes : t.node.attributes = [] := by
      obtain ⟨_, _, _, _, _, _, hgeneral⟩ := target_eq_some (mem_targets.mp ht).2
      rw [generalGemm, decide_eq_false_iff_not, not_and_or, not_or] at hgeneral
      exact not_not.mp (hgeneral.resolve_left (not_not.mpr hgemm)).1
    have htrans : attrInt t.node "transB" = none := by rw [attrInt, hattributes]; rfl
    rw [if_pos hgemm, htrans, hfits.gemm t ht hgemm]
    rfl
  · rw [if_neg hgemm]

theorem floatOp_rest {a b z : Tensor ℚ} {rest : List (Option Value)} (hop : node.op_type ≠ "Conv")
    (h : floatOp node (some (.float a) :: some (.float b) :: rest) = some z) :
    rest = [] ∨ rest = [none] := by
  unfold floatOp at h
  split at h
  · rename_i heq
    cases heq
    exact Or.inl rfl
  · rename_i heq
    cases heq
    exact Or.inr rfl
  · rename_i heq
    cases heq
    rw [if_neg hop] at h
    cases h
  · cases h

/-- The operands after the weight are there in both runs: they are left out, or the bias. -/
theorem Rewrites.operands_rest (h : Rewrites rt.fromLeBytes ops graph graph' entries pieces)
    (hwell : WellFormed graph) (hfits : Fits ops graph) (hfresh : Fresh graph (generated entries pieces))
    (hnode : node ∈ graph.node) (hpiece : piece ∈ pieces)
    (hreplace : replaceNode ops graph entries node = .ok piece)
    (hentry : entryOf ops graph entries node = some e)
    (hagree : Agree graph graph' entries pieces env env') {a b z : Tensor ℚ}
    {rest : List (Option Value)} (hrest : operands env (node.input.drop 2) = some rest)
    (hz : floatOp node (some (.float a) :: some (.float b) :: rest) = some z) :
    operands env' (node.input.drop 2) = some rest := by
  have hnone : rest = [] ∨ rest = [none] → operands env' (node.input.drop 2) = some rest := by
    rintro (rfl | rfl)
    · rw [operands_eq_nil hrest]
      rfl
    · rw [operands_eq_none hrest]
      rfl
  by_cases hop : node.op_type = "Conv"
  · obtain ⟨_, _, ⟨hnil, _⟩ | ⟨c, rfl, _⟩⟩ := floatOp_conv hop hz
    · exact hnone hnil
    · obtain ⟨bias, hdrop, hne, _⟩ := operands_eq_some hrest
      have hthird : node.input[2]? = some bias := by
        rw [← List.head?_drop, hdrop]
        rfl
      have hreplaced : node ∈ replacedNodes ops graph := by
        apply List.mem_filter.mpr ⟨hnode, _⟩
        rw [isSome_quantizedWeight h.weights hnode, hentry]
        rfl
      have hname : biasName node graph.initializer = some bias :=
        biasName_eq_some hthird hne (hfits.bias node hreplaced hop bias hthird hne)
      have hlive : bias ∈ piece.1.flatMap (·.input) := by
        refine (mem_input_chain hentry hreplace).mpr (Or.inl (List.mem_append_right _ ?_))
        rw [if_pos hop, hname]
        exact List.mem_singleton_self bias
      rw [hdrop] at hrest ⊢
      rw [← hrest]
      apply operands_congr
      intro name hname hne
      obtain rfl := List.mem_singleton.mp hname
      refine h.read_agree rt hwell hfresh hnode hpiece hagree ?_ hlive hne
      exact List.mem_append_left _ (List.mem_of_getElem? hthird)
  · exact hnone (floatOp_rest hop hz)

theorem evalQuantized_eq_some {values : List Value} (h : evalQuantized node env = some values) :
    ∃ a b rest x w others z, node.input = a :: b :: rest ∧ (a ≠ "" ∧ env a = some (.float x)) ∧
      (b ≠ "" ∧ env b = some (.float w)) ∧ operands env rest = some others ∧
      floatOp node (some (.float (dequantizedActivation x)) :: some (.float (dequantizedAlong
        (scaleAxis node w.rank) (w.dims.map Int64.ofNat) w)) :: others) = some z ∧
      values = [.float z] := by
  unfold evalQuantized at h
  split at h
  · rename_i x w others hoperands
    obtain ⟨z, hz, rfl⟩ := Option.map_eq_some_iff.mp h
    generalize hinput : node.input = names at hoperands
    rcases names with _ | ⟨a, _ | ⟨b, rest⟩⟩
    · cases hoperands
    · obtain ⟨_, _, _, hnil, heq⟩ := operands_cons.mp hoperands
      cases heq
      cases hnil
    · obtain ⟨ha, hb, hrest⟩ := operands_two hoperands
      exact ⟨a, b, rest, x, w, others, z, rfl, ha, hb, hrest, hz, rfl⟩
  · cases h

/-- The chain of a node steps as the node is meant to. -/
theorem Rewrites.step_replaced (h : Rewrites rt.fromLeBytes ops graph graph' entries pieces)
    (hwell : WellFormed graph) (hfits : Fits ops graph) (hfresh : Fresh graph (generated entries pieces))
    {i : ℕ} (hnode : graph.node[i]? = some node) (hpiece : pieces[i]? = some piece)
    (hentry : entryOf ops graph entries node = some e)
    (hrun : runMeant rt ops graph (graph.node.take i) (start rt graph feed) = some env)
    (hrun' : run rt ((pieces.take i).flatMap Prod.fst) (start rt graph' feed) = some env')
    (hagree : Agree graph graph' entries pieces env env') {values : List Value}
    (hvalues : evalQuantized node env = some values) :
    ∃ env₁', run rt piece.1 env' = some env₁' ∧
      Agree graph graph' entries pieces (bindOutputs env (node.output.zip values)) env₁' := by
  have hmem := List.mem_of_getElem? hnode
  have hpiece' := List.mem_of_getElem? hpiece
  have hreplace := h.replaceNode_getElem rt hnode hpiece
  obtain ⟨a, b, rest, x, w, others, z, hinput, ⟨hane, ha⟩, ⟨hbne, hb⟩, hothers, hz, rfl⟩ :=
    evalQuantized_eq_some hvalues
  obtain ⟨he, a', ins, init, hinput', htarget, _⟩ := entryOf_eq_some hentry
  rw [hinput] at hinput'
  cases hinput'
  -- the one output
  obtain ⟨y, outs, houtput, houtputs, _⟩ := names_of_replaced hentry hreplace
  have hy : node.output = [y] := by
    rw [final_eq hwell.single hmem hreplace]
    rw [outputs_piece] at houtputs
    exact List.append_cancel_left houtputs
  -- the operands in the other run
  have hw : decode rt e.init = some (.float w) := by
    rw [← weight_value rt h hwell he hbne hrun, hb]
  have hlength : w.rank = e.init.dims.length := by
    rw [Tensor.rank, (decode_entry rt h.weights he hw).1, length_sizes]
  have haxis := axis_entry rt hfits h.weights hmem hentry
  have hrank : 2 ≤ w.rank := by
    obtain ⟨t, ht, _, hof⟩ := entry_first h.weights he
    rw [hlength, hof.init]
    exact hfits.rank t ht
  have ha' : env' a = some (.float x) := by
    rw [← ha]
    apply h.read_agree rt hwell hfresh hmem hpiece' hagree _ _ hane
    · rw [NodeProto.reads, hinput]
      exact List.mem_cons_self
    · refine (mem_input_chain hentry hreplace).mpr (Or.inl (List.mem_append_left _ ?_))
      rw [hinput]
      exact List.mem_cons_self
  have hrest : operands env (node.input.drop 2) = some others := by
    rw [hinput]
    exact hothers
  have hrest' := h.operands_rest rt hwell hfits hfresh hmem hpiece' hreplace hentry hagree hrest hz
  rw [dims_entry rt h.weights he hw] at hz
  have hactivation : operands env' (node.input.take 1) = some [some (.float x)] := by
    rw [hinput]
    exact operands_take_one hane ha'
  have hout : Outputs rt piece env' y z := by
    by_cases hop : node.op_type = "Conv"
    · rw [scaleAxis_conv hop] at haxis hz
      have hreached : Reached rt graph' (pieces.take i) node (fun _ => 0) e.init env' y x w z :=
        ⟨⟨feed, hrun'⟩, by rw [hy]; rfl, hactivation, hw, hrank, by rw [hrest']; exact hz⟩
      have hinit := hwell.find?_initializer hbne (initOf_entry h.weights he)
      obtain ⟨z₀, hout, hkept, _⟩ :=
        h.outputs_conv rt hfresh hfits.lengths hnode hpiece hentry hop haxis hinit hreached
      have hreplaced : node ∈ replacedNodes ops graph := by
        apply List.mem_filter.mpr ⟨hmem, _⟩
        rw [isSome_quantizedWeight h.weights hmem, hentry]
        rfl
      rw [← hkept (hfits.bias node hreplaced hop)]
      exact hout
    · rw [scaleAxis, if_neg hop] at haxis hz
      have hreached : Reached rt graph' (pieces.take i) node (· - 1) e.init env' y x w z :=
        ⟨⟨feed, hrun'⟩, by rw [hy]; rfl, hactivation, hw, hrank, by rw [hrest']; exact hz⟩
      exact h.outputs_matMul rt hfresh hnode hpiece hentry hop haxis hreached
  obtain ⟨env₁', hchain, hyz⟩ := hout
  refine ⟨env₁', hchain, fun name hgenerated hlive => ?_⟩
  have hbound : bindOutputs env (node.output.zip [.float z]) name =
      if name = y then some (.float z) else env name := by
    rw [hy]
    rfl
  rw [hbound]
  split_ifs with heq
  · rw [heq, hyz]
  · rw [run_frame rt hchain, hagree name hgenerated hlive]
    rw [houtputs, List.mem_append, List.mem_singleton, not_or]
    refine ⟨fun hinner => hgenerated (List.mem_append_right _ ?_), heq⟩
    exact List.mem_flatMap.mpr ⟨piece, hpiece', hinner⟩

end Replaced

section Preserved

/-- As far as the graph runs, the rewritten one does, and both know the same. -/
theorem Rewrites.run_agree (h : Rewrites rt.fromLeBytes ops graph graph' entries pieces)
    (hwell : WellFormed graph) (hundisturbed : Undisturbed ops graph) (hfits : Fits ops graph)
    (hlocal : rt.Local) {feed env : Env} (i : ℕ)
    (hrun : runMeant rt ops graph (graph.node.take i) (start rt graph feed) = some env) :
    ∃ env', run rt ((pieces.take i).flatMap Prod.fst) (start rt graph' feed) = some env' ∧
      Agree graph graph' entries pieces env env' := by
  have hfresh := (fresh_iff h).mpr hundisturbed.toNamesApart
  induction i generalizing env with
  | zero =>
      cases hrun
      exact ⟨start rt graph' feed, rfl, h.agree_start rt feed⟩
  | succ i ih =>
      have hlen := h.replaced.length_eq
      by_cases hi : i < graph.node.length
      · have hnode := List.getElem?_eq_getElem hi
        have hpiece := List.getElem?_eq_getElem (hlen ▸ hi : i < pieces.length)
        generalize graph.node[i] = node at hnode
        generalize pieces[i] = piece at hpiece
        rw [List.take_add_one, hnode, Option.toList_some, runMeant, List.foldlM_append] at hrun
        obtain ⟨mid, hmid, hlast⟩ := Option.bind_eq_some_iff.mp hrun
        obtain ⟨mid', hmid', hagree⟩ := ih hmid
        rw [List.foldlM_cons] at hlast
        obtain ⟨env₁, hstep, hnil⟩ := Option.bind_eq_some_iff.mp hlast
        cases hnil
        rw [List.take_add_one, hpiece, Option.toList_some, List.flatMap_append, List.flatMap_singleton,
          run_append, hmid', Option.bind_some]
        have hmem := List.mem_of_getElem? hnode
        have hreplace := h.replaceNode_getElem rt hnode hpiece
        rw [stepMeant, evalMeant, isSome_quantizedWeight h.weights hmem] at hstep
        cases hentry : entryOf ops graph entries node with
        | none =>
            rw [replaceNode_none hentry] at hreplace
            cases hreplace
            rw [hentry] at hstep
            obtain ⟨env₁', hstep', hagree'⟩ := h.step_untouched rt hwell hundisturbed hlocal hfresh
              hmem (List.mem_of_getElem? hpiece) hentry hagree hstep
            exact ⟨env₁', run_cons_of_step rt hstep', hagree'⟩
        | some e =>
            rw [hentry, if_pos Option.isSome_some] at hstep
            obtain ⟨values, hvalues, rfl⟩ := Option.map_eq_some_iff.mp hstep
            exact h.step_replaced rt hwell hfits hfresh hnode hpiece hentry hmid hmid' hagree hvalues
      · rw [not_lt] at hi
        rw [List.take_of_length_le (Nat.le_succ_of_le hi), ← List.take_of_length_le hi] at hrun
        obtain ⟨env', hrun', hagree⟩ := ih hrun
        rw [hlen] at hi
        refine ⟨env', ?_, hagree⟩
        rw [List.take_of_length_le hi] at hrun'
        rw [List.take_of_length_le (Nat.le_succ_of_le hi)]
        exact hrun'

end Preserved

section Again

variable {fromLeBytes : UInt8 → UInt8 → UInt8 → UInt8 → ℚ}

/-- A weight that the rewritten graph has under a name of the graph is the one the graph has. -/
theorem Rewrites.initOf_eq_some (h : Rewrites fromLeBytes ops graph graph' entries pieces) {name : String}
    (hname : name ∉ generated entries pieces) {t : TensorProto} (ht : initOf graph' name = some t) :
    initOf graph name = some t := by
  have hadded : (added entries pieces).reverse.find? (·.name = name) = none := by
    rw [List.find?_eq_none]
    intro u hu heq
    apply hname
    rw [← of_decide_eq_true heq]
    exact List.mem_append_left _ (List.mem_map_of_mem (List.mem_reverse.mp hu))
  rw [initOf, h.initializer, List.reverse_append, List.find?_append, hadded, Option.none_or,
    ← List.filter_reverse] at ht
  have hkept := (List.mem_filter.mp (List.mem_of_find?_eq_some ht)).2
  have ht' := List.find?_some ht
  rw [initOf, ← ht, find?_filter_of_forall]
  intro u _ hu
  rw [of_decide_eq_true hu, ← of_decide_eq_true ht']
  exact hkept

/-- A node that the pass would take from the rewritten graph is one it has passed over. -/
theorem Rewrites.target_passed (h : Rewrites fromLeBytes ops graph graph' entries pieces)
    (hwell : WellFormed graph) (hfresh : Fresh graph (generated entries pieces))
    (hnode : node ∈ graph'.node) {weight : String} {init : TensorProto}
    (htarget : target ops graph' node = some (weight, init)) :
    quantizeWeight fromLeBytes ⟨node, weight, init⟩ = .ok none := by
  obtain ⟨a, rest, hinput, hinit, _, hallows, _⟩ := target_eq_some htarget
  rw [h.node] at hnode
  obtain ⟨piece, hpiece, hmem⟩ := List.mem_flatMap.mp hnode
  obtain ⟨other, hother, hreplace⟩ := h.exists_node hpiece
  cases hentry : entryOf ops graph entries other with
  | some e =>
      -- a node of a chain
      have hop := op_type_chain hentry hreplace node hmem
      simp only [List.mem_cons, List.not_mem_nil, or_false, not_or] at hop
      rw [QuantizeOps.allows, if_neg (not_or.mpr ⟨hop.1, hop.2.1⟩), if_neg hop.2.2] at hallows
      cases hallows
  | none =>
      rw [replaceNode_none hentry] at hreplace
      cases hreplace
      obtain rfl := List.mem_singleton.mp hmem
      have hgenerated : weight ∉ generated entries pieces := by
        intro hmade
        have hread : weight ∈ node.reads := by
          rw [NodeProto.reads, hinput]
          exact List.mem_cons_of_mem _ List.mem_cons_self
        exact hwell.read_not_generated hfresh hother hread (generated_ne_empty h hmade) hmade
      have hinit' := h.initOf_eq_some hgenerated hinit
      have htarget' : target ops graph node = some (weight, init) := by
        rw [← htarget, target, target, hinput]
        dsimp only
        rw [hinit, hinit']
      have ht : ⟨node, weight, init⟩ ∈ targets ops graph := mem_targets.mpr ⟨hother, htarget'⟩
      refine (quantizeWeights_complete (fun t ht u hu => targets_same ht hu) h.weights ht).resolve_left ?_
      intro hweight
      obtain ⟨e, he, heq⟩ := List.mem_map.mp hweight
      rw [entryOf, htarget', Option.bind_some] at hentry
      exact List.find?_eq_none.mp hentry e he (decide_eq_true heq)

theorem quantizeWeights_skipped {ts : List Target} (acc : List WeightEntry)
    (h : ∀ t ∈ ts, quantizeWeight fromLeBytes t = .ok none) :
    quantizeWeights fromLeBytes ts acc = .ok acc := by
  induction ts with
  | nil => rfl
  | cons t ts ih =>
      have hrest := ih fun u hu => h u (List.mem_cons_of_mem _ hu)
      rw [quantizeWeights, h t List.mem_cons_self]
      split_ifs
      · exact hrest
      · exact hrest

/-- The pass refuses a graph that it has rewritten: whatever is left in numbers it passes over again. -/
theorem quantizeModel_again {graph graph' : GraphProto} (hwell : WellFormed graph)
    (hapart : NamesApart ops graph) (hmodel : quantizeModel fromLeBytes ops graph = .ok graph') :
    quantizeModel fromLeBytes ops graph' =
      .error (.error "No weights were quantized; refusing to write a float-only model as INT8") := by
  obtain ⟨entries, pieces, h⟩ := quantizeModel_rewrites hmodel
  have hfresh := (fresh_iff h).mpr hapart
  have hskipped : quantizeWeights fromLeBytes (targets ops graph') [] = .ok [] := by
    apply quantizeWeights_skipped
    intro t ht
    obtain ⟨hnode, htarget⟩ := mem_targets.mp ht
    exact h.target_passed hwell hfresh hnode htarget
  rw [quantizeModel, hskipped]
  rfl

end Again

section Example

theorem undisturbed_shared {graph' : GraphProto} {entries : List WeightEntry} {pieces : List Piece}
    (h : Rewrites plainRuntime.fromLeBytes .default sharedGraph graph' entries pieces) :
    Undisturbed .default sharedGraph := by
  have hweights := quantizeWeights_shared plainRuntime.fromLeBytes
  obtain rfl : entries = [sharedEntry] := Except.ok.inj (h.weights.symm.trans hweights)
  obtain rfl : pieces = sharedPieces :=
    Except.ok.inj ((mapM_eq_ok.mpr h.replaced).symm.trans (mapM_eq_ok.mpr replaced_shared))
  have hquantized : ∀ node ∈ sharedGraph.node,
      (quantizedWeight .default sharedGraph node).isSome = true ∧ node.op_type ≠ "Conv" := by
    intro node hnode
    rw [isSome_quantizedWeight hweights hnode]
    simp only [sharedGraph, List.mem_cons, List.not_mem_nil, or_false] at hnode
    rcases hnode with rfl | rfl
    · exact ⟨rfl, by decide⟩
    · exact ⟨rfl, by decide⟩
  refine { (fresh_iff h).mp fresh_shared with nodeNames := ?_, captured := ?_ }
  · intro _ _ _ _ other hother
    obtain ⟨hmem, hnone⟩ := List.mem_filter.mp hother
    exact absurd (hquantized other hmem).1 (of_decide_eq_true hnone)
  · intro node hnode name hname
    rw [keptCaptured, if_pos (hquantized node hnode).1, if_neg (hquantized node hnode).2] at hname
    cases hname

theorem fits_shared : Fits .default sharedGraph := by
  have htargets : targets .default sharedGraph =
      [⟨sharedGraph.node[0], "w", onesTensor "w" [32, 32]⟩,
        ⟨sharedGraph.node[1], "w", onesTensor "w" [32, 32]⟩] := rfl
  have hcases : ∀ t ∈ targets .default sharedGraph,
      t.init.dims = [32, 32] ∧ t.node.op_type ≠ "Conv" := by
    intro t ht
    rw [htargets] at ht
    simp only [List.mem_cons, List.not_mem_nil, or_false] at ht
    rcases ht with rfl | rfl
    · exact ⟨rfl, by decide⟩
    · exact ⟨rfl, by decide⟩
  refine ⟨?_, ?_, ?_, ?_, ?_⟩
  · intro t ht
    rw [(hcases t ht).1]
    decide
  · intro t ht _
    rw [(hcases t ht).1]
    rfl
  · intro t ht u hu _
    exact iff_of_false (hcases t ht).2 (hcases u hu).2
  · intro node hnode hop
    have hmem := (List.mem_filter.mp hnode).1
    simp only [sharedGraph, List.mem_cons, List.not_mem_nil, or_false] at hmem
    rcases hmem with rfl | rfl
    · exact absurd hop (by decide)
    · exact absurd hop (by decide)
  · intro t ht
    obtain rfl := List.mem_singleton.mp ht
    decide

/-- A row times a square matrix, by either operator. -/
theorem evalQuantized_shared (node : NodeProto) {env : Env} {x w : Tensor ℚ} {a : String} (ha : a ≠ "")
    (hx : env a = some (.float x)) (hw : env "w" = some (.float w)) (hxdims : x.dims = [1, 32])
    (hwdims : w.dims = [32, 32]) (hinput : node.input = [a, "w"])
    (hop : node.op_type = "MatMul" ∨ node.op_type = "Gemm" ∧ node.attributes = []) :
    ∃ z : Tensor ℚ, evalQuantized node env = some [.float z] ∧ z.dims = [1, 32] := by
  have hdims : ∃ p, Contraction.matmul [1, 32] [32, 32] = some p ∧ p.dims = [1, 32] := ⟨_, rfl, rfl⟩
  obtain ⟨p, hp, hpdims⟩ := hdims
  have hoperands : operands env node.input = some [some (.float x), some (.float w)] := by
    rw [hinput]
    simp [operands, ha, hx, hw]
  rw [evalQuantized, hoperands]
  dsimp only
  generalize hq : dequantizedAlong (scaleAxis node w.rank) (w.dims.map Int64.ofNat) w = q
  have hqdims : q.dims = [32, 32] := by rw [← hq]; exact hwdims
  have hadims : (dequantizedActivation x).dims = [1, 32] := hxdims
  have hmatMul : matMul (dequantizedActivation x) q = some (p.apply (dequantizedActivation x) q) := by
    rw [matMul, hadims, hqdims, hp, Option.map_some]
  have hfloat : floatOp node [some (.float (dequantizedActivation x)), some (.float q)] =
      some (p.apply (dequantizedActivation x) q) := by
    rw [floatOp]
    rcases hop with hop | ⟨hop, hattributes⟩
    · rw [if_pos hop, hmatMul]
    · have hranks : (dequantizedActivation x).rank = 2 ∧ q.rank = 2 := by
        rw [Tensor.rank, Tensor.rank, hadims, hqdims]
        exact ⟨rfl, rfl⟩
      rw [if_neg (by rw [hop]; decide), if_pos ⟨hop, hattributes, hranks⟩, hmatMul]
  rw [hfloat]
  exact ⟨_, rfl, hpdims⟩

theorem quantizeModel_again_shared : ∃ graph',
    quantizeModel plainRuntime.fromLeBytes .default sharedGraph = .ok graph' ∧
      quantizeModel plainRuntime.fromLeBytes .default graph' =
        .error (.error "No weights were quantized; refusing to write a float-only model as INT8") := by
  obtain ⟨graph', hmodel⟩ := exists_quantizeModel
    (quantizeWeights_shared plainRuntime.fromLeBytes) (List.cons_ne_nil _ _) replaced_shared
  obtain ⟨entries, pieces, h⟩ := quantizeModel_rewrites hmodel
  refine ⟨graph', hmodel, ?_⟩
  exact quantizeModel_again wellFormed_shared (undisturbed_shared h).toNamesApart hmodel

end Example

end Gigastt.Quantize
