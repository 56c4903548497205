import Gigastt.OnnxSemantics
import Gigastt.QuantPass
import Mathlib.Data.List.GetD

/-!
The weights that the pass quantizes, each along the axis of its first consumer, and the tensors that
are added for them as the runtime reads them.
-/

namespace Gigastt.Quantize

open Tensor

variable {fromLeBytes : UInt8 → UInt8 → UInt8 → UInt8 → ℚ} {ops : QuantizeOps} {graph : GraphProto}
  {t u : Target} {e : WeightEntry}

section Checked

theorem floatChunks_ne_nil {bytes : List UInt8} (hsome : bytes ≠ []) (hlen : bytes.length % 4 = 0) :
    floatChunks fromLeBytes bytes ≠ [] := by
  rcases bytes with _ | ⟨b0, _ | ⟨b1, _ | ⟨b2, _ | ⟨b3, rest⟩⟩⟩⟩
  · exact absurd rfl hsome
  · simp at hlen
  · simp at hlen
  · simp at hlen
  · exact List.cons_ne_nil _ _

theorem extractFloatData_ne_nil {tensor : TensorProto} {data : List ℚ}
    (h : extractFloatData fromLeBytes tensor = .ok data) : data ≠ [] := by
  unfold extractFloatData at h
  split_ifs at h with hfloat hraw halign
  · cases h
    exact hfloat
  · cases h
    exact floatChunks_ne_nil hraw halign

theorem perChannelAxis_lt (op_type : String) (node : NodeProto) {rank : ℕ} (hrank : 0 < rank) :
    perChannelAxis op_type node rank < rank := by
  unfold perChannelAxis
  dsimp only
  split_ifs <;> omega

/-- What the pass has checked of a weight. -/
structure WeightEntry.Of (fromLeBytes : UInt8 → UInt8 → UInt8 → UInt8 → ℚ) (t : Target)
    (e : WeightEntry) : Prop where
  weight : e.weight = t.weight
  init : e.init = t.init
  data : extractFloatData fromLeBytes t.init = .ok e.data
  axis : e.axis = perChannelAxis t.node.op_type t.node t.init.dims.length
  dims_ne : t.init.dims ≠ []
  length_eq : usizeProduct (sizes t.init.dims) = e.data.length
  channels : (sizes t.init.dims).getD e.axis 0 ≠ 0

theorem quantizeWeight_eq_some :
    quantizeWeight fromLeBytes t = .ok (some e) ↔ e.Of fromLeBytes t := by
  unfold quantizeWeight
  constructor
  · intro h
    cases hdata : extractFloatData fromLeBytes t.init with
    | error halt =>
        rw [hdata] at h
        cases h
    | ok data =>
        rw [hdata] at h
        dsimp only [Except.bind, bind, pure, Except.pure] at h
        by_cases hdims : t.init.dims = []
        · rw [if_pos hdims] at h
          cases h
        by_cases hlen : usizeProduct (sizes t.init.dims) ≠ data.length
        · rw [if_neg hdims, if_pos hlen] at h
          cases h
        rw [if_neg hdims, if_neg hlen] at h
        split_ifs at h with hchannels
        · cases h
        · cases h
          exact ⟨rfl, rfl, hdata, rfl, hdims, not_not.mp hlen, hchannels⟩
  · intro h
    obtain ⟨hweight, hinit, hdata, haxis, hdims, hlen, hchannels⟩ := h
    rw [haxis] at hchannels
    rw [hdata]
    dsimp only [Except.bind, bind, pure, Except.pure]
    rw [if_neg hdims, if_neg (not_not.mpr hlen), if_neg hchannels]
    obtain ⟨weight, init, data, axis⟩ := e
    subst hweight hinit haxis
    rfl

theorem usizeProduct_eq_zero {lengths : List ℕ} (h : 0 ∈ lengths) : usizeProduct lengths = 0 := by
  rw [usizeProduct, List.prod_eq_zero h, Nat.zero_mod]

/-- A weight that holds data has no axis of length zero. -/
theorem zero_not_mem {tensor : TensorProto} {data : List ℚ}
    (hdata : extractFloatData fromLeBytes tensor = .ok data)
    (hlen : usizeProduct (sizes tensor.dims) = data.length) : 0 ∉ sizes tensor.dims := by
  intro hzero
  rw [usizeProduct_eq_zero hzero] at hlen
  exact extractFloatData_ne_nil hdata (List.length_eq_zero_iff.mp hlen.symm)

/-- Nothing else is checked of a weight that holds data. -/
theorem exists_of {data : List ℚ} (hdata : extractFloatData fromLeBytes t.init = .ok data)
    (hdims : t.init.dims ≠ []) (hlen : usizeProduct (sizes t.init.dims) = data.length) :
    ∃ e : WeightEntry, e.Of fromLeBytes t := by
  refine ⟨⟨t.weight, t.init, data, perChannelAxis t.node.op_type t.node t.init.dims.length⟩,
    rfl, rfl, hdata, rfl, hdims, hlen, ?_⟩
  have haxis : perChannelAxis t.node.op_type t.node t.init.dims.length <
      (sizes t.init.dims).length := by
    rw [length_sizes]
    exact perChannelAxis_lt _ _ (List.length_pos_of_ne_nil hdims)
  rw [List.getD_eq_getElem _ _ haxis]
  exact fun heq => zero_not_mem hdata hlen (heq ▸ List.getElem_mem haxis)

/-- Whether a weight is skipped does not depend on its consumer. -/
theorem quantizeWeight_isSome_congr (hinit : u.init = t.init) (hu : e.Of fromLeBytes u) :
    ∃ e' : WeightEntry, e'.Of fromLeBytes t := by
  obtain ⟨_, _, hdata, _, hdims, hlen, _⟩ := hu
  rw [hinit] at hdata hdims hlen
  exact exists_of hdata hdims hlen

theorem extracted_of_skipped (h : quantizeWeight fromLeBytes t = .ok none) :
    ∃ data, extractFloatData fromLeBytes t.init = .ok data := by
  cases hdata : extractFloatData fromLeBytes t.init with
  | error halt =>
      rw [quantizeWeight, hdata] at h
      cases h
  | ok data => exact ⟨data, rfl⟩

end Checked

section Entries

/-- Each weight once, as its first consumer has it quantized. -/
structure FirstConsumers (fromLeBytes : UInt8 → UInt8 → UInt8 → UInt8 → ℚ) (ts : List Target)
    (acc entries : List WeightEntry) : Prop where
  nodup : (acc.map WeightEntry.weight).Nodup → (entries.map WeightEntry.weight).Nodup
  kept : acc ⊆ entries
  first : ∀ e ∈ entries, e ∈ acc ∨ e.weight ∉ acc.map WeightEntry.weight ∧
    ∃ t, ts.find? (·.weight = e.weight) = some t ∧ e.Of fromLeBytes t

namespace FirstConsumers

variable {t : Target} {ts : List Target} {acc entries : List WeightEntry}

/-- A consumer that adds no entry is the first of none. -/
theorem cons_skipped (h : FirstConsumers fromLeBytes ts acc entries)
    (hskip : ∀ (e : WeightEntry) u, e.weight ∉ acc.map WeightEntry.weight →
      ts.find? (·.weight = e.weight) = some u → e.Of fromLeBytes u → t.weight ≠ e.weight) :
    FirstConsumers fromLeBytes (t :: ts) acc entries := by
  refine ⟨h.nodup, h.kept, fun e he => ?_⟩
  rcases h.first e he with hacc | ⟨hnew, u, hfind, hof⟩
  · exact Or.inl hacc
  · refine Or.inr ⟨hnew, u, ?_, hof⟩
    rw [List.find?_cons_of_neg, hfind]
    simpa using hskip e u hnew hfind hof

/-- A consumer that adds an entry is the first of its weight. -/
theorem cons_added {e : WeightEntry} (h : FirstConsumers fromLeBytes ts (acc ++ [e]) entries)
    (hof : e.Of fromLeBytes t) (hfresh : e.weight ∉ acc.map WeightEntry.weight) :
    FirstConsumers fromLeBytes (t :: ts) acc entries := by
  refine ⟨fun hacc => h.nodup ?_, fun x hx => h.kept (List.mem_append_left _ hx), ?_⟩
  · rw [List.map_append]
    apply List.Nodup.append hacc (List.nodup_singleton _)
    simpa using hfresh
  · intro x hx
    rcases h.first x hx with hacc | ⟨hnew, u, hfind, hofx⟩
    · rcases List.mem_append.mp hacc with hacc | hlast
      · exact Or.inl hacc
      · rw [List.mem_singleton.mp hlast]
        refine Or.inr ⟨hfresh, t, ?_, hof⟩
        exact List.find?_cons_of_pos (decide_eq_true hof.weight.symm)
    · rw [List.map_append, List.mem_append, not_or] at hnew
      refine Or.inr ⟨hnew.1, u, ?_, hofx⟩
      rw [List.find?_cons_of_neg, hfind]
      intro hweight
      refine hnew.2 (List.mem_singleton.mpr ?_)
      rw [hof.weight, of_decide_eq_true hweight]

end FirstConsumers

theorem quantizeWeights_first {ts : List Target} {acc entries : List WeightEntry}
    (hsame : ∀ t ∈ ts, ∀ u ∈ ts, t.weight = u.weight → t.init = u.init)
    (h : quantizeWeights fromLeBytes ts acc = .ok entries) :
    FirstConsumers fromLeBytes ts acc entries := by
  induction ts generalizing acc with
  | nil =>
      cases h
      exact ⟨id, List.Subset.refl _, fun e he => Or.inl he⟩
  | cons t ts ih =>
      have hsame' : ∀ u ∈ ts, ∀ v ∈ ts, u.weight = v.weight → u.init = v.init := fun u hu v hv =>
        hsame u (List.mem_cons_of_mem t hu) v (List.mem_cons_of_mem t hv)
      rw [quantizeWeights] at h
      split_ifs at h with hknown
      · -- a weight seen before
        refine (ih hsame' h).cons_skipped fun e u hnew _ _ hweight => hnew ?_
        simp only [List.any_eq_true, decide_eq_true_eq] at hknown
        obtain ⟨e', he', heq⟩ := hknown
        exact hweight ▸ heq ▸ List.mem_map_of_mem he'
      · cases hquant : quantizeWeight fromLeBytes t with
        | error halt =>
            rw [hquant] at h
            cases h
        | ok found =>
            rw [hquant] at h
            cases found with
            | none =>
                -- skipped, and so is every other consumer of the weight
                apply (ih hsame' h).cons_skipped
                intro e u _ hfind hof hweight
                have hu := List.mem_cons_of_mem t (List.mem_of_find?_eq_some hfind)
                have hinit : u.init = t.init := by
                  apply hsame u hu t List.mem_cons_self
                  rw [← hof.weight, hweight]
                obtain ⟨e', he'⟩ := quantizeWeight_isSome_congr hinit hof
                rw [quantizeWeight_eq_some.mpr he'] at hquant
                cases hquant
            | some e' =>
                have hof := quantizeWeight_eq_some.mp hquant
                apply (ih hsame' h).cons_added hof
                intro hmem
                simp only [List.any_eq_true, decide_eq_true_eq, not_exists, not_and] at hknown
                obtain ⟨e, he, heq⟩ := List.mem_map.mp hmem
                exact hknown e he (heq.trans hof.weight)

/-- A weight that is not there in the end was skipped. -/
theorem quantizeWeights_complete {ts : List Target} {acc entries : List WeightEntry}
    (hsame : ∀ t ∈ ts, ∀ u ∈ ts, t.weight = u.weight → t.init = u.init)
    (h : quantizeWeights fromLeBytes ts acc = .ok entries) (ht : t ∈ ts) :
    t.weight ∈ entries.map WeightEntry.weight ∨ quantizeWeight fromLeBytes t = .ok none := by
  induction ts generalizing acc with
  | nil => cases ht
  | cons u ts ih =>
      have hsame' : ∀ t ∈ ts, ∀ v ∈ ts, t.weight = v.weight → t.init = v.init := fun t ht v hv =>
        hsame t (List.mem_cons_of_mem u ht) v (List.mem_cons_of_mem u hv)
      rw [quantizeWeights] at h
      split_ifs at h with hknown
      · rcases List.mem_cons.mp ht with rfl | ht
        · obtain ⟨e, he, hweight⟩ := List.any_eq_true.mp hknown
          have hentry := (quantizeWeights_first hsame' h).kept he
          exact Or.inl (List.mem_map.mpr ⟨e, hentry, of_decide_eq_true hweight⟩)
        · exact ih hsame' h ht
      · cases hquant : quantizeWeight fromLeBytes u with
        | error halt =>
            rw [hquant] at h
            cases h
        | ok found =>
            rw [hquant] at h
            rcases List.mem_cons.mp ht with rfl | ht
            · cases found with
              | none => exact Or.inr hquant
              | some e =>
                  have hweight := (quantizeWeight_eq_some.mp hquant).weight
                  have hentry := (quantizeWeights_first hsame' h).kept
                    (List.mem_append_right acc (List.mem_singleton_self e))
                  exact Or.inl (List.mem_map.mpr ⟨e, hentry, hweight⟩)
            · cases found with
              | none => exact ih hsame' h ht
              | some e => exact ih hsame' h ht

end Entries

section Targets

theorem target_eq_some {node : NodeProto} {weight : String} {init : TensorProto}
    (h : target ops graph node = some (weight, init)) :
    ∃ a rest, node.input = a :: weight :: rest ∧ initOf graph weight = some init ∧
      init.data_type = FLOAT ∧ ops.allows node.op_type = true ∧ generalGemm node = false := by
  unfold target at h
  split_ifs at h with hallows hgeneral
  split at h
  · rename_i a name rest hinput
    obtain ⟨init', hinit, h⟩ := Option.bind_eq_some_iff.mp h
    split_ifs at h with hlarge
    cases h
    exact ⟨a, rest, hinput, hinit, hlarge.1, hallows, Bool.eq_false_iff.mpr hgeneral⟩
  · cases h

theorem mem_targets : t ∈ targets ops graph ↔
    t.node ∈ graph.node ∧ target ops graph t.node = some (t.weight, t.init) := by
  unfold targets
  rw [List.mem_filterMap]
  constructor
  · rintro ⟨node, hnode, htarget⟩
    obtain ⟨wt, hwt, rfl⟩ := Option.map_eq_some_iff.mp htarget
    exact ⟨hnode, hwt⟩
  · rintro ⟨hnode, htarget⟩
    exact ⟨t.node, hnode, by rw [htarget]; rfl⟩

theorem targets_same {t u : Target} (ht : t ∈ targets ops graph) (hu : u ∈ targets ops graph)
    (hweight : t.weight = u.weight) : t.init = u.init := by
  obtain ⟨_, _, _, hinit, _⟩ := target_eq_some (mem_targets.mp ht).2
  obtain ⟨_, _, _, hinit', _⟩ := target_eq_some (mem_targets.mp hu).2
  rw [hweight] at hinit
  exact Option.some.inj (hinit.symm.trans hinit')

/-- A quantized weight, and the first node that consumes it. -/
theorem entry_first {entries : List WeightEntry}
    (h : quantizeWeights fromLeBytes (targets ops graph) [] = .ok entries) (he : e ∈ entries) :
    ∃ t ∈ targets ops graph, (targets ops graph).find? (·.weight = e.weight) = some t ∧
      e.Of fromLeBytes t := by
  obtain ⟨_, _, hfirst⟩ := quantizeWeights_first (fun t ht u hu => targets_same ht hu) h
  rcases hfirst e he with hnil | ⟨_, t, hfind, hof⟩
  · cases hnil
  · exact ⟨t, List.mem_of_find?_eq_some hfind, hfind, hof⟩

theorem initOf_entry {entries : List WeightEntry}
    (h : quantizeWeights fromLeBytes (targets ops graph) [] = .ok entries) (he : e ∈ entries) :
    initOf graph e.weight = some e.init := by
  obtain ⟨t, ht, _, hof⟩ := entry_first h he
  obtain ⟨_, _, _, hinit, _⟩ := target_eq_some (mem_targets.mp ht).2
  rw [hof.weight, hof.init, hinit]

/-- The node in whose place a chain comes, with the weight of the chain. -/
theorem entryOf_eq_some {entries : List WeightEntry} {node : NodeProto}
    (h : entryOf ops graph entries node = some e) :
    e ∈ entries ∧ ∃ a rest init, node.input = a :: e.weight :: rest ∧
      target ops graph node = some (e.weight, init) ∧ initOf graph e.weight = some init := by
  obtain ⟨⟨weight, init⟩, htarget, hfind⟩ := Option.bind_eq_some_iff.mp h
  have hweight : e.weight = weight := by simpa using List.find?_some hfind
  obtain ⟨a, rest, hinput, hinit, _⟩ := target_eq_some htarget
  refine ⟨List.mem_of_find?_eq_some hfind, a, rest, init, ?_, ?_, ?_⟩
  · rw [hinput, hweight]
  · rw [htarget, hweight]
  · rw [hweight, hinit]

end Targets

section Decoded

variable (rt : Runtime)

/-- The quantized values of a weight. -/
def quantizedAlong (axis : ℕ) (dims : List Int64) (w : Tensor ℚ) : Tensor ℤ where
  dims := w.dims
  data := (quantizePerChannel w.data dims axis).1.map Int8.toInt
  sized := by rw [List.length_map, length_quantized, w.sized]

/-- The scale of each of its channels. -/
def scalesAlong (axis : ℕ) (dims : List Int64) (w : Tensor ℚ) (channel : ℕ) : ℚ :=
  (quantizePerChannel w.data dims axis).2.getD channel 0

/-- The numbers that the quantized weight stands for. -/
def dequantizedAlong (axis : ℕ) (dims : List Int64) (w : Tensor ℚ) : Tensor ℚ :=
  (quantizedAlong axis dims w).mapIdx fun idx (v : ℤ) =>
    (v : ℚ) * scalesAlong axis dims w (idx.getD axis 0)

theorem extractFloatData_eq {tensor : TensorProto} {data : List ℚ}
    (h : extractFloatData fromLeBytes tensor = .ok data) :
    data = if tensor.float_data ≠ [] then tensor.float_data
      else floatChunks fromLeBytes tensor.raw_data := by
  unfold extractFloatData at h
  split_ifs at h with hfloat hraw halign
  · cases h
    rw [if_pos hfloat]
  · cases h
    rw [if_neg hfloat]

/-- What the pass reads of a weight is what the runtime reads. -/
theorem decode_weight {w : Tensor ℚ} (hof : e.Of rt.fromLeBytes t) (hfloat : t.init.data_type = FLOAT)
    (h : decode rt t.init = some (.float w)) : w.dims = sizes t.init.dims ∧ w.data = e.data := by
  rw [decode, if_pos hfloat] at h
  dsimp only at h
  rw [← extractFloatData_eq hof.data, tensorOf] at h
  split_ifs at h with hlength
  · cases h
    exact ⟨rfl, rfl⟩
  · cases h

theorem decode_quantizedTensor {w : Tensor ℚ} (hdims : w.dims = sizes e.init.dims)
    (hdata : w.data = e.data) (hsome : e.data ≠ []) :
    decode rt e.quantizedTensor = some (.int (quantizedAlong e.axis e.init.dims w)) := by
  have hbytes : e.quantizedTensor.raw_data.map (fun b => b.toInt8.toInt) =
      (quantizePerChannel w.data e.init.dims e.axis).1.map Int8.toInt := by
    rw [hdata, WeightEntry.quantizedTensor, List.map_map]
    rfl
  have hraw : e.quantizedTensor.raw_data ≠ [] := by
    rw [WeightEntry.quantizedTensor, ← List.length_pos_iff, List.length_map, length_quantized]
    exact List.length_pos_of_ne_nil hsome
  have hlength : ((quantizePerChannel w.data e.init.dims e.axis).1.map Int8.toInt).length =
      (sizes e.quantizedTensor.dims).prod := by
    rw [List.length_map, length_quantized, w.sized, hdims]
    rfl
  have htype : ¬e.quantizedTensor.data_type = FLOAT := show ¬INT8 = FLOAT by decide
  rw [decode, if_neg htype, if_pos ⟨rfl, hraw⟩, hbytes, tensorOf, dif_pos hlength,
    Option.map_some, quantizedAlong]
  simp only [hdims]
  rfl

theorem sizes_getD_lt (dims : List Int64) (axis : ℕ) : (sizes dims).getD axis 0 < 2 ^ 63 := by
  rw [sizes, List.getD_eq_getElem?_getD, List.getElem?_map]
  cases dims[axis]? with
  | none => exact Nat.two_pow_pos 63
  | some v => exact v.toNatClampNeg_lt

theorem decode_scaleTensor {w : Tensor ℚ} (hdata : w.data = e.data)
    (hchannels : (sizes e.init.dims).getD e.axis 0 ≠ 0) :
    ∃ s : Tensor ℚ, decode rt e.scaleTensor = some (.float s) ∧
      s.dims = [(sizes e.init.dims).getD e.axis 0] ∧
      ∀ c < (sizes e.init.dims).getD e.axis 0, s.get [c] = scalesAlong e.axis e.init.dims w c := by
  have hcount : (quantizePerChannel e.data e.init.dims e.axis).2.length =
      (sizes e.init.dims).getD e.axis 0 := by
    rw [length_scales, channelsOf, Nat.max_eq_left (Nat.one_le_iff_ne_zero.mpr hchannels)]
  have hdims : sizes e.scaleTensor.dims = [(sizes e.init.dims).getD e.axis 0] :=
    congrArg (fun n => [n]) (Int64.toNatClampNeg_ofNat_of_lt (sizes_getD_lt e.init.dims e.axis))
  have hsome : e.scaleTensor.float_data ≠ [] := by
    rw [WeightEntry.scaleTensor, ← List.length_pos_iff, hcount]
    exact Nat.pos_of_ne_zero hchannels
  have hlength : e.scaleTensor.float_data.length = (sizes e.scaleTensor.dims).prod := by
    rw [hdims, List.prod_singleton]
    exact hcount
  refine ⟨⟨sizes e.scaleTensor.dims, e.scaleTensor.float_data, hlength⟩, ?_, hdims, fun c hc => ?_⟩
  · have htype : e.scaleTensor.data_type = FLOAT := rfl
    rw [decode, if_pos htype]
    dsimp only
    rw [if_pos hsome, tensorOf, dif_pos hlength, Option.map_some]
  · rw [get_vector hdims hc, scalesAlong, hdata]
    rfl

theorem decode_zeroPointTensor : decode rt e.zeroPointTensor = some (.int (scalar 0)) := rfl

/-- The tensors added for a weight, as the runtime reads them. -/
theorem decode_entry {entries : List WeightEntry}
    (h : quantizeWeights rt.fromLeBytes (targets ops graph) [] = .ok entries)
    (he : e ∈ entries) {w : Tensor ℚ} (hw : decode rt e.init = some (.float w)) :
    w.dims = sizes e.init.dims ∧
      decode rt e.quantizedTensor = some (.int (quantizedAlong e.axis e.init.dims w)) ∧
      ∃ sv : Tensor ℚ, decode rt e.scaleTensor = some (.float sv) ∧
        sv.dims = [w.dims.getD e.axis 0] ∧
        ∀ c < w.dims.getD e.axis 0, sv.get [c] = scalesAlong e.axis e.init.dims w c := by
  obtain ⟨t, ht, _, hof⟩ := entry_first h he
  obtain ⟨_, _, _, _, hfloat, _⟩ := target_eq_some (mem_targets.mp ht).2
  rw [hof.init] at hw
  obtain ⟨hdims, hdata⟩ := decode_weight rt hof hfloat hw
  rw [← hof.init] at hdims
  refine ⟨hdims, ?_, ?_⟩
  · exact decode_quantizedTensor rt hdims hdata (extractFloatData_ne_nil hof.data)
  · rw [hdims]
    apply decode_scaleTensor rt hdata
    rw [hof.init]
    exact hof.channels

end Decoded

end Gigastt.Quantize
