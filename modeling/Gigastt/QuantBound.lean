import Gigastt.QuantWeights
import Gigastt.Tensor
import Mathlib.Tactic.FieldSimp
import Mathlib.Tactic.Linarith

/-!
The error of the per-channel quantization. The channel a flat index is given is its coordinate along
the axis, in row-major order; the scale of a channel is its largest magnitude over 127, so that no
value is clamped and each is half a step off at most.
-/

namespace Gigastt.Quantize

open Tensor (Inside flat flat_lt block_dvd_prod coordinate_flat)

section Rounding

variable {v scale m : ℚ}

/-- The nearest integer is half a unit away at most. -/
theorem roundAway_error (v : ℚ) : |roundAway v - v| ≤ 1 / 2 := by
  have hbelow := Int.floor_le (v + 1 / 2)
  have habove := Int.lt_floor_add_one (v + 1 / 2)
  have hbelow' := Int.floor_le (-v + 1 / 2)
  have habove' := Int.lt_floor_add_one (-v + 1 / 2)
  rw [roundAway, abs_le]
  split_ifs <;> push_cast <;> constructor <;> linarith

theorem roundAway_bounded {n : ℕ} (h : |v| ≤ n) : |roundAway v| ≤ n := by
  have herror := abs_le.mp (roundAway_error v)
  obtain ⟨hlow, hhigh⟩ := abs_le.mp h
  -- half a unit past an integer is short of the next one
  have habove : (roundAway v : ℚ) < n + 1 := by linarith
  have hbelow : (-n - 1 : ℚ) < roundAway v := by linarith
  have habove' : roundAway v < n + 1 := by exact_mod_cast habove
  have hbelow' : -(n : ℤ) - 1 < roundAway v := by exact_mod_cast hbelow
  exact abs_le.mpr ⟨by omega, by omega⟩

/-- Inside the range nothing is clamped. -/
theorem toInt_toI8 (h : |v| ≤ 127) : (toI8 v).toInt = roundAway v := by
  obtain ⟨hlow, hhigh⟩ := abs_le.mp (roundAway_bounded (n := 127) (by exact_mod_cast h))
  push_cast at hlow hhigh
  rw [toI8, Int8.toInt_ofInt_of_le (by omega) (by omega)]
  omega

theorem abs_div_le (hscale : scale = if m = 0 then 1 else m / 127) (hv : |v| ≤ m) :
    0 < scale ∧ |v / scale| ≤ 127 := by
  by_cases hm : m = 0
  · rw [if_pos hm] at hscale
    rw [hm] at hv
    refine ⟨by rw [hscale]; exact one_pos, ?_⟩
    rw [hscale, div_one]
    linarith
  · have hpos : 0 < m := lt_of_le_of_ne ((abs_nonneg v).trans hv) (Ne.symm hm)
    rw [if_neg hm] at hscale
    have hscale_pos : 0 < scale := by
      rw [hscale]
      positivity
    refine ⟨hscale_pos, ?_⟩
    rw [abs_div, abs_of_pos hscale_pos, div_le_iff₀ hscale_pos, hscale]
    linarith

/-- A value no larger than the magnitude its scale is made from is half a step off at most. -/
theorem toI8_error (hscale : scale = if m = 0 then 1 else m / 127) (hv : |v| ≤ m) :
    |(toI8 (v / scale)).toInt| ≤ 127 ∧ |v - (toI8 (v / scale)).toInt * scale| ≤ scale / 2 := by
  obtain ⟨hpos, hrange⟩ := abs_div_le hscale hv
  rw [toInt_toI8 hrange]
  refine ⟨roundAway_bounded (n := 127) (by exact_mod_cast hrange), ?_⟩
  calc |v - roundAway (v / scale) * scale|
      = |(roundAway (v / scale) - v / scale) * scale| := by
        rw [sub_mul, div_mul_cancel₀ v hpos.ne', abs_sub_comm]
    _ = |roundAway (v / scale) - v / scale| * scale := by rw [abs_mul, abs_of_pos hpos]
    _ ≤ 1 / 2 * scale := mul_le_mul_of_nonneg_right (roundAway_error _) hpos.le
    _ = scale / 2 := by ring

end Rounding

section Channels

variable {dims : List Int64} {axis : ℕ} {idx : List ℕ} {data : List ℚ}

/-- The product of the lengths fits the machine's words when the weight itself does. -/
theorem strideOf_eq (haxis : axis < dims.length) (hidx : Inside idx (sizes dims))
    (hfits : (sizes dims).prod < 2 ^ 64) :
    strideOf dims axis = ((sizes dims).drop (axis + 1)).prod := by
  have hsome : 0 < (sizes dims).prod := Nat.zero_lt_of_lt (flat_lt hidx)
  have hdvd : ((sizes dims).drop (axis + 1)).prod ∣ (sizes dims).prod :=
    (Nat.dvd_mul_left _ _).trans (block_dvd_prod (by rwa [length_sizes]))
  have hpos : 0 < ((sizes dims).drop (axis + 1)).prod := Nat.pos_of_dvd_of_pos hdvd hsome
  have hle := Nat.le_of_dvd hsome hdvd
  have hdrop : sizes (dims.drop (axis + 1)) = (sizes dims).drop (axis + 1) := List.map_drop
  rw [strideOf, usizeProduct, hdrop, Nat.mod_eq_of_lt (hle.trans_lt hfits), Nat.max_eq_left hpos]

/-- The channel of a flat index is the element's coordinate along the axis. -/
theorem channel_eq (haxis : axis < dims.length) (hidx : Inside idx (sizes dims))
    (hfits : (sizes dims).prod < 2 ^ 64) :
    flat (sizes dims) idx / strideOf dims axis % channelsOf dims axis = idx.getD axis 0 ∧
      idx.getD axis 0 < channelsOf dims axis := by
  have hlength : axis < (sizes dims).length := by rwa [length_sizes]
  have hcoordinate := coordinate_flat hidx hlength
  have hinside : idx.getD axis 0 < (sizes dims).getD axis 0 := by
    rw [← hcoordinate]
    apply Nat.mod_lt
    apply Nat.pos_of_ne_zero
    intro hzero
    have hsome := Nat.zero_lt_of_lt (flat_lt hidx)
    obtain ⟨blocks, hblocks⟩ := block_dvd_prod hlength
    rw [hblocks, hzero, zero_mul, zero_mul] at hsome
    exact lt_irrefl 0 hsome
  have hchannels : channelsOf dims axis = (sizes dims).getD axis 0 :=
    Nat.max_eq_left (Nat.zero_lt_of_lt hinside)
  rw [strideOf_eq haxis hidx hfits, hchannels]
  exact ⟨hcoordinate, hinside⟩

/-- The magnitudes only grow, and that of a channel covers each of its elements. -/
theorem foldl_absMax (stride channels : ℕ) {c : ℕ} (elements : List (ℚ × ℕ)) {magnitudes : List ℚ}
    {m : ℚ} (hm : magnitudes[c]? = some m) :
    ∃ m', (elements.foldl (fun abs_max vf => abs_max.modify (vf.2 / stride % channels)
        (fun m => max m |vf.1|)) magnitudes)[c]? = some m' ∧ m ≤ m' ∧
      ∀ vf ∈ elements, vf.2 / stride % channels = c → |vf.1| ≤ m' := by
  induction elements generalizing magnitudes m with
  | nil => exact ⟨m, hm, le_rfl, fun vf hvf => absurd hvf List.not_mem_nil⟩
  | cons vf elements ih =>
      rw [List.foldl_cons]
      by_cases hc : vf.2 / stride % channels = c
      · have hstep : (magnitudes.modify (vf.2 / stride % channels) (fun m => max m |vf.1|))[c]? =
            some (max m |vf.1|) := by
          rw [hc, List.getElem?_modify_eq, hm, Option.map_eq_map, Option.map_some]
        obtain ⟨m', hm', hle, hcovers⟩ := ih hstep
        refine ⟨m', hm', (le_max_left _ _).trans hle, fun wf hwf hchannel => ?_⟩
        rcases List.mem_cons.mp hwf with rfl | hwf
        · exact (le_max_right _ _).trans hle
        · exact hcovers wf hwf hchannel
      · have hstep : (magnitudes.modify (vf.2 / stride % channels) (fun m => max m |vf.1|))[c]? =
            some m := by
          rw [List.getElem?_modify_ne _ _ hc, hm]
        obtain ⟨m', hm', hle, hcovers⟩ := ih hstep
        refine ⟨m', hm', hle, fun wf hwf hchannel => ?_⟩
        rcases List.mem_cons.mp hwf with rfl | hwf
        · exact absurd hchannel hc
        · exact hcovers wf hwf hchannel

theorem absMax_covers {stride channels f : ℕ} {v : ℚ} (hv : data[f]? = some v)
    (hchannel : f / stride % channels < channels) :
    ∃ m, (absMax data stride channels)[f / stride % channels]? = some m ∧ |v| ≤ m := by
  have hstart : (List.replicate channels (0 : ℚ))[f / stride % channels]? = some 0 := by
    rw [List.getElem?_replicate, if_pos hchannel]
  obtain ⟨m, hm, _, hcovers⟩ := foldl_absMax stride channels data.zipIdx hstart
  refine ⟨m, hm, hcovers (v, f) ?_ rfl⟩
  rwa [List.mem_zipIdx_iff_getElem?]

end Channels

/-- Every element of a weight of any shape is quantized with the scale of its own coordinate along the
axis, to a value of magnitude 127 at most, which is half a step off at most. -/
theorem quantizePerChannel_error {data : List ℚ} {dims : List Int64} {axis : ℕ} {idx : List ℕ}
    (haxis : axis < dims.length) (hshape : data.length = (sizes dims).prod)
    (hfits : data.length < 2 ^ 64) (hidx : Inside idx (sizes dims)) :
    ∃ v q scale, data[flat (sizes dims) idx]? = some v ∧
      (quantizePerChannel data dims axis).1[flat (sizes dims) idx]? = some q ∧
      (quantizePerChannel data dims axis).2[idx.getD axis 0]? = some scale ∧
      |q.toInt| ≤ 127 ∧ |v - q.toInt * scale| ≤ scale / 2 := by
  obtain ⟨hchannel, hinside⟩ := channel_eq haxis hidx (hshape ▸ hfits)
  have hplace : flat (sizes dims) idx < data.length := hshape ▸ flat_lt hidx
  obtain ⟨v, hv⟩ : ∃ v, data[flat (sizes dims) idx]? = some v :=
    ⟨_, List.getElem?_eq_getElem hplace⟩
  obtain ⟨m, hm, hcovers⟩ := absMax_covers hv (hchannel ▸ hinside)
  rw [hchannel] at hm
  obtain ⟨hbounded, herror⟩ := toI8_error rfl hcovers
  have hscale : (quantizePerChannel data dims axis).2[idx.getD axis 0]? =
      some (if m = 0 then 1 else m / 127) := by
    rw [quantizePerChannel, List.getElem?_map, hm, Option.map_some]
  refine ⟨v, _, _, hv, ?_, hscale, hbounded, herror⟩
  rw [quantizePerChannel, List.getElem?_map, List.getElem?_zipIdx, hv, Option.map_some,
    Option.map_some, zero_add, hchannel, List.getD_eq_getElem?_getD, List.getElem?_map, hm,
    Option.map_some, Option.getD_some]

theorem quantizePerChannel_half_step :
    ∃ v q scale, ([254, 1, 0, 0] : List ℚ)[flat (sizes [2, 2]) [0, 1]]? = some v ∧
      (quantizePerChannel [254, 1, 0, 0] [2, 2] 0).1[flat (sizes [2, 2]) [0, 1]]? = some q ∧
      (quantizePerChannel [254, 1, 0, 0] [2, 2] 0).2[[0, 1].getD 0 0]? = some scale ∧
      |q.toInt| ≤ 127 ∧ |v - q.toInt * scale| ≤ scale / 2 :=
  quantizePerChannel_error (by decide) (by decide) (by decide) (by decide)

end Gigastt.Quantize
