import Mathlib.Algebra.BigOperators.Group.List.Basic
import Mathlib.Algebra.Order.Ring.Nat
import Mathlib.Data.List.Forall2
import Mathlib.Data.List.Range
import Mathlib.Tactic.Ring

/-!
Tensors of any rank: a row of scalars in row-major order under a list of dimensions. A read outside
the dimensions gives zero. Two tensors are equal when they have the same dimensions and read the same
everywhere inside them. Two tensors are combined entry by entry after broadcasting: the dimensions are
aligned at the last axis, and an axis of length one, or a missing one, is read at its only index.
-/

/-- A row of scalars under its dimensions. -/
structure Tensor (α : Type*) where
  dims : List ℕ
  data : List α
  sized : data.length = dims.prod

namespace Tensor

/-- A multi-index inside the dimensions. -/
def Inside (idx dims : List ℕ) : Prop := List.Forall₂ (· < ·) idx dims

instance (idx dims : List ℕ) : Decidable (Inside idx dims) :=
  inferInstanceAs (Decidable (List.Forall₂ _ _ _))

@[simp] theorem inside_nil {idx : List ℕ} : Inside idx [] ↔ idx = [] := List.forall₂_nil_right_iff

@[simp] theorem inside_cons {i d : ℕ} {idx dims : List ℕ} :
    Inside (i :: idx) (d :: dims) ↔ i < d ∧ Inside idx dims := List.forall₂_cons

theorem inside_cons_dims {d : ℕ} {idx dims : List ℕ} :
    Inside idx (d :: dims) ↔ ∃ i rest, idx = i :: rest ∧ i < d ∧ Inside rest dims := by
  constructor
  · intro h
    obtain ⟨i, rest, hi, hrest, rfl⟩ := List.forall₂_cons_right_iff.mp h
    exact ⟨i, rest, rfl, hi, hrest⟩
  · rintro ⟨i, rest, rfl, hi, hrest⟩
    exact inside_cons.mpr ⟨hi, hrest⟩

theorem Inside.length {idx dims : List ℕ} (h : Inside idx dims) : idx.length = dims.length :=
  List.Forall₂.length_eq h

theorem Inside.append {idx idx' dims dims' : List ℕ} (h : Inside idx dims)
    (h' : Inside idx' dims') : Inside (idx ++ idx') (dims ++ dims') := by
  induction h with
  | nil => exact h'
  | cons hi _ ih => exact inside_cons.mpr ⟨hi, ih⟩

theorem Inside.reverse {idx dims : List ℕ} (h : Inside idx dims) :
    Inside idx.reverse dims.reverse := by
  induction h with
  | nil => exact List.Forall₂.nil
  | cons hi _ ih =>
      rw [List.reverse_cons, List.reverse_cons]
      exact ih.append (inside_cons.mpr ⟨hi, List.Forall₂.nil⟩)

theorem Inside.getD_lt {idx dims : List ℕ} (h : Inside idx dims) (hdims : dims ≠ []) :
    idx.getD 0 0 < dims.getD 0 0 := by
  obtain ⟨d, ds, rfl⟩ := List.exists_cons_of_ne_nil hdims
  obtain ⟨i, rest, rfl, hi, _⟩ := inside_cons_dims.mp h
  exact hi

theorem inside_concat {idx dims : List ℕ} {n : ℕ} (h : Inside idx (dims ++ [n])) :
    ∃ front i, idx = front ++ [i] ∧ front.length = dims.length ∧ i < n := by
  obtain ⟨front, i, rfl⟩ : ∃ front i, idx = front ++ [i] := by
    have hlen := h.length
    refine ⟨idx.dropLast, idx.getLast ?_, (List.dropLast_append_getLast _).symm⟩
    rintro rfl
    simp at hlen
  have hrev := h.reverse
  simp only [List.reverse_append, List.reverse_cons, List.reverse_nil, List.nil_append,
    List.singleton_append, inside_cons] at hrev
  refine ⟨front, i, rfl, ?_, hrev.1⟩
  simpa using hrev.2.length

/-- The place of a multi-index in row-major order. -/
def flat : List ℕ → List ℕ → ℕ
  | _ :: dims, i :: idx => i * dims.prod + flat dims idx
  | _, _ => 0

/-- The multi-indices in row-major order. -/
def indices : List ℕ → List (List ℕ)
  | [] => [[]]
  | d :: dims => (List.range d).flatMap fun i => (indices dims).map (i :: ·)

theorem mem_indices {idx dims : List ℕ} : idx ∈ indices dims ↔ Inside idx dims := by
  induction dims generalizing idx with
  | nil => simp [indices]
  | cons d dims ih =>
      simp only [indices, List.mem_flatMap, List.mem_range, List.mem_map, ih, inside_cons_dims]
      constructor
      · rintro ⟨i, hi, rest, hrest, rfl⟩
        exact ⟨i, rest, rfl, hi, hrest⟩
      · rintro ⟨i, rest, rfl, hi, hrest⟩
        exact ⟨i, hi, rest, hrest, rfl⟩

@[simp] theorem length_indices (dims : List ℕ) : (indices dims).length = dims.prod := by
  induction dims with
  | nil => simp [indices]
  | cons d dims ih => simp [indices, List.length_flatMap, ih]

/-- Row-major order: the places of the multi-indices count up from zero. -/
theorem map_flat_indices (dims : List ℕ) : (indices dims).map (flat dims) = List.range dims.prod := by
  induction dims with
  | nil => simp [indices, flat]
  | cons d dims ih =>
      have hblock : ∀ i, (indices dims).map (fun idx => flat (d :: dims) (i :: idx)) =
          (List.range dims.prod).map (i * dims.prod + ·) := by
        intro i
        rw [← ih, List.map_map]
        rfl
      simp only [indices, List.map_flatMap, List.map_map, Function.comp_def, hblock, List.prod_cons]
      clear hblock
      induction d with
      | zero => simp
      | succ d ihd =>
          rw [List.range_succ, List.flatMap_append, ihd, Nat.succ_mul, List.range_add]
          simp

theorem getElem?_indices_flat {idx dims : List ℕ} (h : Inside idx dims) :
    (indices dims)[flat dims idx]? = some idx := by
  obtain ⟨k, hk, hget⟩ := List.mem_iff_getElem.mp (mem_indices.mpr h)
  have hflat : flat dims idx = k := by
    have hmap : ((indices dims).map (flat dims))[k]? = some k := by
      rw [map_flat_indices, List.getElem?_range (by simpa using hk)]
    rw [List.getElem?_map, List.getElem?_eq_getElem hk, hget] at hmap
    exact Option.some.inj hmap
  rw [hflat, List.getElem?_eq_getElem hk, hget]

theorem flat_lt {idx dims : List ℕ} (h : Inside idx dims) : flat dims idx < dims.prod := by
  have hmem : flat dims idx ∈ (indices dims).map (flat dims) :=
    List.mem_map_of_mem (mem_indices.mpr h)
  rwa [map_flat_indices, List.mem_range] at hmem

theorem block_dvd_prod {dims : List ℕ} {axis : ℕ} (haxis : axis < dims.length) :
    dims.getD axis 0 * (dims.drop (axis + 1)).prod ∣ dims.prod := by
  refine ⟨(dims.take axis).prod, ?_⟩
  conv_lhs => rw [← List.take_append_drop axis dims, List.drop_eq_getElem_cons haxis]
  rw [List.prod_append, List.prod_cons, List.getElem_eq_getD 0, mul_comm]

/-- A coordinate is read back from the place: the axes after it are divided out, those before it left
out by the remainder. -/
theorem coordinate_flat {idx dims : List ℕ} (h : Inside idx dims) {axis : ℕ}
    (haxis : axis < dims.length) :
    flat dims idx / (dims.drop (axis + 1)).prod % dims.getD axis 0 = idx.getD axis 0 := by
  induction dims generalizing idx axis with
  | nil => exact absurd haxis (Nat.not_lt_zero axis)
  | cons d dims ih =>
      obtain ⟨i, rest, rfl, hi, hrest⟩ := inside_cons_dims.mp h
      have hlt := flat_lt hrest
      rw [flat]
      cases axis with
      | zero =>
          have hpos : 0 < dims.prod := Nat.zero_lt_of_lt hlt
          rw [List.drop_succ_cons, List.drop_zero, mul_comm, Nat.mul_add_div hpos,
            Nat.div_eq_of_lt hlt]
          exact Nat.mod_eq_of_lt hi
      | succ axis =>
          have haxis' : axis < dims.length := Nat.lt_of_succ_lt_succ haxis
          obtain ⟨blocks, hblocks⟩ := block_dvd_prod haxis'
          have hpos : 0 < (dims.drop (axis + 1)).prod := by
            apply Nat.pos_of_ne_zero
            intro hzero
            rw [hblocks, hzero, mul_zero, zero_mul] at hlt
            exact absurd hlt (Nat.not_lt_zero _)
          have hwhole : i * dims.prod =
              (dims.drop (axis + 1)).prod * (dims.getD axis 0 * (i * blocks)) := by
            rw [hblocks]
            ring
          rw [List.drop_succ_cons, List.getD_cons_succ, List.getD_cons_succ, ← ih hrest haxis',
            hwhole, Nat.mul_add_div hpos, Nat.mul_add_mod]

variable {α β γ : Type*}

def rank (t : Tensor α) : ℕ := t.dims.length

/-- The tensor with the given entries. -/
def ofFn (dims : List ℕ) (f : List ℕ → α) : Tensor α where
  dims := dims
  data := (indices dims).map f
  sized := by rw [List.length_map, length_indices]

def scalar (v : α) : Tensor α := ⟨[], [v], rfl⟩

/-- The same row under other dimensions. -/
def reshape (t : Tensor α) (dims : List ℕ) : Option (Tensor α) :=
  if h : t.dims.prod = dims.prod then some ⟨dims, t.data, t.sized.trans h⟩ else none

@[simp] theorem dims_ofFn (dims : List ℕ) (f : List ℕ → α) : (ofFn dims f).dims = dims := rfl

theorem ofFn_congr {dims : List ℕ} {f g : List ℕ → α} (h : ∀ idx, Inside idx dims → f idx = g idx) :
    ofFn dims f = ofFn dims g := by
  simp only [ofFn, mk.injEq, true_and]
  exact List.map_congr_left fun idx hidx => h idx (mem_indices.mp hidx)

section Zero

variable [Zero α]

/-- The entry at a multi-index; zero outside. -/
def get (t : Tensor α) (idx : List ℕ) : α :=
  if Inside idx t.dims then t.data.getD (flat t.dims idx) 0 else 0

theorem get_outside {t : Tensor α} {idx : List ℕ} (h : ¬ Inside idx t.dims) : t.get idx = 0 :=
  if_neg h

theorem get_inside {t : Tensor α} {idx : List ℕ} (h : Inside idx t.dims) :
    t.get idx = t.data.getD (flat t.dims idx) 0 := if_pos h

theorem get_vector {t : Tensor α} {n i : ℕ} (hdims : t.dims = [n]) (hi : i < n) :
    t.get [i] = t.data.getD i 0 := by
  have hin : Inside [i] t.dims := by
    rw [hdims]
    exact inside_cons.mpr ⟨hi, inside_nil.mpr rfl⟩
  rw [get_inside hin, hdims]
  simp [flat]

@[simp] theorem get_ofFn {dims idx : List ℕ} (f : List ℕ → α) (h : Inside idx dims) :
    (ofFn dims f).get idx = f idx := by
  rw [get_inside h, ofFn, List.getD_eq_getElem?_getD, List.getElem?_map, getElem?_indices_flat h]
  rfl

theorem ofFn_get (t : Tensor α) : ofFn t.dims t.get = t := by
  obtain ⟨dims, data, hsized⟩ := t
  have hdata : (indices dims).map (get ⟨dims, data, hsized⟩) = data := by
    have hread : (indices dims).map (get ⟨dims, data, hsized⟩) =
        ((indices dims).map (flat dims)).map fun k => data.getD k 0 := by
      rw [List.map_map]
      apply List.map_congr_left
      intro idx hidx
      exact get_inside (mem_indices.mp hidx)
    rw [hread, map_flat_indices, ← hsized]
    apply List.ext_getElem (by simp)
    intro k hk hk'
    simp [List.getD_eq_getElem?_getD, hk']
  simp only [ofFn, hdata]

theorem ext_get {t u : Tensor α} (hdims : t.dims = u.dims)
    (hget : ∀ idx, Inside idx t.dims → t.get idx = u.get idx) : t = u := by
  rw [← ofFn_get t, ← ofFn_get u, ← hdims]
  exact ofFn_congr hget

/-- The entries changed one by one, each with its multi-index at hand. -/
def mapIdx (f : List ℕ → α → β) (t : Tensor α) : Tensor β := ofFn t.dims fun idx => f idx (t.get idx)

def map (f : α → β) (t : Tensor α) : Tensor β := t.mapIdx fun _ => f

@[simp] theorem dims_mapIdx (f : List ℕ → α → β) (t : Tensor α) : (t.mapIdx f).dims = t.dims := rfl

@[simp] theorem dims_map (f : α → β) (t : Tensor α) : (t.map f).dims = t.dims := rfl

theorem mapIdx_congr {f g : List ℕ → α → β} {t : Tensor α}
    (h : ∀ idx, Inside idx t.dims → f idx (t.get idx) = g idx (t.get idx)) :
    t.mapIdx f = t.mapIdx g := ofFn_congr h

variable [Zero β]

theorem get_mapIdx {f : List ℕ → α → β} {t : Tensor α} {idx : List ℕ} (h : Inside idx t.dims) :
    (t.mapIdx f).get idx = f idx (t.get idx) := get_ofFn _ h

/-- A change that keeps zero also describes the reads outside. -/
theorem get_mapIdx_zero {f : List ℕ → α → β} (hf : ∀ idx, f idx 0 = 0) (t : Tensor α)
    (idx : List ℕ) : (t.mapIdx f).get idx = f idx (t.get idx) := by
  by_cases h : Inside idx t.dims
  · exact get_mapIdx h
  · rw [get_outside h, get_outside (t := t.mapIdx f) h, hf]

theorem get_map_zero {f : α → β} (hf : f 0 = 0) (t : Tensor α) (idx : List ℕ) :
    (t.map f).get idx = f (t.get idx) := get_mapIdx_zero (fun _ => hf) t idx

theorem mapIdx_mapIdx (f : List ℕ → α → β) (g : List ℕ → β → γ) (t : Tensor α) :
    (t.mapIdx f).mapIdx g = t.mapIdx fun idx v => g idx (f idx v) :=
  ofFn_congr fun idx hidx => by rw [get_mapIdx (f := f) hidx]

theorem get_reshape {t u : Tensor α} {dims idx idx' : List ℕ} (hreshape : t.reshape dims = some u)
    (hin : Inside idx t.dims) (hin' : Inside idx' dims) (hflat : flat dims idx' = flat t.dims idx) :
    u.get idx' = t.get idx := by
  unfold reshape at hreshape
  split at hreshape
  · cases hreshape
    rw [get_inside hin', get_inside hin, hflat]
  · cases hreshape

end Zero

/-- Broadcast dimensions, last axis first. -/
def broadcastRev : List ℕ → List ℕ → Option (List ℕ)
  | [], es => some es
  | ds, [] => some ds
  | d :: ds, e :: es =>
      if d = e ∨ e = 1 then (broadcastRev ds es).map (d :: ·)
      else if d = 1 then (broadcastRev ds es).map (e :: ·)
      else none

/-- The dimensions two operands broadcast to. -/
def broadcast (ds es : List ℕ) : Option (List ℕ) :=
  (broadcastRev ds.reverse es.reverse).map List.reverse

/-- Where an operand is read, last axis first. -/
def projectRev : List ℕ → List ℕ → List ℕ
  | d :: ds, i :: idx => (if d = 1 then 0 else i) :: projectRev ds idx
  | _, _ => []

/-- Where an operand with the given dimensions is read for an index of the result. -/
def project (dims idx : List ℕ) : List ℕ := (projectRev dims.reverse idx.reverse).reverse

/-- Entry by entry, after broadcasting. -/
def zipWith [Zero α] [Zero β] (f : α → β → γ) (a : Tensor α) (b : Tensor β) : Option (Tensor γ) :=
  (broadcast a.dims b.dims).map fun dims =>
    ofFn dims fun idx => f (a.get (project a.dims idx)) (b.get (project b.dims idx))

@[simp] theorem broadcast_nil (es : List ℕ) : broadcast [] es = some es := by
  simp [broadcast, broadcastRev]

@[simp] theorem project_nil (idx : List ℕ) : project [] idx = [] := by
  simp [project, projectRev]

theorem projectRev_self {dims idx : List ℕ} (h : Inside idx dims) : projectRev dims idx = idx := by
  induction h with
  | nil => rfl
  | cons hi _ ih =>
      simp only [projectRev, ih, List.cons.injEq, and_true, ite_eq_right_iff]
      omega

theorem project_self {dims idx : List ℕ} (h : Inside idx dims) : project dims idx = idx := by
  rw [project, projectRev_self h.reverse, List.reverse_reverse]

theorem broadcastRev_ones (xs ds es : List ℕ) :
    broadcastRev (xs ++ ds) (List.replicate xs.length 1 ++ es) =
      (broadcastRev ds es).map (xs ++ ·) := by
  induction xs with
  | nil => simp
  | cons x xs ih =>
      simp only [List.cons_append, List.length_cons, List.replicate_succ, broadcastRev, or_true,
        if_true, ih, Option.map_map, Function.comp_def]

theorem projectRev_ones (is es js : List ℕ) :
    projectRev (List.replicate is.length 1 ++ es) (is ++ js) =
      List.replicate is.length 0 ++ projectRev es js := by
  induction is with
  | nil => rfl
  | cons i is ih =>
      simp only [List.length_cons, List.replicate_succ, List.cons_append, projectRev, if_true, ih]

/-- A vector stands on the last axis. -/
theorem broadcast_last (dims : List ℕ) (n : ℕ) :
    broadcast (dims ++ [n]) [n] = some (dims ++ [n]) := by
  have hrest : broadcastRev dims.reverse [] = some dims.reverse := by
    cases dims.reverse <;> rfl
  simp [broadcast, broadcastRev, hrest]

theorem project_last {n i : ℕ} (idx : List ℕ) (hi : i < n) : project [n] (idx ++ [i]) = [i] := by
  have hone : (if n = 1 then 0 else i) = i := by
    split_ifs <;> omega
  simp [project, projectRev, hone]

/-- The dimensions that put a vector on the second axis of a tensor. -/
def channelDims (c rest : ℕ) : List ℕ := 1 :: c :: List.replicate rest 1

theorem broadcast_channel (b c : ℕ) (sp : List ℕ) :
    broadcast (b :: c :: sp) (channelDims c sp.length) = some (b :: c :: sp) := by
  have hones := broadcastRev_ones sp.reverse [c, b] [c, 1]
  simp only [List.length_reverse] at hones
  simp [broadcast, channelDims, List.append_assoc, hones, broadcastRev]

theorem project_channel {c ch : ℕ} (i : ℕ) (idx : List ℕ) (hch : ch < c) :
    project (channelDims c idx.length) (i :: ch :: idx) =
      0 :: ch :: List.replicate idx.length 0 := by
  have hone : (if c = 1 then 0 else ch) = ch := by
    split_ifs <;> omega
  have hones := projectRev_ones idx.reverse [c, 1] [ch, i]
  simp only [List.length_reverse] at hones
  simp [project, channelDims, List.append_assoc, hones, projectRev, hone]

theorem prod_channelDims (c rest : ℕ) : (channelDims c rest).prod = c := by
  simp [channelDims]

theorem flat_replicate (n : ℕ) : flat (List.replicate n 1) (List.replicate n 0) = 0 := by
  induction n with
  | zero => rfl
  | succ n ih => simp [List.replicate_succ, flat, ih]

theorem flat_channel (c ch rest : ℕ) :
    flat (channelDims c rest) (0 :: ch :: List.replicate rest 0) = ch := by
  simp [channelDims, flat, flat_replicate]

theorem inside_channel {c ch : ℕ} (rest : ℕ) (hch : ch < c) :
    Inside (0 :: ch :: List.replicate rest 0) (channelDims c rest) := by
  have hrest : Inside (List.replicate rest 0) (List.replicate rest 1) := by
    induction rest with
    | zero => exact inside_nil.mpr rfl
    | succ n ih => exact inside_cons.mpr ⟨Nat.zero_lt_one, ih⟩
  exact inside_cons.mpr ⟨Nat.zero_lt_one, inside_cons.mpr ⟨hch, hrest⟩⟩

section Combine

variable [Zero α] [Zero β]

theorem zipWith_scalar (f : α → β → γ) (v : α) (b : Tensor β) :
    zipWith f (scalar v) b = some (b.map (f v)) := by
  have hv : (scalar v).get [] = v := rfl
  simp only [zipWith, scalar, broadcast_nil, project_nil, Option.map_some] at hv ⊢
  congr 1
  apply ofFn_congr
  intro idx hidx
  rw [project_self hidx, hv]

/-- A vector combined along the last axis. -/
theorem zipWith_last {a : Tensor α} {b : Tensor β} {dims : List ℕ} {n : ℕ} (f : α → β → γ)
    (ha : a.dims = dims ++ [n]) (hb : b.dims = [n]) :
    zipWith f a b = some (a.mapIdx fun idx v => f v (b.get [idx.getLastD 0])) := by
  simp only [zipWith, ha, hb, broadcast_last, Option.map_some, mapIdx]
  congr 1
  apply ofFn_congr
  intro idx hidx
  obtain ⟨front, i, rfl, _, hi⟩ := inside_concat hidx
  rw [project_self hidx, project_last front hi, List.getLastD_concat]

/-- A vector, reshaped onto the second axis, combined with a tensor of that many channels. -/
theorem zipWith_channel {a : Tensor α} {b : Tensor β} {n c : ℕ} {sp : List ℕ} (f : α → β → γ)
    (ha : a.dims = n :: c :: sp) (hb : b.dims = [c]) :
    ((b.reshape (channelDims c sp.length)).bind fun r => zipWith f a r) =
      some (a.mapIdx fun idx v => f v (b.get [idx.getD 1 0])) := by
  have hprod : b.dims.prod = (channelDims c sp.length).prod := by
    rw [hb, prod_channelDims]
    simp
  obtain ⟨r, hr⟩ : ∃ r, b.reshape (channelDims c sp.length) = some r := ⟨_, dif_pos hprod⟩
  have hrdims : r.dims = channelDims c sp.length := by
    rw [reshape, dif_pos hprod] at hr
    cases hr
    rfl
  rw [hr, Option.bind_some]
  simp only [zipWith, ha, hrdims, broadcast_channel, Option.map_some, mapIdx]
  congr 1
  apply ofFn_congr
  intro idx hidx
  obtain ⟨i, rest, rfl, hi, hrest⟩ := inside_cons_dims.mp hidx
  obtain ⟨ch, idx, rfl, hch, hidx'⟩ := inside_cons_dims.mp hrest
  have hread : r.get (0 :: ch :: List.replicate sp.length 0) = b.get [ch] := by
    refine get_reshape hr ?_ (inside_channel _ hch) ?_
    · rw [hb]
      exact inside_cons.mpr ⟨hch, inside_nil.mpr rfl⟩
    · rw [flat_channel, hb]
      simp [flat]
  rw [project_self hidx, ← hidx'.length, project_channel i idx hch, hidx'.length, hread]
  rfl

end Combine

end Tensor
