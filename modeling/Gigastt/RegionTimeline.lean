import Gigastt.WindowPublish

/-!
The map from the compressed timeline back to the original one: which samples it gives their own time, and
that it keeps the order of times and stays within the regions.
-/

namespace Gigastt

open Slices
open Vad (Span)

/-- Regions in order, none empty; one may begin where the one before ends. -/
structure Regions (regions : List Span) : Prop where
  nonempty : ∀ r ∈ regions, r.1 < r.2
  apart : regions.Pairwise fun a b => a.2 ≤ b.1

/-- The samples of the regions, one region after the other, by their places in the signal. -/
def keptSamples (regions : List Span) : List ℕ :=
  regions.flatMap fun r => List.range' r.1 (r.2 - r.1)

/-- The silence-free buffer that is decoded. -/
def speechOf {α : Type*} (samples : List α) (regions : List Span) : List α :=
  regions.flatMap fun r => slice samples r.1 r.2

section Samples

variable {α : Type*} {samples : List α} {regions : List Span} {r : Span}

theorem Regions.tail (h : Regions (r :: regions)) : Regions regions :=
  ⟨fun q hq => h.nonempty q (List.mem_cons_of_mem r hq), h.apart.of_cons⟩

theorem slice_eq_range' {a b : ℕ} (h : b ≤ samples.length) :
    (slice samples a b).map some = (List.range' a (b - a)).map (samples[·]?) := by
  refine List.ext_getElem? fun i => ?_
  rw [List.getElem?_map, List.getElem?_map, getElem?_slice]
  by_cases hi : a + i < b
  · rw [if_pos hi, List.getElem?_range' (by omega), Option.map_some, one_mul,
      List.getElem?_eq_getElem (by omega : a + i < samples.length), Option.map_some]
  · rw [if_neg hi, List.getElem?_eq_none (by rw [List.length_range']; omega)]
    rfl

/-- A decoded sample is the one of the signal at its place. -/
theorem speechOf_eq (h : ∀ r ∈ regions, r.2 ≤ samples.length) :
    (speechOf samples regions).map some = (keptSamples regions).map (samples[·]?) := by
  induction regions with
  | nil => rfl
  | cons r regions ih =>
      rw [speechOf, keptSamples, List.flatMap_cons, List.flatMap_cons, List.map_append,
        List.map_append, slice_eq_range' (h r List.mem_cons_self)]
      congr 1
      exact ih fun q hq => h q (List.mem_cons_of_mem r hq)

theorem keptSamples_append (front rest : List Span) :
    keptSamples (front ++ rest) = keptSamples front ++ keptSamples rest := List.flatMap_append

theorem length_keptSamples (regions : List Span) :
    (keptSamples regions).length = (regions.map fun r => r.2 - r.1).sum := by
  simp [keptSamples, List.length_flatMap]

/-- A kept sample, by its region and its place there. -/
theorem exists_region {k : ℕ} (hk : k < (keptSamples regions).length) :
    ∃ front r rest, regions = front ++ r :: rest ∧ ∃ i < r.2 - r.1,
      k = (keptSamples front).length + i ∧ (keptSamples regions)[k] = r.1 + i := by
  induction regions generalizing k with
  | nil => exact absurd hk (Nat.not_lt_zero k)
  | cons r regions ih =>
      have hsplit : keptSamples (r :: regions) =
          List.range' r.1 (r.2 - r.1) ++ keptSamples regions := List.flatMap_cons
      by_cases hin : k < r.2 - r.1
      · refine ⟨[], r, regions, rfl, k, hin, (Nat.zero_add k).symm, ?_⟩
        simp only [hsplit]
        rw [List.getElem_append_left (by rwa [List.length_range']), List.getElem_range', one_mul]
      · have hrest : k - (r.2 - r.1) < (keptSamples regions).length := by
          rw [hsplit, List.length_append, List.length_range'] at hk
          omega
        obtain ⟨front, q, rest, rfl, i, hi, hk', hget⟩ := ih hrest
        refine ⟨r :: front, q, rest, rfl, i, hi, ?_, ?_⟩
        · rw [keptSamples, List.flatMap_cons, List.length_append, List.length_range', ← keptSamples]
          omega
        · rw [← hget]
          simp only [hsplit]
          rw [List.getElem_append_right (by rw [List.length_range']; omega)]
          simp only [List.length_range']

end Samples

section Image

variable {rnd : Rounding} {rate target : ℚ} {regions : List Span} {r : Span} {acc : ℕ}

/-- The positions of the samples are values of the format. -/
def Representable (rnd : Rounding) (regions : List Span) : Prop :=
  ∀ r ∈ regions, ∀ n ≤ r.2, rnd.round (n : ℚ) = n

theorem representable_exact (regions : List Span) : Representable .exact regions := fun _ _ _ _ => rfl

theorem Representable.tail (h : Representable rnd (r :: regions)) : Representable rnd regions :=
  fun q hq => h q (List.mem_cons_of_mem r hq)

/-- The image of a target within a region that begins after `acc` compressed samples. -/
def imageIn (rnd : Rounding) (rate target : ℚ) (acc : ℕ) (r : Span) : ℚ :=
  rnd.div (rnd.add (rnd.round r.1) (max (rnd.sub target acc) 0)) rate

theorem Representable.stop_eq (h : Representable rnd (r :: regions)) (hr : r.1 < r.2) (hacc : acc ≤ r.1) :
    rnd.add acc (spanLength rnd r) = ((acc + (r.2 - r.1) : ℕ) : ℚ) := by
  have hfix : ∀ n ≤ r.2, rnd.round (n : ℚ) = n := h r List.mem_cons_self
  rw [Rounding.add, spanLength, hfix _ (Nat.sub_le _ _), ← Nat.cast_add, hfix]
  omega

theorem remapLoop_cons (h : Representable rnd (r :: regions)) (hr : r.1 < r.2) (hacc : acc ≤ r.1) :
    remapLoop rnd rate target acc (r :: regions) =
      if target ≤ ((acc + (r.2 - r.1) : ℕ) : ℚ) then some (imageIn rnd rate target acc r)
      else remapLoop rnd rate target ((acc + (r.2 - r.1) : ℕ) : ℚ) regions := by
  rw [remapLoop]
  dsimp only
  rw [h.stop_eq hr hacc]
  rfl

theorem imageIn_bounds (h : Representable rnd (r :: regions)) (hr : r.1 < r.2) (hrate : 0 < rate)
    (htarget : target ≤ ((acc + (r.2 - r.1) : ℕ) : ℚ)) :
    rnd.div r.1 rate ≤ imageIn rnd rate target acc r ∧ imageIn rnd rate target acc r ≤ rnd.div r.2 rate := by
  have hfix : ∀ n ≤ r.2, rnd.round (n : ℚ) = n := h r List.mem_cons_self
  have hinto : max (rnd.sub target acc) 0 ≤ ((r.2 - r.1 : ℕ) : ℚ) := by
    refine max_le ?_ (Nat.cast_nonneg _)
    rw [← hfix _ (Nat.sub_le r.2 r.1)]
    apply rnd.monotone
    push_cast at htarget
    linarith
  have hstart : (r.1 : ℚ) ≤ rnd.add (rnd.round r.1) (max (rnd.sub target acc) 0) := by
    rw [hfix _ hr.le, ← hfix _ hr.le]
    apply rnd.monotone
    rw [hfix _ hr.le]
    exact le_add_of_nonneg_right (le_max_right _ _)
  have hstop : rnd.add (rnd.round r.1) (max (rnd.sub target acc) 0) ≤ (r.2 : ℚ) := by
    rw [hfix _ hr.le, ← hfix _ le_rfl]
    apply rnd.monotone
    calc (r.1 : ℚ) + max (rnd.sub target acc) 0 ≤ r.1 + ((r.2 - r.1 : ℕ) : ℚ) :=
          add_le_add_right hinto _
      _ = (r.2 : ℚ) := by rw [← Nat.cast_add, Nat.add_sub_cancel' hr.le]
  constructor
  · exact rnd.monotone (div_le_div_of_nonneg_right hstart hrate.le)
  · exact rnd.monotone (div_le_div_of_nonneg_right hstop hrate.le)

theorem imageIn_mono {later : ℚ} (hrate : 0 < rate) (hle : target ≤ later) :
    imageIn rnd rate target acc r ≤ imageIn rnd rate later acc r := by
  have hinto : max (rnd.sub target acc) 0 ≤ max (rnd.sub later acc) 0 :=
    max_le_max_right 0 (rnd.monotone (sub_le_sub_right hle _))
  have hsum : rnd.add (rnd.round r.1) (max (rnd.sub target acc) 0) ≤
      rnd.add (rnd.round r.1) (max (rnd.sub later acc) 0) := rnd.monotone (add_le_add_right hinto _)
  exact rnd.monotone (div_le_div_of_nonneg_right hsum hrate.le)

/-- What follows the first region begins late enough for the samples of it. -/
theorem Regions.acc_le (h : Regions (r :: regions)) (hacc : acc ≤ r.1) {q : Span} (hq : q ∈ regions) :
    acc + (r.2 - r.1) ≤ q.1 := by
  have hr := h.nonempty r List.mem_cons_self
  have hapart := (List.pairwise_cons.mp h.apart).1 q hq
  omega

/-- The samples in front of a region fit in front of it. -/
theorem Regions.length_le {front rest : List Span} (h : Regions (front ++ r :: rest))
    (hacc : ∀ q ∈ front ++ r :: rest, acc ≤ q.1) : acc + (keptSamples front).length ≤ r.1 := by
  induction front generalizing acc with
  | nil => exact hacc r List.mem_cons_self
  | cons a front ih =>
      have hle := ih h.tail fun q hq => h.acc_le (hacc a List.mem_cons_self) hq
      rw [length_keptSamples] at hle ⊢
      rw [List.map_cons, List.sum_cons]
      omega

theorem remapLoop_mem {x : ℚ} (h : Regions regions) (hrep : Representable rnd regions) (hrate : 0 < rate)
    (hacc : ∀ r ∈ regions, acc ≤ r.1) (hx : remapLoop rnd rate target acc regions = some x) :
    ∃ r ∈ regions, rnd.div r.1 rate ≤ x ∧ x ≤ rnd.div r.2 rate := by
  induction regions generalizing acc with
  | nil => cases hx
  | cons r regions ih =>
      have hr := h.nonempty r List.mem_cons_self
      have hr' := hacc r List.mem_cons_self
      rw [remapLoop_cons hrep hr hr'] at hx
      split_ifs at hx with hreach
      · cases hx
        exact ⟨r, List.mem_cons_self, imageIn_bounds hrep hr hrate hreach⟩
      · obtain ⟨q, hq, hbounds⟩ := ih h.tail hrep.tail (fun q hq => h.acc_le hr' hq) hx
        exact ⟨q, List.mem_cons_of_mem r hq, hbounds⟩

theorem remapLoop_mono {later x y : ℚ} (h : Regions regions) (hrep : Representable rnd regions)
    (hrate : 0 < rate) (hacc : ∀ r ∈ regions, acc ≤ r.1) (hle : target ≤ later)
    (hx : remapLoop rnd rate target acc regions = some x)
    (hy : remapLoop rnd rate later acc regions = some y) : x ≤ y := by
  induction regions generalizing acc with
  | nil => cases hx
  | cons r regions ih =>
      have hr := h.nonempty r List.mem_cons_self
      have hr' := hacc r List.mem_cons_self
      have hrest : ∀ q ∈ regions, acc + (r.2 - r.1) ≤ q.1 := fun q hq => h.acc_le hr' hq
      rw [remapLoop_cons hrep hr hr'] at hx hy
      split_ifs at hx hy with hreach hlater hlater
      · cases hx
        cases hy
        exact imageIn_mono hrate hle
      · -- the later time is in a region further on
        cases hx
        obtain ⟨q, hq, hlow, _⟩ := remapLoop_mem h.tail hrep.tail hrate hrest hy
        have hgap : (r.2 : ℚ) ≤ q.1 := by exact_mod_cast (List.pairwise_cons.mp h.apart).1 q hq
        calc imageIn rnd rate target acc r ≤ rnd.div r.2 rate := (imageIn_bounds hrep hr hrate hreach).2
          _ ≤ rnd.div q.1 rate := rnd.monotone (div_le_div_of_nonneg_right hgap hrate.le)
          _ ≤ y := hlow
      · exact absurd (hle.trans hlater) hreach
      · exact ih h.tail hrep.tail hrest hx hy

/-- Where a region reaches a time, one reaches every earlier time. -/
theorem remapLoop_isSome_of_le {later y : ℚ} (h : Regions regions) (hrep : Representable rnd regions)
    (hacc : ∀ r ∈ regions, acc ≤ r.1) (hle : target ≤ later)
    (hy : remapLoop rnd rate later acc regions = some y) :
    ∃ x, remapLoop rnd rate target acc regions = some x := by
  induction regions generalizing acc with
  | nil => cases hy
  | cons r regions ih =>
      have hr := h.nonempty r List.mem_cons_self
      have hr' := hacc r List.mem_cons_self
      rw [remapLoop_cons hrep hr hr'] at hy ⊢
      by_cases hreach : target ≤ ((acc + (r.2 - r.1) : ℕ) : ℚ)
      · exact ⟨_, if_pos hreach⟩
      · rw [if_neg fun hlater => hreach (hle.trans hlater)] at hy
        rw [if_neg hreach]
        exact ih h.tail hrep.tail (fun q hq => h.acc_le hr' hq) hy

end Image

section Order

variable {rnd : Rounding} {rate t u : ℚ} {regions : List Span}

theorem remapLoop_zero (target : ℚ) :
    remapLoop rnd rate target 0 regions = remapLoop rnd rate target ((0 : ℕ) : ℚ) regions := by
  rw [Nat.cast_zero]

/-- A time has its image in the region that reaches it, or at the end of the last one. -/
theorem remap_eq (hrep : Representable rnd regions) {front : List Span} {last : Span}
    (hregions : regions = front ++ [last]) : remapCompressedSeconds rnd t regions rate =
      (remapLoop rnd rate (remapTarget rnd t rate) ((0 : ℕ) : ℚ) regions).getD (rnd.div last.2 rate) := by
  have hlast : last ∈ regions := hregions ▸ List.mem_append_right _ (List.mem_singleton_self last)
  rw [remapCompressedSeconds, remapLoop_zero, hregions, List.getLast?_concat]
  dsimp only
  rw [hrep last hlast _ le_rfl]

theorem remap_mem (h : Regions regions) (hrep : Representable rnd regions) (hrate : 0 < rate)
    (hsome : regions ≠ []) (t : ℚ) : ∃ r ∈ regions,
      rnd.div r.1 rate ≤ remapCompressedSeconds rnd t regions rate ∧
        remapCompressedSeconds rnd t regions rate ≤ rnd.div r.2 rate := by
  obtain ⟨front, last, hregions⟩ := List.eq_nil_or_concat' regions |>.resolve_left hsome
  have hlast : last ∈ regions := hregions ▸ List.mem_append_right _ (List.mem_singleton_self last)
  rw [remap_eq hrep hregions]
  cases hx : remapLoop rnd rate (remapTarget rnd t rate) ((0 : ℕ) : ℚ) regions with
  | some x => exact remapLoop_mem h hrep hrate (fun r _ => Nat.zero_le r.1) hx
  | none =>
      refine ⟨last, hlast, rnd.monotone ?_, le_rfl⟩
      have hspan : (last.1 : ℚ) ≤ last.2 := by exact_mod_cast (h.nonempty last hlast).le
      exact div_le_div_of_nonneg_right hspan hrate.le

theorem remap_mono (h : Regions regions) (hrep : Representable rnd regions) (hrate : 0 < rate)
    (hle : t ≤ u) :
    remapCompressedSeconds rnd t regions rate ≤ remapCompressedSeconds rnd u regions rate := by
  rcases List.eq_nil_or_concat' regions with rfl | ⟨front, last, hregions⟩
  · exact hle
  have htarget : remapTarget rnd t rate ≤ remapTarget rnd u rate :=
    max_le_max_right 0 (rnd.monotone (mul_le_mul_of_nonneg_right hle hrate.le))
  have hzero : ∀ r ∈ regions, 0 ≤ r.1 := fun r _ => Nat.zero_le r.1
  rw [remap_eq hrep hregions, remap_eq hrep hregions]
  cases hy : remapLoop rnd rate (remapTarget rnd u rate) ((0 : ℕ) : ℚ) regions with
  | some y =>
      obtain ⟨x, hx⟩ := remapLoop_isSome_of_le h hrep hzero htarget hy
      rw [hx]
      exact remapLoop_mono h hrep hrate hzero htarget hx hy
  | none =>
      cases hx : remapLoop rnd rate (remapTarget rnd t rate) ((0 : ℕ) : ℚ) regions with
      | none => exact le_rfl
      | some x =>
          -- past the end is past every region
          obtain ⟨r, hr, _, hhigh⟩ := remapLoop_mem h hrep hrate hzero hx
          refine hhigh.trans (rnd.monotone (div_le_div_of_nonneg_right ?_ hrate.le))
          rw [hregions] at hr h
          rcases List.mem_append.mp hr with hfront | hlast
          · have hbefore := (List.pairwise_append.mp h.apart).2.2 r hfront last (List.mem_singleton_self _)
            have hspan := h.nonempty last (List.mem_append_right _ (List.mem_singleton_self _))
            exact_mod_cast hbefore.trans hspan.le
          · rw [List.mem_singleton.mp hlast]

/-- The map keeps the order of times and stays within the regions, so words in order stay in order. -/
theorem remap_ordered (rnd : Rounding) {regions : List Span} (h : Regions regions)
    (hrep : Representable rnd regions) {rate : ℚ} (hrate : 0 < rate) :
    (∀ t u, t ≤ u →
      remapCompressedSeconds rnd t regions rate ≤ remapCompressedSeconds rnd u regions rate) ∧
    (regions ≠ [] → ∀ t, ∃ r ∈ regions,
      rnd.div r.1 rate ≤ remapCompressedSeconds rnd t regions rate ∧
        remapCompressedSeconds rnd t regions rate ≤ rnd.div r.2 rate) ∧
    ∀ (released : ℕ) (words : List WordInfo), SortedWords words → (∀ w ∈ words, w.start ≤ w.stop) →
      SortedWords ((PcmTimeline.vad regions released).remapWords rnd words) ∧
        ∀ w ∈ (PcmTimeline.vad regions released).remapWords rnd words, w.start ≤ w.stop := by
  have hmono : ∀ {rate : ℚ}, 0 < rate → ∀ t u, t ≤ u →
      remapCompressedSeconds rnd t regions rate ≤ remapCompressedSeconds rnd u regions rate :=
    fun hrate _ _ hle => remap_mono h hrep hrate hle
  refine ⟨hmono hrate, fun hsome t => remap_mem h hrep hrate hsome t, fun released words hsorted hforward => ?_⟩
  have hseconds : (0 : ℚ) < 16000 := by norm_num
  constructor
  · refine List.pairwise_map.mpr (hsorted.imp fun hle => ?_)
    exact hmono hseconds _ _ hle
  · intro w hw
    obtain ⟨v, hv, rfl⟩ := List.mem_map.mp hw
    exact hmono hseconds _ _ (hforward v hv)

end Order

section Inverse

variable {rate : ℚ} {regions front rest : List Span} {r : Span} {acc : ℕ}

/-- The first sample of a region that does not begin where the one before ends. -/
def AfterGap (regions : List Span) (k : ℕ) : Prop :=
  ∃ front a b rest, regions = front ++ a :: b :: rest ∧ a.2 < b.1 ∧
    k = (keptSamples (front ++ [a])).length

/-- A target past the first regions has its image after them. -/
theorem remapLoop_past {target : ℚ} (h : Regions (front ++ rest)) (hacc : ∀ r ∈ front ++ rest, acc ≤ r.1)
    (hpast : ((acc + (keptSamples front).length : ℕ) : ℚ) < target) :
    remapLoop .exact rate target acc (front ++ rest) =
      remapLoop .exact rate target ((acc + (keptSamples front).length : ℕ) : ℚ) rest := by
  induction front generalizing acc with
  | nil => rfl
  | cons r front ih =>
      have hlength : acc + (keptSamples (r :: front)).length =
          acc + (r.2 - r.1) + (keptSamples front).length := by
        rw [length_keptSamples, length_keptSamples, List.map_cons, List.sum_cons, Nat.add_assoc]
      rw [hlength] at hpast ⊢
      have hr := h.nonempty r List.mem_cons_self
      have hr' := hacc r List.mem_cons_self
      rw [List.cons_append, remapLoop_cons (representable_exact _) hr hr', if_neg]
      · exact ih h.tail (fun q hq => h.acc_le hr' hq) hpast
      · refine not_le.mpr (lt_of_le_of_lt ?_ hpast)
        exact_mod_cast Nat.le_add_right _ _

theorem imageIn_exact {k : ℕ} (hk : acc ≤ k) :
    imageIn .exact rate k acc r = ((r.1 + (k - acc) : ℕ) : ℚ) / rate := by
  have hle : (0 : ℚ) ≤ (k : ℚ) - acc := sub_nonneg.mpr (by exact_mod_cast hk)
  show ((r.1 : ℚ) + max ((k : ℚ) - acc) 0) / rate = _
  rw [max_eq_left hle, Nat.cast_add, Nat.cast_sub hk]

/-- The image of a compressed sample number, in the region that it is counted to. -/
theorem remap_sample (hregions : Regions (front ++ r :: rest)) (hrate : 0 < rate) {i : ℕ}
    (hfirst : front = [] ∨ 0 < i) (hi : i ≤ r.2 - r.1) :
    remapCompressedSeconds .exact (((keptSamples front).length + i : ℕ) / rate) (front ++ r :: rest) rate =
      ((r.1 + i : ℕ) : ℚ) / rate := by
  have htarget : remapTarget .exact (((keptSamples front).length + i : ℕ) / rate) rate =
      ((keptSamples front).length + i : ℕ) := by
    show max (((keptSamples front).length + i : ℕ) / rate * rate) 0 = _
    rw [div_mul_cancel₀ _ hrate.ne', max_eq_left (Nat.cast_nonneg _)]
  have hzero : ∀ q ∈ front ++ r :: rest, 0 ≤ q.1 := fun q _ => Nat.zero_le q.1
  have hr := hregions.nonempty r (List.mem_append_right _ List.mem_cons_self)
  have hloop : remapLoop .exact rate ((keptSamples front).length + i : ℕ) 0 (front ++ r :: rest) =
      some (((r.1 + i : ℕ) : ℚ) / rate) := by
    have hpast : remapLoop .exact rate ((keptSamples front).length + i : ℕ) 0 (front ++ r :: rest) =
        remapLoop .exact rate ((keptSamples front).length + i : ℕ)
          ((keptSamples front).length : ℚ) (r :: rest) := by
      rcases hfirst with rfl | hpos
      · rfl
      · rw [remapLoop_zero, remapLoop_past hregions hzero, Nat.zero_add]
        rw [Nat.zero_add]
        exact_mod_cast Nat.lt_add_of_pos_right hpos
    have hacc : (keptSamples front).length ≤ r.1 := by
      have hle : 0 + (keptSamples front).length ≤ r.1 := hregions.length_le hzero
      omega
    rw [hpast, remapLoop_cons (representable_exact _) hr hacc, if_pos, imageIn_exact (Nat.le_add_right _ _),
      Nat.add_sub_cancel_left]
    exact_mod_cast Nat.add_le_add_left hi _
  rw [remap_of_loop (List.append_ne_nil_of_right_ne_nil _ (List.cons_ne_nil _ _))]
  rw [htarget]
  exact hloop

theorem length_keptSamples_append (front rest : List Span) : (keptSamples (front ++ rest)).length =
    (keptSamples front).length + (keptSamples rest).length := by
  rw [keptSamples_append, List.length_append]

theorem length_keptSamples_cons (r : Span) (rest : List Span) :
    (keptSamples (r :: rest)).length = r.2 - r.1 + (keptSamples rest).length := by
  rw [length_keptSamples, length_keptSamples, List.map_cons, List.sum_cons]

theorem afterGap_iff (h : Regions (front ++ r :: rest)) {i : ℕ} (hi : i < r.2 - r.1) :
    AfterGap (front ++ r :: rest) ((keptSamples front).length + i) ↔
      i = 0 ∧ ∃ front' a, front = front' ++ [a] ∧ a.2 < r.1 := by
  constructor
  · rintro ⟨front', a, b, rest', heq, hgap, hk⟩
    have hb : b.1 < b.2 := h.nonempty b (by rw [heq]; simp)
    rw [List.append_cons front' a] at heq
    rcases List.append_eq_append_iff.mp heq with ⟨more, hfront, hrest⟩ | ⟨more, hfront, hrest⟩
    · cases more with
      | nil =>
          obtain ⟨rfl, _⟩ := List.cons.inj hrest
          rw [List.append_nil] at hfront
          rw [hfront] at hk
          exact ⟨by omega, front', a, hfront.symm, hgap⟩
      | cons q more =>
          -- the gap would be after the region of the sample
          obtain ⟨rfl, _⟩ := List.cons.inj hrest
          rw [hfront, length_keptSamples_append, length_keptSamples_cons] at hk
          omega
    · cases more with
      | nil =>
          obtain ⟨rfl, _⟩ := List.cons.inj hrest
          rw [List.append_nil] at hfront
          rw [hfront] at hk
          exact ⟨by omega, front', a, hfront, hgap⟩
      | cons q more =>
          -- or before the region in front of it
          obtain ⟨rfl, _⟩ := List.cons.inj hrest
          rw [hfront, length_keptSamples_append, length_keptSamples_cons] at hk
          omega
  · rintro ⟨rfl, front', a, rfl, hgap⟩
    exact ⟨front', a, r, rest, by simp, hgap, rfl⟩

/-- The map gives a kept sample its own time, but for the first one after a gap, which has the time at
which the gap begins. -/
theorem remap_kept_iff {regions : List Span} (h : Regions regions) {rate : ℚ} (hrate : 0 < rate) {k : ℕ}
    (hk : k < (keptSamples regions).length) :
    remapCompressedSeconds .exact (k / rate) regions rate = ((keptSamples regions)[k] : ℚ) / rate ↔
      ¬AfterGap regions k := by
  obtain ⟨front, r, rest, rfl, i, hi, rfl, hget⟩ := exists_region hk
  rw [hget, afterGap_iff h hi]
  by_cases hfirst : front = [] ∨ 0 < i
  · rw [remap_sample h hrate hfirst hi.le]
    apply iff_of_true rfl
    rintro ⟨rfl, front', a, rfl, _⟩
    rcases hfirst with hnil | hpos
    · exact List.concat_ne_nil a front' (List.concat_eq_append ▸ hnil)
    · exact Nat.lt_irrefl 0 hpos
  · obtain ⟨hsome, hzero⟩ := not_or.mp hfirst
    obtain ⟨front', a, rfl⟩ := (List.eq_nil_or_concat' front).resolve_left hsome
    obtain rfl : i = 0 := Nat.eq_zero_of_not_pos hzero
    have hregions : front' ++ [a] ++ r :: rest = front' ++ a :: r :: rest := by simp
    have ha : a.1 < a.2 := h.nonempty a (by simp)
    have hcount : (keptSamples (front' ++ [a])).length + 0 = (keptSamples front').length + (a.2 - a.1) := by
      rw [length_keptSamples_append, length_keptSamples_cons]
      rfl
    have hend : a.1 + (a.2 - a.1) = a.2 := by omega
    rw [hregions] at h
    rw [hcount, hregions, remap_sample h hrate (Or.inr (by omega)) le_rfl, hend, Nat.add_zero,
      div_left_inj' hrate.ne', Nat.cast_inj]
    have hapart : a.2 ≤ r.1 := by
      obtain ⟨_, hright, _⟩ := List.pairwise_append.mp h.apart
      exact (List.pairwise_cons.mp hright).1 r List.mem_cons_self
    constructor
    · rintro heq ⟨_, front'', a', hfront, hgap⟩
      obtain ⟨_, rfl⟩ := List.append_inj' hfront rfl |>.imp_right List.singleton_inj.mp
      omega
    · intro hgap
      refine le_antisymm hapart (not_lt.mp fun hlt => hgap ⟨rfl, front', a, rfl, hlt⟩)

end Inverse

section Example

/-- Speech with two seconds of silence in between. -/
def twoRegions : List Span := [(0, 16000), (48000, 64000)]

theorem regions_twoRegions : Regions twoRegions := by
  constructor
  · decide
  · decide

theorem length_twoRegions : (keptSamples twoRegions).length = 32000 := by
  rw [length_keptSamples]
  decide

theorem remap_kept_second : ∃ hk : 8000 < (keptSamples twoRegions).length,
    remapCompressedSeconds .exact ((8000 : ℕ) / 16000) twoRegions 16000 =
      ((keptSamples twoRegions)[8000] : ℚ) / 16000 := by
  have hk : 8000 < (keptSamples twoRegions).length := by
    rw [length_twoRegions]
    decide
  refine ⟨hk, (remap_kept_iff regions_twoRegions (by norm_num) hk).mpr ?_⟩
  have hregions : Regions ([] ++ (0, 16000) :: [(48000, 64000)]) := regions_twoRegions
  have hfirst := afterGap_iff hregions (show 8000 < 16000 by decide)
  exact fun hgap => absurd (hfirst.mp hgap).1 (by decide)

/-- The first sample of the second region gets the time at which the first region ends. -/
theorem remap_gap_start : ∃ (regions : List Span) (k : ℕ) (hk : k < (keptSamples regions).length),
    Regions regions ∧ remapCompressedSeconds .exact (k / 16000) regions 16000 ≠
      ((keptSamples regions)[k] : ℚ) / 16000 := by
  have hk : 16000 < (keptSamples twoRegions).length := by
    rw [length_twoRegions]
    decide
  refine ⟨twoRegions, 16000, hk, regions_twoRegions, ?_⟩
  have hfirst : (keptSamples [(0, 16000)]).length = 16000 := by
    rw [length_keptSamples]
    decide
  have hget : (keptSamples twoRegions)[16000] = 48000 := by
    have hsplit : keptSamples twoRegions = keptSamples [(0, 16000)] ++ keptSamples [(48000, 64000)] :=
      keptSamples_append [(0, 16000)] [(48000, 64000)]
    simp only [hsplit]
    rw [List.getElem_append_right hfirst.le]
    simp only [hfirst]
    rfl
  have hregions : Regions ([] ++ (0, 16000) :: [(48000, 64000)]) := regions_twoRegions
  have himage := remap_sample hregions (show (0 : ℚ) < 16000 by norm_num) (Or.inl rfl)
    (show 16000 ≤ 16000 - 0 from le_rfl)
  rw [hget]
  intro heq
  have hsame := himage.symm.trans heq
  norm_num at hsame

theorem remap_ordered_binary : remapCompressedSeconds .binary64 (1 / 2) twoRegions 16000 ≤
    remapCompressedSeconds .binary64 (3 / 2) twoRegions 16000 := by
  have hrep : Representable .binary64 twoRegions := by
    intro r hr n hn
    refine Rounding.binary_natCast 52 (lt_of_le_of_lt hn ?_)
    simp only [twoRegions, List.mem_cons, List.not_mem_nil, or_false] at hr
    rcases hr with rfl | rfl <;> decide
  exact (remap_ordered .binary64 regions_twoRegions hrep (by norm_num)).1 _ _ (by norm_num)

end Example

end Gigastt
