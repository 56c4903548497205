import Gigastt.Rounding
import Gigastt.VadRegions

/-!
From the compressed timeline, in which silence is removed, back to the original one. A time within
the regions keeps its image when the region list grows; a later one is clamped and does not.
-/

namespace Gigastt

open Vad (Span)

section

variable (rnd : Rounding)

def spanLength (region : Span) : ℚ := rnd.round ↑(region.2 - region.1)

/-- Compressed samples of the regions, added in turn onto `acc`. -/
def addLengths (acc : ℚ) (regions : List Span) : ℚ :=
  regions.foldl (fun acc region => rnd.add acc (spanLength rnd region)) acc

/-- The image of a compressed sample in the first region that reaches it; `acc` is the compressed
offset of the first region. -/
def remapLoop (rate target : ℚ) : ℚ → List Span → Option ℚ
  | _, [] => none
  | acc, region :: rest =>
      let stop := rnd.add acc (spanLength rnd region)
      if target ≤ stop then
        let into := max (rnd.sub target acc) 0
        some (rnd.div (rnd.add (rnd.round region.1) into) rate)
      else remapLoop rate target stop rest

def remapTarget (t rate : ℚ) : ℚ := max (rnd.mul t rate) 0

def remapCompressedSeconds (t : ℚ) (regions : List Span) (rate : ℚ) : ℚ :=
  match regions.getLast? with
  | none => t
  | some last =>
      (remapLoop rnd rate (remapTarget rnd t rate) 0 regions).getD
        (rnd.div (rnd.round last.2) rate)

end

/-- How a region list grows: its last region is extended, or not, and regions are appended. -/
structure RegionGrowth where
  extendTo : Option Nat
  appended : List Span
  deriving DecidableEq, Repr

/-- The grown list, unless there is no last region to extend or that would shrink it. -/
def RegionGrowth.apply (g : RegionGrowth) (regions : List Span) : Option (List Span) :=
  match g.extendTo with
  | none => some (regions ++ g.appended)
  | some stop =>
      match regions.getLast? with
      | some last =>
          if last.2 ≤ stop then some (regions.dropLast ++ (last.1, stop) :: g.appended) else none
      | none => none

section

variable {rnd : Rounding} {rate target acc : ℚ} {regions grown : List Span}

theorem addLengths_append (front rest : List Span) :
    addLengths rnd acc (front ++ rest) = addLengths rnd (addLengths rnd acc front) rest := by
  rw [addLengths, List.foldl_append, addLengths, addLengths]

theorem addLengths_exact (acc : ℚ) (regions : List Span) :
    addLengths .exact acc regions = acc + ((regions.map fun r => r.2 - r.1).sum : ℕ) := by
  induction regions generalizing acc with
  | nil => simp [addLengths]
  | cons region regions ih =>
      have hstep : addLengths .exact acc (region :: regions) =
          addLengths .exact (acc + ((region.2 - region.1 : ℕ) : ℚ)) regions := rfl
      rw [hstep, ih, List.map_cons, List.sum_cons, Nat.cast_add, add_assoc]

theorem remapLoop_append (front rest : List Span) :
    remapLoop rnd rate target acc (front ++ rest) =
      (remapLoop rnd rate target acc front).or
        (remapLoop rnd rate target (addLengths rnd acc front) rest) := by
  induction front generalizing acc with
  | nil => rfl
  | cons region front ih =>
      rw [List.cons_append, remapLoop, remapLoop]
      dsimp only
      split
      · rfl
      · rw [ih, addLengths, addLengths, List.foldl_cons]

/-- A target up to the end of the last region is reached. -/
theorem remapLoop_isSome (hsome : regions ≠ []) (h : target ≤ addLengths rnd acc regions) :
    (remapLoop rnd rate target acc regions).isSome := by
  obtain ⟨front, last, rfl⟩ := List.eq_nil_or_concat regions |>.resolve_left hsome
  rw [List.concat_eq_append, addLengths_append] at h
  rw [List.concat_eq_append, remapLoop_append, Option.isSome_or, remapLoop]
  dsimp only
  rw [if_pos (show _ ≤ rnd.add _ _ from h), Option.isSome_some, Bool.or_true]

/-- A region that reaches the target still does when it is longer. -/
theorem remapLoop_extend {front : List Span} {start stop later : Nat} {x : ℚ} (hle : stop ≤ later)
    (h : remapLoop rnd rate target acc (front ++ [(start, stop)]) = some x) :
    remapLoop rnd rate target acc (front ++ [(start, later)]) = some x := by
  rw [remapLoop_append] at h ⊢
  rcases Option.or_eq_some_iff.mp h with hfront | ⟨hfront, hlast⟩
  · exact Option.or_eq_some_iff.mpr (.inl hfront)
  · refine Option.or_eq_some_iff.mpr (.inr ⟨hfront, ?_⟩)
    rw [remapLoop] at hlast ⊢
    dsimp only at hlast ⊢
    split at hlast
    · rename_i hreach
      have hlength : spanLength rnd (start, stop) ≤ spanLength rnd (start, later) :=
        rnd.monotone (by exact_mod_cast Nat.sub_le_sub_right hle start)
      have hlonger : rnd.add (addLengths rnd acc front) (spanLength rnd (start, stop)) ≤
          rnd.add (addLengths rnd acc front) (spanLength rnd (start, later)) :=
        rnd.monotone (add_le_add_right hlength _)
      rw [if_pos (hreach.trans hlonger)]
      exact hlast
    · exact absurd hlast (by simp [remapLoop])

/-- What growth leaves alone: regions, how far they reach, and the image of what they reach. -/
theorem RegionGrowth.apply_spec {g : RegionGrowth} (h : g.apply regions = some grown)
    (hsome : regions ≠ []) :
    grown ≠ [] ∧ ∀ {x : ℚ}, remapLoop rnd rate target acc regions = some x →
      remapLoop rnd rate target acc grown = some x := by
  unfold RegionGrowth.apply at h
  split at h
  · cases h
    refine ⟨fun hnil => hsome (List.append_eq_nil_iff.mp hnil).1, fun hx => ?_⟩
    rw [remapLoop_append, hx, Option.some_or]
  · split at h
    · rename_i stop _ last hlast
      split at h
      · rename_i hle
        cases h
        obtain ⟨front, rfl⟩ := List.getLast?_eq_some_iff.mp hlast
        rw [List.dropLast_concat]
        refine ⟨fun hnil => List.cons_ne_nil _ _ (List.append_eq_nil_iff.mp hnil).2, fun hx => ?_⟩
        have hextended := remapLoop_extend hle hx
        rw [List.append_cons, remapLoop_append, hextended, Option.some_or]
      · cases h
    · cases h

end

section

variable (rnd : Rounding)

/-- The compressed time `t` is within the length of the regions. -/
def WithinRegions (t : ℚ) (regions : List Span) (rate : ℚ) : Prop :=
  regions ≠ [] ∧ remapTarget rnd t rate ≤ addLengths rnd 0 regions

instance (t : ℚ) (regions : List Span) (rate : ℚ) : Decidable (WithinRegions rnd t regions rate) :=
  inferInstanceAs (Decidable (_ ∧ _))

/-- Some region reaches the compressed time `t`. -/
def Reached (t : ℚ) (regions : List Span) (rate : ℚ) : Prop :=
  regions ≠ [] ∧ (remapLoop rnd rate (remapTarget rnd t rate) 0 regions).isSome

end

section

variable {rnd : Rounding} {t rate : ℚ} {regions grown : List Span} {g : RegionGrowth}

theorem WithinRegions.reached (h : WithinRegions rnd t regions rate) : Reached rnd t regions rate :=
  ⟨h.1, remapLoop_isSome h.1 h.2⟩

theorem remap_of_loop {x : ℚ} (hsome : regions ≠ [])
    (h : remapLoop rnd rate (remapTarget rnd t rate) 0 regions = some x) :
    remapCompressedSeconds rnd t regions rate = x := by
  rw [remapCompressedSeconds, List.getLast?_eq_some_getLast hsome, h]
  rfl

/-- A time that a region reaches stays reached and keeps its image. -/
theorem Reached.grow (h : Reached rnd t regions rate) (hgrow : g.apply regions = some grown) :
    Reached rnd t grown rate ∧
      remapCompressedSeconds rnd t grown rate = remapCompressedSeconds rnd t regions rate := by
  obtain ⟨hsome, hreached⟩ := h
  obtain ⟨x, hx⟩ := Option.isSome_iff_exists.mp hreached
  obtain ⟨hgrown, hkeep⟩ := RegionGrowth.apply_spec hgrow hsome
  refine ⟨⟨hgrown, Option.isSome_iff_exists.mpr ⟨x, hkeep hx⟩⟩, ?_⟩
  rw [remap_of_loop hsome hx, remap_of_loop hgrown (hkeep hx)]

end

end Gigastt
