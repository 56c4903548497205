import Gigastt.Tensor
import Mathlib.Algebra.BigOperators.Ring.List

/-!
Bilinear contractions. An entry of the result is a sum of products, each of one entry of either
operand: the matrix product with its batch axes, and the convolution with strides, dilations, groups
and padding. Where every product takes the second operand at the channel of the result, a scale per
channel of that operand is a scale per channel of the result.
-/

/-- The dimensions of the result, and for each of its indices the pairs of indices multiplied. -/
structure Contraction where
  dims : List ℕ
  terms : List ℕ → List (List ℕ × List ℕ)

namespace Contraction

open Tensor

variable {α β : Type*}

def apply [Zero α] [Add α] [Mul α] (p : Contraction) (a b : Tensor α) : Tensor α :=
  ofFn p.dims fun idx => ((p.terms idx).map fun t => a.get t.1 * b.get t.2).sum

/-- The second operand is read at the channel of the result. -/
def Follows (p : Contraction) (channel out : List ℕ → ℕ) : Prop :=
  ∀ idx, Inside idx p.dims → ∀ t ∈ p.terms idx, channel t.2 = out idx

section Scale

variable [Semiring α] [CommSemiring β]

/-- Operands scaled as a whole and by channel give the result scaled by their product. -/
theorem apply_scaled {p : Contraction} {channel out : List ℕ → ℕ} (hfollows : p.Follows channel out)
    (φ : α →+* β) (s : β) (scales : ℕ → β) (a b : Tensor α) :
    p.apply (a.map fun v => φ v * s) (b.mapIdx fun j v => φ v * scales (channel j)) =
      (p.apply a b).mapIdx fun idx v => φ v * (s * scales (out idx)) := by
  apply ofFn_congr
  intro idx hidx
  have hleft : ∀ j, (a.map fun v => φ v * s).get j = φ (a.get j) * s :=
    get_map_zero (by rw [map_zero, zero_mul]) a
  have hright : ∀ j, (b.mapIdx fun j v => φ v * scales (channel j)).get j =
      φ (b.get j) * scales (channel j) :=
    get_mapIdx_zero (fun j => by rw [map_zero, zero_mul]) b
  dsimp only
  rw [apply, get_ofFn _ hidx, map_list_sum, List.map_map, ← List.sum_map_mul_right]
  refine congrArg List.sum (List.map_congr_left fun t ht => ?_)
  rw [hleft, hright, hfollows idx hidx t ht, Function.comp_apply, map_mul]
  ring

end Scale

section Matmul

/-- The product of two vectors, matrices or stacks of matrices; a stack broadcasts over its leading
axes. -/
def matmul (ds es : List ℕ) : Option Contraction :=
  match ds.reverse, es.reverse with
  | k :: ra, n :: k' :: rb =>
      if k = k' then
        match ra with
        | [] => some {
            dims := (n :: rb).reverse
            terms := fun idx => match idx.reverse with
              | i :: batch => (List.range k).map fun j => ([j], (i :: j :: batch).reverse)
              | [] => [] }
        | m :: rab => (broadcastRev rab rb).map fun batch => {
            dims := (n :: m :: batch).reverse
            terms := fun idx => match idx.reverse with
              | i :: row :: place => (List.range k).map fun j =>
                  ((j :: row :: projectRev rab place).reverse, (i :: j :: projectRev rb place).reverse)
              | _ => [] }
      else none
  | k :: ra, [k'] =>
      if k = k' then some {
        dims := ra.reverse
        terms := fun idx => (List.range k).map fun j => (idx ++ [j], [j]) }
      else none
  | _, _ => none

/-- The columns of the second operand are those of the product. -/
theorem matmul_columns {ds front : List ℕ} {n : ℕ} {p : Contraction} (hfront : front ≠ [])
    (h : matmul ds (front ++ [n]) = some p) :
    (∃ rows, p.dims = rows ++ [n]) ∧ p.Follows (·.getLastD 0) (·.getLastD 0) := by
  obtain ⟨k', rb, hrev⟩ : ∃ k' rb, front.reverse = k' :: rb := by
    cases hcase : front.reverse with
    | nil => exact absurd (List.reverse_eq_nil_iff.mp hcase) hfront
    | cons k' rb => exact ⟨k', rb, rfl⟩
  have hes : (front ++ [n]).reverse = n :: k' :: rb := by simp [hrev]
  unfold matmul at h
  rw [hes] at h
  cases hds : ds.reverse with
  | nil => simp [hds] at h
  | cons k ra =>
      simp only [hds] at h
      split at h
      · cases ra with
        | nil =>
            cases h
            refine ⟨⟨rb.reverse, by simp⟩, fun idx _ t ht => ?_⟩
            cases hidx : idx.reverse with
            | nil => simp [hidx] at ht
            | cons i batch =>
                simp only [hidx, List.mem_map] at ht
                obtain ⟨j, _, rfl⟩ := ht
                rw [List.reverse_eq_iff.mp hidx]
                simp
        | cons m rab =>
            cases hbatch : broadcastRev rab rb with
            | none => simp [hbatch] at h
            | some batch =>
                simp only [hbatch, Option.map_some, Option.some.injEq] at h
                subst h
                refine ⟨⟨(m :: batch).reverse, by simp⟩, fun idx _ t ht => ?_⟩
                rcases hidx : idx.reverse with _ | ⟨i, _ | ⟨row, rest⟩⟩
                · simp [hidx] at ht
                · simp [hidx] at ht
                · simp only [hidx, List.mem_map] at ht
                  obtain ⟨j, _, rfl⟩ := ht
                  rw [List.reverse_eq_iff.mp hidx]
                  simp
      · cases h

end Matmul

section Convolution

/-- How the padding of an axis is found. -/
inductive Padding
  | explicit
  | valid
  | sameUpper
  | sameLower
deriving DecidableEq, Repr

/-- One spatial axis of a convolution. -/
structure Axis where
  input : ℕ
  kernel : ℕ
  stride : ℕ
  dilation : ℕ
  before : ℕ
  after : ℕ

/-- The inputs from the first tap of the kernel to its last. -/
def Axis.extent (a : Axis) : ℕ := (a.kernel - 1) * a.dilation + 1

def Axis.output (a : Axis) : ℕ :=
  if a.extent ≤ a.input + a.before + a.after then
    (a.input + a.before + a.after - a.extent) / a.stride + 1
  else 0

/-- Padding that keeps one output for every stride of inputs. -/
def Axis.same (a : Axis) : ℕ :=
  ((a.input + a.stride - 1) / a.stride - 1) * a.stride + a.extent - a.input

def Axis.pad (a : Axis) : Padding → Axis
  | .explicit => a
  | .valid => { a with before := 0, after := 0 }
  | .sameUpper => { a with before := a.same / 2, after := a.same - a.same / 2 }
  | .sameLower => { a with before := a.same - a.same / 2, after := a.same / 2 }

/-- The settings of a convolution; an empty list stands for the default on every axis. -/
structure Settings where
  strides : List ℕ
  dilations : List ℕ
  before : List ℕ
  after : List ℕ
  group : ℕ
  padding : Padding

def Settings.Valid (g : Settings) (axes : ℕ) : Prop :=
  0 < g.group ∧
    (∀ l ∈ [g.strides, g.dilations, g.before, g.after], l = [] ∨ l.length = axes) ∧
    0 ∉ g.strides ∧ 0 ∉ g.dilations

instance (g : Settings) (axes : ℕ) : Decidable (g.Valid axes) :=
  inferInstanceAs (Decidable (_ ∧ _))

def Settings.axes (g : Settings) (spatial kernel : List ℕ) : List Axis :=
  (List.range kernel.length).map fun i =>
    let axis : Axis := {
      input := spatial.getD i 0
      kernel := kernel.getD i 0
      stride := g.strides.getD i 1
      dilation := g.dilations.getD i 1
      before := g.before.getD i 0
      after := g.after.getD i 0 }
    axis.pad g.padding

/-- The input under each tap of the kernel at an output; none where the tap falls before the input. -/
def taps : List Axis → List ℕ → List ℕ → Option (List ℕ)
  | a :: axes, p :: pos, k :: tap =>
      if a.before ≤ p * a.stride + k * a.dilation then
        (taps axes pos tap).map ((p * a.stride + k * a.dilation - a.before) :: ·)
      else none
  | _, _, _ => some []

/-- The convolution of `[n, c, spatial]` with `[m, c / group, kernel]`; an input past the end reads
zero. -/
def convolution (g : Settings) (ds es : List ℕ) : Option Contraction :=
  match ds, es with
  | n :: c :: spatial, m :: cg :: kernel =>
      if g.Valid kernel.length ∧ spatial.length = kernel.length ∧ c = g.group * cg ∧
          g.group ∣ m then
        some {
          dims := n :: m :: (g.axes spatial kernel).map Axis.output
          terms := fun idx => match idx with
            | b :: o :: pos => (List.range cg).flatMap fun ic =>
                (indices kernel).filterMap fun tap =>
                  (taps (g.axes spatial kernel) pos tap).map fun place =>
                    (b :: (o / (m / g.group) * cg + ic) :: place, o :: ic :: tap)
            | _ => [] }
      else none
  | _, _ => none

/-- The leading axis of the kernel is the channel axis of the result. -/
theorem convolution_channels {g : Settings} {ds kernel : List ℕ} {m cg : ℕ} {p : Contraction}
    (h : convolution g ds (m :: cg :: kernel) = some p) :
    (∃ n spatial, p.dims = n :: m :: spatial ∧ spatial.length = kernel.length) ∧
      p.Follows (·.getD 0 0) (·.getD 1 0) := by
  rcases ds with _ | ⟨n, _ | ⟨c, spatial⟩⟩
  · simp [convolution] at h
  · simp [convolution] at h
  · simp only [convolution] at h
    split at h
    · cases h
      refine ⟨⟨n, _, rfl, by simp [Settings.axes]⟩, fun idx hidx t ht => ?_⟩
      obtain ⟨b, rest, rfl, _, hrest⟩ := inside_cons_dims.mp hidx
      obtain ⟨o, pos, rfl, _, _⟩ := inside_cons_dims.mp hrest
      simp only [List.mem_flatMap, List.mem_filterMap, Option.map_eq_some_iff] at ht
      obtain ⟨ic, _, tap, _, place, _, rfl⟩ := ht
      rfl
    · cases h

theorem rank_of_convolution {g : Settings} {ds es : List ℕ} {p : Contraction}
    (h : convolution g ds es = some p) : ∃ m cg kernel, es = m :: cg :: kernel := by
  unfold convolution at h
  split at h
  · exact ⟨_, _, _, rfl⟩
  · cases h

end Convolution

end Contraction
