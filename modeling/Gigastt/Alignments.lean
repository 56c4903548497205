import Mathlib.Algebra.BigOperators.Ring.Finset
import Mathlib.Data.Finset.Image

/-!
Frame alignments: lists of classes, one of which is the blank. Collapsing an alignment merges runs
of one class and drops the blanks. The weight of an alignment is the product of its classes' weights
frame by frame; the mass of a set of alignments is what those with given labels weigh.
-/

namespace Alignments

section Collapse

variable {α : Type*} [DecidableEq α] (blank : α)

/-- The labels of an alignment that follows a frame of class `prev`. -/
def collapseFrom (prev : Option α) : List α → List α
  | [] => []
  | c :: rest =>
      if c = blank ∨ prev = some c then collapseFrom (some c) rest
      else c :: collapseFrom (some c) rest

def collapse (a : List α) : List α := collapseFrom blank none a

/-- The last frame is blank, or there is none. -/
def endsInBlank (a : List α) : Bool := a.getLast?.getD blank = blank

variable {blank}

theorem collapseFrom_concat (prev : Option α) (a : List α) (c : α) :
    collapseFrom blank prev (a ++ [c])
      = if c = blank ∨ a.getLast?.or prev = some c then collapseFrom blank prev a
        else collapseFrom blank prev a ++ [c] := by
  induction a generalizing prev with
  | nil =>
      show _ = if c = blank ∨ prev = some c then [] else [c]
      rw [List.nil_append, collapseFrom]
      split_ifs <;> rfl
  | cons b a ih =>
      have hlast : (b :: a).getLast?.or prev = a.getLast?.or (some b) := by
        cases a with
        | nil => rfl
        | cons x a => rw [List.getLast?_cons_cons, List.getLast?_cons]; rfl
      rw [List.cons_append, collapseFrom, collapseFrom, ih, hlast]
      split_ifs <;> rfl

theorem collapse_concat (a : List α) (c : α) : collapse blank (a ++ [c])
    = if c = blank ∨ a.getLast? = some c then collapse blank a else collapse blank a ++ [c] := by
  rw [collapse, collapseFrom_concat, Option.or_none]
  rfl

theorem collapse_concat_blank (a : List α) : collapse blank (a ++ [blank]) = collapse blank a := by
  rw [collapse_concat, if_pos (Or.inl rfl)]

theorem endsInBlank_concat (a : List α) (c : α) : endsInBlank blank (a ++ [c]) = decide (c = blank) := by
  simp only [endsInBlank, List.getLast?_concat, Option.getD_some]

/-- An alignment that does not end in blank ends in its last label. -/
theorem getLast?_collapse {a : List α} (h : endsInBlank blank a = false) :
    (collapse blank a).getLast? = a.getLast? := by
  induction a using List.reverseRecOn with
  | nil => rfl
  | append_singleton a c ih =>
      have hc : c ≠ blank := by simpa [endsInBlank_concat] using h
      rw [collapse_concat, List.getLast?_concat]
      by_cases hlast : a.getLast? = some c
      · rw [if_pos (Or.inr hlast), ih, hlast]
        simpa [endsInBlank, hlast] using hc
      · rw [if_neg (not_or.mpr ⟨hc, hlast⟩), List.getLast?_concat]

/-- The class of the next frame repeats the last label, or begins a new one. -/
theorem getLast?_eq_some_iff {a : List α} {c : α} (hc : c ≠ blank) :
    a.getLast? = some c ↔
      endsInBlank blank a = false ∧ (collapse blank a).getLast? = some c := by
  constructor
  · intro h
    have hends : endsInBlank blank a = false := by simpa [endsInBlank, h] using hc
    exact ⟨hends, (getLast?_collapse hends).trans h⟩
  · rintro ⟨hends, hlast⟩
    exact (getLast?_collapse hends).symm.trans hlast

end Collapse

section Weight

variable {α R : Type*} [CommSemiring R] (weightAt : Nat → α → R)

def weight (a : List α) : R := (a.zipIdx.map fun x => weightAt x.2 x.1).prod

theorem weight_concat (a : List α) (c : α) :
    weight weightAt (a ++ [c]) = weight weightAt a * weightAt a.length c := by
  simp [weight, List.zipIdx_append]

end Weight

section Mass

variable {α R : Type*} [DecidableEq α] [CommSemiring R] (blank : α) (weightAt : Nat → α → R)

/-- The weight of the alignments of `S` that collapse to `labels` and end in blank, or do not. -/
def mass (S : Finset (List α)) (labels : List α) (ends : Bool) : R :=
  ∑ a ∈ S with collapse blank a = labels ∧ endsInBlank blank a = ends, weight weightAt a

/-- One more frame of class `c` behind each alignment of `S`. -/
def extend (S : Finset (List α)) (c : α) : Finset (List α) := S.image (· ++ [c])

variable {blank weightAt} {S T : Finset (List α)} {labels : List α} {ends : Bool} {c : α}

theorem mem_extend {b : List α} : b ∈ extend S c ↔ ∃ a ∈ S, a ++ [c] = b := Finset.mem_image

theorem mass_union (h : Disjoint S T) : mass blank weightAt (S ∪ T) labels ends
    = mass blank weightAt S labels ends + mass blank weightAt T labels ends := by
  unfold mass
  rw [Finset.filter_union, Finset.sum_union (Finset.disjoint_filter_filter h)]

theorem mass_eq_zero (h : ∀ a ∈ S, collapse blank a = labels → endsInBlank blank a ≠ ends) :
    mass blank weightAt S labels ends = 0 := by
  apply Finset.sum_eq_zero
  intro a ha
  obtain ⟨haS, hlabels, hends⟩ := Finset.mem_filter.mp ha
  exact absurd hends (h a haS hlabels)

/-- All alignments of `S` have these labels and this end. -/
def Uniform (blank : α) (S : Finset (List α)) (labels : List α) (ends : Bool) : Prop :=
  ∀ a ∈ S, collapse blank a = labels ∧ endsInBlank blank a = ends

theorem Uniform.mass_eq (h : Uniform blank S labels ends) :
    mass blank weightAt S labels ends = ∑ a ∈ S, weight weightAt a := by
  unfold mass
  rw [Finset.filter_true_of_mem h]

theorem Uniform.mass_other (h : Uniform blank S labels ends) {labels' : List α} {ends' : Bool}
    (hne : labels' ≠ labels ∨ ends' ≠ ends) : mass blank weightAt S labels' ends' = 0 := by
  apply mass_eq_zero
  rintro a ha hlabels hends
  rcases hne with hne | hne
  · exact hne (hlabels.symm.trans (h a ha).1)
  · exact hne (hends.symm.trans (h a ha).2)

theorem sum_extend {n : Nat} (hlength : ∀ a ∈ S, a.length = n) :
    ∑ b ∈ extend S c, weight weightAt b = (∑ a ∈ S, weight weightAt a) * weightAt n c := by
  unfold extend
  rw [Finset.sum_image fun a _ b _ hab => List.append_cancel_right hab, Finset.sum_mul]
  apply Finset.sum_congr rfl
  intro a ha
  rw [weight_concat, hlength a ha]

/-- The alignments of `S` with these labels and this end. -/
def part (blank : α) (S : Finset (List α)) (labels : List α) (ends : Bool) : Finset (List α) :=
  S.filter fun a => collapse blank a = labels ∧ endsInBlank blank a = ends

theorem mem_part {a : List α} : a ∈ part blank S labels ends ↔
    a ∈ S ∧ collapse blank a = labels ∧ endsInBlank blank a = ends := Finset.mem_filter

theorem sum_extend_part {n : Nat} (hlength : ∀ a ∈ S, a.length = n) :
    ∑ b ∈ extend (part blank S labels ends) c, weight weightAt b
      = mass blank weightAt S labels ends * weightAt n c :=
  sum_extend fun a ha => hlength a (mem_part.mp ha).1

theorem uniform_extend_blank :
    Uniform blank (extend (part blank S labels ends) blank) labels true := by
  rintro b hb
  obtain ⟨a, ha, rfl⟩ := mem_extend.mp hb
  rw [collapse_concat_blank, endsInBlank_concat]
  exact ⟨(mem_part.mp ha).2.1, decide_eq_true rfl⟩

/-- A class that repeats the last label, with no blank between, adds none. -/
theorem uniform_extend_repeat (hc : c ≠ blank) (hlast : labels.getLast? = some c) :
    Uniform blank (extend (part blank S labels false) c) labels false := by
  rintro b hb
  obtain ⟨a, ha, rfl⟩ := mem_extend.mp hb
  obtain ⟨_, rfl, hends⟩ := mem_part.mp ha
  rw [collapse_concat, endsInBlank_concat,
    if_pos (Or.inr ((getLast?_eq_some_iff hc).mpr ⟨hends, hlast⟩))]
  exact ⟨rfl, decide_eq_false hc⟩

theorem uniform_extend_label (hc : c ≠ blank) (hnew : labels.getLast? ≠ some c ∨ ends = true) :
    Uniform blank (extend (part blank S labels ends) c) (labels ++ [c]) false := by
  rintro b hb
  obtain ⟨a, ha, rfl⟩ := mem_extend.mp hb
  obtain ⟨_, rfl, rfl⟩ := mem_part.mp ha
  have hlast : a.getLast? ≠ some c := by
    rw [Ne, getLast?_eq_some_iff hc]
    rintro ⟨hends, hlabel⟩
    rcases hnew with hnew | hnew
    · exact hnew hlabel
    · exact Bool.false_ne_true (hends.symm.trans hnew)
  rw [collapse_concat, endsInBlank_concat, if_neg (not_or.mpr ⟨hc, hlast⟩)]
  exact ⟨rfl, decide_eq_false hc⟩

theorem disjoint_extend_part {labels' : List α} {ends' : Bool} {c' : α}
    (hne : (labels, ends, c) ≠ (labels', ends', c')) :
    Disjoint (extend (part blank S labels ends) c) (extend (part blank S labels' ends') c') := by
  rw [Finset.disjoint_left]
  rintro b hb hb'
  obtain ⟨a, ha, rfl⟩ := mem_extend.mp hb
  obtain ⟨a', ha', heq⟩ := mem_extend.mp hb'
  obtain ⟨rfl, hc⟩ := List.append_inj' heq rfl
  cases hc
  obtain ⟨_, rfl, rfl⟩ := mem_part.mp ha
  obtain ⟨_, rfl, rfl⟩ := mem_part.mp ha'
  exact hne rfl

/-- The alignments of `S` with these labels, one more frame of class `c` behind each. -/
def block (blank : α) (S : Finset (List α)) (x : List α × α) : Finset (List α) :=
  extend (part blank S x.1 true) x.2 ∪ extend (part blank S x.1 false) x.2

theorem Uniform.union (hS : Uniform blank S labels ends) (hT : Uniform blank T labels ends) :
    Uniform blank (S ∪ T) labels ends := by
  intro a ha
  rcases Finset.mem_union.mp ha with ha | ha
  · exact hS a ha
  · exact hT a ha

theorem sum_block {n : Nat} (hlength : ∀ a ∈ S, a.length = n) (x : List α × α) :
    ∑ b ∈ block blank S x, weight weightAt b = (mass blank weightAt S x.1 true
      + mass blank weightAt S x.1 false) * weightAt n x.2 := by
  have hdisj : Disjoint (extend (part blank S x.1 true) x.2) (extend (part blank S x.1 false) x.2) :=
    disjoint_extend_part (by simp)
  unfold block
  rw [Finset.sum_union hdisj, sum_extend_part hlength, sum_extend_part hlength, add_mul]

theorem mem_block {b : List α} {x : List α × α} :
    b ∈ block blank S x ↔ ∃ a ∈ S, collapse blank a = x.1 ∧ a ++ [x.2] = b := by
  simp only [block, Finset.mem_union, mem_extend, mem_part]
  constructor
  · rintro (⟨a, ⟨ha, hlabels, _⟩, hb⟩ | ⟨a, ⟨ha, hlabels, _⟩, hb⟩) <;> exact ⟨a, ha, hlabels, hb⟩
  · rintro ⟨a, ha, hlabels, hb⟩
    by_cases hends : endsInBlank blank a = true
    · exact Or.inl ⟨a, ⟨ha, hlabels, hends⟩, hb⟩
    · exact Or.inr ⟨a, ⟨ha, hlabels, Bool.eq_false_iff.mpr hends⟩, hb⟩

/-- What the listed pairs of labels and class grow out of `S`. -/
def grow (blank : α) (S : Finset (List α)) (pairs : List (List α × α)) : Finset (List α) :=
  pairs.foldr (fun x T => T ∪ block blank S x) ∅

theorem grow_cons (x : List α × α) (pairs : List (List α × α)) :
    grow blank S (x :: pairs) = grow blank S pairs ∪ block blank S x := rfl

theorem mem_grow {pairs : List (List α × α)} {b : List α} :
    b ∈ grow blank S pairs ↔ ∃ a ∈ S, ∃ c, (collapse blank a, c) ∈ pairs ∧ a ++ [c] = b := by
  induction pairs with
  | nil => simp [grow]
  | cons x pairs ih =>
      rw [grow, List.foldr_cons, Finset.mem_union]
      show b ∈ grow blank S pairs ∨ b ∈ block blank S x ↔ _
      rw [ih, mem_block]
      constructor
      · rintro (⟨a, ha, c, hc, hb⟩ | ⟨a, ha, hlabels, hb⟩)
        · exact ⟨a, ha, c, List.mem_cons_of_mem x hc, hb⟩
        · exact ⟨a, ha, x.2, hlabels ▸ List.mem_cons_self, hb⟩
      · rintro ⟨a, ha, c, hc, hb⟩
        rcases List.mem_cons.mp hc with rfl | hc
        · exact Or.inr ⟨a, ha, rfl, hb⟩
        · exact Or.inl ⟨a, ha, c, hc, hb⟩

theorem disjoint_grow_block {pairs : List (List α × α)} {x : List α × α} (h : x ∉ pairs) :
    Disjoint (grow blank S pairs) (block blank S x) := by
  rw [Finset.disjoint_left]
  intro b hb hb'
  obtain ⟨a, _, c, hc, rfl⟩ := mem_grow.mp hb
  obtain ⟨a', _, hlabels, heq⟩ := mem_block.mp hb'
  obtain ⟨rfl, hcc⟩ := List.append_inj' heq rfl
  cases hcc
  rw [hlabels] at hc
  exact h hc

/-- The alignments of `n` frames over the classes of `classes`. -/
def all (classes : Finset α) : Nat → Finset (List α)
  | 0 => {[]}
  | n + 1 => classes.biUnion (extend (all classes n))

theorem mem_all {classes : Finset α} {n : Nat} {a : List α} :
    a ∈ all classes n ↔ a.length = n ∧ ∀ c ∈ a, c ∈ classes := by
  induction n generalizing a with
  | zero =>
      rw [all, Finset.mem_singleton, List.length_eq_zero_iff]
      exact ⟨fun h => ⟨h, h ▸ nofun⟩, And.left⟩
  | succ n ih =>
      simp only [all, Finset.mem_biUnion, mem_extend, ih]
      constructor
      · rintro ⟨c, hc, b, ⟨hlength, hmem⟩, rfl⟩
        refine ⟨by rw [List.length_append, hlength]; rfl, ?_⟩
        intro x hx
        rcases List.mem_append.mp hx with hx | hx
        · exact hmem x hx
        · exact List.mem_singleton.mp hx ▸ hc
      · rintro ⟨hlength, hmem⟩
        rcases List.eq_nil_or_concat a with rfl | ⟨b, c, rfl⟩
        · cases hlength
        refine ⟨c, hmem c (by simp), b, ⟨?_, fun x hx => hmem x (by simp [hx])⟩,
          List.concat_eq_append.symm⟩
        simpa using hlength

end Mass

end Alignments
