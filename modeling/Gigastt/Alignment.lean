import Mathlib.Algebra.BigOperators.Group.List.Basic
import Mathlib.Algebra.Order.Monoid.Defs
import Mathlib.Data.List.Pairwise
import Mathlib.Tactic.GCongr

/-!
Order-preserving matchings of two lists. A table filled by the usual recurrence (leave out the last
element of one list or of the other, or match the two) holds the largest total weight of a matching,
and a walk back through the table finds one that has it. The weights are those of any linearly
ordered monoid.
-/

namespace Alignment

variable {α β W : Type*}

/-- Element `a` at position `i` of one list and `b` at position `j` of another. -/
structure Pair (α β : Type*) where
  i : Nat
  a : α
  j : Nat
  b : β

/-- `q` is before `p` in both lists. -/
def Pair.After (p q : Pair α β) : Prop := q.i < p.i ∧ q.j < p.j

def Pair.shift (m n : Nat) (p : Pair α β) : Pair α β := { p with i := m + p.i, j := n + p.j }

def Pair.unshift (m n : Nat) (p : Pair α β) : Pair α β := { p with i := p.i - m, j := p.j - n }

/-- An order-preserving matching, listed from its last pair. -/
structure IsMatching (may : α → β → Prop) (l : List α) (m : List β) (pairs : List (Pair α β)) :
    Prop where
  ordered : pairs.Pairwise Pair.After
  left : ∀ p ∈ pairs, l[p.i]? = some p.a
  right : ∀ p ∈ pairs, m[p.j]? = some p.b
  allowed : ∀ p ∈ pairs, may p.a p.b

section Cuts

variable {pairs : List (Pair α β)}

/-- A cut through both lists just before or just after the two elements of a pair has every other
pair on one side. -/
theorem beside_cut (h : pairs.Pairwise Pair.After) {p q : Pair α β} (hp : p ∈ pairs)
    (hq : q ∈ pairs) {k : Nat} (hk : k ≤ 1) :
    (q.i < p.i + k ∧ q.j < p.j + k) ∨ (p.i + k ≤ q.i ∧ p.j + k ≤ q.j) := by
  have hcases : p = q ∨ p.After q ∨ q.After p := by
    have hsymm : Std.Symm fun x y : Pair α β => x.After y ∨ y.After x := ⟨fun _ _ h => h.symm⟩
    have hrel : pairs.Pairwise fun x y => x.After y ∨ y.After x := h.imp Or.inl
    by_cases hsame : p = q
    · exact Or.inl hsame
    · exact Or.inr (hrel.forall hp hq hsame)
  rcases hcases with rfl | hafter | hafter
  · omega
  · obtain ⟨hi, hj⟩ := hafter
    omega
  · obtain ⟨hi, hj⟩ := hafter
    omega

end Cuts

section Reversed

variable {may : α → β → Prop}

/-- A matching of two lists that are given reversed, by their last elements. -/
inductive Aligns (may : α → β → Prop) : List α → List β → List (Pair α β) → Prop
  | nil (as : List α) (bs : List β) : Aligns may as bs []
  | pair {a : α} {b : β} {as : List α} {bs : List β} {pairs : List (Pair α β)} (hmay : may a b)
      (rest : Aligns may as bs pairs) :
      Aligns may (a :: as) (b :: bs) (⟨as.length, a, bs.length, b⟩ :: pairs)
  | left {a : α} {as : List α} {bs : List β} {pairs : List (Pair α β)}
      (rest : Aligns may as bs pairs) : Aligns may (a :: as) bs pairs
  | right {b : β} {as : List α} {bs : List β} {pairs : List (Pair α β)}
      (rest : Aligns may as bs pairs) : Aligns may as (b :: bs) pairs

variable {as : List α} {bs : List β} {pairs : List (Pair α β)}

theorem lt_of_getElem?_reverse {l : List α} {i : Nat} {a : α} (h : l.reverse[i]? = some a) :
    i < l.length := by
  obtain ⟨hi, _⟩ := List.getElem?_eq_some_iff.mp h
  rwa [List.length_reverse] at hi

theorem getElem?_reverse_cons {l : List α} {i : Nat} {a x : α} :
    (a :: l).reverse[i]? = some x ↔ l.reverse[i]? = some x ∨ (i = l.length ∧ a = x) := by
  rw [List.reverse_cons]
  rcases Nat.lt_trichotomy i l.length with hlt | rfl | hgt
  · rw [List.getElem?_append_left (by rwa [List.length_reverse])]
    simp [Nat.ne_of_lt hlt]
  · rw [List.getElem?_append_right (by rw [List.length_reverse]), List.length_reverse]
    simp
  · rw [List.getElem?_eq_none (by simpa using Nat.succ_le_of_lt hgt), List.getElem?_eq_none (by simp; omega)]
    simp [Nat.ne_of_gt hgt]

theorem Aligns.isMatching (h : Aligns may as bs pairs) :
    IsMatching may as.reverse bs.reverse pairs := by
  induction h with
  | nil as bs => exact ⟨List.Pairwise.nil, nofun, nofun, nofun⟩
  | @pair a b as bs pairs hmay rest ih =>
      refine ⟨List.pairwise_cons.mpr ⟨?_, ih.ordered⟩, ?_, ?_, ?_⟩
      · exact fun q hq => ⟨lt_of_getElem?_reverse (ih.left q hq),
          lt_of_getElem?_reverse (ih.right q hq)⟩
      · intro p hp
        rcases List.mem_cons.mp hp with rfl | hp
        · exact getElem?_reverse_cons.mpr (Or.inr ⟨rfl, rfl⟩)
        · exact getElem?_reverse_cons.mpr (Or.inl (ih.left p hp))
      · intro p hp
        rcases List.mem_cons.mp hp with rfl | hp
        · exact getElem?_reverse_cons.mpr (Or.inr ⟨rfl, rfl⟩)
        · exact getElem?_reverse_cons.mpr (Or.inl (ih.right p hp))
      · intro p hp
        rcases List.mem_cons.mp hp with rfl | hp
        · exact hmay
        · exact ih.allowed p hp
  | left rest ih =>
      refine ⟨ih.ordered, ?_, ih.right, ih.allowed⟩
      exact fun p hp => getElem?_reverse_cons.mpr (Or.inl (ih.left p hp))
  | right rest ih =>
      refine ⟨ih.ordered, ih.left, ?_, ih.allowed⟩
      exact fun p hp => getElem?_reverse_cons.mpr (Or.inl (ih.right p hp))

/-- Without the last element of a list, when no pair has it. -/
theorem getElem?_of_ne_last {l : List α} {i : Nat} {a x : α}
    (h : (a :: l).reverse[i]? = some x) (hne : i ≠ l.length) : l.reverse[i]? = some x := by
  rcases getElem?_reverse_cons.mp h with h | ⟨hlast, _⟩
  · exact h
  · exact absurd hlast hne

namespace IsMatching

variable {a : α} {b : β} {p : Pair α β}

/-- The last element of the left list is out of every pair when it is out of the last one. -/
theorem drop_left (h : IsMatching may (a :: as).reverse (b :: bs).reverse (p :: pairs))
    (hi : p.i ≠ as.length) : IsMatching may as.reverse (b :: bs).reverse (p :: pairs) := by
  refine ⟨h.ordered, fun q hq => ?_, h.right, h.allowed⟩
  apply getElem?_of_ne_last (h.left q hq)
  rcases List.mem_cons.mp hq with rfl | hq
  · exact hi
  · have hlast := lt_of_getElem?_reverse (h.left p List.mem_cons_self)
    have hafter := ((List.pairwise_cons.mp h.ordered).1 q hq).1
    rw [List.length_cons] at hlast
    omega

theorem drop_right (h : IsMatching may (a :: as).reverse (b :: bs).reverse (p :: pairs))
    (hj : p.j ≠ bs.length) : IsMatching may (a :: as).reverse bs.reverse (p :: pairs) := by
  refine ⟨h.ordered, h.left, fun q hq => ?_, h.allowed⟩
  apply getElem?_of_ne_last (h.right q hq)
  rcases List.mem_cons.mp hq with rfl | hq
  · exact hj
  · have hlast := lt_of_getElem?_reverse (h.right p List.mem_cons_self)
    have hafter := ((List.pairwise_cons.mp h.ordered).1 q hq).2
    rw [List.length_cons] at hlast
    omega

theorem drop_pair (h : IsMatching may (a :: as).reverse (b :: bs).reverse (p :: pairs))
    (hi : p.i = as.length) (hj : p.j = bs.length) : IsMatching may as.reverse bs.reverse pairs := by
  obtain ⟨hafter, hordered⟩ := List.pairwise_cons.mp h.ordered
  refine ⟨hordered, fun q hq => ?_, fun q hq => ?_, fun q hq =>
    h.allowed q (List.mem_cons_of_mem p hq)⟩
  · apply getElem?_of_ne_last (h.left q (List.mem_cons_of_mem p hq))
    exact Nat.ne_of_lt (hi ▸ (hafter q hq).1)
  · apply getElem?_of_ne_last (h.right q (List.mem_cons_of_mem p hq))
    exact Nat.ne_of_lt (hj ▸ (hafter q hq).2)

/-- A pair of the last elements is the pair of these elements. -/
theorem last_pair (h : IsMatching may (a :: as).reverse (b :: bs).reverse (p :: pairs))
    (hi : p.i = as.length) (hj : p.j = bs.length) :
    p = ⟨as.length, a, bs.length, b⟩ ∧ may a b := by
  have hleft := h.left p List.mem_cons_self
  have hright := h.right p List.mem_cons_self
  have ha : a = p.a := by
    rw [hi] at hleft
    simpa [getElem?_reverse_cons] using hleft
  have hb : b = p.b := by
    rw [hj] at hright
    simpa [getElem?_reverse_cons] using hright
  rw [ha, hb]
  refine ⟨?_, h.allowed p List.mem_cons_self⟩
  rw [← hi, ← hj]

theorem aligns (h : IsMatching may as.reverse bs.reverse pairs) : Aligns may as bs pairs := by
  obtain ⟨n, hn⟩ : ∃ n, as.length + bs.length ≤ n := ⟨_, Nat.le_refl _⟩
  -- the last element of one of the lists is left out, or the two are the first pair
  induction n generalizing as bs pairs with
  | zero =>
      cases pairs with
      | nil => exact Aligns.nil as bs
      | cons p pairs =>
          have hi := lt_of_getElem?_reverse (h.left p List.mem_cons_self)
          omega
  | succ n ih =>
      cases pairs with
      | nil => exact Aligns.nil as bs
      | cons p pairs =>
          cases as with
          | nil => cases h.left p List.mem_cons_self
          | cons a as =>
              cases bs with
              | nil => cases h.right p List.mem_cons_self
              | cons b bs =>
                  rw [List.length_cons, List.length_cons] at hn
                  by_cases hi : p.i = as.length
                  · by_cases hj : p.j = bs.length
                    · obtain ⟨hp, hmay⟩ := h.last_pair hi hj
                      rw [hp]
                      exact Aligns.pair hmay (ih (h.drop_pair hi hj) (by omega))
                    · apply Aligns.right
                      exact ih (h.drop_right hj) (by rw [List.length_cons]; omega)
                  · apply Aligns.left
                    exact ih (h.drop_left hi) (by rw [List.length_cons]; omega)

end IsMatching

end Reversed

section Table

variable [AddCommMonoid W]

/-- The total weight of a matching. -/
def total (weight : α → β → W) (pairs : List (Pair α β)) : W :=
  (pairs.map fun p => weight p.a p.b).sum

theorem total_map_shift (weight : α → β → W) (m n : Nat) (pairs : List (Pair α β)) :
    total weight (pairs.map (Pair.shift m n)) = total weight pairs := by
  rw [total, List.map_map]
  rfl

theorem total_map_unshift (weight : α → β → W) (m n : Nat) (pairs : List (Pair α β)) :
    total weight (pairs.map (Pair.unshift m n)) = total weight pairs := by
  rw [total, List.map_map]
  rfl

/-- The pairs met on a walk back through the table. -/
inductive Traced (may : α → β → Prop) (weight : α → β → W) (score : List α → List β → W) :
    List α → List β → List (Pair α β) → Prop
  | nil_left (bs : List β) : Traced may weight score [] bs []
  | nil_right (as : List α) : Traced may weight score as [] []
  | pair {a : α} {b : β} {as : List α} {bs : List β} {pairs : List (Pair α β)} (hmay : may a b)
      (heq : score (a :: as) (b :: bs) = score as bs + weight a b)
      (rest : Traced may weight score as bs pairs) :
      Traced may weight score (a :: as) (b :: bs) (⟨as.length, a, bs.length, b⟩ :: pairs)
  | left {a : α} {b : β} {as : List α} {bs : List β} {pairs : List (Pair α β)}
      (heq : score (a :: as) (b :: bs) = score as (b :: bs))
      (rest : Traced may weight score as (b :: bs) pairs) :
      Traced may weight score (a :: as) (b :: bs) pairs
  | right {a : α} {b : β} {as : List α} {bs : List β} {pairs : List (Pair α β)}
      (heq : score (a :: as) (b :: bs) = score (a :: as) bs)
      (rest : Traced may weight score (a :: as) bs pairs) :
      Traced may weight score (a :: as) (b :: bs) pairs

variable {may : α → β → Prop} {weight : α → β → W} {score : List α → List β → W}
  {as : List α} {bs : List β} {pairs : List (Pair α β)}

theorem Traced.aligns (h : Traced may weight score as bs pairs) : Aligns may as bs pairs := by
  induction h with
  | nil_left bs => exact Aligns.nil [] bs
  | nil_right as => exact Aligns.nil as []
  | pair hmay _ _ ih => exact Aligns.pair hmay ih
  | left _ _ ih => exact Aligns.left ih
  | right _ _ ih => exact Aligns.right ih

variable [LinearOrder W]

/-- The table meets the recurrence. The lists are given reversed. -/
structure Recurrence (may : α → β → Prop) (weight : α → β → W) (score : List α → List β → W) :
    Prop where
  nil_left : ∀ bs, score [] bs = 0
  nil_right : ∀ as, score as [] = 0
  cons_pair : ∀ a as b bs, may a b → score (a :: as) (b :: bs) =
    max (max (score as (b :: bs)) (score (a :: as) bs)) (score as bs + weight a b)
  cons_skip : ∀ a as b bs, ¬may a b → score (a :: as) (b :: bs) =
    max (score as (b :: bs)) (score (a :: as) bs)

theorem Recurrence.le_left (h : Recurrence may weight score) (a : α) (as : List α) (bs : List β) :
    score as bs ≤ score (a :: as) bs := by
  cases bs with
  | nil => rw [h.nil_right, h.nil_right]
  | cons b bs =>
      by_cases hmay : may a b
      · rw [h.cons_pair a as b bs hmay]
        exact le_trans (le_max_left _ _) (le_max_left _ _)
      · rw [h.cons_skip a as b bs hmay]
        exact le_max_left _ _

theorem Recurrence.le_right (h : Recurrence may weight score) (b : β) (as : List α) (bs : List β) :
    score as bs ≤ score as (b :: bs) := by
  cases as with
  | nil => rw [h.nil_left, h.nil_left]
  | cons a as =>
      by_cases hmay : may a b
      · rw [h.cons_pair a as b bs hmay]
        exact le_trans (le_max_right _ _) (le_max_left _ _)
      · rw [h.cons_skip a as b bs hmay]
        exact le_max_right _ _

/-- A cell that neither of the other two gave its score has it from the one to the right. -/
theorem Recurrence.eq_right (h : Recurrence may weight score) {a : α} {b : β}
    (hpair : may a b → score (a :: as) (b :: bs) ≠ score as bs + weight a b)
    (hleft : score (a :: as) (b :: bs) ≠ score as (b :: bs)) :
    score (a :: as) (b :: bs) = score (a :: as) bs := by
  have hskip : score (a :: as) (b :: bs) = max (score as (b :: bs)) (score (a :: as) bs) := by
    by_cases hmay : may a b
    · rw [h.cons_pair a as b bs hmay] at hpair ⊢
      exact (max_choice _ _).resolve_right (hpair hmay)
    · exact h.cons_skip a as b bs hmay
  rcases max_choice (score as (b :: bs)) (score (a :: as) bs) with hmax | hmax
  · exact absurd (hskip.trans hmax) hleft
  · exact hskip.trans hmax

theorem Recurrence.nonneg (h : Recurrence may weight score) (as : List α) (bs : List β) :
    0 ≤ score as bs := by
  induction as with
  | nil => rw [h.nil_left]
  | cons a as ih => exact le_trans ih (h.le_left a as bs)

theorem Traced.total_eq (hscore : Recurrence may weight score)
    (h : Traced may weight score as bs pairs) : total weight pairs = score as bs := by
  induction h with
  | nil_left bs => exact (hscore.nil_left bs).symm
  | nil_right as => exact (hscore.nil_right as).symm
  | pair _ heq _ ih => rw [total, List.map_cons, List.sum_cons, add_comm, heq, ← ih, total]
  | left heq _ ih => rw [heq, ih]
  | right heq _ ih => rw [heq, ih]

variable [IsOrderedAddMonoid W]

/-- No matching weighs more than the table says. -/
theorem Aligns.total_le (hscore : Recurrence may weight score) (h : Aligns may as bs pairs) :
    total weight pairs ≤ score as bs := by
  induction h with
  | nil as bs => exact hscore.nonneg as bs
  | @pair a b as bs pairs hmay rest ih =>
      calc total weight (⟨as.length, a, bs.length, b⟩ :: pairs)
          = total weight pairs + weight a b := by
            rw [total, List.map_cons, List.sum_cons, add_comm, total]
        _ ≤ score as bs + weight a b := by gcongr
        _ ≤ score (a :: as) (b :: bs) := by
            rw [hscore.cons_pair a as b bs hmay]
            exact le_max_right _ _
  | left rest ih => exact le_trans ih (hscore.le_left _ _ _)
  | right rest ih => exact le_trans ih (hscore.le_right _ _ _)

/-- The walk finds a matching, and none weighs more. -/
theorem Traced.largest (hscore : Recurrence may weight score)
    (h : Traced may weight score as bs pairs) :
    IsMatching may as.reverse bs.reverse pairs ∧
      ∀ other, IsMatching may as.reverse bs.reverse other →
        total weight other ≤ total weight pairs := by
  refine ⟨h.aligns.isMatching, ?_⟩
  intro other hother
  rw [h.total_eq hscore]
  exact hother.aligns.total_le hscore

end Table

end Alignment
