import Mathlib.Algebra.Order.Field.Rat
import Mathlib.Tactic.Linarith
import Mathlib.Tactic.Ring

/-!
Metered systems: a level that is never above a cap, grows with time at no more than a rate, and pays
one for each event that is served. However the events come, the number served in an interval is at
most the cap and what the rate adds in it.
-/

/-- A transition system over a clock with a level that pays for what is served. -/
structure Meter (State Op : Type*) where
  /-- One operation at a time, and whether it was served. -/
  step : State → ℚ → Op → State × Bool
  level : State → ℚ → ℚ
  /-- The states the clock may find at a time. -/
  Valid : State → ℚ → Prop
  /-- The operations the meter covers. -/
  Covers : State → ℚ → Op → Prop
  cap : ℚ
  rate : ℚ
  rate_nonneg : 0 ≤ rate
  level_nonneg : ∀ s t, Valid s t → 0 ≤ level s t
  level_le_cap : ∀ s t, Valid s t → level s t ≤ cap
  level_later : ∀ s t t', Valid s t → t ≤ t' → level s t' ≤ level s t + rate * (t' - t)
  valid_later : ∀ s t t', Valid s t → t ≤ t' → Valid s t'
  valid_step : ∀ s t op, Valid s t → Covers s t op → Valid (step s t op).1 t
  level_step : ∀ s t op, Valid s t → Covers s t op →
    level (step s t op).1 t + (if (step s t op).2 then 1 else 0) ≤ level s t

namespace Meter

variable {State Op : Type*} (m : Meter State Op)

/-- The times of the operations that were served. -/
def served (s : State) : List (ℚ × Op) → List ℚ
  | [] => []
  | (t, op) :: rest =>
      let r := m.step s t op
      if r.2 then t :: served r.1 rest else served r.1 rest

/-- Every operation of the run is one the meter covers. -/
def CoversAll (s : State) : List (ℚ × Op) → Prop
  | [] => True
  | (t, op) :: rest => m.Covers s t op ∧ CoversAll (m.step s t op).1 rest

/-- How many operations were served between two times. -/
def servedBetween (s : State) (ops : List (ℚ × Op)) (a b : ℚ) : Nat :=
  (m.served s ops).countP fun t => a ≤ t ∧ t ≤ b

/-- The times do not decrease, and none is before `t`. -/
def InOrder (t : ℚ) (ops : List (ℚ × Op)) : Prop :=
  (ops.map Prod.fst).Pairwise (· ≤ ·) ∧ ∀ x ∈ ops, t ≤ x.1

variable {m}

theorem InOrder.of_pairwise {ops : List (ℚ × Op)}
    (h : (ops.map Prod.fst).Pairwise (· ≤ ·)) : ∃ t, InOrder t ops := by
  cases ops with
  | nil => exact ⟨0, h, nofun⟩
  | cons head rest =>
      refine ⟨head.1, h, fun x hx => ?_⟩
      rcases List.mem_cons.mp hx with rfl | hx
      · exact le_rfl
      · exact (List.pairwise_cons.mp h).1 x.1 (List.mem_map_of_mem hx)

theorem InOrder.tail {t t' : ℚ} {op : Op} {rest : List (ℚ × Op)}
    (h : InOrder t ((t', op) :: rest)) : t ≤ t' ∧ InOrder t' rest := by
  obtain ⟨hsorted, hfrom⟩ := h
  rw [List.map_cons, List.pairwise_cons] at hsorted
  refine ⟨hfrom _ List.mem_cons_self, hsorted.2, fun x hx => ?_⟩
  exact hsorted.1 x.1 (List.mem_map_of_mem hx)

theorem InOrder.from_head {t t' : ℚ} {op : Op} {rest : List (ℚ × Op)}
    (h : InOrder t ((t', op) :: rest)) : InOrder t' ((t', op) :: rest) := by
  refine ⟨h.1, fun x hx => ?_⟩
  rcases List.mem_cons.mp hx with rfl | hx
  · exact le_rfl
  · exact h.tail.2.2 x hx

theorem served_cons (s : State) (t : ℚ) (op : Op) (rest : List (ℚ × Op)) :
    m.served s ((t, op) :: rest)
      = if (m.step s t op).2 then t :: m.served (m.step s t op).1 rest
          else m.served (m.step s t op).1 rest := rfl

theorem servedBetween_cons (s : State) (t : ℚ) (op : Op) (rest : List (ℚ × Op)) (a b : ℚ) :
    m.servedBetween s ((t, op) :: rest) a b
      = m.servedBetween (m.step s t op).1 rest a b
        + if (m.step s t op).2 ∧ a ≤ t ∧ t ≤ b then 1 else 0 := by
  unfold servedBetween
  rw [served_cons]
  by_cases hserved : (m.step s t op).2 = true
  · rw [if_pos hserved, List.countP_cons]
    simp only [hserved, true_and, decide_eq_true_eq]
  · rw [if_neg hserved, if_neg fun hand => hserved hand.1, Nat.add_zero]

theorem served_from {s : State} {t : ℚ} {ops : List (ℚ × Op)} (horder : InOrder t ops) :
    ∀ x ∈ m.served s ops, t ≤ x := by
  induction ops generalizing s t with
  | nil => exact nofun
  | cons head rest ih =>
      obtain ⟨t', op⟩ := head
      obtain ⟨hle, hrest⟩ := horder.tail
      intro x hx
      rw [served_cons] at hx
      split at hx
      · rcases List.mem_cons.mp hx with rfl | hx
        · exact hle
        · exact hle.trans (ih hrest x hx)
      · exact hle.trans (ih hrest x hx)

theorem servedBetween_of_after {s : State} {t a b : ℚ} {ops : List (ℚ × Op)}
    (horder : InOrder t ops) (hbt : b < t) : m.servedBetween s ops a b = 0 := by
  apply List.countP_eq_zero.mpr
  intro x hx
  have hx' : t ≤ x := served_from horder x hx
  simp only [decide_eq_true_eq, not_and, not_le]
  exact fun _ => hbt.trans_le hx'

/-- From a time on, the level and what the rate adds pay for what is served. -/
theorem servedBetween_le_level {s : State} {t a b : ℚ} {ops : List (ℚ × Op)} (hvalid : m.Valid s t)
    (horder : InOrder t ops) (hcovers : m.CoversAll s ops) (htb : t ≤ b) :
    (m.servedBetween s ops a b : ℚ) ≤ m.level s t + m.rate * (b - t) := by
  induction ops generalizing s t with
  | nil =>
      have hlevel := m.level_nonneg s t hvalid
      have hadded := mul_nonneg m.rate_nonneg (sub_nonneg.mpr htb)
      show ((0 : Nat) : ℚ) ≤ _
      rw [Nat.cast_zero]
      linarith
  | cons head rest ih =>
      obtain ⟨t', op⟩ := head
      obtain ⟨hle, hrest⟩ := horder.tail
      have hvalid' := m.valid_later s t t' hvalid hle
      have hlater := m.level_later s t t' hvalid hle
      have hstep := m.level_step s t' op hvalid' hcovers.1
      have hnext := m.valid_step s t' op hvalid' hcovers.1
      rcases le_or_gt t' b with htb' | hbt
      · have hih := ih hnext hrest hcovers.2 htb'
        have hone : (if (m.step s t' op).2 ∧ a ≤ t' ∧ t' ≤ b then (1 : ℚ) else 0)
            ≤ if (m.step s t' op).2 then 1 else 0 := by
          split
          · rename_i hand
            rw [if_pos hand.1]
          · split
            · exact zero_le_one
            · exact le_rfl
        rw [servedBetween_cons]
        push_cast
        calc (m.servedBetween (m.step s t' op).1 rest a b : ℚ)
              + (if (m.step s t' op).2 ∧ a ≤ t' ∧ t' ≤ b then 1 else 0)
            ≤ m.level (m.step s t' op).1 t' + m.rate * (b - t')
              + (if (m.step s t' op).2 then 1 else 0) := add_le_add hih hone
          _ ≤ m.level s t' + m.rate * (b - t') := by linarith
          _ ≤ m.level s t + m.rate * (b - t) := by linarith
      · have hlevel := m.level_nonneg s t hvalid
        have hadded := mul_nonneg m.rate_nonneg (sub_nonneg.mpr htb)
        rw [servedBetween_of_after horder.from_head hbt, Nat.cast_zero]
        linarith

/-- In any interval, no more is served than the cap and what the rate adds. -/
theorem servedBetween_le {s : State} {t a b : ℚ} {ops : List (ℚ × Op)} (hvalid : m.Valid s t)
    (horder : InOrder t ops) (hcovers : m.CoversAll s ops) (hab : a ≤ b) :
    (m.servedBetween s ops a b : ℚ) ≤ m.cap + m.rate * (b - a) := by
  induction ops generalizing s t with
  | nil =>
      have hcap := (m.level_nonneg s t hvalid).trans (m.level_le_cap s t hvalid)
      have hadded := mul_nonneg m.rate_nonneg (sub_nonneg.mpr hab)
      show ((0 : Nat) : ℚ) ≤ _
      rw [Nat.cast_zero]
      linarith
  | cons head rest ih =>
      obtain ⟨t', op⟩ := head
      obtain ⟨hle, hrest⟩ := horder.tail
      have hvalid' := m.valid_later s t t' hvalid hle
      rcases lt_or_ge t' a with hbefore | hfrom
      · rw [servedBetween_cons, if_neg fun hand => not_le_of_gt hbefore hand.2.1, Nat.add_zero]
        exact ih (m.valid_step s t' op hvalid' hcovers.1) hrest hcovers.2
      · rcases le_or_gt t' b with htb | hbt
        · have hfromhead := servedBetween_le_level (a := a) hvalid' horder.from_head hcovers htb
          have hcap := m.level_le_cap s t' hvalid'
          have hrate := mul_le_mul_of_nonneg_left (sub_le_sub_left hfrom b) m.rate_nonneg
          linarith
        · have hcap := (m.level_nonneg s t hvalid).trans (m.level_le_cap s t hvalid)
          have hadded := mul_nonneg m.rate_nonneg (sub_nonneg.mpr hab)
          rw [servedBetween_of_after horder.from_head hbt, Nat.cast_zero]
          linarith

end Meter
