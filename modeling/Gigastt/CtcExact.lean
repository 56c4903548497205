import Gigastt.CtcBeam
import Gigastt.Alignments
import Mathlib

/-!
The prefix beam search in exact arithmetic: logits are real, probabilities are extended nonnegative
reals, and a logarithm is an extended real. Each frame credits every prefix with exactly the
alignments that reach it.
-/

open scoped ENNReal

namespace Gigastt

/-- Exact arithmetic, with the limits `exp ⊥ = 0` and `ln 0 = ⊥`. -/
noncomputable instance exactArith : SingleArith EReal where
  negInfinity := ⊥
  maximum := max
  exp x := (EReal.exp x : EReal)
  ln x := ENNReal.log x.toENNReal
  lnOnePlus x := ENNReal.log (1 + x.toENNReal)

namespace Ctc

theorem exp_add_lnOnePlus {lo hi : EReal} (hhi : hi ≠ ⊥) :
    EReal.exp (hi + SingleArith.lnOnePlus (SingleArith.exp (lo - hi)))
      = EReal.exp hi + EReal.exp lo := by
  have hratio : (SingleArith.exp (lo - hi) : EReal).toENNReal = EReal.exp (lo - hi) :=
    EReal.toENNReal_coe
  show EReal.exp (hi + ENNReal.log (1 + (SingleArith.exp (lo - hi) : EReal).toENNReal)) = _
  rw [hratio, EReal.exp_add, ENNReal.exp_log, mul_add, mul_one]
  by_cases htop : hi = ⊤
  · rw [htop, EReal.exp_top, top_add, top_add]
  · have hpos : EReal.exp hi ≠ 0 := fun h => hhi (EReal.exp_eq_zero_iff.mp h)
    have hfin : EReal.exp hi ≠ ⊤ := fun h => htop (EReal.exp_eq_top_iff.mp h)
    have hsub : EReal.exp (lo - hi) = EReal.exp lo * (EReal.exp hi)⁻¹ := by
      rw [sub_eq_add_neg, EReal.exp_add, EReal.exp_neg]
    rw [hsub, mul_left_comm, ENNReal.mul_inv_cancel hpos hfin, mul_one]

/-- `log_add_exp` adds the probabilities. -/
theorem exp_logAddExp (a b : EReal) :
    EReal.exp (logAddExp a b) = EReal.exp a + EReal.exp b := by
  unfold logAddExp
  by_cases ha : a = ⊥
  · rw [if_pos (show a = SingleArith.negInfinity from ha), ha, EReal.exp_bot, zero_add]
  by_cases hb : b = ⊥
  · rw [if_neg (show ¬a = SingleArith.negInfinity from ha),
      if_pos (show b = SingleArith.negInfinity from hb), hb, EReal.exp_bot, add_zero]
  rw [if_neg (show ¬a = SingleArith.negInfinity from ha),
    if_neg (show ¬b = SingleArith.negInfinity from hb)]
  by_cases hlt : b < a
  · simp only [if_pos hlt]
    exact exp_add_lnOnePlus ha
  · simp only [if_neg hlt]
    rw [add_comm (EReal.exp a)]
    exact exp_add_lnOnePlus hb

section Softmax

/-- The probability of class `c` under the logits of one frame. -/
noncomputable def softmax (row : List ℝ) (c : Nat) : ℝ≥0∞ :=
  EReal.exp (row.getD c 0 : ℝ) / (row.map fun l : ℝ => EReal.exp l).sum

theorem foldl_max_real {row : List ℝ} (hrow : row ≠ []) :
    ∃ m : ℝ, (row.map Real.toEReal).foldl SingleArith.maximum SingleArith.negInfinity = m := by
  suffices h : ∀ (l : List ℝ) (x : ℝ),
      ∃ m : ℝ, (l.map Real.toEReal).foldl SingleArith.maximum (x : EReal) = m by
    obtain ⟨x, l, rfl⟩ := List.exists_cons_of_ne_nil hrow
    have hbot : SingleArith.maximum SingleArith.negInfinity (x : EReal) = x := bot_sup_eq _
    rw [List.map_cons, List.foldl_cons, hbot]
    exact h l x
  intro l
  induction l with
  | nil => exact fun x => ⟨x, rfl⟩
  | cons y l ih =>
      intro x
      have hmax : SingleArith.maximum (x : EReal) (y : EReal) = (max x y : ℝ) :=
        (EReal.coe_strictMono.monotone.map_max).symm
      rw [List.map_cons, List.foldl_cons, hmax]
      exact ih (max x y)

theorem sum_map_exp (l : List EReal) :
    Logits.sum (l.map SingleArith.exp) = ((l.map EReal.exp).sum : ℝ≥0∞) := by
  suffices h : ∀ acc : ℝ≥0∞, (l.map SingleArith.exp).foldl (fun x y : EReal => x + y) acc
      = (acc + (l.map EReal.exp).sum : ℝ≥0∞) by
    have h0 := h 0
    rw [zero_add] at h0
    exact h0
  induction l with
  | nil => intro acc; rw [List.map_nil, List.map_nil, List.sum_nil, add_zero]; rfl
  | cons x l ih =>
      intro acc
      have hadd : (acc : EReal) + SingleArith.exp x = ((acc + EReal.exp x : ℝ≥0∞) : EReal) :=
        (EReal.coe_ennreal_add acc (EReal.exp x)).symm
      rw [List.map_cons, List.foldl_cons, hadd, ih, List.map_cons, List.sum_cons, add_assoc]

theorem sum_exp_shift (row : List ℝ) (m : ℝ) :
    EReal.exp m * (row.map fun l : ℝ => EReal.exp (l - m)).sum
      = (row.map fun l : ℝ => EReal.exp l).sum := by
  induction row with
  | nil => simp
  | cons x row ih =>
      have hx : EReal.exp m * EReal.exp (x - m) = EReal.exp x := by
        rw [← EReal.exp_add, ← EReal.coe_sub, ← EReal.coe_add, add_sub_cancel]
      rw [List.map_cons, List.map_cons, List.sum_cons, List.sum_cons, mul_add, hx, ih]

/-- The normalized logarithms are those of the softmax. -/
theorem exp_logSoftmax {row : List ℝ} {c : Nat} (hc : c < row.length) :
    EReal.exp ((logSoftmax (row.map Real.toEReal)).getD c 0) = softmax row c := by
  obtain ⟨m, hm⟩ := foldl_max_real (List.ne_nil_of_length_pos (Nat.zero_lt_of_lt hc))
  have hsum : Logits.sum ((row.map Real.toEReal).map fun l => SingleArith.exp (l - (m : EReal)))
      = ((row.map fun l : ℝ => EReal.exp (l - m)).sum : ℝ≥0∞) := by
    have h := sum_map_exp (row.map fun l : ℝ => (l : EReal) - m)
    simp only [List.map_map, Function.comp_def] at h ⊢
    exact h
  have hln : EReal.exp (SingleArith.ln ((row.map fun l : ℝ => EReal.exp (l - m)).sum : EReal))
      = (row.map fun l : ℝ => EReal.exp (l - m)).sum := by
    show EReal.exp (ENNReal.log (EReal.toENNReal _)) = _
    rw [EReal.toENNReal_coe, ENNReal.exp_log]
  have hget : (logSoftmax (row.map Real.toEReal)).getD c 0 = (row.getD c 0 : ℝ)
      - (m + SingleArith.ln ((row.map fun l : ℝ => EReal.exp (l - m)).sum : EReal)) := by
    simp only [logSoftmax, hm, hsum]
    rw [List.getD_eq_getElem _ _ (by simpa using hc), List.getD_eq_getElem _ _ hc, List.getElem_map,
      List.getElem_map]
  rw [hget, sub_eq_add_neg, EReal.exp_add, EReal.exp_neg, EReal.exp_add, hln, sum_exp_shift]
  rfl

end Softmax

end Ctc

end Gigastt
