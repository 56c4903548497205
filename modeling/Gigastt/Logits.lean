import Mathlib.Order.Lattice
import Mathlib.Data.List.Basic
import Mathlib.Data.List.GetD

/-!
Logits of one decoding step, over the arithmetic of single-precision numbers, and the tokens read
off them.
-/

namespace Gigastt

/-- The operations of `f32` that decoding uses. The order is `total_cmp`. -/
class SingleArith (F : Type) extends LinearOrder F, Zero F, Add F, Sub F, Neg F, Div F where
  negInfinity : F
  maximum : F → F → F
  exp : F → F
  ln : F → F
  lnOnePlus : F → F

structure TokenInfo (F : Type) where
  tokenId : Nat
  frameIndex : Nat
  confidence : F

namespace Logits

variable {F : Type} [SingleArith F]

/-- `max_by` on a key: the last of the largest. -/
def maxBy {α : Type} (key : α → F) : List α → Option α
  | [] => none
  | x :: rest =>
      match maxBy key rest with
      | none => some x
      | some y => if key y < key x then some x else some y

def argmax (logits : List F) (blankId : Nat) : Nat :=
  ((maxBy Prod.fst logits.zipIdx).map Prod.snd).getD blankId

/-- `iter().sum()`. -/
def sum (l : List F) : F := l.foldl (· + ·) 0

/-- The softmax probability of the token, zero beyond the logits. -/
def tokenConfidence (logits : List F) (token : Nat) : F :=
  match logits[token]? with
  | none => 0
  | some logit =>
      let maxLogit := logits.foldl SingleArith.maximum SingleArith.negInfinity
      let sumExp := sum (logits.map fun l => SingleArith.exp (l - maxLogit))
      SingleArith.exp (logit - maxLogit) / sumExp

/-- The last of the largest: nothing before it is larger, and all that follows is smaller. -/
theorem maxBy_eq_some {α : Type} {key : α → F} {l : List α} {x : α} (h : maxBy key l = some x) :
    ∃ before after, l = before ++ x :: after ∧ (∀ y ∈ before, key y ≤ key x) ∧
      ∀ y ∈ after, key y < key x := by
  induction l generalizing x with
  | nil => cases h
  | cons y rest ih =>
      rw [maxBy] at h
      cases hrest : maxBy key rest with
      | none =>
          have hnil : rest = [] := by
            cases rest with
            | nil => rfl
            | cons z rest =>
                rw [maxBy] at hrest
                split at hrest
                · cases hrest
                · split_ifs at hrest
          rw [hrest, Option.some.injEq] at h
          subst h hnil
          exact ⟨[], [], rfl, by simp, by simp⟩
      | some z =>
          rw [hrest] at h
          obtain ⟨before, after, rfl, hbefore, hafter⟩ := ih hrest
          dsimp only at h
          split_ifs at h with hlt
          · cases h
            refine ⟨[], before ++ z :: after, rfl, by simp, ?_⟩
            intro w hw
            rcases List.mem_append.mp hw with hw | hw
            · exact lt_of_le_of_lt (hbefore w hw) hlt
            · rcases List.mem_cons.mp hw with rfl | hw
              · exact hlt
              · exact lt_trans (hafter w hw) hlt
          · cases h
            refine ⟨y :: before, after, rfl, ?_, hafter⟩
            intro w hw
            rcases List.mem_cons.mp hw with rfl | hw
            · exact not_lt.mp hlt
            · exact hbefore w hw

theorem maxBy_ne_none {α : Type} {key : α → F} {l : List α} (h : l ≠ []) : maxBy key l ≠ none := by
  cases l with
  | nil => exact absurd rfl h
  | cons x rest =>
      rw [maxBy]
      split
      · exact Option.some_ne_none _
      · split_ifs <;> exact Option.some_ne_none _

/-- The last index of a largest logit. -/
def Largest (logits : List F) (i : Nat) : Prop :=
  i < logits.length ∧ ∀ j < logits.length,
    logits.getD j 0 ≤ logits.getD i 0 ∧ (i < j → logits.getD j 0 < logits.getD i 0)

theorem Largest.unique {logits : List F} {i j : Nat} (hi : Largest logits i)
    (hj : Largest logits j) : i = j := by
  rcases Nat.lt_trichotomy i j with hlt | heq | hgt
  · exact absurd ((hi.2 j hj.1).2 hlt) (not_lt.mpr (hj.2 i hi.1).1)
  · exact heq
  · exact absurd ((hj.2 i hi.1).2 hgt) (not_lt.mpr (hi.2 j hj.1).1)

theorem argmax_largest {logits : List F} (h : logits ≠ []) (blankId : Nat) :
    Largest logits (argmax logits blankId) := by
  have hzip : logits.zipIdx ≠ [] := by simpa using h
  have hne : maxBy (Prod.fst : F × Nat → F) logits.zipIdx ≠ none := maxBy_ne_none hzip
  obtain ⟨⟨x, i⟩, hx⟩ := Option.ne_none_iff_exists'.mp hne
  have hi : argmax logits blankId = i := by
    rw [argmax, hx]
    rfl
  obtain ⟨before, after, heq, hbefore, hafter⟩ := maxBy_eq_some hx
  have hget : ∀ j < logits.length, logits.zipIdx[j]? = some (logits.getD j 0, j) := by
    intro j hj
    rw [List.getElem?_zipIdx, List.getElem?_eq_getElem hj, List.getD_eq_getElem _ _ hj]
    simp
  have hlength : before.length + (after.length + 1) = logits.length := by
    have := congrArg List.length heq
    simpa using this.symm
  -- the pick stands at its own index
  have hself : logits.zipIdx[before.length]? = some (x, i) := by
    rw [heq]
    simp
  rw [hget before.length (by omega), Option.some.injEq, Prod.mk.injEq] at hself
  obtain ⟨rfl, rfl⟩ := hself
  rw [hi]
  refine ⟨by omega, fun j hj => ?_⟩
  have hj' := hget j hj
  rw [heq] at hj'
  rcases Nat.lt_trichotomy j before.length with hlt | rfl | hgt
  · rw [List.getElem?_append_left hlt] at hj'
    exact ⟨hbefore _ (List.mem_of_getElem? hj'), fun hlt' => absurd hlt (Nat.lt_asymm hlt')⟩
  · exact ⟨le_refl _, fun hlt => absurd hlt (Nat.lt_irrefl _)⟩
  · obtain ⟨k, rfl⟩ : ∃ k, j = before.length + (k + 1) := ⟨j - before.length - 1, by omega⟩
    rw [List.getElem?_append_right (Nat.le_add_right _ _), Nat.add_sub_cancel_left,
      List.getElem?_cons_succ] at hj'
    have hlt := hafter _ (List.mem_of_getElem? hj')
    exact ⟨le_of_lt hlt, fun _ => hlt⟩

/-- A pick whose logit was left alone, among logits that were only raised, is the pick without. -/
theorem argmax_of_raised {logits raised : List F} (blankId : Nat)
    (hlength : raised.length = logits.length)
    (hle : ∀ j, logits.getD j 0 ≤ raised.getD j 0)
    (hsame : raised.getD (argmax raised blankId) 0 = logits.getD (argmax raised blankId) 0) :
    argmax raised blankId = argmax logits blankId := by
  by_cases hnil : logits = []
  · subst hnil
    rw [List.length_eq_zero_iff.mp hlength]
  · have hraised : raised ≠ [] := fun h => by
      rw [h, List.length_nil] at hlength
      exact hnil (List.length_eq_zero_iff.mp hlength.symm)
    obtain ⟨hlt, hlargest⟩ := argmax_largest hraised blankId
    have hkept : Largest logits (argmax raised blankId) := by
      refine ⟨hlength ▸ hlt, fun j hj => ?_⟩
      obtain ⟨hj', hj''⟩ := hlargest j (hlength ▸ hj)
      rw [hsame] at hj' hj''
      exact ⟨le_trans (hle j) hj', fun hlt => lt_of_le_of_lt (hle j) (hj'' hlt)⟩
    exact hkept.unique (argmax_largest hnil blankId)

end Logits

end Gigastt
