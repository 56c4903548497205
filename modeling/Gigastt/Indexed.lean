import Mathlib.Data.List.Basic

/-!
Lists by index: an entry appended, replaced, or counted.
-/

namespace Indexed

variable {α : Type*}

theorem modify_concat (l : List α) (a : α) (f : α → α) :
    (l ++ [a]).modify l.length f = l ++ [f a] := by
  induction l with
  | nil => rfl
  | cons x l ih => exact congrArg (List.cons x) ih

theorem getElem?_concat_cases {l : List α} {a b : α} {i : Nat}
    (hget : (l ++ [a])[i]? = some b) : l[i]? = some b ∨ (i = l.length ∧ b = a) := by
  rcases Nat.lt_or_ge i l.length with hlt | hge
  · rw [List.getElem?_append_left hlt] at hget
    exact Or.inl hget
  · rw [List.getElem?_append_right hge, List.getElem?_singleton] at hget
    split at hget
    · cases hget
      exact Or.inr ⟨by omega, rfl⟩
    · cases hget

theorem getElem?_concat_left {l : List α} {a b : α} {i : Nat}
    (hget : l[i]? = some b) : (l ++ [a])[i]? = some b := by
  rw [List.getElem?_append_left (List.getElem?_eq_some_iff.mp hget).1]
  exact hget

theorem getElem?_concat_iff {l : List α} {a b : α} {i : Nat} :
    (l ++ [a])[i]? = some b ↔ l[i]? = some b ∨ (i = l.length ∧ b = a) := by
  refine ⟨getElem?_concat_cases, ?_⟩
  rintro (hget | ⟨rfl, rfl⟩)
  · exact getElem?_concat_left hget
  · rw [List.getElem?_append_right (Nat.le_refl _), Nat.sub_self, List.getElem?_cons_zero]

theorem countP_set_add {p : α → Bool} {l : List α} {i : Nat} {a b : α}
    (hget : l[i]? = some a) :
    (l.set i b).countP p + (p a).toNat = l.countP p + (p b).toNat := by
  obtain ⟨hlt, rfl⟩ := List.getElem?_eq_some_iff.mp hget
  have hset := List.countP_set (p := p) (a := b) hlt
  have hnew : (if p b = true then 1 else 0) = (p b).toNat := by cases p b <;> rfl
  rw [hnew] at hset
  cases hold : p l[i] with
  | false =>
      rw [hold, if_neg Bool.false_ne_true] at hset
      rw [hset, Bool.toNat_false]
      omega
  | true =>
      have hpos : 0 < l.countP p := List.countP_pos_iff.mpr ⟨l[i], List.getElem_mem hlt, hold⟩
      rw [hold, if_pos rfl] at hset
      rw [hset, Bool.toNat_true]
      omega

theorem getElem?_set_cases {l : List α} {i j : Nat} {a x : α}
    (hget : (l.set i a)[j]? = some x) : (j = i ∧ x = a) ∨ (j ≠ i ∧ l[j]? = some x) := by
  rw [List.getElem?_set] at hget
  by_cases hij : i = j
  · rw [if_pos hij] at hget
    split at hget
    · exact Or.inl ⟨hij.symm, (Option.some.inj hget).symm⟩
    · cases hget
  · rw [if_neg hij] at hget
    exact Or.inr ⟨Ne.symm hij, hget⟩

theorem eq_of_countP_le_one {p : α → Bool} {l : List α} {i j : Nat} {a b : α}
    (hi : l[i]? = some a) (hj : l[j]? = some b) (ha : p a = true) (hb : p b = true)
    (hone : l.countP p ≤ 1) : i = j := by
  induction l generalizing i j with
  | nil => cases hi
  | cons x rest ih =>
      rw [List.countP_cons] at hone
      have hrest : ∀ {n : Nat} {c : α}, rest[n]? = some c → p c = true → 0 < rest.countP p :=
        fun hn hc => List.countP_pos_iff.mpr ⟨_, List.mem_of_getElem? hn, hc⟩
      cases i with
      | zero =>
          cases hi
          rw [if_pos ha] at hone
          cases j with
          | zero => rfl
          | succ j =>
              have := hrest hj hb
              omega
      | succ i =>
          have hpos := hrest hi ha
          cases j with
          | zero =>
              cases hj
              rw [if_pos hb] at hone
              omega
          | succ j => exact congrArg Nat.succ (ih hi hj (by omega))

end Indexed
