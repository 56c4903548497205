import Mathlib.Data.List.Nodup

/-!
Lists of values under distinct keys: updating the value of a key, or appending the key.
-/

namespace KeyedList

variable {α β : Type*} [DecidableEq α]

/-- Updates the value of `key`, or appends `key` with the value `fresh`. -/
def upsert (key : α) (update : β → β) (fresh : β) : List (α × β) → List (α × β)
  | [] => [(key, fresh)]
  | x :: rest =>
      if x.1 = key then (x.1, update x.2) :: rest else x :: upsert key update fresh rest

variable {key : α} {update : β → β} {fresh : β} {l : List (α × β)}

theorem keys_upsert : (upsert key update fresh l).map Prod.fst
    = if key ∈ l.map Prod.fst then l.map Prod.fst else l.map Prod.fst ++ [key] := by
  induction l with
  | nil => rfl
  | cons x rest ih =>
      by_cases hx : x.1 = key
      · rw [upsert, if_pos hx, if_pos (by simp [hx])]
        rfl
      · have hmem : key ∈ (x :: rest).map Prod.fst ↔ key ∈ rest.map Prod.fst := by
          simp [Ne.symm hx]
        rw [upsert, if_neg hx, List.map_cons, ih]
        simp only [hmem]
        split_ifs <;> rfl

theorem nodup_keys_upsert (h : (l.map Prod.fst).Nodup) :
    ((upsert key update fresh l).map Prod.fst).Nodup := by
  rw [keys_upsert]
  split_ifs with hkey
  · exact h
  · refine List.nodup_append.mpr ⟨h, List.nodup_singleton key, ?_⟩
    rintro a ha b hb rfl
    exact hkey (List.mem_singleton.mp hb ▸ ha)

theorem mem_keys_upsert {k : α} :
    k ∈ (upsert key update fresh l).map Prod.fst ↔ k = key ∨ k ∈ l.map Prod.fst := by
  rw [keys_upsert]
  split_ifs with hkey
  · exact ⟨Or.inr, fun h => h.elim (fun hk => hk ▸ hkey) id⟩
  · rw [List.mem_append, List.mem_singleton, or_comm]

/-- An entry of the updated list is an old one of another key, the updated one, or the new one. -/
theorem mem_upsert (h : (l.map Prod.fst).Nodup) {x : α × β}
    (hx : x ∈ upsert key update fresh l) :
    (x ∈ l ∧ x.1 ≠ key) ∨ (∃ b, (key, b) ∈ l ∧ x = (key, update b)) ∨
      (key ∉ l.map Prod.fst ∧ x = (key, fresh)) := by
  induction l with
  | nil => exact Or.inr (Or.inr ⟨List.not_mem_nil, List.mem_singleton.mp hx⟩)
  | cons y rest ih =>
      obtain ⟨hy, hrest⟩ := List.nodup_cons.mp h
      by_cases hkey : y.1 = key
      · rw [upsert, if_pos hkey] at hx
        rcases List.mem_cons.mp hx with rfl | hx
        · refine Or.inr (Or.inl ⟨y.2, ?_, by rw [hkey]⟩)
          rw [← hkey]
          exact List.mem_cons_self
        · refine Or.inl ⟨List.mem_cons_of_mem y hx, ?_⟩
          rintro rfl
          exact hy (hkey ▸ List.mem_map_of_mem hx)
      · rw [upsert, if_neg hkey] at hx
        rcases List.mem_cons.mp hx with rfl | hx
        · exact Or.inl ⟨List.mem_cons_self, hkey⟩
        · rcases ih hrest hx with ⟨hold, hne⟩ | ⟨b, hb, rfl⟩ | ⟨hnone, rfl⟩
          · exact Or.inl ⟨List.mem_cons_of_mem y hold, hne⟩
          · exact Or.inr (Or.inl ⟨b, List.mem_cons_of_mem y hb, rfl⟩)
          · refine Or.inr (Or.inr ⟨?_, rfl⟩)
            rw [List.map_cons, List.mem_cons]
            rintro (rfl | hin)
            · exact hkey rfl
            · exact hnone hin

/-- An update reads as one of its own key. -/
theorem lookup_upsert [BEq α] [LawfulBEq α] {k : α} :
    (upsert key update fresh l).lookup k =
      if k = key then some ((l.lookup key).elim fresh update) else l.lookup k := by
  induction l with
  | nil =>
      by_cases hk : k = key
      · rw [upsert, if_pos hk, hk, List.lookup_cons_self]
        rfl
      · rw [upsert, if_neg hk, List.lookup_cons, beq_eq_false_iff_ne.mpr hk]
  | cons x rest ih =>
      obtain ⟨key', b⟩ := x
      by_cases hx : key' = key
      · subst hx
        rw [upsert, if_pos rfl, List.lookup_cons_self]
        by_cases hk : k = key'
        · subst hk
          rw [List.lookup_cons_self, if_pos rfl]
          rfl
        · simp only [List.lookup_cons, beq_eq_false_iff_ne.mpr hk, if_neg hk]
      · rw [upsert, if_neg hx]
        by_cases hk : k = key'
        · subst hk
          rw [List.lookup_cons_self, List.lookup_cons_self, if_neg hx]
        · simp only [List.lookup_cons, beq_eq_false_iff_ne.mpr hk,
            beq_eq_false_iff_ne.mpr (Ne.symm hx), ih]

end KeyedList
