import Mathlib.Data.List.Nodup

/-!
Names that are made of a key and a suffix, where no suffix ends in another.
-/

namespace Suffixes

/-- Two spellings of a name differ by what the longer suffix has more. -/
theorem append_eq_append {a b s t : String} (h : a ++ s = b ++ t) :
    (∃ c, s = c ++ t ∧ b = a ++ c) ∨ ∃ c, t = c ++ s ∧ a = b ++ c := by
  have hlist : a.toList ++ s.toList = b.toList ++ t.toList := by
    rw [← String.toList_append, ← String.toList_append, h]
  rcases List.append_eq_append_iff.mp hlist with ⟨c, hb, hs⟩ | ⟨c, ha, ht⟩
  · refine Or.inl ⟨String.ofList c, ?_, ?_⟩ <;> rw [← String.toList_inj] <;> simpa
  · refine Or.inr ⟨String.ofList c, ?_, ?_⟩ <;> rw [← String.toList_inj] <;> simpa

/-- No suffix ends in another one. -/
def Free (suffixes : List String) : Prop :=
  ∀ s ∈ suffixes, ∀ t ∈ suffixes, s.toList <:+ t.toList → s = t

instance (suffixes : List String) : Decidable (Free suffixes) :=
  inferInstanceAs (Decidable (∀ s ∈ suffixes, ∀ t ∈ suffixes, _ → _))

theorem suffix_of_append {c s : String} : s.toList <:+ (c ++ s).toList := by
  rw [String.toList_append]
  exact List.suffix_append _ _

theorem append_left_cancel {a s t : String} (h : a ++ s = a ++ t) : s = t := by
  rw [← String.toList_inj] at h ⊢
  rw [String.toList_append, String.toList_append] at h
  exact List.append_cancel_left h

theorem append_right_cancel {a b s : String} (h : a ++ s = b ++ s) : a = b := by
  rw [← String.toList_inj] at h ⊢
  rw [String.toList_append, String.toList_append] at h
  exact List.append_cancel_right h

theorem Free.inj {suffixes : List String} (hfree : Free suffixes) {a b s t : String}
    (hs : s ∈ suffixes) (ht : t ∈ suffixes) (h : a ++ s = b ++ t) : a = b ∧ s = t := by
  have heq : s = t := by
    rcases append_eq_append h with ⟨c, rfl, _⟩ | ⟨c, rfl, _⟩
    · exact (hfree t ht _ hs suffix_of_append).symm
    · exact hfree s hs _ ht suffix_of_append
  subst heq
  exact ⟨append_right_cancel h, rfl⟩

section Names

variable {α : Type*} (key : α → String) (suffixesOf : α → List String)

/-- Every key under each of its suffixes. -/
def names (l : List α) : List String := l.flatMap fun a => (suffixesOf a).map (key a ++ ·)

variable {key suffixesOf}

theorem mem_names {l : List α} {name : String} :
    name ∈ names key suffixesOf l ↔ ∃ a ∈ l, ∃ s ∈ suffixesOf a, name = key a ++ s := by
  simp only [names, List.mem_flatMap, List.mem_map]
  constructor
  · rintro ⟨a, ha, s, hs, rfl⟩
    exact ⟨a, ha, s, hs, rfl⟩
  · rintro ⟨a, ha, s, hs, rfl⟩
    exact ⟨a, ha, s, hs, rfl⟩

/-- Names of different keys are different, and those of one key where it comes once. -/
theorem nodup_names_iff {suffixes : List String} (hfree : Free suffixes) (common : String) {l : List α}
    (hsub : ∀ a ∈ l, suffixesOf a ⊆ suffixes) (hnodup : ∀ a ∈ l, (suffixesOf a).Nodup)
    (hcommon : ∀ a ∈ l, common ∈ suffixesOf a) :
    (names key suffixesOf l).Nodup ↔ (l.map key).Nodup := by
  rw [names, List.nodup_flatMap, List.Nodup, List.pairwise_map]
  constructor
  · rintro ⟨_, hpairs⟩
    refine hpairs.imp_of_mem fun {a b} ha hb hdisjoint heq => ?_
    refine hdisjoint (a := key a ++ common) (List.mem_map_of_mem (hcommon a ha)) ?_
    rw [heq]
    exact List.mem_map_of_mem (hcommon b hb)
  · intro hpairs
    refine ⟨fun a ha => ?_, ?_⟩
    · exact (hnodup a ha).map fun s t h => append_left_cancel h
    · refine hpairs.imp_of_mem fun {a b} ha hb hne name hleft hright => ?_
      obtain ⟨s, hs, rfl⟩ := List.mem_map.mp hleft
      obtain ⟨t, ht, heq⟩ := List.mem_map.mp hright
      exact hne (hfree.inj (hsub b hb ht) (hsub a ha hs) heq).1.symm

end Names

end Suffixes
