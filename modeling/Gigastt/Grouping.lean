import Mathlib.Data.List.Chain

/-!
A sequence divided into groups from the left: an entry opens a new group if it may not follow the group
under way.
-/

namespace Grouping

variable {α β : Type*}

/-- The groups of a list, after the group under way. -/
def groupFrom (breaks : List α → α → Bool) : List α → List α → List (List α)
  | current, [] => [current]
  | current, a :: l =>
      if breaks current a then current :: groupFrom breaks [a] l
      else groupFrom breaks (current ++ [a]) l

def group (breaks : List α → α → Bool) : List α → List (List α)
  | [] => []
  | a :: l => groupFrom breaks [a] l

variable {breaks : List α → α → Bool} {current l : List α}

theorem flatten_groupFrom (breaks : List α → α → Bool) (current l : List α) :
    (groupFrom breaks current l).flatten = current ++ l := by
  induction l generalizing current with
  | nil => simp [groupFrom]
  | cons a l ih =>
      rw [groupFrom]
      split
      · rw [List.flatten_cons, ih, List.singleton_append]
      · rw [ih, List.append_assoc, List.singleton_append]

/-- The groups are the list, cut. -/
theorem flatten_group (breaks : List α → α → Bool) (l : List α) : (group breaks l).flatten = l := by
  cases l with
  | nil => rfl
  | cons a l => exact flatten_groupFrom breaks [a] l

/-- What holds of one entry, and is kept when an entry that may follow is added, holds of every
group. -/
theorem of_mem_groupFrom {P : List α → Prop} (hsingle : ∀ a ∈ l, P [a])
    (hsnoc : ∀ g, ∀ a ∈ l, P g → breaks g a = false → P (g ++ [a])) (hcurrent : P current) :
    ∀ g ∈ groupFrom breaks current l, P g := by
  induction l generalizing current with
  | nil =>
      intro g hg
      rwa [List.mem_singleton.mp hg]
  | cons a l ih =>
      have hrest : ∀ {current}, P current → ∀ g ∈ groupFrom breaks current l, P g :=
        ih (fun b hb => hsingle b (List.mem_cons_of_mem _ hb))
          fun g b hb => hsnoc g b (List.mem_cons_of_mem _ hb)
      intro g hg
      rw [groupFrom] at hg
      split at hg
      · rcases List.mem_cons.mp hg with rfl | hg
        · exact hcurrent
        · exact hrest (hsingle a List.mem_cons_self) g hg
      · rename_i hstays
        exact hrest (hsnoc current a List.mem_cons_self hcurrent (by simpa using hstays)) g hg

theorem of_mem_group {P : List α → Prop} (hsingle : ∀ a ∈ l, P [a])
    (hsnoc : ∀ g, ∀ a ∈ l, P g → breaks g a = false → P (g ++ [a])) : ∀ g ∈ group breaks l, P g := by
  cases l with
  | nil => exact fun g hg => absurd hg List.not_mem_nil
  | cons a l =>
      exact of_mem_groupFrom (fun b hb => hsingle b (List.mem_cons_of_mem _ hb))
        (fun g b hb => hsnoc g b (List.mem_cons_of_mem _ hb)) (hsingle a List.mem_cons_self)

theorem ne_nil_of_mem_group {g : List α} (hg : g ∈ group breaks l) : g ≠ [] :=
  of_mem_group (P := (· ≠ [])) (fun a _ => List.cons_ne_nil a [])
    (fun _ a _ _ _ => List.append_ne_nil_of_right_ne_nil _ (List.cons_ne_nil a [])) g hg

/-- Inside a group every entry may follow those before it. -/
theorem not_breaks_of_mem_group {front back : List α} {a : α}
    (hg : front ++ a :: back ∈ group breaks l) (hfront : front ≠ []) : breaks front a = false := by
  refine of_mem_group (P := fun g => ∀ front a back, g = front ++ a :: back → front ≠ [] →
    breaks front a = false) ?_ ?_ _ hg front a back rfl hfront
  · intro b _ front a back hsplit hfront
    cases front with
    | nil => exact absurd rfl hfront
    | cons c front => simp at hsplit
  · intro g b _ hgroup hmay front a back hsplit hfront
    rcases List.eq_nil_or_concat back with rfl | ⟨back, c, rfl⟩
    · obtain ⟨rfl, hlast⟩ := List.append_inj' hsplit rfl
      cases hlast
      exact hmay
    · rw [List.concat_eq_append, ← List.cons_append, ← List.append_assoc] at hsplit
      obtain ⟨rfl, -⟩ := List.append_inj' hsplit rfl
      exact hgroup front a back rfl hfront

theorem head?_groupFrom (hcurrent : current ≠ []) :
    ∃ rest g, groupFrom breaks current l = g :: rest ∧ g.head? = current.head? := by
  induction l generalizing current with
  | nil => exact ⟨[], current, rfl, rfl⟩
  | cons a l ih =>
      rw [groupFrom]
      split
      · exact ⟨_, current, rfl, rfl⟩
      · obtain ⟨rest, g, hgroups, hhead⟩ := ih (List.append_ne_nil_of_left_ne_nil hcurrent [a])
        exact ⟨rest, g, hgroups, hhead.trans (List.head?_append_of_ne_nil _ hcurrent)⟩

/-- The first entry of a group may not follow the group before. -/
theorem isChain_groupFrom (hcurrent : current ≠ []) :
    (groupFrom breaks current l).IsChain fun g h => ∃ a ∈ h.head?, breaks g a = true := by
  induction l generalizing current with
  | nil => exact List.isChain_singleton _
  | cons a l ih =>
      rw [groupFrom]
      split
      · rename_i hbreaks
        have hrest := ih (List.cons_ne_nil a [])
        obtain ⟨rest, g, hgroups, hhead⟩ :=
          head?_groupFrom (List.cons_ne_nil a []) (l := l)
        rw [hgroups] at hrest ⊢
        exact List.isChain_cons_cons.mpr ⟨⟨a, hhead, hbreaks⟩, hrest⟩
      · exact ih (List.append_ne_nil_of_left_ne_nil hcurrent [a])

theorem isChain_group (breaks : List α → α → Bool) (l : List α) :
    (group breaks l).IsChain fun g h => ∃ a ∈ h.head?, breaks g a = true := by
  cases l with
  | nil => exact List.isChain_nil
  | cons a l => exact isChain_groupFrom (List.cons_ne_nil a [])

end Grouping
