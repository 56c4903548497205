import Gigastt.KeyedList
import Mathlib.Algebra.Order.BigOperators.Group.List
import Mathlib.Algebra.Order.Ring.Nat

/-!
Tables: values under distinct keys, looked up by key. How many values there are and what they weigh
together, under each operation.
-/

/-- A finite map as a list of entries. -/
structure Table (α β : Type*) where
  entries : List (α × β)
  nodup : (entries.map Prod.fst).Nodup

namespace Table

variable {α β : Type*} [DecidableEq α]

def empty : Table α β := ⟨[], List.nodup_nil⟩

def find (t : Table α β) (key : α) : Option β := t.entries.lookup key

def insert (t : Table α β) (key : α) (value : β) : Table α β :=
  ⟨KeyedList.upsert key (fun _ => value) value t.entries, KeyedList.nodup_keys_upsert t.nodup⟩

/-- Updates the value of `key`, if there is one. -/
def modify (t : Table α β) (key : α) (f : β → β) : Table α β where
  entries := t.entries.map fun x => (x.1, if x.1 = key then f x.2 else x.2)
  nodup := by
    rw [List.map_map]
    exact t.nodup

def filter (t : Table α β) (p : α → β → Bool) : Table α β :=
  ⟨t.entries.filter fun x => p x.1 x.2, t.nodup.sublist (List.filter_sublist.map Prod.fst)⟩

variable {t : Table α β} {key : α} {value : β}

theorem find_eq_some : t.find key = some value ↔ (key, value) ∈ t.entries := by
  obtain ⟨entries, hnodup⟩ := t
  unfold find
  induction entries with
  | nil => exact ⟨nofun, nofun⟩
  | cons x rest ih =>
      obtain ⟨hhead, htail⟩ := List.nodup_cons.mp hnodup
      obtain ⟨k, v⟩ := x
      by_cases hk : key = k
      · subst hk
        rw [List.lookup_cons_self, Option.some_inj, List.mem_cons, Prod.mk.injEq]
        constructor
        · rintro rfl
          exact Or.inl ⟨rfl, rfl⟩
        · rintro (⟨_, rfl⟩ | hmem)
          · rfl
          · exact absurd (List.mem_map_of_mem (f := Prod.fst) hmem) hhead
      · have hbeq : (key == k) = false := beq_eq_false_iff_ne.mpr hk
        rw [List.lookup_cons, hbeq, ih htail, List.mem_cons, Prod.mk.injEq]
        exact ⟨Or.inr, fun h => h.resolve_left fun hand => hk hand.1⟩

theorem find_empty : (empty : Table α β).find key = none := rfl

theorem find_modify (f : β → β) (k : α) :
    (t.modify key f).find k = if k = key then (t.find key).map f else t.find k := by
  by_cases hk : k = key
  · subst hk
    rw [if_pos rfl]
    ext value
    rw [find_eq_some, Option.map_eq_some_iff]
    simp only [modify, List.mem_map, Prod.mk.injEq, find_eq_some]
    constructor
    · rintro ⟨⟨k', v⟩, hmem, rfl, rfl⟩
      exact ⟨v, hmem, (if_pos rfl).symm⟩
    · rintro ⟨v, hmem, rfl⟩
      exact ⟨(k, v), hmem, rfl, if_pos rfl⟩
  · rw [if_neg hk]
    ext value
    rw [find_eq_some, find_eq_some]
    simp only [modify, List.mem_map, Prod.mk.injEq]
    constructor
    · rintro ⟨⟨k', v⟩, hmem, rfl, rfl⟩
      rwa [if_neg hk]
    · exact fun hmem => ⟨(k, value), hmem, rfl, if_neg hk⟩

theorem find_insert (k : α) :
    (t.insert key value).find k = if k = key then some value else t.find k := by
  show (KeyedList.upsert key (fun _ => value) value t.entries).lookup k
    = if k = key then some value else t.entries.lookup k
  induction t.entries with
  | nil =>
      by_cases hk : k = key
      · rw [if_pos hk, hk]
        exact List.lookup_cons_self
      · rw [if_neg hk, KeyedList.upsert, List.lookup_cons, beq_eq_false_iff_ne.mpr hk]
  | cons x rest ih =>
      obtain ⟨k', v⟩ := x
      by_cases hx : k' = key
      · rw [KeyedList.upsert, if_pos hx, hx]
        by_cases hk : k = key
        · rw [if_pos hk, hk, List.lookup_cons_self]
        · rw [if_neg hk, List.lookup_cons, List.lookup_cons, beq_eq_false_iff_ne.mpr hk]
      · rw [KeyedList.upsert, if_neg hx, List.lookup_cons, List.lookup_cons, ih]
        by_cases hk : k = k'
        · have hne : k ≠ key := hk ▸ hx
          rw [beq_iff_eq.mpr hk]
          simp only [if_neg hne]
        · rw [beq_eq_false_iff_ne.mpr hk]

theorem find_filter (p : α → β → Bool) (k : α) :
    (t.filter p).find k = (t.find k).filter (p k) := by
  ext value
  rw [find_eq_some, Option.filter_eq_some_iff, find_eq_some]
  exact List.mem_filter

section Weight

variable (w : β → Nat)

/-- What the values weigh together. -/
def weight (t : Table α β) : Nat := (t.entries.map fun x => w x.2).sum

omit [DecidableEq α] in
theorem length_filter_le (p : α → β → Bool) :
    (t.filter p).entries.length ≤ t.entries.length :=
  List.length_filter_le _ t.entries

theorem length_modify (f : β → β) : (t.modify key f).entries.length = t.entries.length :=
  List.length_map _

theorem length_insert_le : (t.insert key value).entries.length ≤ t.entries.length + 1 := by
  rw [insert, ← List.length_map Prod.fst, KeyedList.keys_upsert]
  split_ifs
  · rw [List.length_map]
    exact Nat.le_succ _
  · rw [List.length_append, List.length_map]
    exact le_rfl

omit [DecidableEq α] in
theorem weight_filter_le (p : α → β → Bool) : (t.filter p).weight w ≤ t.weight w := by
  apply (List.filter_sublist.map fun x : α × β => w x.2).sum_le_sum
  exact fun _ _ => Nat.zero_le _

/-- Putting a lighter value in the place of another makes the table no heavier. -/
theorem weight_modify_le {f : β → β} (h : ∀ v, t.find key = some v → w (f v) ≤ w v) :
    (t.modify key f).weight w ≤ t.weight w := by
  rw [weight, weight, modify, List.map_map]
  apply List.sum_le_sum
  intro x hx
  rw [Function.comp_apply]
  dsimp only
  split_ifs with hkey
  · exact h x.2 (find_eq_some.mpr (hkey ▸ hx))
  · exact le_rfl

theorem weight_insert_le : (t.insert key value).weight w ≤ t.weight w + w value := by
  show ((KeyedList.upsert key (fun _ => value) value t.entries).map fun x => w x.2).sum
    ≤ (t.entries.map fun x => w x.2).sum + w value
  induction t.entries with
  | nil => exact (Nat.add_comm _ _).le
  | cons x rest ih =>
      rw [KeyedList.upsert]
      split_ifs
      · simp only [List.map_cons, List.sum_cons]
        omega
      · simp only [List.map_cons, List.sum_cons]
        omega

end Weight

end Table
