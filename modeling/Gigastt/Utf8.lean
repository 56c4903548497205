import Mathlib.Algebra.GroupWithZero.Nat
import Mathlib.Data.List.Basic

/-!
Offsets in the bytes of a text. A slice that does not end between two characters is refused.
-/

namespace Utf8

/-- The bytes of a text. -/
def size (text : List Char) : Nat := (text.map Char.utf8Size).sum

/-- The first `n` bytes of a text, if they end between two characters. -/
def slice : List Char → Nat → Option (List Char)
  | _, 0 => some []
  | [], _ + 1 => none
  | c :: rest, n + 1 =>
      if c.utf8Size ≤ n + 1 then (slice rest (n + 1 - c.utf8Size)).map fun front => c :: front
      else none

/-- The bytes of a text from `start` up to `stop`, if both are between two characters. -/
def sub (text : List Char) (start stop : Nat) : Option (List Char) :=
  (slice text stop).bind fun front =>
    (slice front start).map fun before => front.drop before.length

@[simp]
theorem size_nil : size [] = 0 := rfl

@[simp]
theorem size_cons (c : Char) (text : List Char) : size (c :: text) = c.utf8Size + size text := rfl

@[simp]
theorem size_append (front rest : List Char) : size (front ++ rest) = size front + size rest := by
  rw [size, List.map_append, List.sum_append]
  rfl

theorem size_pos {text : List Char} (h : text ≠ []) : 0 < size text := by
  cases text with
  | nil => exact absurd rfl h
  | cons c rest => exact Nat.add_pos_left c.utf8Size_pos _

theorem size_eq_zero {text : List Char} (h : size text = 0) : text = [] := by
  cases text with
  | nil => rfl
  | cons c rest =>
      have hpos := c.utf8Size_pos
      rw [size_cons] at h
      omega

theorem length_le_size (text : List Char) : text.length ≤ size text := by
  induction text with
  | nil => exact Nat.le_refl 0
  | cons c text ih =>
      have hpos := c.utf8Size_pos
      rw [List.length_cons, size_cons]
      omega

/-- As many bytes as characters: each has one. -/
theorem size_le_length_iff {text : List Char} : size text ≤ text.length ↔ ∀ c ∈ text, c.utf8Size = 1 := by
  induction text with
  | nil => simp
  | cons c text ih =>
      have hpos := c.utf8Size_pos
      have hlength := length_le_size text
      rw [List.length_cons, size_cons, List.forall_mem_cons, ← ih]
      omega

theorem slice_eq_some_iff {text front : List Char} {n : Nat} :
    slice text n = some front ↔ front <+: text ∧ size front = n := by
  induction text generalizing n front with
  | nil =>
      cases n with
      | zero => simpa [slice, eq_comm] using fun h => h ▸ size_nil
      | succ n => simpa [slice, eq_comm] using fun h => by simp [h]
  | cons c rest ih =>
      cases n with
      | zero =>
          constructor
          · intro h
            cases h
            exact ⟨List.nil_prefix, rfl⟩
          · rintro ⟨_, hsize⟩
            rw [size_eq_zero hsize, slice]
      | succ n =>
          have hpos := c.utf8Size_pos
          rw [slice, Option.ite_none_right_eq_some, Option.map_eq_some_iff]
          constructor
          · rintro ⟨hfits, tail, htail, rfl⟩
            obtain ⟨hstarts, hsize⟩ := ih.mp htail
            refine ⟨List.cons_prefix_cons.mpr ⟨rfl, hstarts⟩, ?_⟩
            rw [size_cons, hsize]
            omega
          · rintro ⟨hstarts, hsize⟩
            cases front with
            | nil => cases hsize
            | cons d tail =>
                obtain ⟨rfl, htail⟩ := List.cons_prefix_cons.mp hstarts
                rw [size_cons] at hsize
                refine ⟨by omega, tail, ih.mpr ⟨htail, by omega⟩, rfl⟩

/-- The offset is between two characters. -/
theorem slice_isSome_iff {text : List Char} {n : Nat} :
    (slice text n).isSome = true ↔ ∃ front, front <+: text ∧ size front = n := by
  simp only [Option.isSome_iff_exists, slice_eq_some_iff]

theorem sub_eq_some_iff {text mid : List Char} {start stop : Nat} :
    sub text start stop = some mid ↔
      ∃ before after, text = before ++ mid ++ after ∧ size before = start ∧
        start + size mid = stop := by
  simp only [sub, Option.bind_eq_some_iff, Option.map_eq_some_iff, slice_eq_some_iff]
  constructor
  · rintro ⟨front, ⟨⟨after, rfl⟩, hstop⟩, before, ⟨⟨rest, rfl⟩, hstart⟩, rfl⟩
    rw [List.drop_left]
    rw [size_append] at hstop
    exact ⟨before, after, rfl, hstart, by omega⟩
  · rintro ⟨before, after, rfl, hstart, hstop⟩
    refine ⟨before ++ mid, ⟨⟨after, rfl⟩, ?_⟩, before, ⟨⟨mid, rfl⟩, hstart⟩, List.drop_left⟩
    rw [size_append, hstart, hstop]

/-- A part of a text is what its offsets cut out. -/
theorem sub_append (before mid after : List Char) :
    sub (before ++ mid ++ after) (size before) (size before + size mid) = some mid :=
  sub_eq_some_iff.mpr ⟨before, after, rfl, rfl, rfl⟩

theorem sub_rest (before rest : List Char) :
    sub (before ++ rest) (size before) (size (before ++ rest)) = some rest := by
  have h := sub_append before rest []
  rwa [List.append_nil, ← size_append] at h

end Utf8
