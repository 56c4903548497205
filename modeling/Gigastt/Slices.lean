import Mathlib.Data.List.Basic

/-!
Half-open slices of a list by absolute positions, and the buffer that holds such a slice: what is
read from the buffer at shifted positions is the slice of the whole list.
-/

namespace Slices

variable {α : Type*}

/-- The elements at positions `start, …, stop - 1`. -/
def slice (l : List α) (start stop : Nat) : List α := (l.take stop).drop start

theorem slice_eq_nil {l : List α} {start stop : Nat} (h : stop ≤ start) :
    slice l start stop = [] := by
  rw [slice, List.drop_eq_nil_iff, List.length_take]
  omega

theorem slice_zero_length (l : List α) : slice l 0 l.length = l := by
  rw [slice, List.take_length, List.drop_zero]

theorem length_slice {l : List α} {start stop : Nat} (h : stop ≤ l.length) :
    (slice l start stop).length = stop - start := by
  rw [slice, List.length_drop, List.length_take, Nat.min_eq_left h]

/-- Adjacent slices join. -/
theorem slice_append_slice {l : List α} {a b c : Nat} (hab : a ≤ b) (hbc : b ≤ c) :
    slice l a b ++ slice l b c = slice l a c := by
  by_cases hlen : b ≤ l.length
  · have hsplit : l.take c = l.take b ++ (l.take c).drop b := by
      conv_lhs => rw [← List.take_append_drop b (l.take c)]
      rw [List.take_take, Nat.min_eq_left hbc]
    have hdrop : slice l a c = (l.take b ++ (l.take c).drop b).drop a := by rw [← hsplit, slice]
    rw [hdrop, List.drop_append_of_le_length (by rw [List.length_take]; omega)]
    rfl
  · have hb : l.take b = l := List.take_of_length_le (by omega)
    have hc : l.take c = l := List.take_of_length_le (by omega)
    rw [slice, slice, slice, hb, hc, List.drop_eq_nil_of_le (by omega : l.length ≤ b),
      List.append_nil]

/-- A slice of a buffered slice, at positions relative to the buffer's start. -/
theorem slice_slice {l : List α} {from' upto start stop : Nat} (hstart : from' ≤ start)
    (hstop : stop ≤ upto) :
    slice (slice l from' upto) (start - from') (stop - from') = slice l start stop := by
  by_cases hempty : stop ≤ start
  · rw [slice_eq_nil hempty, slice_eq_nil (by omega)]
  · rw [slice, slice, List.take_drop, List.drop_drop, List.take_take]
    have hsum : from' + (stop - from') = stop := by omega
    have hfrom : from' + (start - from') = start := by omega
    rw [hsum, Nat.min_eq_left hstop, hfrom, slice]

theorem getElem?_slice (l : List α) (start stop i : Nat) :
    (slice l start stop)[i]? = if start + i < stop then l[start + i]? else none := by
  rw [slice, List.getElem?_drop, List.getElem?_take]

theorem drop_slice (l : List α) (start stop n : Nat) :
    (slice l start stop).drop n = slice l (start + n) stop := by
  rw [slice, List.drop_drop, slice]

theorem take_slice (l : List α) (start stop n : Nat) :
    (slice l start stop).take n = slice l start (min (start + n) stop) := by
  rw [slice, List.take_drop, List.take_take, slice]

theorem slice_min_length (l : List α) (start stop : Nat) :
    slice l start (min stop l.length) = slice l start stop := by
  rw [slice, ← List.take_take, List.take_length, slice]

/-- Puts `xs` in the place of the elements from position `start` on. -/
def overwrite (l : List α) (start : Nat) (xs : List α) : List α :=
  l.take start ++ xs ++ l.drop (start + xs.length)

theorem length_overwrite {l : List α} {start : Nat} {xs : List α}
    (h : start + xs.length ≤ l.length) : (overwrite l start xs).length = l.length := by
  simp only [overwrite, List.length_append, List.length_take, List.length_drop]
  omega

theorem take_overwrite {l : List α} {start : Nat} (h : start ≤ l.length) (xs : List α) :
    (overwrite l start xs).take (start + xs.length) = l.take start ++ xs := by
  apply List.take_left'
  rw [List.length_append, List.length_take, Nat.min_eq_left h]

theorem take_overwrite_zero (l xs : List α) : (overwrite l 0 xs).take xs.length = xs := by
  have htake := take_overwrite (Nat.zero_le l.length) xs
  rwa [Nat.zero_add, List.take_zero, List.nil_append] at htake

theorem slice_overwrite {l : List α} {start : Nat} (h : start ≤ l.length) (xs : List α) :
    slice (overwrite l start xs) start (start + xs.length) = xs := by
  rw [slice, take_overwrite h]
  apply List.drop_left'
  rw [List.length_take, Nat.min_eq_left h]

/-- Consecutive pieces of `n` elements; the last one may be shorter. -/
def pieces (n : Nat) (l : List α) : List (List α) :=
  (List.range ((l.length + (n - 1)) / n)).map fun i => slice l (i * n) ((i + 1) * n)

theorem getElem?_pieces {n : Nat} (hn : 0 < n) (l : List α) (i : Nat) :
    (pieces n l)[i]? = if i * n < l.length then some (slice l (i * n) ((i + 1) * n)) else none := by
  have hcount : i < (l.length + (n - 1)) / n ↔ i * n < l.length := by
    rw [← Nat.succ_le_iff, Nat.le_div_iff_mul_le hn, Nat.succ_mul]
    omega
  rw [pieces, List.getElem?_map]
  by_cases h : i * n < l.length
  · rw [if_pos h, List.getElem?_range (hcount.mpr h), Option.map_some]
  · rw [if_neg h, List.getElem?_eq_none (by rw [List.length_range]; omega), Option.map_none]

theorem map_length_pieces (n : Nat) {β : Type*} {l : List α} {l' : List β} (h : l.length = l'.length) :
    (pieces n l).map List.length = (pieces n l').map List.length := by
  rw [pieces, pieces, List.map_map, List.map_map, h]
  apply List.map_congr_left
  intro i _
  simp only [Function.comp_apply, slice, List.length_drop, List.length_take, h]

theorem pieces_nil (n : Nat) (hn : 0 < n) : pieces n ([] : List α) = [] := by
  apply List.ext_getElem?
  intro i
  rw [getElem?_pieces hn, if_neg (by simp)]
  rfl

theorem pieces_cons {n : Nat} (hn : 0 < n) {l : List α} (hl : l ≠ []) :
    pieces n l = l.take n :: pieces n (l.drop n) := by
  have hpos := List.length_pos_of_ne_nil hl
  apply List.ext_getElem?
  intro i
  cases i with
  | zero =>
      rw [getElem?_pieces hn, if_pos (by omega), List.getElem?_cons_zero, slice, Nat.zero_mul,
        Nat.zero_add, Nat.one_mul, List.drop_zero]
  | succ i =>
      rw [getElem?_pieces hn, List.getElem?_cons_succ, getElem?_pieces hn, List.length_drop,
        Nat.succ_mul i n]
      by_cases hmore : i * n + n < l.length
      · rw [if_pos hmore, if_pos (by omega), slice, slice, Nat.succ_mul, Nat.succ_mul, List.take_drop,
          List.drop_drop, Nat.add_comm n, Nat.add_comm n]
      · rw [if_neg hmore, if_neg (by omega)]

/-- Induction over the pieces of a list. -/
theorem pieces_induction {n : Nat} (hn : 0 < n) {P : List α → Prop}
    (short : ∀ l, l.length < n → P l) (long : ∀ l, n ≤ l.length → P (l.drop n) → P l)
    (l : List α) : P l := by
  obtain ⟨count, hcount⟩ : ∃ count, l.length / n = count := ⟨_, rfl⟩
  induction count generalizing l with
  | zero => exact short l ((Nat.div_eq_zero_iff.mp hcount).resolve_left (Nat.ne_of_gt hn))
  | succ count ih =>
      have hlong : n ≤ l.length := by
        by_contra hshort
        rw [Nat.div_eq_of_lt (by omega)] at hcount
        cases hcount
      refine long l hlong (ih _ ?_)
      rw [Nat.div_eq_sub_div hn hlong] at hcount
      rw [List.length_drop]
      exact Nat.succ.inj hcount

theorem flatten_pieces {n : Nat} (hn : 0 < n) (l : List α) : (pieces n l).flatten = l := by
  induction l using pieces_induction hn with
  | short l hshort =>
      by_cases hnil : l = []
      · rw [hnil, pieces_nil n hn, List.flatten_nil]
      · rw [pieces_cons hn hnil, List.take_of_length_le (Nat.le_of_lt hshort), List.drop_eq_nil_of_le (Nat.le_of_lt hshort),
          pieces_nil n hn, List.flatten_cons, List.flatten_nil, List.append_nil]
  | long l hlong ih =>
      have hnil : l ≠ [] := List.ne_nil_of_length_pos (Nat.lt_of_lt_of_le hn hlong)
      rw [pieces_cons hn hnil, List.flatten_cons, ih, List.take_append_drop]

end Slices
