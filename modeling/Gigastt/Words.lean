import Mathlib.Algebra.Order.Ring.Unbundled.Rat
import Mathlib.Data.Rat.Defs
import Mathlib.Data.List.Sort

/-!
Recognized words, and the errors of recognition. Texts are lists of Unicode scalar values, times and
confidences are rationals; the character tables of the standard library are a parameter.
-/

namespace Gigastt

/-- The errors that decoding meets or raises. -/
inductive GigasttError where
  | cancelled
  | inference (source : String)
  | invalidAudio (reason : String)
  deriving DecidableEq, Repr

abbrev Text := List Char

def isWhitespace (c : Char) : Bool :=
  (9 ≤ c.toNat && c.toNat ≤ 13) || (0x2000 ≤ c.toNat && c.toNat ≤ 0x200A) ||
    [0x20, 0x85, 0xA0, 0x1680, 0x2028, 0x2029, 0x202F, 0x205F, 0x3000].contains c.toNat

def trimStart (text : Text) : Text := text.dropWhile isWhitespace

def trimEnd (text : Text) : Text := (trimStart text.reverse).reverse

structure WordInfo where
  word : Text
  start : ℚ
  stop : ℚ
  confidence : ℚ
  speaker : Option Nat
  deriving DecidableEq, Repr

/-- The Unicode properties the program asks of a character. -/
structure CharTables where
  toLowercase : Char → List Char
  isAlphanumeric : Char → Bool
  isAlphabetic : Char → Bool
  isUppercase : Char → Bool

namespace CharTables

def cyrillicUpper (c : Char) : Bool := ('А' ≤ c && c ≤ 'Я') || c = 'Ё'

def cyrillicLower (c : Char) : Bool := ('а' ≤ c && c ≤ 'я') || c = 'ё'

/-- The tables on ASCII and Russian letters. -/
def russian : CharTables where
  toLowercase c :=
    if 'А' ≤ c && c ≤ 'Я' then [Char.ofNat (c.toNat + 32)]
    else if c = 'Ё' then ['ё'] else [c.toLower]
  isAlphanumeric c := c.isAlphanum || cyrillicUpper c || cyrillicLower c
  isAlphabetic c := c.isAlpha || cyrillicUpper c || cyrillicLower c
  isUppercase c := c.isUpper || cyrillicUpper c

end CharTables

/-- In order of their start. -/
def SortedWords (words : List WordInfo) : Prop := words.Pairwise fun a b => a.start ≤ b.start

/-- One word after the other: none ends before it starts, nor starts before an earlier one ends. -/
structure InOrder (words : List WordInfo) : Prop where
  forward : ∀ w ∈ words, w.start ≤ w.stop
  apart : words.Pairwise fun v w => v.stop ≤ w.start

theorem InOrder.sorted {words : List WordInfo} (h : InOrder words) : SortedWords words :=
  h.apart.imp_of_mem fun hv _ hvw => (h.forward _ hv).trans hvw

/-- The index a binary search for the first element that fails `p` returns, on a list where all
elements that meet `p` come first. -/
def partitionPoint {α : Type*} (p : α → Bool) (l : List α) : Nat := (l.takeWhile p).length

section PartitionPoint

variable {α : Type*} {p : α → Bool} {l : List α}

theorem partitionPoint_le_length : partitionPoint p l ≤ l.length :=
  (List.takeWhile_prefix p).length_le

theorem take_partitionPoint : l.take (partitionPoint p l) = l.takeWhile p :=
  (List.prefix_iff_eq_take.mp (List.takeWhile_prefix p)).symm

theorem drop_partitionPoint : l.drop (partitionPoint p l) = l.dropWhile p := by
  have hsplit : l.takeWhile p ++ l.drop (partitionPoint p l) = l.takeWhile p ++ l.dropWhile p := by
    rw [← take_partitionPoint, List.take_append_drop, take_partitionPoint,
      List.takeWhile_append_dropWhile]
  exact List.append_cancel_left hsplit

theorem takeWhile_eq_filter (h : l.Pairwise fun a b => p b = true → p a = true) :
    l.takeWhile p = l.filter p := by
  induction l with
  | nil => rfl
  | cons a l ih =>
      obtain ⟨hhead, htail⟩ := List.pairwise_cons.mp h
      by_cases ha : p a
      · rw [List.takeWhile_cons_of_pos ha, List.filter_cons_of_pos ha, ih htail]
      · have hnone : l.filter p = [] :=
          List.filter_eq_nil_iff.mpr fun b hb hpb => ha (hhead b hb hpb)
        rw [List.takeWhile_cons_of_neg ha, List.filter_cons_of_neg ha, hnone]

theorem lt_partitionPoint_iff {i : Nat} {a : α} (h : l.Pairwise fun a b => p b = true → p a = true)
    (ha : l[i]? = some a) : i < partitionPoint p l ↔ p a = true := by
  induction l generalizing i with
  | nil => cases ha
  | cons x l ih =>
      obtain ⟨hhead, htail⟩ := List.pairwise_cons.mp h
      by_cases hx : p x
      · rw [partitionPoint, List.takeWhile_cons_of_pos hx, List.length_cons]
        cases i with
        | zero =>
            rw [List.getElem?_cons_zero, Option.some.injEq] at ha
            exact iff_of_true (Nat.succ_pos _) (ha ▸ hx)
        | succ i =>
            rw [List.getElem?_cons_succ] at ha
            exact Nat.succ_lt_succ_iff.trans (ih htail ha)
      · rw [partitionPoint, List.takeWhile_cons_of_neg hx, List.length_nil]
        refine iff_of_false (Nat.not_lt_zero i) fun hpa => hx ?_
        rcases List.mem_cons.mp (List.mem_of_getElem? ha) with rfl | hmem
        · exact hpa
        · exact hhead a hmem hpa

end PartitionPoint

end Gigastt
