import Mathlib.Data.List.Basic

/-!
A list split into pieces: elements of some kinds end a piece, and of those some are a piece of their own.
-/

namespace Splitting

/-- How an element splits a list: it is left out, is a piece of its own, or belongs to one. -/
inductive Kind where
  | gap
  | alone
  | part
  deriving DecidableEq, Repr

variable {α β : Type*}

/-- The piece so far, unless it is still empty. -/
def flush (piece : List α) : List (List α) := if piece.isEmpty then [] else [piece]

/-- The pieces of a list, after the piece under way. -/
def splitFrom (kind : α → Kind) : List α → List α → List (List α)
  | piece, [] => flush piece
  | piece, a :: l =>
      match kind a with
      | .gap => flush piece ++ splitFrom kind [] l
      | .alone => flush piece ++ [a] :: splitFrom kind [] l
      | .part => splitFrom kind (piece ++ [a]) l

def split (kind : α → Kind) (l : List α) : List (List α) := splitFrom kind [] l

@[simp]
theorem flush_nil : flush ([] : List α) = [] := rfl

theorem flush_of_ne_nil {piece : List α} (h : piece ≠ []) : flush piece = [piece] := by
  rw [flush, List.isEmpty_eq_false_iff.mpr h, if_neg Bool.false_ne_true]

@[simp]
theorem flatten_flush (piece : List α) : (flush piece).flatten = piece := by
  cases piece with
  | nil => rfl
  | cons a piece => simp [flush]

theorem mem_flush {p piece : List α} : p ∈ flush piece ↔ p ≠ [] ∧ p = piece := by
  cases piece with
  | nil => simp [flush]
  | cons a piece =>
      simp only [flush, List.isEmpty_cons, Bool.false_eq_true, if_false, List.mem_singleton]
      exact ⟨fun h => ⟨h ▸ List.cons_ne_nil a piece, h⟩, And.right⟩

theorem flush_map (g : α → β) (piece : List α) :
    flush (piece.map g) = (flush piece).map (·.map g) := by
  cases piece <;> rfl

section Split

variable {kind : α → Kind} {piece l : List α}

/-- No element is lost but the gaps, and none is moved. -/
theorem flatten_splitFrom (kind : α → Kind) (piece l : List α) :
    (splitFrom kind piece l).flatten = piece ++ l.filter (kind · ≠ .gap) := by
  induction l generalizing piece with
  | nil => simp [splitFrom]
  | cons a l ih => cases ha : kind a <;> simp [splitFrom, ha, ih]

theorem flatten_split (kind : α → Kind) (l : List α) :
    (split kind l).flatten = l.filter (kind · ≠ .gap) := flatten_splitFrom kind [] l

/-- A piece is one element that stands alone, or some that belong together. -/
theorem of_mem_splitFrom (hpiece : ∀ a ∈ piece, kind a = .part) {p : List α}
    (hp : p ∈ splitFrom kind piece l) :
    (∃ a, p = [a] ∧ kind a = .alone) ∨ (p ≠ [] ∧ ∀ a ∈ p, kind a = .part) := by
  induction l generalizing piece with
  | nil =>
      obtain ⟨hne, rfl⟩ := mem_flush.mp hp
      exact Or.inr ⟨hne, hpiece⟩
  | cons a l ih =>
      have hflush : p ∈ flush piece → p ≠ [] ∧ ∀ a ∈ p, kind a = .part := by
        intro hp
        obtain ⟨hne, rfl⟩ := mem_flush.mp hp
        exact ⟨hne, hpiece⟩
      cases ha : kind a with
      | gap =>
          simp only [splitFrom, ha, List.mem_append] at hp
          rcases hp with hp | hp
          · exact Or.inr (hflush hp)
          · exact ih (fun _ h => absurd h List.not_mem_nil) hp
      | alone =>
          simp only [splitFrom, ha, List.mem_append, List.mem_cons] at hp
          rcases hp with hp | rfl | hp
          · exact Or.inr (hflush hp)
          · exact Or.inl ⟨a, rfl, ha⟩
          · exact ih (fun _ h => absurd h List.not_mem_nil) hp
      | part =>
          simp only [splitFrom, ha] at hp
          apply ih _ hp
          intro b hb
          rcases List.mem_append.mp hb with hb | hb
          · exact hpiece b hb
          · rwa [List.mem_singleton.mp hb]

theorem of_mem_split {p : List α} (hp : p ∈ split kind l) :
    (∃ a, p = [a] ∧ kind a = .alone) ∨ (p ≠ [] ∧ ∀ a ∈ p, kind a = .part) :=
  of_mem_splitFrom (fun _ h => absurd h List.not_mem_nil) hp

theorem ne_nil_of_mem_split {p : List α} (hp : p ∈ split kind l) : p ≠ [] := by
  rcases of_mem_split hp with ⟨a, rfl, _⟩ | ⟨hne, _⟩
  · exact List.cons_ne_nil a []
  · exact hne

theorem splitFrom_of_parts (hl : ∀ a ∈ l, kind a = .part) (piece rest : List α) :
    splitFrom kind piece (l ++ rest) = splitFrom kind (piece ++ l) rest := by
  induction l generalizing piece with
  | nil => rw [List.nil_append, List.append_nil]
  | cons a l ih =>
      rw [List.cons_append, splitFrom, hl a List.mem_cons_self]
      dsimp only
      rw [ih (fun b hb => hl b (List.mem_cons_of_mem a hb)), List.append_assoc]
      rfl

/-- After a gap the pieces begin anew. -/
theorem splitFrom_append_gap {g : α} (hg : kind g = .gap) (piece l rest : List α) :
    splitFrom kind piece (l ++ g :: rest) = splitFrom kind piece l ++ split kind rest := by
  induction l generalizing piece with
  | nil => simp only [List.nil_append, splitFrom, hg, split]
  | cons a l ih =>
      cases ha : kind a with
      | gap => simp only [List.cons_append, splitFrom, ha, ih, List.append_assoc]
      | alone => simp only [List.cons_append, splitFrom, ha, ih, List.append_assoc]
      | part => simp only [List.cons_append, splitFrom, ha, ih]

/-- What is joined with gaps is split into what was joined. -/
theorem split_intercalate {g : α} (hg : kind g = .gap) {pieces : List (List α)}
    (h : ∀ p ∈ pieces, p ≠ [] ∧ ∀ a ∈ p, kind a = .part) :
    split kind ([g].intercalate pieces) = pieces := by
  induction pieces with
  | nil => rfl
  | cons p pieces ih =>
      obtain ⟨hne, hparts⟩ := h p List.mem_cons_self
      have hrest := ih fun q hq => h q (List.mem_cons_of_mem p hq)
      cases pieces with
      | nil =>
          rw [List.intercalate_singleton, ← List.append_nil p, split, splitFrom_of_parts hparts,
            List.append_nil]
          exact flush_of_ne_nil hne
      | cons q pieces =>
          rw [List.intercalate_cons_cons, split, List.append_assoc, splitFrom_of_parts hparts,
            List.nil_append, List.singleton_append, splitFrom, hg]
          dsimp only
          rw [flush_of_ne_nil hne, ← split, hrest]
          rfl

/-- Replacing elements by others of their kind replaces them in the pieces. -/
theorem splitFrom_map {kind' : β → Kind} {g : α → β} (hg : ∀ a, kind' (g a) = kind a)
    (piece l : List α) :
    splitFrom kind' (piece.map g) (l.map g) = (splitFrom kind piece l).map (·.map g) := by
  induction l generalizing piece with
  | nil => exact flush_map g piece
  | cons a l ih =>
      have hnil : splitFrom kind' [] (l.map g) = (splitFrom kind [] l).map (·.map g) := ih []
      cases ha : kind a with
      | gap => simp only [splitFrom, List.map_cons, hg, ha, flush_map, hnil, List.map_append]
      | alone =>
          simp only [splitFrom, List.map_cons, hg, ha, flush_map, hnil, List.map_append, List.map_nil]
      | part =>
          have hnext := ih (piece ++ [a])
          rw [List.map_append, List.map_singleton] at hnext
          simp only [splitFrom, List.map_cons, hg, ha, hnext]

theorem split_map {kind' : β → Kind} {g : α → β} (hg : ∀ a, kind' (g a) = kind a) (l : List α) :
    split kind' (l.map g) = (split kind l).map (·.map g) := splitFrom_map hg [] l

end Split

end Splitting
