import Mathlib.Data.List.Basic
import Mathlib.Data.List.Chain

/-!
A sequence cut from the left into pieces, each as long as a condition on its beginnings allows. An
entry that cannot begin a piece is one by itself.
-/

namespace Cutting

variable {α : Type*}

/-- No piece could have taken the first entry of the next one, and a longer piece has begun well. -/
structure Cut (begins : List α → Prop) (pieces : List (List α)) : Prop where
  nonempty : ∀ piece ∈ pieces, piece ≠ []
  begun : ∀ piece ∈ pieces, begins piece ∨ ∃ a, piece = [a]
  longest : pieces.IsChain fun piece next => ∀ a ∈ next.head?, ¬begins (piece ++ [a])

/-- The condition holds of the beginnings of what it holds of. -/
def Closed (begins : List α → Prop) : Prop := ∀ l a, begins (l ++ [a]) → begins l

variable {begins : List α → Prop}

theorem Closed.of_longer (hclosed : Closed begins) {l l' : List α} (hstarts : l <+: l')
    (hl : begins l') : begins l := by
  obtain ⟨rest, rfl⟩ := hstarts
  induction rest using List.reverseRecOn with
  | nil => rwa [List.append_nil] at hl
  | append_singleton rest a ih =>
      rw [← List.append_assoc] at hl
      exact ih (hclosed _ a hl)

theorem Cut.tail {piece : List α} {pieces : List (List α)} (h : Cut begins (piece :: pieces)) :
    Cut begins pieces where
  nonempty := fun p hp => h.nonempty p (List.mem_cons_of_mem _ hp)
  begun := fun p hp => h.begun p (List.mem_cons_of_mem _ hp)
  longest := h.longest.tail

/-- A piece does not end inside the piece of another cut. -/
theorem Cut.not_shorter (hclosed : Closed begins) {piece piece' : List α}
    {pieces pieces' : List (List α)} (h : Cut begins (piece :: pieces))
    (h' : Cut begins (piece' :: pieces'))
    (hflat : (piece :: pieces).flatten = (piece' :: pieces').flatten) :
    piece'.length ≤ piece.length := by
  by_contra hshort
  rw [List.flatten_cons, List.flatten_cons] at hflat
  obtain ⟨rest, hpiece', hrest⟩ : ∃ rest, piece' = piece ++ rest ∧
      pieces.flatten = rest ++ pieces'.flatten := by
    rcases List.append_eq_append_iff.mp hflat with ⟨rest, hr, hr'⟩ | ⟨rest, hr, _⟩
    · exact ⟨rest, hr, hr'⟩
    · rw [hr, List.length_append] at hshort
      omega
  rcases rest with _ | ⟨a, rest⟩
  · rw [hpiece', List.append_nil] at hshort
    omega
  rcases pieces with _ | ⟨next, pieces⟩
  · cases hrest
  have hnext : next.head? = some a := by
    rcases next with _ | ⟨c, next⟩
    · exact absurd rfl (h.nonempty [] (by simp))
    · rw [List.flatten_cons, List.cons_append, List.cons_append] at hrest
      rw [(List.cons.inj hrest).1]
      rfl
  apply (List.isChain_cons_cons.mp h.longest).1 a hnext
  rcases h'.begun piece' List.mem_cons_self with hbegun | ⟨c, hsingle⟩
  · apply hclosed.of_longer _ hbegun
    rw [hpiece']
    exact ⟨rest, by simp⟩
  · have hlength : piece'.length = 1 := by rw [hsingle, List.length_singleton]
    have hpos := List.length_pos_of_ne_nil (h.nonempty piece List.mem_cons_self)
    omega

/-- A sequence is cut in one way. -/
theorem Cut.unique (hclosed : Closed begins) {pieces pieces' : List (List α)}
    (h : Cut begins pieces) (h' : Cut begins pieces')
    (hflat : pieces.flatten = pieces'.flatten) : pieces = pieces' := by
  induction pieces generalizing pieces' with
  | nil =>
      rcases pieces' with _ | ⟨piece', pieces'⟩
      · rfl
      · have hnil := List.append_eq_nil_iff.mp hflat.symm
        exact absurd hnil.1 (h'.nonempty piece' List.mem_cons_self)
  | cons piece pieces ih =>
      rcases pieces' with _ | ⟨piece', pieces'⟩
      · have hnil := List.append_eq_nil_iff.mp hflat
        exact absurd hnil.1 (h.nonempty piece List.mem_cons_self)
      · have hlength : piece.length = piece'.length :=
          Nat.le_antisymm (h'.not_shorter hclosed h hflat.symm) (h.not_shorter hclosed h' hflat)
        rw [List.flatten_cons, List.flatten_cons] at hflat
        obtain ⟨rfl, hrest⟩ := List.append_inj hflat hlength
        rw [ih h.tail h'.tail hrest]

theorem Cut.concat {pieces : List (List α)} (h : Cut begins pieces) {a : α}
    (hstop : ∀ piece ∈ pieces.getLast?, ¬begins (piece ++ [a])) : Cut begins (pieces ++ [[a]]) where
  nonempty := by
    intro piece hpiece
    rcases List.mem_append.mp hpiece with hpiece | hpiece
    · exact h.nonempty piece hpiece
    · rw [List.mem_singleton.mp hpiece]
      exact List.cons_ne_nil a []
  begun := by
    intro piece hpiece
    rcases List.mem_append.mp hpiece with hpiece | hpiece
    · exact h.begun piece hpiece
    · exact Or.inr ⟨a, List.mem_singleton.mp hpiece⟩
  longest := by
    rw [List.isChain_append]
    refine ⟨h.longest, List.isChain_singleton _, ?_⟩
    intro piece hpiece next hnext c hc
    cases hnext
    cases hc
    exact hstop piece hpiece

theorem Cut.extend {pieces : List (List α)} {piece : List α} (h : Cut begins (pieces ++ [piece]))
    {a : α} (hgrow : begins (piece ++ [a])) : Cut begins (pieces ++ [piece ++ [a]]) where
  nonempty := by
    intro p hp
    rcases List.mem_append.mp hp with hp | hp
    · exact h.nonempty p (List.mem_append_left _ hp)
    · rw [List.mem_singleton.mp hp]
      exact List.append_ne_nil_of_right_ne_nil _ (List.cons_ne_nil a [])
  begun := by
    intro p hp
    rcases List.mem_append.mp hp with hp | hp
    · exact h.begun p (List.mem_append_left _ hp)
    · rw [List.mem_singleton.mp hp]
      exact Or.inl hgrow
  longest := by
    obtain ⟨hinit, _, hjoin⟩ := List.isChain_append.mp h.longest
    rw [List.isChain_append]
    refine ⟨hinit, List.isChain_singleton _, ?_⟩
    intro p hp next hnext c hc
    cases hnext
    apply hjoin p hp piece rfl c
    rwa [List.head?_append_of_ne_nil _ (h.nonempty piece (by simp))] at hc

variable [DecidablePred begins]

/-- The piece under way: it goes on, starts again at the entry, or is given up. -/
def grow (begins : List α → Prop) [DecidablePred begins] (piece : List α) (a : α) : List α :=
  if begins (piece ++ [a]) then piece ++ [a] else if begins [a] then [a] else []

/-- The piece under way when the sequence ends. -/
def lastPiece (begins : List α → Prop) [DecidablePred begins] (l : List α) : List α :=
  l.foldl (grow begins) []

theorem lastPiece_concat (l : List α) (a : α) :
    lastPiece begins (l ++ [a]) = grow begins (lastPiece begins l) a := by
  rw [lastPiece, List.foldl_append]
  rfl

/-- The last piece of a cut, unless it is an entry that cannot begin one. -/
def held (begins : List α → Prop) [DecidablePred begins] (pieces : List (List α)) : List α :=
  (pieces.getLast?.filter fun piece => begins piece).getD []

theorem held_concat (pieces : List (List α)) (piece : List α) :
    held begins (pieces ++ [piece]) = if begins piece then piece else [] := by
  rw [held, List.getLast?_concat]
  by_cases hbegins : begins piece
  · simp [Option.filter, hbegins]
  · simp [Option.filter, hbegins]

/-- The piece under way is the last one of the cut. -/
theorem exists_cut (hclosed : Closed begins) (l : List α) :
    ∃ pieces, Cut begins pieces ∧ pieces.flatten = l ∧ lastPiece begins l = held begins pieces := by
  induction l using List.reverseRecOn with
  | nil =>
      refine ⟨[], ⟨?_, ?_, List.isChain_nil⟩, rfl, rfl⟩ <;> simp
  | append_singleton l a ih =>
      obtain ⟨pieces, hcut, hflat, hlast⟩ := ih
      rw [lastPiece_concat, hlast, grow]
      rcases List.eq_nil_or_concat pieces with rfl | ⟨init, piece, rfl⟩
      · refine ⟨[[a]], hcut.concat (by simp), by simpa using hflat, ?_⟩
        rw [← List.nil_append [[a]], held_concat]
        simp only [held, List.getLast?_nil, Option.filter_none, Option.getD_none, List.nil_append]
        split_ifs <;> rfl
      · rw [List.concat_eq_append] at hcut hflat hlast ⊢
        rw [held_concat]
        by_cases hgrow : begins (piece ++ [a])
        · rw [if_pos (hclosed piece a hgrow), if_pos hgrow]
          refine ⟨init ++ [piece ++ [a]], hcut.extend hgrow, ?_, ?_⟩
          · rw [← hflat]
            simp
          · rw [held_concat, if_pos hgrow]
        · refine ⟨init ++ [piece] ++ [[a]], hcut.concat ?_, ?_, ?_⟩
          · intro p hp
            rw [List.getLast?_concat] at hp
            cases hp
            exact hgrow
          · rw [List.flatten_append, hflat]
            rfl
          · rw [held_concat]
            by_cases hpiece : begins piece
            · rw [if_pos hpiece, if_neg hgrow]
            · rw [if_neg hpiece, List.nil_append]
              split_ifs <;> rfl

end Cutting
