import Gigastt.Rounding
import Gigastt.Words
import Mathlib.Data.List.Chain
import Mathlib.Data.List.TakeWhile

/-!
Speakers assigned to words by the turn that holds a word's midpoint. Ordered turns and words are scanned
side by side, with a cursor that never moves back; anything else is searched from the first turn on.
-/

namespace Gigastt

/-- A speaker's turn, in seconds. -/
structure LabeledTurn where
  start : ℚ
  stop : ℚ
  speaker : ℕ
  deriving DecidableEq, Repr

def turnContains (turn : LabeledTurn) (midpoint : ℚ) : Bool :=
  turn.start ≤ midpoint && midpoint ≤ turn.stop

/-- Turns that follow one another and may share an endpoint. -/
def OrderedTurns (turns : List LabeledTurn) : Prop :=
  (∀ t ∈ turns, t.start ≤ t.stop) ∧ turns.IsChain fun a b => a.stop ≤ b.start

instance (turns : List LabeledTurn) : Decidable (OrderedTurns turns) :=
  inferInstanceAs (Decidable (_ ∧ _))

namespace WordInfo

def midpoint (rnd : Rounding) (word : WordInfo) : ℚ := rnd.div (rnd.add word.start word.stop) 2

/-- The speaker of the turn, if there is one; otherwise the word keeps its own. -/
def assign (word : WordInfo) (turn : Option LabeledTurn) : WordInfo :=
  { word with speaker := turn.elim word.speaker fun t => some t.speaker }

end WordInfo

section Assign

variable (rnd : Rounding) (turns : List LabeledTurn)

/-- A word with the speaker of the first turn that holds its midpoint. -/
def assignFirst (word : WordInfo) : WordInfo :=
  word.assign (turns.find? (turnContains · (word.midpoint rnd)))

/-- The cursor past the turns that have ended before the midpoint. -/
def advance (midpoint : ℚ) (cursor : ℕ) : ℕ :=
  cursor + ((turns.drop cursor).takeWhile (·.stop < midpoint)).length

/-- The scan over the words from a cursor on. -/
def scanFrom : ℕ → List WordInfo → List WordInfo
  | _, [] => []
  | cursor, word :: words =>
      let mid := word.midpoint rnd
      let cursor := advance turns mid cursor
      word.assign (turns[cursor]?.filter (turnContains · mid)) :: scanFrom cursor words

def assignSpeakersByMidpoint (words : List WordInfo) : List WordInfo :=
  if turns = [] ∨ words = [] then words
  else if OrderedTurns turns ∧ (words.map (·.midpoint rnd)).IsChain (· ≤ ·) then
    scanFrom rnd turns 0 words
  else words.map (assignFirst rnd turns)

end Assign

section Scan

variable {rnd : Rounding} {turns : List LabeledTurn} {mid : ℚ} {cursor : ℕ}

/-- The turns left behind have all ended. -/
def Behind (turns : List LabeledTurn) (cursor : ℕ) (mid : ℚ) : Prop :=
  ∀ t ∈ turns.take cursor, t.stop < mid

theorem Behind.later (h : Behind turns cursor mid) {mid' : ℚ} (hle : mid ≤ mid') :
    Behind turns cursor mid' :=
  fun t ht => (h t ht).trans_le hle

theorem drop_advance (turns : List LabeledTurn) (mid : ℚ) (cursor : ℕ) :
    turns.drop (advance turns mid cursor) = (turns.drop cursor).dropWhile (·.stop < mid) := by
  rw [advance, ← List.drop_drop]
  exact drop_partitionPoint

theorem Behind.advance (h : Behind turns cursor mid) :
    Behind turns (advance turns mid cursor) mid := by
  intro t ht
  rw [Gigastt.advance, List.take_add, List.mem_append] at ht
  rcases ht with ht | ht
  · exact h t ht
  · have hpast : t ∈ (turns.drop cursor).takeWhile (·.stop < mid) := by
      rw [← take_partitionPoint]
      exact ht
    have hended := List.mem_takeWhile_imp hpast
    exact of_decide_eq_true hended

/-- Ordered turns begin in order. -/
theorem OrderedTurns.starts (h : OrderedTurns turns) :
    turns.Pairwise fun a b => a.start ≤ b.start := by
  have hchain : turns.IsChain fun a b => a.start ≤ b.start := by
    apply h.2.imp_of_mem_imp
    intro a b ha _ hab
    exact (h.1 a ha).trans hab
  exact List.isChain_iff_pairwise.mp hchain

theorem OrderedTurns.drop (h : OrderedTurns turns) (n : ℕ) : OrderedTurns (turns.drop n) :=
  ⟨fun t ht => h.1 t (List.mem_of_mem_drop ht), h.2.drop n⟩

/-- Among ordered turns of which the first has not ended, only the first one or one that begins where
it ends may hold the midpoint. -/
theorem OrderedTurns.find?_eq (h : OrderedTurns turns) (hlive : ∀ t ∈ turns.head?, mid ≤ t.stop) :
    turns.find? (fun t => turnContains t mid) =
      turns.head?.filter fun t => turnContains t mid := by
  cases turns with
  | nil => rfl
  | cons turn rest =>
      rw [List.head?_cons, Option.filter_some, List.find?_cons]
      by_cases hhead : turnContains turn mid = true
      · rw [hhead, if_pos rfl]
      · rw [if_neg hhead, Bool.eq_false_of_not_eq_true hhead]
        -- the midpoint lies before the first turn, and no later one begins earlier
        have hbefore : mid < turn.start := by
          by_contra hle
          apply hhead
          rw [turnContains, Bool.and_eq_true, decide_eq_true_eq, decide_eq_true_eq]
          exact ⟨not_lt.mp hle, hlive turn rfl⟩
        rw [List.find?_eq_none]
        intro t ht hcontains
        rw [turnContains, Bool.and_eq_true, decide_eq_true_eq] at hcontains
        have hlater := (List.pairwise_cons.mp h.starts).1 t ht
        exact absurd hcontains.1 (not_le.mpr (hbefore.trans_le hlater))

/-- The turns behind the cursor are searched in vain. -/
theorem find?_drop (h : Behind turns cursor mid) :
    turns.find? (fun t => turnContains t mid) =
      (turns.drop cursor).find? fun t => turnContains t mid := by
  conv_lhs => rw [← List.take_append_drop cursor turns]
  rw [List.find?_append, List.find?_eq_none.mpr, Option.none_or]
  intro t ht hcontains
  rw [turnContains, Bool.and_eq_true, decide_eq_true_eq, decide_eq_true_eq] at hcontains
  exact absurd hcontains.2 (not_le.mpr (h t ht))

theorem get_advance (h : OrderedTurns turns) (hbehind : Behind turns cursor mid) :
    turns[advance turns mid cursor]?.filter (fun t => turnContains t mid) =
      turns.find? fun t => turnContains t mid := by
  rw [find?_drop hbehind.advance, (h.drop _).find?_eq, List.head?_drop]
  intro t ht
  rw [drop_advance] at ht
  have hnot := List.head?_dropWhile_not (fun t : LabeledTurn => decide (t.stop < mid)) (turns.drop cursor)
  rw [Option.mem_def] at ht
  rw [ht] at hnot
  exact not_lt.mp (of_decide_eq_false hnot)

theorem scanFrom_eq (h : OrderedTurns turns) {words : List WordInfo}
    (hmids : (words.map (·.midpoint rnd)).IsChain (· ≤ ·))
    (hbehind : ∀ word ∈ words.head?, Behind turns cursor (word.midpoint rnd)) :
    scanFrom rnd turns cursor words = words.map (assignFirst rnd turns) := by
  induction words generalizing cursor with
  | nil => rfl
  | cons word words ih =>
      have hword := hbehind word rfl
      rw [scanFrom, List.map_cons, assignFirst, get_advance h hword]
      congr 1
      apply ih hmids.tail
      intro next hnext
      obtain ⟨rest, rfl⟩ : ∃ rest, words = next :: rest := ⟨_, (List.eq_cons_of_mem_head? hnext)⟩
      exact hword.advance.later (List.isChain_cons_cons.mp hmids).1

end Scan

/-- The scan and the search from the first turn on leave every word with the same speaker: that of
the first turn that holds its midpoint, or its own. -/
theorem assignSpeakersByMidpoint_eq (rnd : Rounding) (turns : List LabeledTurn)
    (words : List WordInfo) :
    assignSpeakersByMidpoint rnd turns words = words.map (assignFirst rnd turns) := by
  rw [assignSpeakersByMidpoint]
  split_ifs with hempty hordered
  · rcases hempty with rfl | rfl
    · exact (List.map_id' words).symm
    · rfl
  · exact scanFrom_eq hordered.1 hordered.2 fun word _ t ht => by simp at ht
  · rfl

end Gigastt
