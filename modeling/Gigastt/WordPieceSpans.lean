import Gigastt.Splitting
import Gigastt.WordPiece
import Mathlib.Data.List.DropRight
import Mathlib.Data.List.Induction
import Mathlib.Data.List.TakeWhile

/-!
The text cut at its added tokens, and the words between them. Characters may be marked, so that it can be
told where in the text a word comes from; the marks change nothing.
-/

namespace Gigastt.WordPiece

open Utf8 Splitting

/-- A part of the text: some characters, or an added token with the white space that it absorbs. -/
inductive Cut (α : Type*) where
  | text (chars : List α)
  | added (token : AddedToken) (left content right : List α)

namespace Cut

variable {α β : Type*}

/-- The characters of a part. -/
def chars : Cut α → List α
  | text chars => chars
  | added _ left content right => left ++ content ++ right

def map (g : α → β) : Cut α → Cut β
  | text chars => text (chars.map g)
  | added token left content right => added token (left.map g) (content.map g) (right.map g)

def span : Cut Char → Span
  | text chars => .text chars
  | added token _ _ _ => .added token

/-- An added token is its content, and absorbs white space on the sides where it is to be stripped. -/
def WellFormed : Cut Char → Prop
  | text chars => chars ≠ []
  | added token left content right => content = token.content ∧
      (∀ c ∈ left ++ right, isWhitespace c = true) ∧ (token.lstrip = false → left = []) ∧
        (token.rstrip = false → right = [])

end Cut

section Cutting

variable {α β : Type*}

def flushCut (front : List α) : List (Cut α) := if front.isEmpty then [] else [.text front]

/-- White space before an added token, where it is stripped. -/
def leftOf (ch : α → Char) (token : AddedToken) (front : List α) : List α :=
  if token.lstrip then front.rtakeWhile fun a => isWhitespace (ch a) else []

def beforeOf (ch : α → Char) (token : AddedToken) (front : List α) : List α :=
  if token.lstrip then front.rdropWhile fun a => isWhitespace (ch a) else front

def rightOf (ch : α → Char) (token : AddedToken) (rest : List α) : List α :=
  if token.rstrip then rest.takeWhile fun a => isWhitespace (ch a) else []

def afterOf (ch : α → Char) (token : AddedToken) (rest : List α) : List α :=
  if token.rstrip then rest.dropWhile fun a => isWhitespace (ch a) else rest

theorem length_afterOf_le (ch : α → Char) (token : AddedToken) (rest : List α) :
    (afterOf ch token rest).length ≤ rest.length := by
  unfold afterOf
  split_ifs
  · exact (List.dropWhile_sublist _).length_le
  · exact Nat.le_refl _

/-- The parts of a text, where no added token begins in `front`. -/
def cutFrom (ch : α → Char) (t : Tokenizer) (front : List α) : List α → List (Cut α)
  | [] => flushCut front
  | a :: rest =>
      match t.bestAdded ((a :: rest).map ch) with
      | none => cutFrom ch t (front ++ [a]) rest
      | some token =>
          let after := (a :: rest).drop token.content.length
          flushCut (beforeOf ch token front) ++
            .added token (leftOf ch token front) ((a :: rest).take token.content.length)
              (rightOf ch token after) :: cutFrom ch t [] (afterOf ch token after)
termination_by rest => rest.length
decreasing_by
  · simp
  · have hpos := List.length_pos_of_ne_nil token.content_ne
    have hle := length_afterOf_le ch token ((a :: rest).drop token.content.length)
    rw [List.length_drop] at hle
    simp only [List.length_cons] at *
    omega

/-- The parts of a text. -/
def cuts (ch : α → Char) (t : Tokenizer) (l : List α) : List (Cut α) := cutFrom ch t [] l

variable {t : Tokenizer} {ch : α → Char} {front rest : List α} {token : AddedToken}

@[simp]
theorem flatMap_chars_flushCut (front : List α) : (flushCut front).flatMap Cut.chars = front := by
  cases front with
  | nil => rfl
  | cons a front => simp [flushCut, Cut.chars]

theorem beforeOf_append_leftOf (ch : α → Char) (token : AddedToken) (front : List α) :
    beforeOf ch token front ++ leftOf ch token front = front := by
  unfold beforeOf leftOf
  split_ifs
  · exact List.rdropWhile_append_rtakeWhile
  · exact List.append_nil front

theorem rightOf_append_afterOf (ch : α → Char) (token : AddedToken) (rest : List α) :
    rightOf ch token rest ++ afterOf ch token rest = rest := by
  unfold rightOf afterOf
  split_ifs
  · exact List.takeWhile_append_dropWhile
  · rfl

/-- The parts make up the text. -/
theorem flatMap_chars_cutFrom (ch : α → Char) (t : Tokenizer) (front rest : List α) :
    (cutFrom ch t front rest).flatMap Cut.chars = front ++ rest := by
  induction front, rest using cutFrom.induct ch t with
  | case1 front => rw [cutFrom, flatMap_chars_flushCut, List.append_nil]
  | case2 front a rest hbest ih =>
      rw [cutFrom, hbest]
      dsimp only
      rw [ih, List.append_assoc, List.singleton_append]
  | case3 front a rest token hbest after ih =>
      rw [cutFrom, hbest]
      dsimp only
      rw [List.flatMap_append, flatMap_chars_flushCut, List.flatMap_cons, ih, Cut.chars]
      calc beforeOf ch token front ++ (leftOf ch token front ++
              (a :: rest).take token.content.length ++ rightOf ch token after ++
                ([] ++ afterOf ch token after))
          = (beforeOf ch token front ++ leftOf ch token front) ++
              ((a :: rest).take token.content.length ++
                (rightOf ch token after ++ afterOf ch token after)) := by
            simp only [List.append_assoc, List.nil_append]
        _ = front ++ (a :: rest) := by
            rw [beforeOf_append_leftOf, rightOf_append_afterOf, List.take_append_drop]

section Marks

variable {ch' : β → Char} {g : α → β} (hg : ∀ a, ch' (g a) = ch a)

include hg

theorem beforeOf_map (token : AddedToken) (front : List α) :
    beforeOf ch' token (front.map g) = (beforeOf ch token front).map g := by
  unfold beforeOf
  simp only [List.rdropWhile, ← List.map_reverse, List.dropWhile_map, Function.comp_def, hg]
  split_ifs <;> rfl

theorem leftOf_map (token : AddedToken) (front : List α) :
    leftOf ch' token (front.map g) = (leftOf ch token front).map g := by
  unfold leftOf
  simp only [List.rtakeWhile, ← List.map_reverse, List.takeWhile_map, Function.comp_def, hg]
  split_ifs <;> rfl

theorem rightOf_map (token : AddedToken) (rest : List α) :
    rightOf ch' token (rest.map g) = (rightOf ch token rest).map g := by
  unfold rightOf
  simp only [List.takeWhile_map, Function.comp_def, hg]
  split_ifs <;> rfl

theorem afterOf_map (token : AddedToken) (rest : List α) :
    afterOf ch' token (rest.map g) = (afterOf ch token rest).map g := by
  unfold afterOf
  simp only [List.dropWhile_map, Function.comp_def, hg]
  split_ifs <;> rfl

omit hg in
theorem flushCut_map (front : List α) :
    flushCut (front.map g) = (flushCut front).map (Cut.map g) := by
  cases front <;> rfl

/-- Cutting does not look at the marks. -/
theorem cutFrom_map (t : Tokenizer) (front rest : List α) :
    cutFrom ch' t (front.map g) (rest.map g) = (cutFrom ch t front rest).map (Cut.map g) := by
  have hchars : ∀ l : List α, (l.map g).map ch' = l.map ch := fun l => by
    rw [List.map_map]
    exact List.map_congr_left fun a _ => hg a
  induction front, rest using cutFrom.induct ch t with
  | case1 front => rw [List.map_nil, cutFrom, cutFrom, flushCut_map]
  | case2 front a rest hbest ih =>
      rw [List.map_append, List.map_singleton] at ih
      rw [List.map_cons, cutFrom, ← List.map_cons, hchars, hbest, cutFrom, hbest]
      exact ih
  | case3 front a rest token hbest after ih =>
      rw [List.map_nil] at ih
      rw [List.map_cons, cutFrom, ← List.map_cons, hchars, hbest, cutFrom, hbest]
      dsimp only
      rw [← List.map_drop, ← List.map_take, beforeOf_map hg, leftOf_map hg, rightOf_map hg,
        afterOf_map hg, ih, flushCut_map, List.map_append, List.map_cons]
      rfl

theorem cuts_map (t : Tokenizer) (l : List α) :
    cuts ch' t (l.map g) = (cuts ch t l).map (Cut.map g) := cutFrom_map hg t [] l

end Marks

end Cutting

section BestAdded

variable {rest : Text} {token : AddedToken}

/-- The longest of some added tokens that a text begins with, if it begins with any. -/
def IsBest (tokens : List AddedToken) (rest : Text) : Option AddedToken → Prop
  | none => ∀ token ∈ tokens, ¬token.content <+: rest
  | some best => best ∈ tokens ∧ best.content <+: rest ∧
      ∀ token ∈ tokens, token.content <+: rest → size token.content ≤ size best.content

theorem IsBest.better {tokens : List AddedToken} {best : Option AddedToken}
    (h : IsBest tokens rest best) (token : AddedToken) :
    IsBest (tokens ++ [token]) rest (Tokenizer.betterAdded rest best token) := by
  have hmem : ∀ x, x ∈ tokens ++ [token] ↔ x ∈ tokens ∨ x = token := fun x => by simp
  unfold Tokenizer.betterAdded
  split_ifs with hfits
  · rw [List.isPrefixOf_iff_prefix] at hfits
    cases best with
    | none =>
        refine ⟨(hmem _).mpr (Or.inr rfl), hfits, fun x hx hx' => ?_⟩
        rcases (hmem x).mp hx with hold | rfl
        · exact absurd hx' (h x hold)
        · exact Nat.le_refl _
    | some best =>
        obtain ⟨hin, hprefix, hmax⟩ := h
        dsimp only
        split_ifs with hle
        · refine ⟨(hmem _).mpr (Or.inl hin), hprefix, fun x hx hx' => ?_⟩
          rcases (hmem x).mp hx with hold | rfl
          · exact hmax x hold hx'
          · exact hle
        · refine ⟨(hmem _).mpr (Or.inr rfl), hfits, fun x hx hx' => ?_⟩
          rcases (hmem x).mp hx with hold | rfl
          · exact Nat.le_trans (hmax x hold hx') (by omega)
          · exact Nat.le_refl _
  · rw [List.isPrefixOf_iff_prefix] at hfits
    cases best with
    | none =>
        intro x hx
        rcases (hmem x).mp hx with hold | rfl
        · exact h x hold
        · exact hfits
    | some best =>
        obtain ⟨hin, hprefix, hmax⟩ := h
        refine ⟨(hmem _).mpr (Or.inl hin), hprefix, fun x hx hx' => ?_⟩
        rcases (hmem x).mp hx with hold | rfl
        · exact hmax x hold hx'
        · exact absurd hx' hfits

theorem isBest_bestAdded (t : Tokenizer) (rest : Text) :
    IsBest t.addedTokens rest (t.bestAdded rest) := by
  rw [Tokenizer.bestAdded]
  induction t.addedTokens using List.reverseRecOn with
  | nil => exact fun e he => absurd he List.not_mem_nil
  | append_singleton tokens token ih =>
      rw [List.foldl_append]
      exact ih.better token

theorem bestAdded_isPrefix {t : Tokenizer} (h : t.bestAdded rest = some token) :
    token ∈ t.addedTokens ∧ token.content <+: rest := by
  have hbest := isBest_bestAdded t rest
  rw [h] at hbest
  exact ⟨hbest.1, hbest.2.1⟩

theorem wellFormed_of_mem_flushCut {front : Text} {cut : Cut Char} (h : cut ∈ flushCut front) :
    cut.WellFormed := by
  cases front with
  | nil => exact absurd h List.not_mem_nil
  | cons c front =>
      obtain rfl : cut = .text (c :: front) := List.mem_singleton.mp h
      exact List.cons_ne_nil c front

theorem wellFormed_of_mem_cutFrom {t : Tokenizer} {front rest : Text} {cut : Cut Char}
    (h : cut ∈ cutFrom id t front rest) : cut.WellFormed := by
  induction front, rest using cutFrom.induct id t with
  | case1 front =>
      rw [cutFrom] at h
      exact wellFormed_of_mem_flushCut h
  | case2 front a rest hbest ih =>
      rw [cutFrom, hbest] at h
      exact ih h
  | case3 front a rest token hbest after ih =>
      rw [cutFrom, hbest] at h
      rcases List.mem_append.mp h with h | h
      · exact wellFormed_of_mem_flushCut h
      rcases List.mem_cons.mp h with rfl | h
      · rw [List.map_id] at hbest
        obtain ⟨_, tail, htail⟩ := bestAdded_isPrefix hbest
        refine ⟨by rw [← htail, List.take_left], fun c hc => ?_, fun hstrip => ?_, fun hstrip => ?_⟩
        · rcases List.mem_append.mp hc with hc | hc
          · unfold leftOf at hc
            split_ifs at hc
            · exact List.mem_rtakeWhile_imp hc
            · exact absurd hc List.not_mem_nil
          · unfold rightOf at hc
            split_ifs at hc
            · exact List.mem_takeWhile_imp hc
            · exact absurd hc List.not_mem_nil
        · rw [leftOf, hstrip, if_neg Bool.false_ne_true]
        · rw [rightOf, hstrip, if_neg Bool.false_ne_true]
      · exact ih h

end BestAdded

section Refinement

variable {t : Tokenizer}

theorem stripLeft_spec (before front after : Text) :
    stripLeft (before ++ front ++ after) (size before) (size (before ++ front)) =
      some (size (before ++ front.rdropWhile isWhitespace)) := by
  induction front using List.reverseRecOn generalizing after with
  | nil => rw [stripLeft, if_neg (by simp), List.rdropWhile_nil]
  | append_singleton front c ih =>
      have hmore : size before < size (before ++ (front ++ [c])) := by
        have hpos := size_pos (List.append_ne_nil_of_right_ne_nil front (List.cons_ne_nil c []))
        rw [size_append]
        omega
      have hsub : sub (before ++ (front ++ [c]) ++ after) 0 (size (before ++ (front ++ [c]))) =
          some (before ++ (front ++ [c])) := by
        have h := sub_append [] (before ++ (front ++ [c])) after
        rwa [size_nil, Nat.zero_add] at h
      have hlast : (before ++ (front ++ [c])).getLast? = some c := by
        rw [← List.append_assoc, List.getLast?_concat]
      have hshort : size (before ++ (front ++ [c])) - c.utf8Size = size (before ++ front) := by
        simp only [size_append, size_cons, size_nil]
        omega
      rw [stripLeft, if_pos hmore, hsub]
      dsimp only
      rw [hlast]
      dsimp only
      split_ifs with hspace
      · have hassoc : before ++ (front ++ [c]) ++ after = before ++ front ++ ([c] ++ after) := by simp
        rw [hshort, hassoc, ih, List.rdropWhile_concat_pos _ _ _ hspace]
      · rw [List.rdropWhile_concat_neg _ _ _ hspace]

theorem stripRight_spec (before rest : Text) :
    (stripRight (before ++ rest) (size before)).map Subtype.val =
      some (size (before ++ rest.takeWhile isWhitespace)) := by
  induction rest generalizing before with
  | nil =>
      have hrest := sub_rest before []
      rw [stripRight]
      split
      · rename_i heq
        rw [hrest] at heq
        cases heq
      · rw [List.takeWhile_nil, List.append_nil]
        rfl
      · rename_i heq
        rw [hrest] at heq
        cases heq
  | cons c rest ih =>
      have hrest := sub_rest before (c :: rest)
      have hassoc : before ++ c :: rest = before ++ [c] ++ rest := by simp
      have hsize : size before + c.utf8Size = size (before ++ [c]) := by simp
      rw [stripRight]
      split
      · rename_i heq
        rw [hrest] at heq
        cases heq
      · rename_i heq
        rw [hrest] at heq
        cases heq
      · rename_i heq
        rw [hrest] at heq
        cases heq
        by_cases hspace : isWhitespace c = true
        · rw [if_pos hspace, List.takeWhile_cons_of_pos hspace, Option.map_map]
          show Option.map Subtype.val (stripRight (before ++ c :: rest) (size before + c.utf8Size)) = _
          have hnext := ih (before ++ [c])
          rw [hsize, hassoc, hnext, List.append_assoc, List.singleton_append]
        · rw [if_neg hspace, List.takeWhile_cons_of_neg hspace, List.append_nil]
          rfl

/-- The stripped beginning of an added token. -/
theorem strippedStart (token : AddedToken) (before front after : Text) :
    (if token.lstrip then stripLeft (before ++ front ++ after) (size before) (size (before ++ front))
      else some (size (before ++ front))) = some (size (before ++ beforeOf id token front)) := by
  unfold beforeOf
  split_ifs
  · exact stripLeft_spec before front after
  · rfl

/-- The stripped end of an added token that is read at the end of `front`. -/
theorem strippedStop (token : AddedToken) (front after : Text) :
    ∃ stop : {stop // size front + size token.content ≤ stop},
      (if token.rstrip then
          stripRight (front ++ token.content ++ after) (size front + size token.content)
        else some ⟨size front + size token.content, Nat.le_refl _⟩) = some stop ∧
      stop.1 = size (front ++ token.content ++ rightOf id token after) := by
  have hsize : size front + size token.content = size (front ++ token.content) :=
    (size_append front token.content).symm
  unfold rightOf
  split_ifs
  · have hstrip := stripRight_spec (front ++ token.content) after
    rw [← hsize] at hstrip
    obtain ⟨stop, hstop, hval⟩ := Option.map_eq_some_iff.mp hstrip
    exact ⟨stop, hstop, hval⟩
  · exact ⟨_, rfl, by rw [List.append_nil, hsize]⟩

/-- The text before an added token, if there is any. -/
theorem slicedFront (before front after : Text) :
    (if size before < size (before ++ front) then
        (sub (before ++ front ++ after) (size before) (size (before ++ front))).map fun s => [Span.text s]
      else some []) = some ((flushCut front).map Cut.span) := by
  cases front with
  | nil =>
      rw [List.append_nil, if_neg (Nat.lt_irrefl _)]
      rfl
  | cons c front =>
      have hpos := size_pos (List.cons_ne_nil c front)
      have hsub := sub_append before (c :: front) after
      rw [← size_append] at hsub
      rw [if_pos (by rw [size_append]; omega), hsub]
      rfl

/-- No slice is refused, and the spans are those of the parts. -/
theorem extractFrom_spec (t : Tokenizer) (before front rest : Text) :
    t.extractFrom (before ++ front ++ rest) (size before) (size (before ++ front)) =
      some ((cutFrom id t front rest).map Cut.span) := by
  induction front, rest using cutFrom.induct id t generalizing before with
  | case1 front =>
      have hfront := slicedFront before front []
      rw [List.append_nil] at hfront
      rw [Tokenizer.extractFrom, dif_neg (by simp), cutFrom, List.append_nil]
      exact hfront
  | case2 front a rest hbest ih =>
      rw [List.map_id] at hbest
      have hmore : size (before ++ front) < size (before ++ front ++ a :: rest) := by
        have hpos := size_pos (List.cons_ne_nil a rest)
        rw [size_append _ (a :: rest)]
        omega
      have hnext : size (before ++ front) + firstLen (a :: rest) = size (before ++ (front ++ [a])) := by
        simp only [firstLen, List.head?_cons, Option.map_some, Option.getD_some, size_append, size_cons,
          size_nil]
        omega
      have hassoc : before ++ front ++ a :: rest = before ++ (front ++ [a]) ++ rest := by simp
      rw [Tokenizer.extractFrom, dif_pos hmore, sub_rest, cutFrom, List.map_id, hbest]
      dsimp only
      rw [hnext, hassoc, hbest]
      exact ih before
  | case3 front a rest token hbest after ih =>
      rw [List.map_id] at hbest
      obtain ⟨_, tail, htail⟩ := bestAdded_isPrefix hbest
      have htake : (a :: rest).take token.content.length = token.content := by
        rw [← htail, List.take_left]
      have hafter : after = tail := by
        show (a :: rest).drop token.content.length = tail
        rw [← htail, List.drop_left]
      have hmore : size (before ++ front) < size (before ++ front ++ a :: rest) := by
        have hpos := size_pos (List.cons_ne_nil a rest)
        rw [size_append _ (a :: rest)]
        omega
      have hstart := strippedStart token before front (a :: rest)
      obtain ⟨stop, hstop, hstopSize⟩ := strippedStop token (before ++ front) tail
      have hassoc : before ++ front ++ token.content ++ tail = before ++ front ++ a :: rest := by
        rw [List.append_assoc _ token.content, htail]
      rw [hassoc] at hstop
      have hsplit : before ++ beforeOf id token front ++ (leftOf id token front ++ a :: rest) =
          before ++ front ++ a :: rest := by
        rw [List.append_assoc, ← List.append_assoc (beforeOf id token front), beforeOf_append_leftOf,
          ← List.append_assoc]
      have hfront := slicedFront before (beforeOf id token front) (leftOf id token front ++ a :: rest)
      rw [hsplit] at hfront
      have hrest := ih (before ++ front ++ token.content ++ rightOf id token tail)
      have hwhole : before ++ front ++ token.content ++ rightOf id token tail ++ afterOf id token tail =
          before ++ front ++ a :: rest := by
        rw [List.append_assoc _ (rightOf id token tail), rightOf_append_afterOf, hassoc]
      rw [hafter, List.append_nil, hwhole] at hrest
      rw [Tokenizer.extractFrom, dif_pos hmore, sub_rest, cutFrom, List.map_id, hbest]
      dsimp only
      rw [hbest]
      dsimp only
      rw [hstart, hstop]
      dsimp only
      rw [hfront, hstopSize, hrest, ← hafter]
      simp only [List.map_append, List.map_cons, Cut.span]
      rfl

/-- The spans of a text are its parts. -/
theorem extractAdded_spec (t : Tokenizer) (text : Text) :
    t.extractAdded text = some ((cuts id t text).map Cut.span) := by
  by_cases hnone : t.addedTokens = []
  · have hbest : ∀ rest, t.bestAdded rest = none := fun rest => by
      rw [Tokenizer.bestAdded, hnone]
      rfl
    have hcut : ∀ rest front, cutFrom id t front rest = flushCut (front ++ rest) := by
      intro rest
      induction rest with
      | nil => exact fun front => by rw [cutFrom, List.append_nil]
      | cons a rest ih =>
          intro front
          rw [cutFrom, hbest]
          dsimp only
          rw [ih, List.append_assoc]
          rfl
    rw [Tokenizer.extractAdded, if_pos hnone, cuts, hcut]
    cases text <;> rfl
  · rw [Tokenizer.extractAdded, if_neg hnone]
    exact extractFrom_spec t [] [] text

end Refinement

end Gigastt.WordPiece
