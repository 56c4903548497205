import Gigastt.BiasBoost
import Gigastt.BiasWorth
import Gigastt.Tokenizer

/-!
A glossary of written phrases. Every token of a phrase is paid for but the first, which is meant to be
the boundary marker alone.
-/

namespace Gigastt

namespace Biaser

section Compile

variable (tokenizer : Tokenizer)

-- `to_lowercase()` of the standard library
variable (lowercase : Text → Text)

def foldYo (text : Text) : Text := text.map fun c => if c = 'ё' then 'е' else c

/-- The phrase as spelled, else in lower case, else with `ё` folded as well. -/
def encodeRepresentable (phrase : Text) : Option (List Nat) :=
  match tokenizer.encodePhrase phrase with
  | some ids => some ids
  | none =>
      let lowercased := lowercase phrase
      match if lowercased ≠ phrase then tokenizer.encodePhrase lowercased else none with
      | some ids => some ids
      | none =>
          let folded := foldYo lowercased
          if folded ≠ lowercased then tokenizer.encodePhrase folded else none

/-- The tokens of the phrases; those of no weight or without tokens are dropped. -/
def sequencesOf (phrases : List (Text × ℚ)) : List (List Nat) :=
  phrases.filterMap fun pw => if pw.2 ≤ 0 then none else encodeRepresentable tokenizer lowercase pw.1

def fromPhrases (phrases : List (Text × ℚ)) (boost : ℚ) : Option (Biaser ℚ) :=
  if boost ≤ 0 then none else build (sequencesOf tokenizer lowercase phrases) boost true

/-- The spelling of a phrase that has tokens. -/
def spelling (phrase : Text) : Option Text :=
  [phrase, lowercase phrase, foldYo (lowercase phrase)].find? fun s => (tokenizer.encodePhrase s).isSome

/-- Where the phrase has no tokens, trying it again unless it has changed is trying it. -/
theorem retry_eq {α : Type} {encode : Text → Option α} {before after : Text}
    (h : encode before = none) : (if after ≠ before then encode after else none) = encode after := by
  split_ifs with hne
  · rfl
  · rw [not_not.mp hne, h]

theorem encodeRepresentable_eq (phrase : Text) :
    encodeRepresentable tokenizer lowercase phrase =
      (spelling tokenizer lowercase phrase).bind tokenizer.encodePhrase := by
  unfold encodeRepresentable spelling
  cases h : tokenizer.encodePhrase phrase with
  | some ids => simp [h]
  | none =>
      dsimp only
      rw [retry_eq h]
      cases h' : tokenizer.encodePhrase (lowercase phrase) with
      | some ids => simp [h, h']
      | none =>
          dsimp only
          rw [retry_eq h']
          cases h'' : tokenizer.encodePhrase (foldYo (lowercase phrase)) <;> simp [h, h', h'']

end Compile

section Paid

variable {tokenizer : Tokenizer} {lowercase : Text → Text} {phrases : List (Text × ℚ)} {boost : ℚ}
  {b : Biaser ℚ}

/-- The token after the given ones is paid for by the beam, and raised by the greedy decode wherever
they are active. -/
def Paid (b : Biaser ℚ) (tokens : List Nat) (tok : Nat) : Prop :=
  (∃ i, b.walk (tokens ++ [tok]) = some i ∧ 0 < (b.node i).grant) ∧
    ∀ i labels (logits : List ℚ), b.walk tokens = some i → i ∈ (b.heard labels).active →
      tok < logits.length →
        logits.getD tok 0 + b.boost ≤ (b.boostLogits (b.heard labels) logits).getD tok 0

theorem paid_iff {sequences : List (List Nat)} {leadingIsEntry : Bool} (hboost : 0 < boost)
    (hbuild : build sequences boost leadingIsEntry = some b) {tokens : List Nat} {tok : Nat}
    (hbegins : Begins sequences (tokens ++ [tok])) :
    b.Paid tokens tok ↔ (leadingIsEntry = true → tokens ≠ []) := by
  have hcompiled := build_compiled hbuild
  obtain ⟨child, hchild⟩ := (hcompiled.walk_iff _).mpr hbegins
  have hgrant := hcompiled.grant_eq hchild
  constructor
  · rintro ⟨⟨i, hi, hpos⟩, _⟩ hentry rfl
    rw [hcompiled.grant_eq hi, grantOf, if_pos (Or.inr ⟨hentry, rfl⟩)] at hpos
    exact lt_irrefl 0 hpos
  · intro hplain
    constructor
    · refine ⟨child, hchild, ?_⟩
      rw [hgrant, grantOf, if_neg]
      · exact div_pos hboost (Nat.cast_pos.mpr (lt_max_of_lt_right one_pos))
      · rintro (hnil | ⟨hentry, hlength⟩)
        · simp at hnil
        · exact hplain hentry (by simpa using hlength)
    · intro i labels logits hwalk hactive htok
      have hcont : b.continues tok i = true :=
        (continues_iff hbuild hwalk tok).mpr ⟨hbegins, hplain⟩
      have hcount : 1 ≤ (b.heard labels).active.countP (b.continues tok) :=
        List.countP_pos_iff.mpr ⟨i, hactive, hcont⟩
      have hcast : (1 : ℚ) ≤ ((b.heard labels).active.countP (b.continues tok) : ℚ) := by
        exact_mod_cast hcount
      rw [(boostLogits_added b _ logits).2 tok htok, hcompiled.boost_eq]
      have hmul := mul_le_mul_of_nonneg_right hcast hboost.le
      linarith

theorem mem_sequencesOf {seq : List Nat} : seq ∈ sequencesOf tokenizer lowercase phrases ↔
    ∃ pw ∈ phrases, 0 < pw.2 ∧ ∃ s, spelling tokenizer lowercase pw.1 = some s ∧
      tokenizer.encodePhrase s = some seq := by
  rw [sequencesOf, List.mem_filterMap]
  refine exists_congr fun pw => and_congr_right fun _ => ?_
  split_ifs with hweight
  · exact iff_of_false (fun h => by cases h) fun h => absurd h.1 (not_lt.mpr hweight)
  · rw [encodeRepresentable_eq, Option.bind_eq_some_iff]
    exact ⟨fun h => ⟨not_le.mp hweight, h⟩, fun h => h.2⟩

end Paid

end Biaser

end Gigastt
