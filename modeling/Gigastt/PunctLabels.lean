import Gigastt.Outcomes
import Gigastt.PunctSpans
import Gigastt.PunctWindows
import Gigastt.Tensor

/-!
The labels of a range of words. The range is encoded and run in one piece if it is short enough, and else
in halves.
-/

namespace Gigastt.Punctuation

open Utf8 WordPiece

/-- Subtokens that one run of the model may have. -/
def maxWindowSubtokens : ℕ := 2000

/-- What ends a call without labels. A refused slice or index panics. -/
inductive Halt where
  | panic
  | error (message : String)
  deriving DecidableEq, Repr

/-- An output of the model: logits, or numbers of another type. -/
inductive Output (F : Type) where
  | f32 (tensor : Tensor F)
  | other (dims : List ℕ)

/-- The loaded model. A label is chosen by comparing logits, from the number below all others. -/
structure Model (F : Type) where
  session : List (Tensor ℤ) → Except String (List (Output F))
  numLabels : ℕ
  negInfinity : F

/-- The inputs of every run that was started. -/
abbrev Runs := List (List (Tensor ℤ))

section Words

/-- The labels of words, and which of them are set. -/
def labelToken (argmaxPerToken : List ℕ) (s : List ℕ × List Bool) (token : Option ℕ × ℕ) :
    List ℕ × List Bool :=
  match token.1 with
  | none => s
  | some w =>
      if s.2[w]? = some false then (s.1.set w (argmaxPerToken.getD token.2 0), s.2.set w true)
      else s

/-- The label of the first token of every word. -/
def firstSubwordLabels (wordIds : List (Option ℕ)) (argmaxPerToken : List ℕ) (numWords : ℕ) : List ℕ :=
  (wordIds.zipIdx.foldl (labelToken argmaxPerToken)
    (List.replicate numWords 0, List.replicate numWords false)).1

end Words

section Label

variable {F : Type} [LT F] [DecidableLT F]

/-- The first of the largest logits, where any is above the lowest number. -/
def argmax (negInfinity : F) (row : List F) : ℕ :=
  (row.zipIdx.foldl (fun best v => if best.1 < v.1 then v else best) (negInfinity, 0)).2

/-- `Tensor::new`. -/
def newTensor (dims : List ℕ) (data : List ℤ) : Except Halt (Tensor ℤ) :=
  if h : data.length = dims.prod then .ok ⟨dims, data, h⟩
  else .error (.error s!"tensor data length mismatch: expected {dims.prod}, got {data.length}")

namespace Model

variable (model : Model F)

/-- The label of every token, read off the outputs of a run. -/
def argmaxOf (seq : ℕ) : List (Output F) → Except Halt (List ℕ)
  | [] => .error .panic
  | .other _ :: _ => .error (.error "failed to extract punct logits")
  | .f32 logits :: _ =>
      if logits.dims ≠ [1, seq, model.numLabels] then
        .error (.error s!"unexpected punct logits shape {logits.dims} (expected [1, {seq}, {model.numLabels}])")
      else
        .ok ((List.range seq).map fun t =>
          argmax model.negInfinity ((logits.data.drop (t * model.numLabels)).take model.numLabels))

def inputsOf (encoding : Encoding) : Except Halt (List (Tensor ℤ)) := do
  let seq := encoding.ids.length
  let inputIds ← newTensor [1, seq] (encoding.ids.map Int.ofNat)
  let attentionMask ← newTensor [1, seq] (encoding.attentionMask.map Int.ofNat)
  let tokenType ← newTensor [1, seq] (List.replicate seq 0)
  return [inputIds, attentionMask, tokenType]

/-- One run: what it was started with, and the labels of the tokens. -/
def argmaxPerToken (encoding : Encoding) : Runs × Except Halt (List ℕ) :=
  match inputsOf encoding with
  | .error e => ([], .error e)
  | .ok inputs =>
      ([inputs],
        match model.session inputs with
        | .error e => .error (.error ("punct model inference failed: " ++ e))
        | .ok outputs => model.argmaxOf encoding.ids.length outputs)

/-- The labels of the words of one run. -/
def runLabels (encoding : Encoding) (numWords : ℕ) : Runs × Except Halt (List ℕ) :=
  let run := model.argmaxPerToken encoding
  (run.1, run.2.map fun argmaxPerToken =>
    firstSubwordLabels encoding.wordIds argmaxPerToken numWords)

variable (encode : Text → Option Encoding) (text : Text) (spans : List (ℕ × ℕ))

/-- The labels of the words from `start` to `stop`, and the runs that were started for them. -/
def labelWordRange (start stop : ℕ) : Runs × Except Halt (List ℕ) :=
  if _ : stop ≤ start ∨ spans.length < stop then
    ([], .error (.error s!"invalid word window {start}..{stop} over {spans.length} words"))
  else
    match (chunkOf text spans start stop).bind encode with
    | none => ([], .error .panic)
    | some encoding =>
        if maxWindowSubtokens < encoding.ids.length then
          if _ : stop - start < 2 then
            ([], .error (.error
              s!"a single word encodes to {encoding.ids.length} subtokens (max {maxWindowSubtokens})"))
          else
            let front := labelWordRange start (start + (stop - start) / 2)
            match front.2 with
            | .error e => (front.1, .error e)
            | .ok labels =>
                let back := labelWordRange (start + (stop - start) / 2) stop
                (front.1 ++ back.1, back.2.map fun more => labels ++ more)
        else model.runLabels encoding (stop - start)
termination_by stop - start

end Model

end Label

section FirstSubword

variable {preds : List ℕ} {wordIds : List (Option ℕ)} {numWords w : ℕ}

/-- The labels and flags of words, after some of the tokens. -/
def labelTokens (preds : List ℕ) (numWords : ℕ) (wordIds : List (Option ℕ)) : List ℕ × List Bool :=
  wordIds.zipIdx.foldl (labelToken preds) (List.replicate numWords 0, List.replicate numWords false)

theorem labelTokens_concat (preds : List ℕ) (numWords : ℕ) (wordIds : List (Option ℕ))
    (wid : Option ℕ) : labelTokens preds numWords (wordIds ++ [wid]) =
      labelToken preds (labelTokens preds numWords wordIds) (wid, wordIds.length) := by
  rw [labelTokens, List.zipIdx_append, List.foldl_append, Nat.zero_add]
  rfl

theorem length_labelTokens (preds : List ℕ) (numWords : ℕ) (wordIds : List (Option ℕ)) :
    (labelTokens preds numWords wordIds).1.length = numWords := by
  induction wordIds using List.reverseRecOn with
  | nil => exact List.length_replicate
  | append_singleton wordIds wid ih =>
      rw [labelTokens_concat, labelToken]
      split
      · exact ih
      · split_ifs
        · rw [List.length_set, ih]
        · exact ih

theorem length_firstSubwordLabels (wordIds : List (Option ℕ)) (preds : List ℕ) (numWords : ℕ) :
    (firstSubwordLabels wordIds preds numWords).length = numWords :=
  length_labelTokens preds numWords wordIds

/-- After some of the tokens the words that have one are marked, and have the label of the first. -/
theorem labelTokens_get (hw : w < numWords) :
    (labelTokens preds numWords wordIds).1[w]? =
        some (if some w ∈ wordIds then preds.getD (wordIds.idxOf (some w)) 0 else 0) ∧
      (labelTokens preds numWords wordIds).2[w]? = some (decide (some w ∈ wordIds)) := by
  induction wordIds using List.reverseRecOn with
  | nil => simp [labelTokens, hw]
  | append_singleton wordIds wid ih =>
      obtain ⟨hlabel, hseen⟩ := ih
      have hkept : ∀ wid, wid ≠ some w ∨ some w ∈ wordIds →
          (some w ∈ wordIds ++ [wid] ↔ some w ∈ wordIds) ∧
            (some w ∈ wordIds → (wordIds ++ [wid]).idxOf (some w) = wordIds.idxOf (some w)) := by
        intro wid hwid
        refine ⟨⟨fun h => ?_, fun h => List.mem_append_left _ h⟩, fun h => List.idxOf_append_of_mem h⟩
        rcases List.mem_append.mp h with h | h
        · exact h
        · exact hwid.resolve_left fun hne => hne (List.mem_singleton.mp h).symm
      rw [labelTokens_concat, labelToken]
      cases wid with
      | none =>
          obtain ⟨hmem, hidx⟩ := hkept none (Or.inl (Option.some_ne_none w).symm)
          dsimp only
          rw [hlabel, hseen]
          simp +contextual [hmem, hidx]
      | some v =>
          dsimp only
          by_cases hsame : v = w
          · subst hsame
            by_cases hold : some v ∈ wordIds
            · obtain ⟨hmem, hidx⟩ := hkept (some v) (Or.inr hold)
              rw [if_neg (by simp [hseen, hold]), hlabel, hseen, if_pos hold, if_pos (hmem.mpr hold),
                hidx hold]
              simp [hold]
            · have hnew : (wordIds ++ [some v]).idxOf (some v) = wordIds.length := by
                rw [List.idxOf_append_of_notMem hold, List.idxOf_cons_self, Nat.add_zero]
              have hin : v < (labelTokens preds numWords wordIds).1.length := by
                rwa [length_labelTokens]
              have hin' : v < (labelTokens preds numWords wordIds).2.length :=
                (List.getElem?_eq_some_iff.mp hseen).1
              rw [if_pos (by simp [hseen, hold]), if_pos (List.mem_append_right _ List.mem_cons_self), hnew]
              simp [hin, hin']
          · obtain ⟨hmem, hidx⟩ := hkept (some v) (Or.inl fun h => hsame (Option.some.inj h))
            have hother : (some w ∈ wordIds ++ [some v] ↔ some w ∈ wordIds) := hmem
            split_ifs
            all_goals simp_all [List.getElem?_set_ne]

/-- A word has the label of the first token that is counted to it, if any is. -/
theorem firstSubwordLabels_get (hw : w < numWords) :
    (firstSubwordLabels wordIds preds numWords)[w]? =
      some (if some w ∈ wordIds then preds.getD (wordIds.idxOf (some w)) 0 else 0) :=
  (labelTokens_get hw).1

end FirstSubword

section Runs

variable {F : Type} [LT F] [DecidableLT F] {model : Model F} {encode : Text → Option Encoding}
  {text : Text} {spans : List (ℕ × ℕ)} {start stop k : ℕ} {encoding : Encoding}

/-- The range of the run that labels a word. -/
def runOf (encode : Text → Option Encoding) (text : Text) (spans : List (ℕ × ℕ)) (start stop k : ℕ) :
    ℕ × ℕ :=
  match (chunkOf text spans start stop).bind encode with
  | none => (start, stop)
  | some encoding =>
      if maxWindowSubtokens < encoding.ids.length then
        if _ : stop - start < 2 then (start, stop)
        else if k < start + (stop - start) / 2 then
          runOf encode text spans start (start + (stop - start) / 2) k
        else runOf encode text spans (start + (stop - start) / 2) stop k
      else (start, stop)
termination_by stop - start

theorem inputsOf_data {inputs : List (Tensor ℤ)} (h : Model.inputsOf encoding = .ok inputs) :
    ∀ tensor ∈ inputs, tensor.data.length = encoding.ids.length := by
  have hnew : ∀ {data : List ℤ} {tensor : Tensor ℤ},
      newTensor [1, encoding.ids.length] data = .ok tensor →
        tensor.data.length = encoding.ids.length := by
    intro data tensor h
    unfold newTensor at h
    split_ifs at h with hlength
    cases h
    simpa using hlength
  obtain ⟨inputIds, hids, h⟩ := Outcomes.bind_eq_ok.mp h
  obtain ⟨attentionMask, hmask, h⟩ := Outcomes.bind_eq_ok.mp h
  obtain ⟨tokenType, htype, h⟩ := Outcomes.bind_eq_ok.mp h
  cases h
  simp only [List.forall_mem_cons]
  exact ⟨hnew hids, hnew hmask, hnew htype, fun _ h => absurd h List.not_mem_nil⟩

theorem argmaxPerToken_runs (model : Model F) (encoding : Encoding) :
    ∀ inputs ∈ (model.argmaxPerToken encoding).1, ∀ tensor ∈ inputs,
      tensor.data.length = encoding.ids.length := by
  unfold Model.argmaxPerToken
  split
  · exact fun _ h => absurd h List.not_mem_nil
  · rename_i inputs h
    intro inputs' h'
    rw [List.mem_singleton.mp h']
    exact inputsOf_data h

/-- A range that is too long for one run, and has at least two words. -/
structure Halved (encode : Text → Option Encoding) (text : Text) (spans : List (ℕ × ℕ))
    (start mid stop : ℕ) : Prop where
  low : start < mid
  high : mid < stop
  mid_eq : start + (stop - start) / 2 = mid
  stop_le : stop ≤ spans.length
  tooLong : ∃ encoding, (chunkOf text spans start stop).bind encode = some encoding ∧
    maxWindowSubtokens < encoding.ids.length

/-- What holds of a range that ends in an error or is run, and of one whose halves it holds of, holds of
every range. -/
theorem labelWordRange_induct (model : Model F) (encode : Text → Option Encoding) (text : Text)
    (spans : List (ℕ × ℕ)) {motive : ℕ → ℕ → Runs × Except Halt (List ℕ) → Prop}
    (invalid : ∀ {start stop message}, stop ≤ start ∨ spans.length < stop →
      motive start stop ([], .error (.error message)))
    (refused : ∀ {start stop}, start < stop → stop ≤ spans.length →
      (chunkOf text spans start stop).bind encode = none → motive start stop ([], .error .panic))
    (single : ∀ {start stop encoding message},
      (chunkOf text spans start stop).bind encode = some encoding →
      maxWindowSubtokens < encoding.ids.length → stop - start < 2 →
        motive start stop ([], .error (.error message)))
    (front : ∀ {start mid stop e}, Halved encode text spans start mid stop →
      (model.labelWordRange encode text spans start mid).2 = .error e →
      motive start mid (model.labelWordRange encode text spans start mid) →
        motive start stop ((model.labelWordRange encode text spans start mid).1, .error e))
    (halves : ∀ {start mid stop labels}, Halved encode text spans start mid stop →
      (model.labelWordRange encode text spans start mid).2 = .ok labels →
      motive start mid (model.labelWordRange encode text spans start mid) →
      motive mid stop (model.labelWordRange encode text spans mid stop) →
        motive start stop
          ((model.labelWordRange encode text spans start mid).1 ++
              (model.labelWordRange encode text spans mid stop).1,
            (model.labelWordRange encode text spans mid stop).2.map fun more => labels ++ more))
    (run : ∀ {start stop encoding}, start < stop → stop ≤ spans.length →
      (chunkOf text spans start stop).bind encode = some encoding →
      encoding.ids.length ≤ maxWindowSubtokens →
        motive start stop (model.runLabels encoding (stop - start)))
    (start stop : ℕ) : motive start stop (model.labelWordRange encode text spans start stop) := by
  induction hwidth : stop - start using Nat.strong_induction_on generalizing start stop with
  | _ n ih =>
      rw [Model.labelWordRange]
      by_cases hrange : stop ≤ start ∨ spans.length < stop
      · rw [dif_pos hrange]
        exact invalid hrange
      rw [dif_neg hrange]
      cases hencode : (chunkOf text spans start stop).bind encode with
      | none => exact refused (by omega) (by omega) hencode
      | some encoding =>
          dsimp only
          by_cases hover : maxWindowSubtokens < encoding.ids.length
          · rw [if_pos hover]
            by_cases hfew : stop - start < 2
            · rw [dif_pos hfew]
              exact single hencode hover hfew
            · rw [dif_neg hfew]
              have hhalved : Halved encode text spans start (start + (stop - start) / 2) stop :=
                ⟨by omega, by omega, rfl, by omega, encoding, hencode, hover⟩
              have hfront := ih _ (by omega) start (start + (stop - start) / 2) rfl
              have hback := ih _ (by omega) (start + (stop - start) / 2) stop rfl
              cases hlabels : (model.labelWordRange encode text spans start
                  (start + (stop - start) / 2)).2 with
              | error e => exact front hhalved hlabels hfront
              | ok labels => exact halves hhalved hlabels hfront hback
          · rw [if_neg hover]
            exact run (by omega) (by omega) hencode (by omega)

theorem runOf_run (hencode : (chunkOf text spans start stop).bind encode = some encoding)
    (hfits : encoding.ids.length ≤ maxWindowSubtokens) (k : ℕ) :
    runOf encode text spans start stop k = (start, stop) := by
  rw [runOf]
  simp only [hencode, if_neg (Nat.not_lt.mpr hfits)]

theorem Halved.runOf_eq {mid : ℕ} (h : Halved encode text spans start mid stop) (k : ℕ) :
    runOf encode text spans start stop k =
      if k < mid then runOf encode text spans start mid k else runOf encode text spans mid stop k := by
  obtain ⟨hlow, hhigh, rfl, _, encoding, hencode, hover⟩ := h
  rw [runOf]
  simp only [hencode, if_pos hover]
  rw [dif_neg (by omega)]

/-- No run is longer than the model allows. -/
theorem labelWordRange_runs (model : Model F) (encode : Text → Option Encoding) (text : Text)
    (spans : List (ℕ × ℕ)) (start stop : ℕ) :
    ∀ inputs ∈ (model.labelWordRange encode text spans start stop).1, ∀ tensor ∈ inputs,
      tensor.data.length ≤ maxWindowSubtokens := by
  induction start, stop using labelWordRange_induct model encode text spans with
  | invalid => exact fun _ h => absurd h List.not_mem_nil
  | refused => exact fun _ h => absurd h List.not_mem_nil
  | single => exact fun _ h => absurd h List.not_mem_nil
  | front _ _ hfront => exact hfront
  | halves _ _ hfront hback =>
      exact fun inputs h => (List.mem_append.mp h).elim (hfront inputs) (hback inputs)
  | run _ _ _ hfits =>
      intro inputs h tensor ht
      rw [argmaxPerToken_runs model _ inputs h tensor ht]
      exact hfits

/-- The label of a word is the one that the run of some range around it gives the word. -/
structure LabelledBy (model : Model F) (encode : Text → Option Encoding) (text : Text)
    (spans : List (ℕ × ℕ)) (start stop k : ℕ) (run : ℕ × ℕ) (label : Option ℕ) : Prop where
  within : start ≤ run.1 ∧ run.2 ≤ stop
  around : run.1 ≤ k ∧ k < run.2
  given : ∃ encoding labels, (chunkOf text spans run.1 run.2).bind encode = some encoding ∧
    encoding.ids.length ≤ maxWindowSubtokens ∧
      (model.runLabels encoding (run.2 - run.1)).2 = .ok labels ∧ label = labels[k - run.1]?

theorem LabelledBy.widen {start' stop' : ℕ} {run : ℕ × ℕ} {label : Option ℕ}
    (h : LabelledBy model encode text spans start stop k run label) (hstart : start' ≤ start)
    (hstop : stop ≤ stop') : LabelledBy model encode text spans start' stop' k run label :=
  ⟨⟨hstart.trans h.within.1, h.within.2.trans hstop⟩, h.around, h.given⟩

theorem length_runLabels {labels : List ℕ} {numWords : ℕ}
    (h : (model.runLabels encoding numWords).2 = .ok labels) : labels.length = numWords := by
  obtain ⟨preds, _, rfl⟩ := Outcomes.map_eq_ok.mp h
  exact length_firstSubwordLabels _ _ _

/-- A range that is labelled has one label for each word, in the order of the words. -/
theorem labelWordRange_ok {labels : List ℕ}
    (h : (model.labelWordRange encode text spans start stop).2 = .ok labels) :
    labels.length = stop - start ∧ ∀ k, start ≤ k → k < stop →
      LabelledBy model encode text spans start stop k (runOf encode text spans start stop k)
        labels[k - start]? := by
  induction start, stop using labelWordRange_induct model encode text spans generalizing labels with
  | invalid => cases h
  | refused => cases h
  | single => cases h
  | front => cases h
  | @halves start mid stop front hhalved hfront ihFront ihBack =>
      obtain ⟨back, hback, rfl⟩ := Outcomes.map_eq_ok.mp h
      obtain ⟨hlenFront, hrunsFront⟩ := ihFront hfront
      obtain ⟨hlenBack, hrunsBack⟩ := ihBack hback
      have hlow := hhalved.low
      have hhigh := hhalved.high
      refine ⟨by rw [List.length_append, hlenFront, hlenBack]; omega, fun k hk hk' => ?_⟩
      rw [hhalved.runOf_eq]
      split_ifs with hfirst
      · rw [List.getElem?_append_left (by omega)]
        exact (hrunsFront k hk hfirst).widen le_rfl hhigh.le
      · have hoffset : k - start - front.length = k - mid := by omega
        rw [List.getElem?_append_right (by omega), hoffset]
        exact (hrunsBack k (by omega) hk').widen hlow.le le_rfl
  | @run start stop encoding hlt hstop hencode hfits =>
      refine ⟨length_runLabels h, fun k hk hk' => ?_⟩
      rw [runOf_run hencode hfits]
      exact ⟨⟨le_rfl, le_rfl⟩, ⟨hk, hk'⟩, encoding, labels, hencode, hfits, h, rfl⟩

/-- Every run of the range is short enough. -/
def RunsFit (encode : Text → Option Encoding) (text : Text) (spans : List (ℕ × ℕ)) (start stop : ℕ) :
    Prop :=
  ∀ k, start ≤ k → k < stop → ∃ encoding,
    (chunkOf text spans (runOf encode text spans start stop k).1
      (runOf encode text spans start stop k).2).bind encode = some encoding ∧
      encoding.ids.length ≤ maxWindowSubtokens

theorem runsFit_of_run (hencode : (chunkOf text spans start stop).bind encode = some encoding)
    (hfits : encoding.ids.length ≤ maxWindowSubtokens) : RunsFit encode text spans start stop := by
  intro k _ _
  rw [runOf_run hencode hfits k]
  exact ⟨encoding, hencode, hfits⟩

theorem Halved.runsFit {mid : ℕ} (h : Halved encode text spans start mid stop)
    (hfit : RunsFit encode text spans start stop) :
    RunsFit encode text spans start mid ∧ RunsFit encode text spans mid stop := by
  have hlow := h.low
  have hhigh := h.high
  refine ⟨fun k hk hk' => ?_, fun k hk hk' => ?_⟩
  · have hrun := hfit k hk (by omega)
    rwa [h.runOf_eq, if_pos hk'] at hrun
  · have hrun := hfit k (by omega) hk'
    rwa [h.runOf_eq, if_neg (by omega)] at hrun

/-- A model that labels every encoding labels every range of which the runs are short enough. -/
theorem labelWordRange_total (hmodel : ∀ chunk encoding, encode chunk = some encoding →
      ∃ preds, (model.argmaxPerToken encoding).2 = .ok preds) (hrange : start < stop)
    (hstop : stop ≤ spans.length) (hfit : RunsFit encode text spans start stop) :
    ∃ labels, (model.labelWordRange encode text spans start stop).2 = .ok labels := by
  induction start, stop using labelWordRange_induct model encode text spans with
  | invalid hinvalid => omega
  | refused _ _ hrefused =>
      obtain ⟨encoding, hrun, _⟩ := hfit _ le_rfl hrange
      rw [runOf] at hrun
      simp only [hrefused] at hrun
      cases hrun
  | single hencode hover hfew =>
      obtain ⟨encoding, hrun, hshort⟩ := hfit _ le_rfl hrange
      rw [runOf] at hrun
      simp only [hencode, if_pos hover, dif_pos hfew] at hrun
      cases hrun
      omega
  | front hhalved hfails ihFront =>
      obtain ⟨labels, hlabels⟩ := ihFront hhalved.low (hhalved.high.le.trans hstop)
        (hhalved.runsFit hfit).1
      rw [hlabels] at hfails
      cases hfails
  | halves hhalved _ _ ihBack =>
      obtain ⟨back, hback⟩ := ihBack hhalved.high hstop (hhalved.runsFit hfit).2
      exact ⟨_, Outcomes.map_eq_ok.mpr ⟨back, hback, rfl⟩⟩
  | run _ _ hencode _ =>
      obtain ⟨chunk, _, hchunk⟩ := Option.bind_eq_some_iff.mp hencode
      obtain ⟨preds, hpreds⟩ := hmodel chunk _ hchunk
      exact ⟨_, Outcomes.map_eq_ok.mpr ⟨preds, hpreds, rfl⟩⟩

theorem map_ne_panic {α β : Type} {outcome : Except Halt α} (h : outcome ≠ .error .panic) (f : α → β) :
    outcome.map f ≠ .error .panic := by
  cases outcome with
  | error e => exact fun heq => h (congrArg Except.error (Except.error.inj heq))
  | ok a => exact fun heq => by cases heq

theorem runLabels_ne_panic (hout : ∀ inputs, model.session inputs ≠ .ok []) (encoding : Encoding)
    (numWords : ℕ) : (model.runLabels encoding numWords).2 ≠ .error .panic := by
  have hnew : ∀ dims (data : List ℤ), newTensor dims data ≠ .error .panic := by
    intro dims data h
    unfold newTensor at h
    split_ifs at h
    cases h
  have hinputs : Model.inputsOf encoding ≠ .error .panic := by
    apply Outcomes.bind_ne_error (hnew _ _)
    intro _ _
    apply Outcomes.bind_ne_error (hnew _ _)
    intro _ _
    exact Outcomes.bind_ne_error (hnew _ _) fun _ _ h => by cases h
  have hrun : (model.argmaxPerToken encoding).2 ≠ .error .panic := by
    intro h
    unfold Model.argmaxPerToken at h
    split at h
    · rename_i hin
      cases h
      exact hinputs hin
    dsimp only at h
    split at h
    · cases h
    rename_i outputs hsession
    unfold Model.argmaxOf at h
    split at h
    · exact hout _ hsession
    · cases h
    · split_ifs at h
      cases h
  exact map_ne_panic hrun _

/-- No slice of a text by its words is refused, whatever the tokenizer. -/
theorem labelWordRange_ne_panic (hout : ∀ inputs, model.session inputs ≠ .ok []) (f : Text → Encoding)
    (text : Text) (start stop : ℕ) :
    (model.labelWordRange (fun chunk => some (f chunk)) text (wordSpans text) start stop).2 ≠
      .error .panic := by
  induction start, stop using labelWordRange_induct model (fun chunk => some (f chunk)) text
    (wordSpans text) with
  | invalid => exact fun h => by cases h
  | refused hlt hstop hrefused =>
      obtain ⟨chunk, hchunk, _⟩ := chunkOf_spec hlt hstop
      rw [hchunk] at hrefused
      cases hrefused
  | single => exact fun h => by cases h
  | front _ hfails ihFront => exact hfails ▸ ihFront
  | halves _ _ _ ihBack => exact map_ne_panic ihBack _
  | run => exact runLabels_ne_panic hout _ _

/-- The halving ends. Every run has a bounded number of subtokens, and there is a label for each word in
their order, unless there is an error. -/
theorem labelWordRange_bounded (hout : ∀ inputs, model.session inputs ≠ .ok []) (f : Text → Encoding)
    (text : Text) (start stop : ℕ) :
    let labelled :=
      model.labelWordRange (fun chunk => some (f chunk)) text (wordSpans text) start stop
    (∀ inputs ∈ labelled.1, ∀ tensor ∈ inputs, tensor.data.length ≤ maxWindowSubtokens) ∧
      ((∃ message, labelled.2 = .error (.error message)) ∨
        ∃ labels, labelled.2 = .ok labels ∧ labels.length = stop - start ∧
          ∀ k, start ≤ k → k < stop → ∃ run, LabelledBy model (fun chunk => some (f chunk)) text
            (wordSpans text) start stop k run labels[k - start]?) := by
  intro labelled
  refine ⟨labelWordRange_runs model _ text _ start stop, ?_⟩
  cases houtcome : labelled.2 with
  | error e =>
      cases e with
      | panic => exact absurd houtcome (labelWordRange_ne_panic hout f text start stop)
      | error message => exact Or.inl ⟨message, rfl⟩
  | ok labels =>
      obtain ⟨hlength, hlabels⟩ := labelWordRange_ok houtcome
      exact Or.inr ⟨labels, rfl, hlength, fun k hk hk' => ⟨_, hlabels k hk hk'⟩⟩

/-- A model with one label, which every token has. -/
def constantModel : Model ℤ where
  session inputs :=
    let seq := (inputs.head?.map fun tensor => tensor.data.length).getD 0
    .ok [.f32 ⟨[1, seq, 1], List.replicate seq 0, by simp⟩]
  numLabels := 1
  negInfinity := -1

theorem constantModel_bounded :
    let labelled := constantModel.labelWordRange (fun _ => some ⟨[7, 8], [1, 1], [some 0, some 1]⟩)
      "a b".toList (wordSpans "a b".toList) 0 2
    (∀ inputs ∈ labelled.1, ∀ tensor ∈ inputs, tensor.data.length ≤ maxWindowSubtokens) ∧
      ((∃ message, labelled.2 = .error (.error message)) ∨
        ∃ labels, labelled.2 = .ok labels ∧ labels.length = 2 - 0 ∧
          ∀ k, 0 ≤ k → k < 2 → ∃ run, LabelledBy constantModel
            (fun _ => some ⟨[7, 8], [1, 1], [some 0, some 1]⟩) "a b".toList (wordSpans "a b".toList) 0 2
              k run labels[k - 0]?) :=
  labelWordRange_bounded (fun _ h => by cases h) (fun _ => ⟨[7, 8], [1, 1], [some 0, some 1]⟩)
    "a b".toList 0 2

end Runs

end Gigastt.Punctuation
