import Gigastt.Outcomes
import Gigastt.PunctLabels
import Gigastt.PunctOrigins

/-!
The labels of all words of a text, put together from its windows, and which of them are those of the words'
own first tokens.
-/

namespace Gigastt.Punctuation

open Utf8 WordPiece

section LabelIds

variable {F : Type} [LT F] [DecidableLT F]

/-- An error of a window is noted, and a panic ends everything. -/
def caught : Except Halt (List ℕ) → Except Halt (Except String (List ℕ))
  | .ok labels => .ok (.ok labels)
  | .error (.error message) => .ok (.error message)
  | .error .panic => .error .panic

/-- The message of the first window without labels. -/
def firstError (perWindow : List (Except String (List ℕ))) : String :=
  (perWindow.findSome? fun labels =>
    match labels with
    | .ok _ => none
    | .error message => some message).getD "punct model produced no labels"

namespace Model

variable (model : Model F) (t : WordPiece.Tokenizer) (text : Text)

def windowLabels (w : Window) : Except Halt (Except String (List ℕ)) :=
  caught (model.labelWordRange (fun chunk => t.encode chunk true) text (wordSpans text) w.start w.stop).2

/-- The labels that `restore_inner` applies to the words of a text. A word whose window has none stays
bare. -/
def labelIds : Except Halt (List (Option ℕ)) :=
  let numWords := (wordSpans text).length
  let windows := planWindows numWords
  if numWords = 0 then .ok []
  else do
    let perWindow ← windows.mapM (model.windowLabels t text)
    if perWindow.all fun labels => labels.toOption.isNone then .error (.error (firstError perWindow))
    else .ok (spliceWindowLabels windows (perWindow.map Except.toOption) numWords)

end Model

end LabelIds

section Reach

/-- What the model predicts at the first token of a word of a chunk. -/
def Predicts {F : Type} [LT F] [DecidableLT F] (model : Model F) (t : WordPiece.Tokenizer) (chunk : Text)
    (word label : ℕ) : Prop :=
  ∃ encoding preds i, t.encode chunk true = some encoding ∧
    (model.argmaxPerToken encoding).2 = .ok preds ∧ Begins (markedPreTokens t chunk) i word ∧
      preds[encoding.wordIds.idxOf (some i)]? = some label

/-- The run from which the label of a word of the text is taken. -/
def wordRun (t : WordPiece.Tokenizer) (text : Text) (w : Window) (k : ℕ) : ℕ × ℕ :=
  runOf (fun chunk => t.encode chunk true) text (wordSpans text) w.start w.stop k

/-- Whatever the model predicts, the label that is applied to a word is the one predicted at the first
token of this word. -/
def ReachesWord (t : WordPiece.Tokenizer) (text : Text) (k : ℕ) : Prop :=
  ∀ (F : Type) [LT F] [DecidableLT F] (model : Model F) (labels : List (Option ℕ)) (label : ℕ),
    model.labelIds t text = .ok labels → labels[k]? = some (some label) →
      ∃ w ∈ planWindows (wordSpans text).length, w.Keeps k ∧ ∃ chunk,
        chunkOf text (wordSpans text) (wordRun t text w k).1 (wordRun t text w k).2 = some chunk ∧
          Predicts model t chunk (k - (wordRun t text w k).1) label

/-- The word begins the pre-token that has its number, in the run that labels it, if there is one. -/
def InStep (t : WordPiece.Tokenizer) (text : Text) (k : ℕ) : Prop :=
  ∀ w ∈ planWindows (wordSpans text).length, w.Keeps k →
    RunsFit (fun chunk => t.encode chunk true) text (wordSpans text) w.start w.stop →
      ∃ chunk, chunkOf text (wordSpans text) (wordRun t text w k).1 (wordRun t text w k).2 = some chunk ∧
        Begins (markedPreTokens t chunk) (k - (wordRun t text w k).1) (k - (wordRun t text w k).1)

theorem Begins.unique {pres : List Marked} {i i' word : ℕ} (h : Begins pres i word)
    (h' : Begins pres i' word) : i = i' := by
  have howner : ∀ {i : ℕ}, pres[i]?.bind owner = some word →
      ∃ pre : Marked, pres[i]? = some pre ∧ some word ∈ pre.map Prod.snd := by
    intro i hi
    obtain ⟨pre, hpre, hfirst⟩ := Option.bind_eq_some_iff.mp hi
    obtain ⟨a, ha, hmark⟩ := List.mem_filterMap.mp (List.mem_of_mem_head? hfirst)
    exact ⟨pre, hpre, List.mem_map.mpr ⟨a, ha, hmark⟩⟩
  have hle : ∀ {i i' : ℕ}, Begins pres i word → Begins pres i' word → i' ≤ i := by
    intro i i' h h'
    obtain ⟨pre, hpre, hmem⟩ := howner h.1
    by_contra hlt
    refine h'.2 pre (List.mem_of_getElem? (i := i) ?_) hmem
    rw [List.getElem?_take_of_lt (Nat.lt_of_not_le hlt), hpre]
  exact Nat.le_antisymm (hle h' h) (hle h h')

theorem Begins.lt {pres : List Marked} {i word : ℕ} (h : Begins pres i word) : i < pres.length := by
  obtain ⟨_, hpre, _⟩ := Option.bind_eq_some_iff.mp h.1
  exact (List.getElem?_eq_some_iff.mp hpre).1

end Reach

section Applied

variable {F : Type} [LT F] [DecidableLT F] {model : Model F} {t : WordPiece.Tokenizer} {text : Text}
  {k label : ℕ}

theorem caught_eq_ok {outcome : Except Halt (List ℕ)} {labels : List ℕ} :
    caught outcome = .ok (.ok labels) ↔ outcome = .ok labels := by
  rcases outcome with (_ | message) | found
  · simp [caught]
  · simp [caught]
  · simp [caught]

theorem caught_ne_panic {outcome : Except Halt (List ℕ)} (h : outcome ≠ .error .panic) :
    ∃ labels, caught outcome = .ok labels := by
  rcases outcome with (_ | message) | found
  · exact absurd rfl h
  · exact ⟨_, rfl⟩
  · exact ⟨_, rfl⟩

/-- A text is always encoded. -/
theorem exists_encode (t : WordPiece.Tokenizer) :
    ∃ f : Text → Encoding, (fun chunk => t.encode chunk true) = fun chunk => some (f chunk) := by
  have hencode : ∀ chunk, ∃ encoding, t.encode chunk true = some encoding := fun chunk => by
    obtain ⟨idss, _, _, h⟩ := encode_markedPreTokens t chunk true
    exact ⟨_, h⟩
  choose f hf using hencode
  exact ⟨f, funext hf⟩

/-- The label of a word is that of the run that labels it. -/
theorem labelledBy_of_labelIds {labels : List (Option ℕ)} (h : model.labelIds t text = .ok labels)
    (hlabel : labels[k]? = some (some label)) :
    ∃ w ∈ planWindows (wordSpans text).length, w.Keeps k ∧
      RunsFit (fun chunk => t.encode chunk true) text (wordSpans text) w.start w.stop ∧
      LabelledBy model (fun chunk => t.encode chunk true) text (wordSpans text) w.start w.stop k
        (wordRun t text w k) (some label) := by
  unfold Model.labelIds at h
  dsimp only at h
  split_ifs at h with hzero
  · cases h
    cases hlabel
  obtain ⟨perWindow, hwindows, hspliced⟩ := Outcomes.bind_eq_ok.mp h
  split_ifs at hspliced
  obtain rfl := Except.ok.inj hspliced
  rw [Outcomes.mapM_eq_ok] at hwindows
  have hk : k < (wordSpans text).length := by
    have hlt := (List.getElem?_eq_some_iff.mp hlabel).1
    rwa [length_spliceWindowLabels] at hlt
  obtain ⟨w, hw, hkeeps⟩ := (planWindows_tiles (wordSpans text).length).exists_keeps (Nat.zero_le k) hk
  obtain ⟨i, hi, rfl⟩ := List.getElem_of_mem hw
  have hi' : i < perWindow.length := hwindows.length_eq ▸ hi
  have hlength : (planWindows (wordSpans text).length).length =
      (perWindow.map Except.toOption).length := by
    rw [List.length_map, hwindows.length_eq]
  have hat : (perWindow.map Except.toOption)[i]? = some perWindow[i].toOption := by
    rw [List.getElem?_map, List.getElem?_eq_getElem hi']
    rfl
  have hslot := splice_at hlength (List.getElem?_eq_getElem hi) hat hkeeps
  have hwindow := (List.forall₂_iff_get.mp hwindows).2 i hi hi'
  rw [hlabel] at hslot
  obtain ⟨found, hfound, hget⟩ := Option.bind_eq_some_iff.mp (Option.some.inj hslot).symm
  have hok : perWindow[i] = .ok found := by
    cases hresult : perWindow[i] with
    | error message =>
        rw [hresult] at hfound
        cases hfound
    | ok labels =>
        rw [hresult] at hfound
        rw [Option.some.inj hfound]
  have hrange : caught (model.labelWordRange (fun chunk => t.encode chunk true) text (wordSpans text)
      (planWindows (wordSpans text).length)[i].start
      (planWindows (wordSpans text).length)[i].stop).2 = .ok (.ok found) := hok ▸ hwindow
  have hfits := planWindows_fits hw
  have hruns := (labelWordRange_ok (caught_eq_ok.mp hrange)).2
  refine ⟨_, hw, hkeeps, fun j hj hj' => ?_, ?_⟩
  · obtain ⟨encoding, _, hencode, hshort, _⟩ := (hruns j hj hj').given
    exact ⟨encoding, hencode, hshort⟩
  · have hrun := hruns k (hfits.start_le.trans hkeeps.1) (hkeeps.2.trans_le hfits.le_stop)
    rwa [hget] at hrun

/-- A model that labels every text labels a word if the runs of its window are short enough. -/
theorem exists_labelIds (hmodel : ∀ chunk encoding, t.encode chunk true = some encoding →
      ∃ preds, (model.argmaxPerToken encoding).2 = .ok preds)
    (hout : ∀ inputs, model.session inputs ≠ .ok []) {w : Window}
    (hw : w ∈ planWindows (wordSpans text).length) (hkeeps : w.Keeps k)
    (hfit : RunsFit (fun chunk => t.encode chunk true) text (wordSpans text) w.start w.stop) :
    ∃ labels label, model.labelIds t text = .ok labels ∧ labels[k]? = some (some label) := by
  have hfits := planWindows_fits hw
  have hk : w.start ≤ k ∧ k < w.stop :=
    ⟨hfits.start_le.trans hkeeps.1, hkeeps.2.trans_le hfits.le_stop⟩
  have hsome : (wordSpans text).length ≠ 0 := by
    have := hfits.stop_le
    omega
  obtain ⟨f, hf⟩ := exists_encode t
  have hcaught : ∀ v : Window, ∃ labels, model.windowLabels t text v = .ok labels := by
    intro v
    apply caught_ne_panic
    rw [hf]
    exact labelWordRange_ne_panic hout f text v.start v.stop
  choose g hg using hcaught
  have hwindows : (planWindows (wordSpans text).length).mapM (model.windowLabels t text) =
      .ok ((planWindows (wordSpans text).length).map g) := by
    rw [Outcomes.mapM_eq_ok, List.forall₂_map_right_iff, List.forall₂_same]
    exact fun v _ => hg v
  obtain ⟨found, hfound⟩ : ∃ labels, (model.labelWordRange (fun chunk => t.encode chunk true) text
      (wordSpans text) w.start w.stop).2 = .ok labels :=
    labelWordRange_total hmodel (hk.1.trans_lt hk.2) hfits.stop_le hfit
  have hgw : g w = .ok found := Except.ok.inj ((hg w).symm.trans (caught_eq_ok.mpr hfound))
  obtain ⟨hlength, _⟩ := labelWordRange_ok hfound
  have hlt : k - w.start < found.length := by omega
  obtain ⟨i, hi, hwi⟩ := List.getElem_of_mem hw
  have hat : (((planWindows (wordSpans text).length).map g).map Except.toOption)[i]? =
      some (some found) := by
    rw [List.getElem?_map, List.getElem?_map, List.getElem?_eq_getElem hi, hwi, Option.map_some, hgw]
    rfl
  have hslot := splice_at (by rw [List.length_map, List.length_map])
    (List.getElem?_eq_some_iff.mpr ⟨hi, hwi⟩) hat hkeeps
  rw [Option.bind_some, List.getElem?_eq_getElem hlt] at hslot
  refine ⟨_, _, ?_, hslot⟩
  have hnotAll : ¬((planWindows (wordSpans text).length).map g).all (fun labels =>
      labels.toOption.isNone) = true := by
    intro hall
    have hnone := List.all_eq_true.mp hall (g w) (List.mem_map_of_mem hw)
    rw [hgw] at hnone
    cases hnone
  unfold Model.labelIds
  dsimp only
  rw [if_neg hsome, hwindows]
  show (if _ then _ else _) = _
  rw [if_neg hnotAll]

/-- A label that is applied is the one at the first token that is counted to the word's number. -/
theorem LabelledBy.eq {start stop : ℕ} {run : ℕ × ℕ}
    (h : LabelledBy model (fun chunk => t.encode chunk true) text (wordSpans text) start stop k run
      (some label)) :
    ∃ chunk encoding preds, chunkOf text (wordSpans text) run.1 run.2 = some chunk ∧
      t.encode chunk true = some encoding ∧ (model.argmaxPerToken encoding).2 = .ok preds ∧
        label = if some (k - run.1) ∈ encoding.wordIds then
          preds.getD (encoding.wordIds.idxOf (some (k - run.1))) 0 else 0 := by
  obtain ⟨encoding, labels, hencode, _, hlabels, hlabel⟩ := h.given
  obtain ⟨chunk, hchunk, hencode⟩ := Option.bind_eq_some_iff.mp hencode
  rw [Model.runLabels] at hlabels
  obtain ⟨preds, hpreds, rfl⟩ := Outcomes.map_eq_ok.mp hlabels
  have hword : k - run.1 < run.2 - run.1 := by
    have := h.around
    omega
  rw [firstSubwordLabels_get hword] at hlabel
  exact ⟨chunk, encoding, preds, hchunk, hencode, hpreds, Option.some.inj hlabel⟩

theorem length_preds {encoding : Encoding} {preds : List ℕ}
    (h : (model.argmaxPerToken encoding).2 = .ok preds) : preds.length = encoding.ids.length := by
  unfold Model.argmaxPerToken at h
  split at h
  · cases h
  dsimp only at h
  split at h
  · cases h
  unfold Model.argmaxOf at h
  split at h
  · cases h
  · cases h
  · split_ifs at h
    cases h
    rw [List.length_map, List.length_range]

/-- A number is given to a token if there is a pre-token with it. -/
theorem mem_wordIds_iff {chunk : Text} {encoding : Encoding}
    (hencode : t.encode chunk true = some encoding) (i : ℕ) :
    some i ∈ encoding.wordIds ↔ i < (markedPreTokens t chunk).length := by
  obtain ⟨idss, hspelled, hne, h⟩ := encode_markedPreTokens t chunk true
  obtain rfl : encodingOf t true idss = encoding := Option.some.inj (h.symm.trans hencode)
  rw [mem_wordIds_encodingOf hne, hspelled.length_eq]

theorem lengths_of_encode {chunk : Text} {encoding : Encoding}
    (hencode : t.encode chunk true = some encoding) :
    encoding.attentionMask.length = encoding.ids.length ∧
      encoding.wordIds.length = encoding.ids.length := by
  obtain ⟨idss, _, _, h⟩ := encode_markedPreTokens t chunk true
  obtain rfl : encodingOf t true idss = encoding := Option.some.inj (h.symm.trans hencode)
  exact ⟨List.length_replicate, length_wordIds_encodingOf idss⟩

theorem InStep.reachesWord (h : InStep t text k) : ReachesWord t text k := by
  intro F _ _ model labels label hlabels hlabel
  obtain ⟨w, hw, hkeeps, hfit, hrun⟩ := labelledBy_of_labelIds hlabels hlabel
  obtain ⟨chunk, hchunk, hbegins⟩ := h w hw hkeeps hfit
  obtain ⟨chunk', encoding, preds, hchunk', hencode, hpreds, hval⟩ := hrun.eq
  obtain rfl := Option.some.inj (hchunk'.symm.trans hchunk)
  have hmem := (mem_wordIds_iff hencode _).mpr hbegins.lt
  rw [if_pos hmem] at hval
  have hlt : encoding.wordIds.idxOf (some (k - (wordRun t text w k).1)) < preds.length := by
    rw [length_preds hpreds, ← (lengths_of_encode hencode).2]
    exact List.idxOf_lt_length_of_mem hmem
  refine ⟨w, hw, hkeeps, chunk', hchunk, encoding, preds, _, hencode, hpreds, hbegins, ?_⟩
  rw [hval, List.getD_eq_getElem?_getD, List.getElem?_eq_getElem hlt, Option.getD_some]

end Applied

section Spot

/-- The logits of two labels, of which the second is the larger one at some places. -/
def spotOutput (hot : ℕ → Bool) (seq : ℕ) : Output ℤ :=
  .f32 ⟨[1, seq, 2],
    (List.range (seq * 2)).map fun i => if hot (i / 2) = decide (i % 2 = 1) then 1 else 0, by simp⟩

/-- A model that gives the second of two labels to the tokens at some places. -/
def spotModel (hot : ℕ → Bool) : Model ℤ where
  session inputs := .ok [spotOutput hot ((inputs.head?.map fun tensor => tensor.data.length).getD 0)]
  numLabels := 2
  negInfinity := -1

theorem row_of_range {α : Type*} (g : ℕ → α) {seq p : ℕ} (hp : p < seq) :
    (((List.range (seq * 2)).map g).drop (p * 2)).take 2 = [g (p * 2), g (p * 2 + 1)] := by
  have htwo : List.range' (p * 2) 2 = [p * 2, p * 2 + 1] := rfl
  rw [← List.map_drop, ← List.map_take, List.range_eq_range', List.drop_range',
    List.take_range'_of_length_ge (by omega), Nat.zero_add, Nat.mul_one, htwo]
  rfl

theorem argmaxOf_spotOutput (hot : ℕ → Bool) (seq : ℕ) :
    (spotModel hot).argmaxOf seq [spotOutput hot seq] =
      .ok ((List.range seq).map fun p => if hot p then 1 else 0) := by
  have hdims : ¬[1, seq, 2] ≠ [1, seq, (spotModel hot).numLabels] := fun h => h rfl
  rw [spotOutput, Model.argmaxOf]
  dsimp only
  rw [if_neg hdims]
  refine congrArg Except.ok (List.map_congr_left fun p hp => ?_)
  have hrow := row_of_range (fun i => if hot (i / 2) = decide (i % 2 = 1) then (1 : ℤ) else 0)
    (List.mem_range.mp hp)
  have heven : p * 2 / 2 = p ∧ p * 2 % 2 = 0 := by omega
  have hodd : (p * 2 + 1) / 2 = p ∧ (p * 2 + 1) % 2 = 1 := by omega
  show argmax (-1) ((((List.range (seq * 2)).map _).drop (p * 2)).take 2) = _
  rw [hrow, heven.1, heven.2, hodd.1, hodd.2]
  cases hot p <;> decide

theorem inputsOf_eq {encoding : Encoding}
    (hmask : encoding.attentionMask.length = encoding.ids.length) :
    ∃ inputIds attentionMask tokenType,
      Model.inputsOf encoding = .ok [inputIds, attentionMask, tokenType] := by
  have hnew : ∀ data : List ℤ, data.length = encoding.ids.length →
      ∃ tensor, newTensor [1, encoding.ids.length] data = .ok tensor := by
    intro data hdata
    have hprod : data.length = [1, encoding.ids.length].prod := by simp [hdata]
    exact ⟨_, dif_pos hprod⟩
  obtain ⟨inputIds, hids⟩ := hnew (encoding.ids.map Int.ofNat) (List.length_map _)
  obtain ⟨attentionMask, hattention⟩ := hnew (encoding.attentionMask.map Int.ofNat)
    ((List.length_map _).trans hmask)
  obtain ⟨tokenType, htype⟩ := hnew (List.replicate encoding.ids.length 0) List.length_replicate
  refine ⟨inputIds, attentionMask, tokenType, ?_⟩
  refine Outcomes.bind_eq_ok.mpr ⟨inputIds, hids, ?_⟩
  refine Outcomes.bind_eq_ok.mpr ⟨attentionMask, hattention, ?_⟩
  exact Outcomes.bind_eq_ok.mpr ⟨tokenType, htype, rfl⟩

theorem spotModel_preds {encoding : Encoding} (hot : ℕ → Bool)
    (hmask : encoding.attentionMask.length = encoding.ids.length) :
    ((spotModel hot).argmaxPerToken encoding).2 =
      .ok ((List.range encoding.ids.length).map fun p => if hot p then 1 else 0) := by
  obtain ⟨inputIds, attentionMask, tokenType, hinputs⟩ := inputsOf_eq hmask
  have hseq := inputsOf_data hinputs inputIds List.mem_cons_self
  rw [← argmaxOf_spotOutput, ← hseq, Model.argmaxPerToken, hinputs, hseq]
  show (spotModel hot).argmaxOf _ [spotOutput hot inputIds.data.length] = _
  rw [hseq]

/-- The place of the first token with a number, or every place if no token has it. -/
def spotAt (wordIds : List (Option ℕ)) (word p : ℕ) : Bool :=
  decide (some word ∈ wordIds → p = wordIds.idxOf (some word))

/-- If the label that is read for a number is that at the first token with another, the numbers agree. -/
theorem eq_of_spotAt {wordIds : List (Option ℕ)} {word i n label : ℕ} (hlength : wordIds.length = n)
    (hread : label = if some word ∈ wordIds then
      ((List.range n).map fun p => if spotAt wordIds word p then 1 else 0).getD
        (wordIds.idxOf (some word)) 0 else 0)
    (hfirst : ((List.range n).map fun p =>
      if spotAt wordIds word p then 1 else 0)[wordIds.idxOf (some i)]? = some label) : i = word := by
  have hpred : ∀ p, ((List.range n).map fun p => if spotAt wordIds word p then 1 else 0)[p]? =
      if p < n then some (if spotAt wordIds word p then 1 else 0) else none := by
    intro p
    by_cases hlt : p < n
    · rw [List.getElem?_map, List.getElem?_range hlt, if_pos hlt]
      rfl
    · rw [List.getElem?_eq_none (by simpa using hlt), if_neg hlt]
  rw [hpred, Option.ite_none_right_eq_some] at hfirst
  rw [← Option.some.inj hfirst.2] at hread
  by_cases hmem : some word ∈ wordIds
  · have hspot : spotAt wordIds word (wordIds.idxOf (some word)) = true := decide_eq_true fun _ => rfl
    have hlt := List.idxOf_lt_length_of_mem hmem
    rw [hlength] at hlt
    rw [if_pos hmem, List.getD_eq_getElem?_getD, hpred, if_pos hlt, if_pos hspot] at hread
    have hat : spotAt wordIds word (wordIds.idxOf (some i)) = true := by
      by_contra hoff
      rw [if_neg hoff] at hread
      cases hread
    have hidx := of_decide_eq_true hat hmem
    exact (Option.some.inj ((List.idxOf_inj hmem).mp hidx.symm)).symm
  · have hspot : spotAt wordIds word (wordIds.idxOf (some i)) = true :=
      decide_eq_true fun h => absurd h hmem
    rw [if_neg hmem, if_pos hspot] at hread
    cases hread

variable {t : WordPiece.Tokenizer} {text : Text} {k : ℕ}

/-- A word that does not begin the pre-token of its number has the label of another token, if the model
tells this token from the word's own. -/
theorem not_reachesWord {w : Window} {chunk : Text}
    (hw : w ∈ planWindows (wordSpans text).length) (hkeeps : w.Keeps k)
    (hfit : RunsFit (fun chunk => t.encode chunk true) text (wordSpans text) w.start w.stop)
    (hchunk : chunkOf text (wordSpans text) (wordRun t text w k).1 (wordRun t text w k).2 = some chunk)
    (hother : ¬Begins (markedPreTokens t chunk) (k - (wordRun t text w k).1)
      (k - (wordRun t text w k).1)) : ¬ReachesWord t text k := by
  intro hreaches
  obtain ⟨idss, _, _, hencode⟩ := encode_markedPreTokens t chunk true
  generalize encodingOf t true idss = encoding at hencode
  let hot := spotAt encoding.wordIds (k - (wordRun t text w k).1)
  have hmodel : ∀ chunk encoding, t.encode chunk true = some encoding →
      ∃ preds, ((spotModel hot).argmaxPerToken encoding).2 = .ok preds :=
    fun _ _ h => ⟨_, spotModel_preds hot (lengths_of_encode h).1⟩
  obtain ⟨labels, label, hlabels, hlabel⟩ := exists_labelIds hmodel (fun _ h => by cases h) hw hkeeps hfit
  obtain ⟨w', hw', hkeeps', _, hrun⟩ := labelledBy_of_labelIds hlabels hlabel
  obtain rfl := (planWindows_tiles _).keeps_unique hw hw' hkeeps hkeeps'
  obtain ⟨v, hv, hkeepsV, chunk₁, hchunk₁, encoding₁, preds₁, i, hencode₁, hpreds₁, hbegins, hlabel₁⟩ :=
    hreaches ℤ (spotModel hot) labels label hlabels hlabel
  obtain rfl := (planWindows_tiles _).keeps_unique hw hv hkeeps hkeepsV
  obtain ⟨chunk₂, encoding₂, preds₂, hchunk₂, hencode₂, hpreds₂, hval⟩ := hrun.eq
  obtain rfl := Option.some.inj (hchunk₁.symm.trans hchunk)
  obtain rfl := Option.some.inj (hchunk₂.symm.trans hchunk)
  obtain rfl := Option.some.inj (hencode₁.symm.trans hencode)
  obtain rfl := Option.some.inj (hencode₂.symm.trans hencode)
  have hpreds := spotModel_preds hot (lengths_of_encode hencode).1
  obtain rfl := Except.ok.inj (hpreds₁.symm.trans hpreds)
  obtain rfl := Except.ok.inj (hpreds₂.symm.trans hpreds)
  have hsame := eq_of_spotAt (lengths_of_encode hencode).2 hval hlabel₁
  exact hother (hsame ▸ hbegins)

/-- The label of a word is the one predicted at its own first token, whatever the model, if and only if the
word begins the pre-token that has its number in the run. -/
theorem reachesWord_iff (t : WordPiece.Tokenizer) (text : Text) (k : ℕ) :
    ReachesWord t text k ↔ InStep t text k := by
  refine ⟨fun hreaches w hw hkeeps hfit => ?_, InStep.reachesWord⟩
  have hfits := planWindows_fits hw
  obtain ⟨encoding, hencode, _⟩ := hfit k (hfits.start_le.trans hkeeps.1)
    (hkeeps.2.trans_le hfits.le_stop)
  obtain ⟨chunk, hchunk, _⟩ := Option.bind_eq_some_iff.mp hencode
  refine ⟨chunk, hchunk, ?_⟩
  by_contra hother
  exact not_reachesWord hw hkeeps hfit hchunk hother hreaches

/-- A file that splits words at punctuation, with a small vocabulary. -/
def hyphenFile : TokenizerFile :=
  { bareFile with
    preTokenizer := some (some "BertPreTokenizer".toList)
    model := { bareFile.model with
      vocab := [("кто", 1), ("-", 2), ("то", 3), ("там", 4)].foldl
        (fun vocab entry => vocab.insert entry.1.toList entry.2) bareFile.model.vocab } }

def hyphenText : Text := "кто-то там".toList

/-- The second word is given the label of the hyphen in the first. -/
theorem hyphen_misses : ∃ t, WordPiece.Tokenizer.fromParsed hyphenFile = .ok t ∧
    ¬ReachesWord t hyphenText 1 := by
  refine ⟨_, rfl, ?_⟩
  generalize ht : WordPiece.Tokenizer.mk _ _ _ _ _ _ _ _ _ = t
  have hencode : (chunkOf hyphenText (wordSpans hyphenText) 0 2).bind (fun chunk => t.encode chunk true) =
      some ⟨[1, 2, 3, 4], [1, 1, 1, 1], [some 0, some 1, some 2, some 3]⟩ := by
    subst ht
    decide +kernel
  have hfits : [1, 2, 3, 4].length ≤ maxWindowSubtokens := by decide
  have hrun : wordRun t hyphenText ⟨0, 2, 0, 2⟩ 1 = (0, 2) := runOf_run hencode hfits 1
  have hchunk : chunkOf hyphenText (wordSpans hyphenText) (wordRun t hyphenText ⟨0, 2, 0, 2⟩ 1).1
      (wordRun t hyphenText ⟨0, 2, 0, 2⟩ 1).2 = some hyphenText := by
    rw [hrun]
    decide +kernel
  have hwindow : ⟨0, 2, 0, 2⟩ ∈ planWindows (wordSpans hyphenText).length := by decide +kernel
  have hother : ¬Begins (markedPreTokens t hyphenText) 1 1 := by
    subst ht
    decide +kernel
  apply not_reachesWord hwindow ⟨Nat.zero_le 1, Nat.one_lt_two⟩ (runsFit_of_run hencode hfits) hchunk
  rw [hrun]
  exact hother

end Spot

end Gigastt.Punctuation
