import Gigastt.Tokenizer
import Gigastt.Utf8

/-!
Text deltas of a streamed transcript. A partial rewrites the utterance under way and a final closes it; a
delta is sent only for text that extends what has been sent, since nothing sent can be taken back.
-/

namespace Gigastt

structure OpenAIStreamAssembler where
  /-- The text of the utterances that are final. -/
  committed : Text
  /-- The text sent as deltas. -/
  lastEmitted : Text
  deriving DecidableEq, Repr

namespace OpenAIStreamAssembler

def new : OpenAIStreamAssembler := { committed := [], lastEmitted := [] }

/-- The transcript of the `done` event. -/
def text (a : OpenAIStreamAssembler) : Text :=
  if Utf8.size a.lastEmitted ≤ Utf8.size a.committed then a.committed else a.lastEmitted

/-- The whole text with the utterance under way. -/
def candidate (a : OpenAIStreamAssembler) (live : Text) : Text :=
  if live = [] then a.committed
  else if a.committed = [] then live
  else a.committed ++ ' ' :: live

/-- What is new in a text that extends the one sent. -/
def unsent (sent text : Text) : Option Text :=
  if sent <+: text ∧ text.drop sent.length ≠ [] then some (text.drop sent.length) else none

/-- The text of a final joins the others. -/
def commit (a : OpenAIStreamAssembler) (live : Text) : OpenAIStreamAssembler :=
  { a with
    committed :=
      if live ≠ [] then if a.committed = [] then live else a.committed ++ ' ' :: live
      else a.committed }

/-- One segment: the delta to send, and the assembler after it. -/
def pushSegment (a : OpenAIStreamAssembler) (text : Text) (isFinal : Bool) :
    Option Text × OpenAIStreamAssembler :=
  let live := trim text
  let candidate := a.candidate live
  let delta := unsent a.lastEmitted candidate
  let a := if delta.isSome then { a with lastEmitted := candidate } else a
  if isFinal then
    let a := a.commit live
    (delta.or (unsent a.lastEmitted a.committed), { a with lastEmitted := a.committed })
  else (delta, a)

/-- A segment's text, and whether it is final. -/
abbrev NativeSegment := Text × Bool

def stateAfter (segments : List NativeSegment) : OpenAIStreamAssembler :=
  segments.foldl (fun a s => (a.pushSegment s.1 s.2).2) new

/-- What a segment sends after those before it. -/
def deltaAfter (earlier : List NativeSegment) (segment : NativeSegment) : Option Text :=
  ((stateAfter earlier).pushSegment segment.1 segment.2).1

def deltasFrom (a : OpenAIStreamAssembler) : List NativeSegment → List Text
  | [] => []
  | s :: rest => (a.pushSegment s.1 s.2).1.toList ++ (a.pushSegment s.1 s.2).2.deltasFrom rest

/-- The deltas of a run, in order. -/
def deltas (segments : List NativeSegment) : List Text := new.deltasFrom segments

/-- The finals that have text, trimmed. -/
def finals (segments : List NativeSegment) : List Text :=
  ((segments.filter Prod.snd).map fun s => trim s.1).filter (· ≠ [])

/-- Every segment's text, behind the finals before it, extends what was sent by then. -/
def Extends (segments : List NativeSegment) : Prop :=
  ∀ earlier segment later, segments = earlier ++ segment :: later →
    (stateAfter earlier).lastEmitted <+: (stateAfter earlier).candidate (trim segment.1)

section Push

variable {a : OpenAIStreamAssembler} {text sent : Text} {segments : List NativeSegment}
  {segment : NativeSegment}

theorem commit_eq (a : OpenAIStreamAssembler) (live : Text) :
    (a.commit live).committed = a.candidate live := by
  rw [commit, candidate]
  by_cases hlive : live = []
  · rw [if_pos hlive]
    exact if_neg (not_not_intro hlive)
  · rw [if_neg hlive]
    exact if_pos hlive

/-- A final leaves the whole text both committed and sent. -/
theorem pushSegment_final (a : OpenAIStreamAssembler) (text : Text) :
    a.pushSegment text true = (unsent a.lastEmitted (a.candidate (trim text)),
      ⟨a.candidate (trim text), a.candidate (trim text)⟩) := by
  have hcommit := commit_eq a (trim text)
  rw [pushSegment]
  dsimp only
  cases hdelta : unsent a.lastEmitted (a.candidate (trim text)) with
  | none =>
      simp only [Option.isSome_none, Bool.false_eq_true, if_false, if_true, Option.none_or, hcommit]
      exact congrArg (·, _) hdelta
  | some d =>
      have hcommit' := commit_eq { a with lastEmitted := a.candidate (trim text) } (trim text)
      simp only [Option.isSome_some, if_true, Option.some_or, hcommit']
      rfl

theorem pushSegment_interim (a : OpenAIStreamAssembler) (text : Text) :
    a.pushSegment text false = (unsent a.lastEmitted (a.candidate (trim text)),
      if (unsent a.lastEmitted (a.candidate (trim text))).isSome then
        { a with lastEmitted := a.candidate (trim text) } else a) := rfl

theorem pushSegment_delta (a : OpenAIStreamAssembler) (segment : NativeSegment) :
    (a.pushSegment segment.1 segment.2).1 =
      unsent a.lastEmitted (a.candidate (trim segment.1)) := by
  obtain ⟨text, isFinal⟩ := segment
  cases isFinal with
  | true => rw [pushSegment_final]
  | false => rfl

theorem append_unsent (h : sent <+: text) : sent ++ (unsent sent text).getD [] = text := by
  obtain ⟨rest, rfl⟩ := h
  rw [unsent, List.drop_left]
  by_cases hrest : rest = []
  · rw [if_neg (fun h => h.2 hrest), hrest]
    rfl
  · rw [if_pos ⟨List.prefix_append _ _, hrest⟩]
    rfl

theorem unsent_ne_nil {d : Text} (h : unsent sent text = some d) : d ≠ [] := by
  rw [unsent, Option.ite_none_right_eq_some] at h
  obtain ⟨⟨_, hne⟩, hd⟩ := h
  cases hd
  exact hne

/-- A text that extends what was sent has been sent. -/
theorem lastEmitted_pushSegment (segment : NativeSegment)
    (h : a.lastEmitted <+: a.candidate (trim segment.1)) :
    (a.pushSegment segment.1 segment.2).2.lastEmitted = a.candidate (trim segment.1) := by
  obtain ⟨text, isFinal⟩ := segment
  cases isFinal with
  | true => rw [pushSegment_final]
  | false =>
      rw [pushSegment_interim]
      have hall := append_unsent h
      cases hdelta : unsent a.lastEmitted (a.candidate (trim text)) with
      | none =>
          rw [hdelta, Option.getD_none, List.append_nil] at hall
          exact hall
      | some d => rfl

theorem stateAfter_concat (segments : List NativeSegment) (segment : NativeSegment) :
    stateAfter (segments ++ [segment]) =
      ((stateAfter segments).pushSegment segment.1 segment.2).2 := List.foldl_concat _ _ _ _

theorem deltas_concat (segments : List NativeSegment) (segment : NativeSegment) :
    deltas (segments ++ [segment]) = deltas segments ++ (deltaAfter segments segment).toList := by
  have hfrom : ∀ (a : OpenAIStreamAssembler), a.deltasFrom (segments ++ [segment]) =
      a.deltasFrom segments ++
        ((segments.foldl (fun a s => (a.pushSegment s.1 s.2).2) a).pushSegment
          segment.1 segment.2).1.toList := by
    induction segments with
    | nil => exact fun a => List.append_nil _
    | cons s rest ih =>
        intro a
        rw [List.cons_append, deltasFrom, ih, deltasFrom, List.append_assoc, List.foldl_cons]
  exact hfrom new

theorem intercalate_concat {pieces : List Text} (h : pieces ≠ []) (sep piece : Text) :
    sep.intercalate (pieces ++ [piece]) = sep.intercalate pieces ++ (sep ++ piece) := by
  induction pieces with
  | nil => exact absurd rfl h
  | cons first rest ih =>
      rcases eq_or_ne rest [] with rfl | hrest
      · simp
      · rw [List.cons_append, List.intercalate_cons_of_ne_nil (by simp), ih hrest,
          List.intercalate_cons_of_ne_nil hrest]
        simp only [List.append_assoc]

theorem intercalate_eq_nil {pieces : List Text} (h : ∀ piece ∈ pieces, piece ≠ []) (sep : Text) :
    sep.intercalate pieces = [] ↔ pieces = [] := by
  cases pieces with
  | nil => exact iff_of_true rfl rfl
  | cons first rest =>
      refine iff_of_false (fun hempty => h first List.mem_cons_self ?_) (List.cons_ne_nil first rest)
      rcases eq_or_ne rest [] with rfl | hrest
      · rwa [List.intercalate_singleton] at hempty
      · rw [List.intercalate_cons_of_ne_nil hrest, List.append_assoc, List.append_eq_nil_iff] at hempty
        exact hempty.1

/-- The texts of the finals, put together one by one. -/
theorem committed_stateAfter (segments : List NativeSegment) :
    (stateAfter segments).committed = [' '].intercalate (finals segments) := by
  induction segments using List.reverseRecOn with
  | nil => rfl
  | append_singleton segments segment ih =>
      obtain ⟨text, isFinal⟩ := segment
      rw [stateAfter_concat]
      cases isFinal with
      | false =>
          have hsame : finals (segments ++ [(text, false)]) = finals segments := by
            simp [finals]
          rw [hsame, ← ih, pushSegment_interim]
          split <;> rfl
      | true =>
          rw [pushSegment_final]
          dsimp only
          rw [candidate]
          by_cases hlive : trim text = []
          · have hsame : finals (segments ++ [(text, true)]) = finals segments := by
              simp [finals, hlive]
            rw [if_pos hlive, hsame, ih]
          · have hmore : finals (segments ++ [(text, true)]) = finals segments ++ [trim text] := by
              simp [finals, hlive]
            have hpieces : ∀ piece ∈ finals segments, piece ≠ [] := fun piece hpiece =>
              of_decide_eq_true (List.mem_filter.mp hpiece).2
            rw [if_neg hlive, hmore, ih]
            by_cases hfinals : finals segments = []
            · rw [if_pos ((intercalate_eq_nil hpieces _).mpr hfinals), hfinals, List.nil_append,
                List.intercalate_singleton]
            · rw [if_neg (mt (intercalate_eq_nil hpieces _).mp hfinals), intercalate_concat hfinals]
              rfl

/-- After a final the transcript is the committed text, and all of it counts as sent. -/
theorem text_stateAfter_final (earlier : List NativeSegment) (text : Text) :
    (stateAfter (earlier ++ [(text, true)])).lastEmitted =
        (stateAfter (earlier ++ [(text, true)])).committed ∧
      (stateAfter (earlier ++ [(text, true)])).text =
        (stateAfter (earlier ++ [(text, true)])).committed := by
  rw [stateAfter_concat, pushSegment_final]
  exact ⟨rfl, if_pos (Nat.le_refl _)⟩

theorem Extends.init (h : Extends (segments ++ [segment])) : Extends segments := by
  intro earlier s later hsplit
  exact h earlier s (later ++ [segment]) (by rw [hsplit, List.append_assoc, List.cons_append])

/-- What a segment sends is what it adds to the text sent. -/
theorem lastEmitted_concat (h : (stateAfter segments).lastEmitted <+:
      (stateAfter segments).candidate (trim segment.1)) :
    (stateAfter (segments ++ [segment])).lastEmitted =
      (stateAfter segments).lastEmitted ++ (deltaAfter segments segment).getD [] := by
  rw [stateAfter_concat, lastEmitted_pushSegment segment h, deltaAfter, pushSegment_delta,
    append_unsent h]

theorem deltas_flatten (h : Extends segments) :
    (deltas segments).flatten = (stateAfter segments).lastEmitted := by
  induction segments using List.reverseRecOn with
  | nil => rfl
  | append_singleton segments segment ih =>
      rw [deltas_concat, List.flatten_append, ih h.init, lastEmitted_concat (h segments segment [] rfl)]
      cases deltaAfter segments segment with
      | none => rfl
      | some d => exact congrArg _ (List.append_nil d)

end Push

/-- The deltas of a run add up to its text. -/
structure AddsUp (segments : List NativeSegment) : Prop where
  /-- After a final the transcript is the finals that have text, joined with single spaces. -/
  text : ∀ earlier text, segments = earlier ++ [(text, true)] →
    (stateAfter segments).text = [' '].intercalate (finals segments)
  sent : Extends segments → (deltas segments).flatten = (stateAfter segments).lastEmitted
  sent_final : Extends segments → ∀ earlier text, segments = earlier ++ [(text, true)] →
    (deltas segments).flatten = (stateAfter segments).text
  /-- A delta is new text that goes on where the text sent before it ends. -/
  fresh : Extends segments → ∀ earlier segment later, segments = earlier ++ segment :: later →
    ∀ d ∈ deltaAfter earlier segment, d ≠ [] ∧
      (stateAfter (earlier ++ [segment])).lastEmitted = (stateAfter earlier).lastEmitted ++ d

theorem addsUp (segments : List NativeSegment) : AddsUp segments where
  text earlier text hsplit := by
    rw [hsplit, (text_stateAfter_final earlier text).2, committed_stateAfter]
  sent := deltas_flatten
  sent_final h earlier text hsplit := by
    rw [deltas_flatten h, hsplit, (text_stateAfter_final earlier text).1,
      (text_stateAfter_final earlier text).2]
  fresh h earlier segment later hsplit d hd := by
    rw [lastEmitted_concat (h earlier segment later hsplit), hd]
    rw [deltaAfter, pushSegment_delta, Option.mem_def] at hd
    exact ⟨unsent_ne_nil hd, rfl⟩

end OpenAIStreamAssembler

end Gigastt
