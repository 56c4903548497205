import Gigastt.VadEndpoint

/-!
The pushes of a stream against its frames. When no frame fails, every push scores the frames it
completes, and each is scored once; a frame that fails in the middle of a push leaves those before it
to be scored again.
-/

namespace Gigastt.Vad

variable {P α σ : Type}

section Frames

/-- So many frames, from an offset on. -/
def framesFrom (signal : List α) : Nat → Nat → List (List α)
  | 0, _ => []
  | n + 1, off => (signal.drop off).take frameSamples :: framesFrom signal n (off + frameSamples)

/-- The whole frames of a signal. -/
def wholeFrames (signal : List α) : List (List α) :=
  framesFrom signal (signal.length / frameSamples) 0

/-- Where the whole frames of a signal end. -/
def framed (signal : List α) : Nat := signal.length / frameSamples * frameSamples

theorem length_framesFrom (signal : List α) (n off : Nat) :
    (framesFrom signal n off).length = n := by
  induction n generalizing off with
  | zero => rfl
  | succ n ih => rw [framesFrom, List.length_cons, ih]

theorem framesFrom_add (signal : List α) (m n off : Nat) :
    framesFrom signal (m + n) off =
      framesFrom signal m off ++ framesFrom signal n (off + m * frameSamples) := by
  induction m generalizing off with
  | zero => simp [framesFrom]
  | succ m ih =>
      rw [Nat.succ_add, framesFrom, framesFrom, ih, List.cons_append, Nat.succ_mul, Nat.add_assoc,
        Nat.add_comm frameSamples]

theorem framesFrom_append {front : List α} (back : List α) {n off : Nat}
    (hfits : off + n * frameSamples ≤ front.length) :
    framesFrom (front ++ back) n off = framesFrom front n off := by
  induction n generalizing off with
  | zero => rfl
  | succ n ih =>
      rw [Nat.succ_mul] at hfits
      have hhead : frameSamples ≤ (front.drop off).length := by
        rw [List.length_drop]
        omega
      rw [framesFrom, framesFrom, ih (by omega), List.drop_append_of_le_length (by omega),
        List.take_append_of_le_length hhead]

theorem framesFrom_drop (signal : List α) (n skip off : Nat) :
    framesFrom (signal.drop skip) n off = framesFrom signal n (skip + off) := by
  induction n generalizing off with
  | zero => rfl
  | succ n ih => rw [framesFrom, framesFrom, ih, List.drop_drop, Nat.add_assoc]

theorem length_wholeFrames (signal : List α) :
    (wholeFrames signal).length = signal.length / frameSamples :=
  length_framesFrom signal _ 0

theorem wholeFrames_nil : wholeFrames ([] : List α) = [] := by
  simp [wholeFrames, framesFrom]

theorem framed_le (signal : List α) : framed signal ≤ signal.length := Nat.div_mul_le_self _ _

/-- More samples complete the frame that the rest of the signal begins. -/
theorem wholeFrames_append (front back : List α) :
    wholeFrames (front ++ back) =
      wholeFrames front ++ wholeFrames (front.drop (framed front) ++ back) := by
  have hrest : front.drop (framed front) ++ back = (front ++ back).drop (framed front) :=
    (List.drop_append_of_le_length (framed_le front)).symm
  have hcount : (front ++ back).length / frameSamples = front.length / frameSamples +
      ((front ++ back).drop (framed front)).length / frameSamples := by
    rw [List.length_drop, List.length_append, framed]
    simp only [frameSamples]
    omega
  calc wholeFrames (front ++ back)
      = framesFrom (front ++ back) (front.length / frameSamples) 0 ++
          framesFrom (front ++ back) (((front ++ back).drop (framed front)).length / frameSamples)
            (0 + framed front) := by rw [wholeFrames, hcount, framesFrom_add, framed]
    _ = wholeFrames front ++ wholeFrames (front.drop (framed front) ++ back) := by
        rw [framesFrom_append back (by rw [Nat.zero_add]; exact framed_le front), hrest, wholeFrames,
          wholeFrames, framesFrom_drop, Nat.zero_add, Nat.add_zero]

theorem framed_append (front back : List α) :
    framed (front ++ back) = framed front + framed (front.drop (framed front) ++ back) := by
  simp only [framed, List.length_append, List.length_drop, frameSamples]
  omega

end Frames

section Scoring

/-- What scoring frames in order comes to: on which of them the hangover fires, and the error that
ends it. -/
structure Scoring (P σ : Type) where
  state : σ
  hangover : Hangover P
  fires : List Bool
  failure : Option String

def scoreFrames (vad : Silero P α σ) : List (List α) → σ → Hangover P → Scoring P σ
  | [], state, hangover => { state, hangover, fires := [], failure := none }
  | frame :: rest, state, hangover =>
      match vad.runFrame frame state with
      | (state, .error e) => { state, hangover, fires := [], failure := some e }
      | (state, .ok prob) =>
          let (hangover, fired) := hangover.update vad prob frameSamples
          let scoring := scoreFrames vad rest state hangover
          { scoring with fires := fired :: scoring.fires }

variable (vad : Silero P α σ)

theorem scoreFrames_append {front : List (List α)} (back : List (List α)) {state : σ}
    {hangover : Hangover P} (hfront : (scoreFrames vad front state hangover).failure = none) :
    let first := scoreFrames vad front state hangover
    let second := scoreFrames vad back first.state first.hangover
    scoreFrames vad (front ++ back) state hangover =
      { second with fires := first.fires ++ second.fires } := by
  induction front generalizing state hangover with
  | nil => rfl
  | cons frame front ih =>
      rw [scoreFrames] at hfront
      rw [List.cons_append, scoreFrames, scoreFrames]
      generalize vad.runFrame frame state = ran at hfront ⊢
      obtain ⟨state', result⟩ := ran
      cases result with
      | error e => cases hfront
      | ok prob =>
          dsimp only at hfront ⊢
          rw [ih hfront]
          rfl

/-- Without an error every frame is scored. -/
theorem length_fires {frames : List (List α)} {state : σ} {hangover : Hangover P}
    (h : (scoreFrames vad frames state hangover).failure = none) :
    (scoreFrames vad frames state hangover).fires.length = frames.length := by
  induction frames generalizing state hangover with
  | nil => rfl
  | cons frame frames ih =>
      rw [scoreFrames] at h ⊢
      generalize vad.runFrame frame state = ran at h ⊢
      obtain ⟨state', result⟩ := ran
      cases result with
      | error e => cases h
      | ok prob => exact congrArg Nat.succ (ih h)

theorem length_fires_le (frames : List (List α)) (state : σ) (hangover : Hangover P) :
    (scoreFrames vad frames state hangover).fires.length ≤ frames.length := by
  induction frames generalizing state hangover with
  | nil => exact Nat.le_refl 0
  | cons frame frames ih =>
      rw [scoreFrames]
      generalize vad.runFrame frame state = ran
      obtain ⟨state', result⟩ := ran
      cases result with
      | error e => exact Nat.zero_le _
      | ok prob => exact Nat.succ_le_succ (ih _ _)

/-- The loop of a push scores the frames of its buffer. -/
theorem pushFrames_eq (leftover : List α) (n : Nat) (p : Pushed P σ) :
    let scoring := scoreFrames vad (framesFrom leftover n p.off) p.state p.hangover
    pushFrames vad leftover n p =
      ({ state := scoring.state
         hangover := scoring.hangover
         off := p.off + scoring.fires.length * frameSamples
         endpoint := p.endpoint || scoring.fires.any id }, scoring.failure) := by
  induction n generalizing p with
  | zero => simp [pushFrames, framesFrom, scoreFrames]
  | succ n ih =>
      rw [framesFrom, scoreFrames, pushFrames]
      generalize vad.runFrame ((leftover.drop p.off).take frameSamples) p.state = ran
      obtain ⟨state, result⟩ := ran
      cases result with
      | error e => simp
      | ok prob =>
          dsimp only
          rw [ih]
          dsimp only
          rw [List.length_cons, Nat.succ_mul, Nat.add_assoc, Nat.add_comm frameSamples,
            List.any_cons, Bool.or_assoc]
          rfl

/-- What a push scores. -/
def VadEndpointer.scores (ep : VadEndpointer P α σ) (samples : List α) : Scoring P σ :=
  scoreFrames vad (wholeFrames (ep.leftover ++ samples)) ep.state ep.hangover

theorem VadEndpointer.push_eq (ep : VadEndpointer P α σ) (samples : List α) :
    ep.push vad samples =
      let scoring := ep.scores vad samples
      match scoring.failure with
      | some e =>
          ({ state := scoring.state
             leftover := ep.leftover ++ samples
             hangover := scoring.hangover }, .error e)
      | none =>
          ({ state := scoring.state
             leftover := (ep.leftover ++ samples).drop (framed (ep.leftover ++ samples))
             hangover := scoring.hangover }, .ok (scoring.fires.any id)) := by
  rw [push, pushFrames_eq]
  dsimp only
  rw [scores, wholeFrames, framed]
  cases hfailure : (scoreFrames vad (framesFrom (ep.leftover ++ samples)
      ((ep.leftover ++ samples).length / frameSamples) 0) ep.state ep.hangover).failure with
  | some e => rfl
  | none => rw [length_fires vad hfailure, length_framesFrom, Nat.zero_add, Bool.false_or]

end Scoring

section Listening

/-- A stream that is pushed: the samples fed so far, where the frames that were scored start in it, and
what the pushes returned. -/
structure Listening (P α σ : Type) where
  ep : VadEndpointer P α σ
  fed : List α
  scored : List Nat
  results : List (Except String Bool)

/-- How far a push gets in its buffer. -/
def VadEndpointer.reached (vad : Silero P α σ) (ep : VadEndpointer P α σ) (samples : List α) : Nat :=
  let leftover := ep.leftover ++ samples
  (pushFrames vad leftover (leftover.length / frameSamples)
    { state := ep.state, hangover := ep.hangover, off := 0, endpoint := false }).1.off

def Listening.push (vad : Silero P α σ) (l : Listening P α σ) (samples : List α) :
    Listening P α σ where
  ep := (l.ep.push vad samples).1
  fed := l.fed ++ samples
  scored := l.scored ++ (List.range (l.ep.reached vad samples / frameSamples)).map fun i =>
    l.fed.length - l.ep.leftover.length + i * frameSamples
  results := l.results ++ [(l.ep.push vad samples).2]

/-- Push the chunks of a stream. -/
def listen (vad : Silero P α σ) (zero : σ) (cfg : VadConfig P) (chunks : List (List α)) :
    Listening P α σ :=
  chunks.foldl (Listening.push vad) { ep := .new zero cfg, fed := [], scored := [], results := [] }

variable (vad : Silero P α σ) (zero : σ) (cfg : VadConfig P)

theorem reached_eq (ep : VadEndpointer P α σ) (samples : List α) :
    ep.reached vad samples / frameSamples = (ep.scores vad samples).fires.length := by
  rw [VadEndpointer.reached, pushFrames_eq]
  dsimp only
  rw [Nat.zero_add, Nat.mul_div_cancel _ (by decide)]
  rfl

theorem listen_concat (chunks : List (List α)) (chunk : List α) :
    listen vad zero cfg (chunks ++ [chunk]) = (listen vad zero cfg chunks).push vad chunk := by
  rw [listen, List.foldl_append]
  rfl

theorem listen_fed (chunks : List (List α)) : (listen vad zero cfg chunks).fed = chunks.flatten := by
  induction chunks using List.reverseRecOn with
  | nil => rfl
  | append_singleton chunks chunk ih =>
      rw [listen_concat, Listening.push, ih, List.flatten_append, List.flatten_singleton]

/-- What holds of every element of a list and of those before it. -/
theorem forall_split_concat {β : Type} {p : List β → β → Prop} {l : List β} {b : β} :
    (∀ before c after, l ++ [b] = before ++ c :: after → p before c) ↔
      (∀ before c after, l = before ++ c :: after → p before c) ∧ p l b := by
  constructor
  · intro h
    refine ⟨fun before c after hsplit => h before c (after ++ [b]) ?_, h l b [] rfl⟩
    rw [hsplit, List.append_assoc, List.cons_append]
  · rintro ⟨hfront, hlast⟩ before c after hsplit
    rcases List.eq_nil_or_concat after with rfl | ⟨rest, last, rfl⟩
    · obtain ⟨rfl, hc⟩ := List.append_inj' hsplit rfl
      rw [← List.singleton_inj.mp hc]
      exact hlast
    · rw [List.concat_eq_append, ← List.cons_append, ← List.append_assoc] at hsplit
      exact hfront before c rest (List.append_inj' hsplit rfl).1

end Listening

section Endpoints

/-- A model that never fails. -/
def Silero.scoring (score : List α → σ → σ × P) (atLeast : P → P → Bool) : Silero P α σ where
  runFrame frame state := ((score frame state).1, .ok (score frame state).2)
  atLeast

/-- How often the hangover fires over the frames of a signal. -/
def firings (vad : Silero P α σ) (zero : σ) (cfg : VadConfig P) (signal : List α) : Nat :=
  (scoreFrames vad (wholeFrames signal) zero (.new cfg)).fires.count true

/-- How many pushes report the end of an utterance. -/
def Listening.endpoints (l : Listening P α σ) : Nat :=
  l.results.countP fun result => result.toOption.getD false

variable (score : List α → σ → σ × P) (atLeast : P → P → Bool) (zero : σ) (cfg : VadConfig P)

theorem failure_scoring (frames : List (List α)) (state : σ) (hangover : Hangover P) :
    (scoreFrames (Silero.scoring score atLeast) frames state hangover).failure = none := by
  induction frames generalizing state hangover with
  | nil => rfl
  | cons frame frames ih => exact ih _ _

/-- The endpointer stands where scoring the whole frames fed so far ends. -/
structure InStep (l : Listening P α σ) : Prop where
  leftover : l.ep.leftover = l.fed.drop (framed l.fed)
  state : l.ep.state =
    (scoreFrames (Silero.scoring score atLeast) (wholeFrames l.fed) zero (.new cfg)).state
  hangover : l.ep.hangover =
    (scoreFrames (Silero.scoring score atLeast) (wholeFrames l.fed) zero (.new cfg)).hangover

variable {score atLeast zero cfg} {l : Listening P α σ}

/-- A push scores the frames it completes. -/
theorem InStep.push (h : InStep score atLeast zero cfg l) (samples : List α) :
    InStep score atLeast zero cfg (l.push (.scoring score atLeast) samples) ∧
      firings (.scoring score atLeast) zero cfg (l.fed ++ samples) =
        firings (.scoring score atLeast) zero cfg l.fed +
          (l.ep.scores (.scoring score atLeast) samples).fires.count true ∧
      (l.push (.scoring score atLeast) samples).endpoints =
        l.endpoints + min 1 ((l.ep.scores (.scoring score atLeast) samples).fires.count true) := by
  have happend := scoreFrames_append (.scoring score atLeast)
    (wholeFrames (l.fed.drop (framed l.fed) ++ samples))
    (failure_scoring score atLeast (wholeFrames l.fed) zero (.new cfg))
  dsimp only at happend
  rw [← wholeFrames_append, ← h.leftover, ← h.state, ← h.hangover] at happend
  have hpush := l.ep.push_eq (.scoring score atLeast) samples
  dsimp only at hpush
  rw [VadEndpointer.scores, failure_scoring] at hpush
  refine ⟨⟨?_, ?_, ?_⟩, ?_, ?_⟩
  · rw [Listening.push, hpush]
    dsimp only
    rw [framed_append l.fed samples, ← h.leftover, ← List.drop_drop,
      List.drop_append_of_le_length (framed_le l.fed), ← h.leftover]
  · rw [Listening.push, hpush]
    dsimp only
    rw [happend]
  · rw [Listening.push, hpush]
    dsimp only
    rw [happend]
  · rw [firings, happend, firings, List.count_append]
    rfl
  · rw [Listening.endpoints, Listening.push, hpush, List.countP_append]
    dsimp only
    rw [← VadEndpointer.scores]
    apply congrArg (l.endpoints + ·)
    generalize (l.ep.scores (.scoring score atLeast) samples).fires = fires
    by_cases hfires : true ∈ fires
    · have hpos := List.count_pos_iff.mpr hfires
      have hany : fires.any id = true := List.any_eq_true.mpr ⟨true, hfires, rfl⟩
      rw [hany, Nat.min_eq_left hpos]
      rfl
    · have hany : fires.any id = false := by
        rw [List.any_eq_false]
        rintro b hb rfl
        exact hfires hb
      rw [hany, List.count_eq_zero.mpr hfires]
      rfl

variable (score atLeast zero cfg)

theorem inStep_listen (chunks : List (List α)) :
    InStep score atLeast zero cfg (listen (.scoring score atLeast) zero cfg chunks) := by
  induction chunks using List.reverseRecOn with
  | nil =>
      have hnone : wholeFrames (listen (.scoring score atLeast) zero cfg []).fed = [] :=
        wholeFrames_nil
      exact ⟨List.drop_nil.symm, by rw [hnone]; rfl, by rw [hnone]; rfl⟩
  | append_singleton chunks chunk ih =>
      rw [listen_concat]
      exact (ih.push chunk).1

theorem firings_nil (vad : Silero P α σ) : firings vad zero cfg [] = 0 := by
  rw [firings, wholeFrames_nil]
  rfl

theorem endpoints_le (chunks : List (List α)) :
    (listen (.scoring score atLeast) zero cfg chunks).endpoints ≤
      firings (.scoring score atLeast) zero cfg chunks.flatten := by
  induction chunks using List.reverseRecOn with
  | nil => exact Nat.zero_le _
  | append_singleton chunks chunk ih =>
      obtain ⟨_, hfirings, hendpoints⟩ := (inStep_listen score atLeast zero cfg chunks).push chunk
      rw [listen_fed] at hfirings
      rw [listen_concat, hendpoints, List.flatten_append, List.flatten_singleton, hfirings]
      exact Nat.add_le_add ih (Nat.min_le_right _ _)

/-- Every end of an utterance is reported by a push of its own exactly when no push completes frames on
which the hangover fires twice. -/
theorem endpoints_eq_firings_iff (chunks : List (List α)) :
    (listen (.scoring score atLeast) zero cfg chunks).endpoints =
        firings (.scoring score atLeast) zero cfg chunks.flatten ↔
      ∀ before chunk after, chunks = before ++ chunk :: after →
        firings (.scoring score atLeast) zero cfg (before ++ [chunk]).flatten ≤
          firings (.scoring score atLeast) zero cfg before.flatten + 1 := by
  induction chunks using List.reverseRecOn with
  | nil =>
      refine ⟨fun _ before chunk after hsplit => ?_, fun _ => (firings_nil zero cfg _).symm⟩
      exact absurd hsplit.symm (by simp)
  | append_singleton chunks chunk ih =>
      have hle := endpoints_le score atLeast zero cfg chunks
      obtain ⟨_, hfirings, hendpoints⟩ := (inStep_listen score atLeast zero cfg chunks).push chunk
      rw [listen_fed] at hfirings
      rw [forall_split_concat, ← ih, listen_concat, hendpoints, List.flatten_append,
        List.flatten_singleton, hfirings]
      omega

/-- A frame of silence ends an utterance. -/
def briefSilence : VadConfig Bool :=
  { threshold := true, minSilenceMs := 32, minSpeechMs := 250, speechPadMs := 100 }

/-- The frame's number is kept as the state; even ones are speech. -/
def everyOther (_ : List Unit) (n : Nat) : Nat × Bool := (n + 1, n % 2 == 0)

/-- Two utterances in one push. -/
theorem endpoints_one_push :
    (listen (.scoring everyOther fun prob _ => prob) 0 briefSilence [List.replicate 2048 ()]).endpoints
      ≠ firings (.scoring everyOther fun prob _ => prob) 0 briefSilence
        [List.replicate 2048 ()].flatten := by
  decide +kernel

end Endpoints

section Failures

/-- Fed frames in order, the model fails first at this one. -/
def firstFailure (vad : Silero P α σ) : List (List α) → σ → Option Nat
  | [], _ => none
  | frame :: rest, state =>
      match vad.runFrame frame state with
      | (_, .error _) => some 0
      | (state, .ok _) => (firstFailure vad rest state).map Nat.succ

/-- The samples of a signal that are in none of the frames that start there. -/
def unscored (signal : List α) (starts : List Nat) : List α :=
  (signal.zipIdx.filter fun sample =>
    starts.all fun start => !(start ≤ sample.2 && sample.2 < start + frameSamples)).map Prod.fst

/-- The starts of the first frames. -/
def firstStarts (n : Nat) : List Nat := (List.range n).map fun i => i * frameSamples

variable (vad : Silero P α σ)

theorem firstFailure_eq (frames : List (List α)) (state : σ) (hangover : Hangover P) :
    firstFailure vad frames state = (scoreFrames vad frames state hangover).failure.map fun _ =>
      (scoreFrames vad frames state hangover).fires.length := by
  induction frames generalizing state hangover with
  | nil => rfl
  | cons frame frames ih =>
      rw [firstFailure, scoreFrames]
      generalize vad.runFrame frame state = ran
      obtain ⟨state', result⟩ := ran
      cases result with
      | error e => rfl
      | ok prob =>
          dsimp only
          rw [ih, Option.map_map]
          rfl

theorem firstFailure_scores (ep : VadEndpointer P α σ) (samples : List α) :
    firstFailure vad (wholeFrames (ep.leftover ++ samples)) ep.state =
      (ep.scores vad samples).failure.map fun _ => (ep.scores vad samples).fires.length :=
  firstFailure_eq vad _ _ ep.hangover

theorem filter_zipIdx (signal : List α) (n k : Nat) :
    ((signal.zipIdx k).filter fun sample => n ≤ sample.2).map Prod.fst = signal.drop (n - k) := by
  induction signal generalizing k with
  | nil => simp
  | cons x signal ih =>
      rw [List.zipIdx_cons, List.filter_cons]
      by_cases hk : n ≤ k
      · have hnext : n - (k + 1) = 0 := by omega
        rw [if_pos (decide_eq_true hk), List.map_cons, ih, hnext, Nat.sub_eq_zero_of_le hk]
        rfl
      · have hnext : n - k = n - (k + 1) + 1 := by omega
        rw [if_neg (by simpa using hk), ih, hnext, List.drop_succ_cons]

/-- What the first frames leave. -/
theorem unscored_firstStarts (signal : List α) (n : Nat) :
    unscored signal (firstStarts n) = signal.drop (n * frameSamples) := by
  have hoff : ∀ at_ : Nat, ((firstStarts n).all fun start =>
      !(start ≤ at_ && at_ < start + frameSamples)) = decide (n * frameSamples ≤ at_) := by
    intro at_
    rw [Bool.eq_iff_iff, List.all_eq_true, decide_eq_true_eq]
    constructor
    · intro hall
      by_contra hlt
      have hframe : at_ / frameSamples < n := by
        simp only [frameSamples] at hlt ⊢
        omega
      have hstart := hall (at_ / frameSamples * frameSamples)
        (List.mem_map.mpr ⟨_, List.mem_range.mpr hframe, rfl⟩)
      simp only [Bool.not_eq_true', Bool.and_eq_false_iff, decide_eq_false_iff_not] at hstart
      simp only [frameSamples] at hlt hstart
      omega
    · intro hle start hstart
      obtain ⟨i, hi, rfl⟩ := List.mem_map.mp hstart
      have hnext := Nat.mul_le_mul_right frameSamples (List.mem_range.mp hi)
      rw [Nat.succ_mul] at hnext
      simp only [Bool.not_eq_true', Bool.and_eq_false_iff, decide_eq_false_iff_not]
      omega
  rw [unscored]
  simp only [hoff]
  exact filter_zipIdx signal (n * frameSamples) 0

theorem nodup_firstStarts (n : Nat) : (firstStarts n).Nodup :=
  List.nodup_range.map fun _ _ h => Nat.eq_of_mul_eq_mul_right (by decide) h

theorem firstStarts_add (m n : Nat) :
    firstStarts (m + n) =
      firstStarts m ++ (List.range n).map fun i => m * frameSamples + i * frameSamples := by
  simp only [firstStarts, List.range_add, List.map_append, List.map_map, Function.comp_def,
    Nat.add_mul]

variable {vad} {l : Listening P α σ} {m : Nat}

/-- So many frames were scored, and the buffer begins after them. -/
structure Aligned (l : Listening P α σ) (m : Nat) : Prop where
  fits : m * frameSamples ≤ l.fed.length
  scored : l.scored = firstStarts m
  leftover : l.ep.leftover = l.fed.drop (m * frameSamples)

theorem Aligned.buffer (h : Aligned l m) (samples : List α) :
    l.ep.leftover ++ samples = (l.fed ++ samples).drop (m * frameSamples) := by
  rw [h.leftover, List.drop_append_of_le_length h.fits]

variable (vad) in
/-- A push scores the next frames, up to the one that fails. -/
theorem Aligned.push_scored (h : Aligned l m) (samples : List α) :
    (l.push vad samples).scored = firstStarts (m + (l.ep.scores vad samples).fires.length) ∧
      (m + (l.ep.scores vad samples).fires.length) * frameSamples ≤ (l.fed ++ samples).length := by
  have hfits := h.fits
  have hstart : l.fed.length - l.ep.leftover.length = m * frameSamples := by
    rw [h.leftover, List.length_drop]
    omega
  have hframes : (l.ep.scores vad samples).fires.length ≤
      ((l.fed ++ samples).length - m * frameSamples) / frameSamples := by
    rw [← List.length_drop, ← h.buffer, ← length_wholeFrames]
    exact length_fires_le vad _ _ _
  refine ⟨?_, ?_⟩
  · rw [Listening.push, reached_eq, hstart, h.scored, firstStarts_add]
  · have hwhole := (Nat.le_div_iff_mul_le (by decide)).mp hframes
    rw [List.length_append] at hwhole ⊢
    rw [Nat.add_mul]
    omega

/-- A push that scores all of its frames, or none, keeps the buffer behind the scored frames. -/
theorem Aligned.push (h : Aligned l m) {samples : List α}
    (hfirst : ∀ k, firstFailure vad (wholeFrames (l.ep.leftover ++ samples)) l.ep.state = some k →
      k = 0) :
    Aligned (l.push vad samples) (m + (l.ep.scores vad samples).fires.length) := by
  obtain ⟨hscored, hfits⟩ := h.push_scored vad samples
  refine ⟨hfits, hscored, ?_⟩
  rw [firstFailure_scores] at hfirst
  rw [Listening.push, VadEndpointer.push_eq]
  dsimp only
  cases hfailure : (l.ep.scores vad samples).failure with
  | some e =>
      rw [hfailure] at hfirst
      have hnone : (l.ep.scores vad samples).fires.length = 0 := hfirst _ rfl
      rw [hnone]
      exact h.buffer samples
  | none =>
      have hall := length_fires vad hfailure
      dsimp only
      rw [VadEndpointer.scores, hall, length_wholeFrames, h.buffer, List.drop_drop, Nat.add_mul]
      rfl

variable (vad) (zero : σ) (cfg : VadConfig P)

theorem aligned_listen {chunks : List (List α)}
    (hfirst : ∀ before chunk after, chunks = before ++ chunk :: after →
      ∀ k, firstFailure vad (wholeFrames ((listen vad zero cfg before).ep.leftover ++ chunk))
        (listen vad zero cfg before).ep.state = some k → k = 0) :
    ∃ m, Aligned (listen vad zero cfg chunks) m := by
  induction chunks using List.reverseRecOn with
  | nil => exact ⟨0, Nat.zero_le _, rfl, List.drop_nil.symm⟩
  | append_singleton chunks chunk ih =>
      obtain ⟨hbefore, hlast⟩ := forall_split_concat.mp hfirst
      obtain ⟨m, haligned⟩ := ih hbefore
      rw [listen_concat]
      exact ⟨_, haligned.push hlast⟩

/-- Where frames fail at the beginning of a push only, each is scored once and a failed push keeps what
is not scored; a failure further on breaks that at once. -/
theorem scored_once_iff (chunks : List (List α)) :
    (∀ before chunk after, chunks = before ++ chunk :: after →
      let l := listen vad zero cfg (before ++ [chunk])
      l.scored.Nodup ∧ ∀ e, ((listen vad zero cfg before).ep.push vad chunk).2 = .error e →
        l.ep.leftover = unscored l.fed l.scored) ↔
    ∀ before chunk after, chunks = before ++ chunk :: after →
      ∀ k, firstFailure vad (wholeFrames ((listen vad zero cfg before).ep.leftover ++ chunk))
        (listen vad zero cfg before).ep.state = some k → k = 0 := by
  constructor
  · intro hkept
    induction chunks using List.reverseRecOn with
    | nil =>
        intro before chunk after hsplit
        exact absurd hsplit.symm (by simp)
    | append_singleton chunks chunk ih =>
        obtain ⟨hbefore, hlast⟩ := forall_split_concat.mp hkept
        refine forall_split_concat.mpr ⟨ih hbefore, fun k hk => ?_⟩
        obtain ⟨m, haligned⟩ := aligned_listen vad zero cfg (ih hbefore)
        obtain ⟨hscored, hfits⟩ := haligned.push_scored vad chunk
        rw [firstFailure_scores] at hk
        obtain ⟨e, hfailure, hk⟩ := Option.map_eq_some_iff.mp hk
        have hpush := (listen vad zero cfg chunks).ep.push_eq vad chunk
        dsimp only at hpush hlast
        rw [hfailure] at hpush
        have hbuffer := hlast.2 e (congrArg Prod.snd hpush)
        rw [listen_concat, hscored, unscored_firstStarts, Listening.push, hpush] at hbuffer
        dsimp only at hbuffer
        -- the buffer is kept whole, and the frames before the failure are in it
        rw [haligned.buffer] at hbuffer
        have hlength := congrArg List.length hbuffer
        rw [List.length_drop, List.length_drop] at hlength
        rw [hk, Nat.add_mul] at hfits hlength
        simp only [frameSamples] at hfits hlength
        omega
  · intro hfirst before chunk after hsplit
    have hall : ∀ before' chunk' after', before ++ [chunk] = before' ++ chunk' :: after' →
        ∀ k, firstFailure vad (wholeFrames ((listen vad zero cfg before').ep.leftover ++ chunk'))
          (listen vad zero cfg before').ep.state = some k → k = 0 := by
      intro before' chunk' after' hsplit'
      apply hfirst before' chunk' (after' ++ after)
      rw [hsplit, ← List.singleton_append, ← List.append_assoc, hsplit', List.append_assoc,
        List.cons_append]
    obtain ⟨m, haligned⟩ := aligned_listen vad zero cfg hall
    dsimp only
    rw [haligned.scored]
    refine ⟨nodup_firstStarts m, fun _ _ => ?_⟩
    rw [haligned.leftover, unscored_firstStarts]

/-- A model that fails on the second frame it is given. -/
def failsOnce : Silero Bool Unit Nat where
  runFrame _ n := (n + 1, if n = 1 then .error "failed" else .ok false)
  atLeast prob _ := prob

theorem scored_twice_after_failure :
    let chunks := [List.replicate 1024 (), [()]]
    let l := listen failsOnce 0 briefSilence chunks
    ¬l.scored.Nodup ∧
      (listen failsOnce 0 briefSilence (chunks.take 1)).ep.leftover ≠
        unscored (chunks.take 1).flatten (listen failsOnce 0 briefSilence (chunks.take 1)).scored := by
  decide +kernel

end Failures

end Gigastt.Vad
