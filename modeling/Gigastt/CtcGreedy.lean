import Gigastt.Loops
import Gigastt.CtcExact
import Mathlib.Data.List.SplitBy

/-!
Greedy CTC decoding: the best class of every frame, with repeats collapsed and blanks dropped. What
the loop keeps of a run of equal classes is its first frame.
-/

namespace Gigastt

namespace Ctc

/-- The arguments of one decode. The abort closure is polled once a frame. -/
structure GreedySearch (F : Type) where
  logProbs : List F
  tLen : Nat
  vocab : Nat
  blankId : Nat
  abort : Option (Nat → Bool)

/-- The tokens so far, and the best class of the last frame. -/
structure Collapse (F : Type) where
  out : List (TokenInfo F)
  prev : Option Nat

namespace GreedySearch

variable {F : Type}

def usable (d : GreedySearch F) : Nat := min d.tLen (d.logProbs.length / d.vocab)

def row (d : GreedySearch F) (t : Nat) : List F := (d.logProbs.drop (t * d.vocab)).take d.vocab

def pollAbort (d : GreedySearch F) (t : Nat) : Bool :=
  match d.abort with
  | some abort => abort t
  | none => false

section Truncated

variable {d : GreedySearch F}

/-- The same search on the frames up to `tLen` alone. -/
def truncated (d : GreedySearch F) : GreedySearch F :=
  { d with logProbs := d.logProbs.take (d.tLen * d.vocab) }

theorem usable_truncated : d.truncated.usable = d.usable := by
  rcases Nat.eq_zero_or_pos d.vocab with hzero | hpos
  · simp [usable, truncated, hzero]
  · show min d.tLen ((d.logProbs.take (d.tLen * d.vocab)).length / d.vocab) =
      min d.tLen (d.logProbs.length / d.vocab)
    rw [List.length_take]
    rcases Nat.le_total (d.tLen * d.vocab) d.logProbs.length with hle | hle
    · have hframes : d.tLen ≤ d.logProbs.length / d.vocab := (Nat.le_div_iff_mul_le hpos).mpr hle
      rw [Nat.min_eq_left hle, Nat.mul_div_cancel _ hpos, Nat.min_self, Nat.min_eq_left hframes]
    · rw [Nat.min_eq_right hle]

theorem row_truncated {t : Nat} (ht : t < d.usable) : d.truncated.row t = d.row t := by
  have hframe : (t + 1) * d.vocab ≤ d.tLen * d.vocab :=
    Nat.mul_le_mul_right _ (lt_of_lt_of_le ht (Nat.min_le_left _ _))
  show ((d.logProbs.take (d.tLen * d.vocab)).drop (t * d.vocab)).take d.vocab = _
  rw [List.drop_take, List.take_take, Nat.min_eq_left]
  · rfl
  · rw [Nat.le_sub_iff_add_le (Nat.le_trans (Nat.mul_le_mul_right _ (Nat.le_succ t)) hframe)]
    calc d.vocab + t * d.vocab = (t + 1) * d.vocab := by ring
      _ ≤ d.tLen * d.vocab := hframe

end Truncated

variable [SingleArith F]

def token (d : GreedySearch F) (t id : Nat) : TokenInfo F :=
  { tokenId := id, frameIndex := t, confidence := Logits.tokenConfidence (d.row t) id }

/-- A frame of class `id`. -/
def collapse (d : GreedySearch F) (s : Collapse F) (x : Nat × Nat) : Collapse F :=
  if some x.1 = s.prev then s
  else if x.1 = d.blankId then { s with prev := some x.1 }
  else { out := s.out ++ [d.token x.2 x.1], prev := some x.1 }

/-- The best class of a frame, with the frame. -/
def best (d : GreedySearch F) (t : Nat) : Nat × Nat := (Logits.argmax (d.row t) d.blankId, t)

def frame (d : GreedySearch F) (t : Nat) (s : Collapse F) : Collapse F × Option Unit :=
  if d.pollAbort t then (s, some ()) else (d.collapse s (d.best t), none)

/-- `ctc_greedy_decode_with_abort`. -/
def decode (d : GreedySearch F) : List (TokenInfo F) :=
  if d.vocab = 0 then []
  else (Loops.forEach d.frame (List.range d.usable) { out := [], prev := none }).1.out

/-- The maximal runs of frames with equal classes. -/
def runs (d : GreedySearch F) : List (List (Nat × Nat)) :=
  ((List.range d.usable).map d.best).splitBy fun x y => x.1 == y.1

/-- The first frame of every run that is not blank. -/
def reference (d : GreedySearch F) : List (TokenInfo F) :=
  ((d.runs.filterMap List.head?).filter fun x => x.1 ≠ d.blankId).map fun x => d.token x.2 x.1

variable {d : GreedySearch F} {s : Collapse F}

/-- What a run of one class adds to the tokens. -/
def ofHead (d : GreedySearch F) (x : Nat × Nat) : List (TokenInfo F) :=
  if x.1 = d.blankId then [] else [d.token x.2 x.1]

theorem collapse_new {x : Nat × Nat} (hnew : s.prev ≠ some x.1) :
    d.collapse s x = { out := s.out ++ d.ofHead x, prev := some x.1 } := by
  unfold collapse ofHead
  rw [if_neg (Ne.symm hnew)]
  split_ifs
  · rw [List.append_nil]
  · rfl

theorem collapse_same {x : Nat × Nat} (hsame : s.prev = some x.1) : d.collapse s x = s :=
  if_pos hsame.symm

/-- A run of one class counts once, for its first frame. -/
theorem foldl_collapse_run {x : Nat × Nat} {rest : List (Nat × Nat)} (hnew : s.prev ≠ some x.1)
    (hrun : (x :: rest).IsChain fun a b => (a.1 == b.1) = true) :
    (x :: rest).foldl d.collapse s = { out := s.out ++ d.ofHead x, prev := some x.1 } := by
  rw [List.foldl_cons, collapse_new hnew]
  induction rest generalizing x s with
  | nil => rfl
  | cons y rest ih =>
      obtain ⟨hxy, hrest⟩ := List.isChain_cons_cons.mp hrun
      have heq : x.1 = y.1 := beq_iff_eq.mp hxy
      have hchain : (x :: rest).IsChain fun a b => (a.1 == b.1) = true := by
        cases rest with
        | nil => exact List.isChain_singleton x
        | cons z rest =>
            obtain ⟨hyz, htail⟩ := List.isChain_cons_cons.mp hrest
            exact List.isChain_cons_cons.mpr ⟨heq ▸ hyz, htail⟩
      rw [List.foldl_cons, collapse_same (congrArg some heq)]
      exact ih hnew hchain

theorem fst_getLast_run {x : Nat × Nat} {rest : List (Nat × Nat)}
    (hrun : (x :: rest).IsChain fun a b => (a.1 == b.1) = true) :
    ((x :: rest).getLast (List.cons_ne_nil x rest)).1 = x.1 := by
  induction rest generalizing x with
  | nil => rfl
  | cons y rest ih =>
      obtain ⟨hxy, hrest⟩ := List.isChain_cons_cons.mp hrun
      rw [List.getLast_cons (List.cons_ne_nil y rest), ih hrest]
      exact (beq_iff_eq.mp hxy).symm

/-- Runs of changing classes count one by one. -/
theorem foldl_collapse_runs {groups : List (List (Nat × Nat))}
    (hne : [] ∉ groups) (hrun : ∀ run ∈ groups, run.IsChain fun a b => (a.1 == b.1) = true)
    (hchange : groups.IsChain fun a b => ∃ ha hb, ((a.getLast ha).1 == (b.head hb).1) = false)
    (hnew : ∀ x, groups.flatten.head? = some x → s.prev ≠ some x.1) :
    (groups.flatten.foldl d.collapse s).out =
      s.out ++ (groups.filterMap List.head?).flatMap d.ofHead := by
  induction groups generalizing s with
  | nil => rw [List.flatten_nil, List.foldl_nil, List.filterMap_nil, List.flatMap_nil, List.append_nil]
  | cons run groups ih =>
      rcases run with _ | ⟨x, rest⟩
      · exact absurd List.mem_cons_self hne
      · have hx : s.prev ≠ some x.1 := hnew x rfl
        have hfirst := hrun _ List.mem_cons_self
        have hnext : ∀ y, groups.flatten.head? = some y → (some x.1 : Option Nat) ≠ some y.1 := by
          intro y hy hsame
          rcases groups with _ | ⟨group, groups⟩
          · cases hy
          · obtain ⟨⟨hlast, hhead, hdiff⟩, _⟩ := List.isChain_cons_cons.mp hchange
            rcases group with _ | ⟨z, group⟩
            · exact hhead rfl
            · cases hy
              rw [fst_getLast_run hfirst, List.head_cons, beq_eq_false_iff_ne] at hdiff
              exact hdiff (Option.some.inj hsame)
        rw [List.flatten_cons, List.foldl_append, foldl_collapse_run hx hfirst,
          ih (fun hmem => hne (List.mem_cons_of_mem _ hmem))
            (fun run hmem => hrun run (List.mem_cons_of_mem _ hmem)) hchange.tail hnext]
        rw [List.filterMap_cons, List.head?_cons, List.flatMap_cons, List.append_assoc]

theorem flatMap_ofHead (d : GreedySearch F) (heads : List (Nat × Nat)) :
    heads.flatMap d.ofHead =
      (heads.filter fun x => x.1 ≠ d.blankId).map fun x => d.token x.2 x.1 := by
  induction heads with
  | nil => rfl
  | cons x heads ih =>
      rw [List.flatMap_cons, ih, ofHead]
      by_cases hblank : x.1 = d.blankId
      · rw [if_pos hblank, List.nil_append, List.filter_cons_of_neg (by simp [hblank])]
      · rw [if_neg hblank, List.filter_cons_of_pos (by simp [hblank])]
        rfl

/-- Without an abort the loop is a fold over the best classes. -/
theorem forEach_frame {l : List Nat} (habort : ∀ t ∈ l, d.pollAbort t = false) :
    (Loops.forEach d.frame l s).1 = (l.map d.best).foldl d.collapse s := by
  induction l generalizing s with
  | nil => rfl
  | cons t l ih =>
      have hframe : d.frame t s = (d.collapse s (d.best t), none) := by
        rw [frame, if_neg (Bool.eq_false_iff.mp (habort t List.mem_cons_self))]
      rw [Loops.forEach_cons_next (by rw [hframe]), hframe,
        ih fun u hu => habort u (List.mem_cons_of_mem t hu)]
      rfl

theorem decode_eq_reference (habort : ∀ t < d.usable, d.pollAbort t = false) :
    d.decode = d.reference := by
  unfold decode
  split_ifs with hvocab
  · have husable : d.usable = 0 := by rw [usable, hvocab, Nat.div_zero, Nat.min_zero]
    rw [reference, runs, husable]
    rfl
  · obtain ⟨hflatten, hne, hrun, hchange⟩ :=
      (List.splitBy_eq_iff (m := (List.range d.usable).map d.best) (l := d.runs)).mp rfl
    rw [forEach_frame fun t ht => habort t (List.mem_range.mp ht), hflatten,
      foldl_collapse_runs hne hrun hchange fun x _ => (Option.some_ne_none x.1).symm,
      List.nil_append, flatMap_ofHead]
    rfl

theorem frame_truncated {t : Nat} (ht : t < d.usable) : d.truncated.frame t s = d.frame t s := by
  have htoken (id : Nat) : d.truncated.token t id = d.token t id := by
    rw [token, token, row_truncated ht]
  have hbest : d.truncated.best t = d.best t := by
    rw [best, best, row_truncated ht]
    rfl
  have hcollapse : d.truncated.collapse s (d.best t) = d.collapse s (d.best t) := by
    unfold collapse
    rw [show (d.best t).2 = t from rfl, htoken]
    rfl
  unfold frame
  rw [hbest, hcollapse]
  rfl

theorem forEach_truncated {l : List Nat} (hl : ∀ t ∈ l, t < d.usable) :
    Loops.forEach d.truncated.frame l s = Loops.forEach d.frame l s := by
  induction l generalizing s with
  | nil => rfl
  | cons t l ih =>
      have hrest := fun s => ih (s := s) fun u hu => hl u (List.mem_cons_of_mem t hu)
      simp only [Loops.forEach, frame_truncated (hl t List.mem_cons_self), hrest]

/-- Frames past `tLen` are never read. -/
theorem decode_truncated (d : GreedySearch F) : d.truncated.decode = d.decode := by
  have hloop : Loops.forEach d.truncated.frame (List.range d.usable) { out := [], prev := none } =
      Loops.forEach d.frame (List.range d.usable) { out := [], prev := none } :=
    forEach_truncated fun t ht => List.mem_range.mp ht
  unfold decode
  rw [usable_truncated, hloop]
  rfl

/-- Decoding collapses the runs of the best classes, and frames past `tLen` do not matter. -/
theorem greedy_collapses (d : GreedySearch F) (habort : ∀ t < d.usable, d.pollAbort t = false) :
    d.decode = d.reference ∧
      ∀ logProbs, logProbs.take (d.tLen * d.vocab) = d.logProbs.take (d.tLen * d.vocab) →
        GreedySearch.decode { d with logProbs := logProbs } = d.decode := by
  refine ⟨decode_eq_reference habort, fun logProbs hsame => ?_⟩
  have hsearch : GreedySearch.truncated { d with logProbs := logProbs } = d.truncated := by
    unfold truncated
    rw [hsame]
  rw [← decode_truncated { d with logProbs := logProbs }, hsearch, decode_truncated]

/-- Two frames, the second past the end of the speech. -/
theorem greedy_collapses_two :
    let d : GreedySearch EReal :=
      { logProbs := [0, 1, 1, 0], tLen := 1, vocab := 2, blankId := 1, abort := none }
    d.decode = d.reference ∧
      ∀ logProbs, logProbs.take (d.tLen * d.vocab) = d.logProbs.take (d.tLen * d.vocab) →
        GreedySearch.decode { d with logProbs := logProbs } = d.decode :=
  greedy_collapses _ fun _ _ => rfl

end GreedySearch

end Ctc

end Gigastt
