import Gigastt.Slices
import Gigastt.Transition
import Gigastt.WindowGeometry

/-!
Incremental window sources. A source holds a slice of the signal: it decodes more at the end, drops
a consumed prefix, and pulls windows through the cursor once the fill target or the end of the
stream is reached. Its reads go to the buffer at positions shifted by the buffer's start.
-/

namespace Gigastt

open Slices Transition WindowCursor

variable {α : Type}

/-- One decode window lent by a source. -/
structure PcmWindow (α : Type) where
  startSample : Nat
  samples : List α
  deriving DecidableEq, Repr

structure WindowSource (α : Type) where
  cursor : WindowCursor
  buf : List α
  bufStartAbs : Nat
  decodedTotal : Nat
  eof : Bool
  /-- What every pull has returned so far. -/
  pulled : List (Option (PcmWindow α))
  /-- Some pull has read outside the buffer. -/
  outOfBuffer : Bool
  deriving DecidableEq, Repr

namespace WindowSource

inductive Action where
  | decode (count : Nat)
  | endOfStream
  | reclaim (count : Nat)
  | pull
  deriving DecidableEq, Repr

def new (spec : WindowSpec) : WindowSource α where
  cursor := .new spec
  buf := []
  bufStartAbs := 0
  decodedTotal := 0
  eof := false
  pulled := []
  outOfBuffer := false

/-- How much of the buffer lies before the cursor's `retainFrom`. -/
def reclaimable (s : WindowSource α) : Nat :=
  min (s.cursor.retainFrom - s.bufStartAbs) s.buf.length

def reclaim (s : WindowSource α) (count : Nat) : WindowSource α :=
  { s with buf := s.buf.drop count, bufStartAbs := s.bufStartAbs + count }

/-- `cursor.take` and the slice of the buffer it asks for. -/
def pull (s : WindowSource α) : WindowSource α :=
  match s.cursor.take s.decodedTotal s.eof with
  | (none, next) => { s with cursor := next, pulled := s.pulled ++ [none] }
  | (some (start, stop), next) =>
      if s.bufStartAbs ≤ start ∧ stop - s.bufStartAbs ≤ s.buf.length then
        { s with
          cursor := next
          pulled := s.pulled ++ [some {
            startSample := start
            samples := slice s.buf (start - s.bufStartAbs) (stop - s.bufStartAbs) }] }
      else { s with cursor := next, outOfBuffer := true }

theorem pull_eof (s : WindowSource α) : s.pull.eof = s.eof := by
  unfold pull
  split
  · rfl
  · split <;> rfl

theorem pull_decodedTotal (s : WindowSource α) : s.pull.decodedTotal = s.decodedTotal := by
  unfold pull
  split
  · rfl
  · split <;> rfl

/-- The steps of a source over `signal` that keeps the cursor's two promises: it drops nothing
from `retainFrom` on, and pulls only with `fillTarget` samples decoded or at the end. -/
def step (signal : List α) (s : WindowSource α) : Action → Option (WindowSource α)
  | .decode count =>
      if !s.eof ∧ s.decodedTotal + count ≤ signal.length then some { s with
        buf := s.buf ++ slice signal s.decodedTotal (s.decodedTotal + count)
        decodedTotal := s.decodedTotal + count }
      else none
  | .endOfStream => if s.decodedTotal = signal.length then some { s with eof := true } else none
  | .reclaim count => if count ≤ s.reclaimable then some (s.reclaim count) else none
  | .pull =>
      if s.eof ∨ s.cursor.fillTarget ≤ s.decodedTotal then some s.pull else none

end WindowSource

/-- The window of a fully decoded signal, with its samples. -/
def lend (signal : List α) (w : Nat × Nat) : PcmWindow α where
  startSample := w.1
  samples := slice signal w.1 w.2

/-- What the first `count` pulls of the buffer-backed source return. -/
def slicePulls (signal : List α) (spec : WindowSpec) (count : Nat) : List (Option (PcmWindow α)) :=
  (List.range count).map fun k => ((spec.windows signal.length)[k]?).map (lend signal)

theorem slicePulls_succ (signal : List α) (spec : WindowSpec) (count : Nat) :
    slicePulls signal spec (count + 1) = slicePulls signal spec count ++
      [(((spec.windows signal.length).drop count).head?).map (lend signal)] := by
  simp only [slicePulls, List.range_succ, List.map_append, List.map_cons, List.map_nil,
    List.head?_drop]

namespace WindowSource

/-- The windows a cursor has still to yield over `total` samples. -/
inductive Remaining (total : Nat) (c : WindowCursor) : List (Nat × Nat) → Prop
  | done (h : c.done = true) : Remaining total c []
  | empty (hlive : c.done = false) (h : total = 0) : Remaining total c []
  | live {ws : List (Nat × Nat)} (hc : c.Ready total) (htotal : 0 < total)
      (h : Layout total c ws) : Remaining total c ws

structure Inv (signal : List α) (spec : WindowSpec) (s : WindowSource α) : Prop where
  spec_eq : s.cursor.spec = spec
  buffered : s.buf = slice signal s.bufStartAbs s.decodedTotal
  start_le : s.bufStartAbs ≤ s.decodedTotal
  decoded_le : s.decodedTotal ≤ signal.length
  at_end : s.eof = true → s.decodedTotal = signal.length
  retained : s.cursor.done = false → s.bufStartAbs ≤ s.cursor.retainFrom
  in_buffer : s.outOfBuffer = false
  pulls : s.pulled = slicePulls signal spec s.pulled.length
  remaining : Remaining signal.length s.cursor
    ((spec.windows signal.length).drop s.pulled.length)

theorem inv_new {spec : WindowSpec} (hspec : spec.Framed) (signal : List α) :
    Inv signal spec (new spec) where
  spec_eq := rfl
  buffered := (slice_eq_nil (Nat.le_refl 0)).symm
  start_le := Nat.le_refl _
  decoded_le := Nat.zero_le _
  at_end h := by cases h
  retained _ := Nat.zero_le _
  in_buffer := rfl
  pulls := rfl
  remaining := by
    rcases Nat.eq_zero_or_pos signal.length with hzero | hpos
    · rw [hzero]
      exact .empty rfl rfl
    · exact .live (ready_new spec _) hpos (windows_layout hspec hpos).1

variable {signal : List α} {spec : WindowSpec} {s : WindowSource α}

theorem Inv.length_buf (h : Inv signal spec s) : s.buf.length = s.decodedTotal - s.bufStartAbs := by
  rw [h.buffered, length_slice h.decoded_le]

theorem Inv.decode (h : Inv signal spec s) {count : Nat} (hlive : s.eof = false)
    (hcount : s.decodedTotal + count ≤ signal.length) :
    Inv signal spec { s with
      buf := s.buf ++ slice signal s.decodedTotal (s.decodedTotal + count)
      decodedTotal := s.decodedTotal + count } :=
  { h with
    buffered := by
      rw [h.buffered]
      exact slice_append_slice h.start_le (Nat.le_add_right _ _)
    start_le := h.start_le.trans (Nat.le_add_right _ _)
    decoded_le := hcount
    at_end := fun heof => absurd heof (by simp [hlive]) }

theorem Inv.reclaim (h : Inv signal spec s) {count : Nat} (hcount : count ≤ s.reclaimable) :
    Inv signal spec (s.reclaim count) := by
  have hlen := h.length_buf
  have hstart := h.start_le
  simp only [reclaimable, Nat.le_min] at hcount
  exact
    { h with
      buffered := by
        rw [WindowSource.reclaim, h.buffered, drop_slice]
      start_le := by
        dsimp only [WindowSource.reclaim]
        omega
      retained := fun hlive => by
        have := h.retained hlive
        dsimp only [WindowSource.reclaim]
        omega }

/-- A pull that finds nothing left. -/
theorem Inv.pull_none (h : Inv signal spec s) {next : WindowCursor}
    (htake : s.cursor.take s.decodedTotal s.eof = (none, next)) (hdone : next.done = true)
    (hspec : next.spec = s.cursor.spec)
    (hrest : (spec.windows signal.length).drop s.pulled.length = []) :
    Inv signal spec s.pull := by
  have hpull : s.pull = { s with cursor := next, pulled := s.pulled ++ [none] } := by
    rw [pull, htake]
  rw [hpull]
  exact
    { h with
      spec_eq := hspec.trans h.spec_eq
      retained := fun hlive => absurd hlive (by simp [hdone])
      pulls := by
        dsimp only
        rw [List.length_append, List.length_singleton, slicePulls_succ, hrest, ← h.pulls]
        rfl
      remaining := by
        rw [List.length_append, ← List.drop_drop, hrest, List.drop_nil]
        exact .done hdone }

/-- A pull of the next window: its samples are in the buffer, and they are the signal's. -/
theorem Inv.pull_some (h : Inv signal spec s) {w : Nat × Nat} {next : WindowCursor}
    {ws : List (Nat × Nat)} (htake : s.cursor.take s.decodedTotal s.eof = (some w, next))
    (hspec : next.spec = s.cursor.spec) (hbuf : s.bufStartAbs ≤ w.1)
    (hstop : w.2 ≤ s.decodedTotal)
    (hretain : next.done = false → s.bufStartAbs ≤ next.retainFrom)
    (hrest : (spec.windows signal.length).drop s.pulled.length = w :: ws)
    (hnext : Remaining signal.length next ws) : Inv signal spec s.pull := by
  have hlen := h.length_buf
  have hpull : s.pull = { s with
      cursor := next
      pulled := s.pulled ++ [some (lend signal w)] } := by
    rw [pull, htake]
    simp only [lend]
    rw [if_pos ⟨hbuf, by omega⟩, h.buffered, slice_slice hbuf hstop]
  rw [hpull]
  exact
    { h with
      spec_eq := hspec.trans h.spec_eq
      retained := hretain
      pulls := by
        dsimp only
        rw [List.length_append, List.length_singleton, slicePulls_succ, hrest, ← h.pulls]
        rfl
      remaining := by
        rw [List.length_append, ← List.drop_drop, hrest]
        exact hnext }

theorem Inv.pull (h : Inv signal spec s) (hframed : spec.Framed)
    (hfill : s.eof = true ∨ s.cursor.fillTarget ≤ s.decodedTotal) : Inv signal spec s.pull := by
  have hspec : s.cursor.spec.Framed := h.spec_eq ▸ hframed
  have hdecoded := h.decoded_le
  rcases hrest : (spec.windows signal.length).drop s.pulled.length with _ | ⟨w, ws⟩
  · have hremaining := h.remaining
    rw [hrest] at hremaining
    cases hremaining with
    | done hdone =>
        exact h.pull_none (by rw [take, if_pos hdone]) hdone rfl hrest
    | empty hlive hzero =>
        refine h.pull_none (?_ : _ = (none, { s.cursor with done := true })) rfl rfl hrest
        rw [take, hlive, if_neg Bool.false_ne_true, if_pos (by omega)]
    | live _ _ hlayout => cases hlayout
  · have hremaining := h.remaining
    rw [hrest] at hremaining
    obtain ⟨hc, htotal, hlayout⟩ : s.cursor.Ready signal.length ∧ 0 < signal.length ∧
        Layout signal.length s.cursor (w :: ws) := by
      cases hremaining with
      | live hc htotal hlayout => exact ⟨hc, htotal, hlayout⟩
    have hretained := h.retained hc.live
    have hfrom : s.cursor.retainFrom ≤ s.cursor.nextStart := Nat.sub_le _ _
    have hmax : s.cursor.spec.window ≤ s.cursor.lastWindowMax := Nat.le_max_right _ _
    cases hlayout with
    | @last _ start hlast htake =>
        -- The end is within reach of the last window, so the source has met it.
        have heof : s.eof = true := by
          rcases hfill with heof | hfill
          · exact heof
          · have := hlast.within
            have := hlast.le_next
            have := hlast.lt_total
            simp only [fillTarget] at hfill
            omega
        have hstart : s.cursor.retainFrom ≤ start := by
          simp only [retainFrom]
          cases hprev : s.cursor.prevStart with
          | none => rw [hc.first hprev, Nat.zero_sub]; exact Nat.zero_le _
          | some p =>
              have := (hc.prev p hprev).1
              have := hlast.after_prev p hprev
              omega
        have hlast : s.cursor.take s.decodedTotal s.eof = (some (start, signal.length),
            { s.cursor with done := true, prevStart := some start }) := by
          rw [heof, h.at_end heof]
          exact htake
        exact h.pull_some hlast rfl (hretained.trans hstart) (h.at_end heof).ge
          (fun hlive => by cases hlive) hrest (.done rfl)
    | cons hfar hlayout =>
        have hreach : s.cursor.nextStart + s.cursor.lastWindowMax < s.decodedTotal := by
          rcases hfill with heof | hfill
          · rw [h.at_end heof]
            exact hfar
          · simp only [fillTarget] at hfill
            omega
        refine h.pull_some (take_of_far s.eof hc.live hreach) rfl (hretained.trans hfrom) ?_
          (fun _ => ?_) hrest (.live (hc.advance hspec (by omega)) htotal hlayout)
        · dsimp only
          omega
        · simp only [retainFrom, advance]
          omega

theorem Inv.step (h : Inv signal spec s) (hframed : spec.Framed) {a : Action} {t : WindowSource α}
    (hstep : step signal s a = some t) : Inv signal spec t := by
  cases a with
  | decode count =>
      simp only [WindowSource.step] at hstep
      split at hstep <;> cases hstep
      rename_i hdecode
      exact h.decode (by simpa using hdecode.1) hdecode.2
  | endOfStream =>
      simp only [WindowSource.step] at hstep
      split at hstep <;> cases hstep
      rename_i hend
      exact { h with at_end := fun _ => hend }
  | reclaim count =>
      simp only [WindowSource.step] at hstep
      split at hstep <;> cases hstep
      rename_i hcount
      exact h.reclaim hcount
  | pull =>
      simp only [WindowSource.step] at hstep
      split at hstep <;> cases hstep
      rename_i hfill
      exact h.pull hframed hfill

theorem inv_run {spec : WindowSpec} (hspec : spec.Framed) {signal : List α} {acts : List Action}
    {s : WindowSource α} (hrun : run (WindowSource.step signal) (new spec) acts = some s) :
    Inv signal spec s := by
  refine run_invariant ?_ hrun (guarded_of_forall (fun _ _ => trivial) _ _) (inv_new hspec signal)
  exact fun _ _ _ hstep _ h => h.step hspec hstep

/-- An incremental source pulls exactly the windows of the whole signal, in order and with their
samples, however much was decoded at each pull, and never reads outside its buffer. -/
theorem pulls_eq_slicePulls (singlePassMax overlap : Nat) {window : Nat}
    (hpos : frameSamples ≤ window) (hdvd : frameSamples ∣ window) (signal : List α)
    (acts : List Action) (s : WindowSource α)
    (hrun : run (WindowSource.step signal) (new (.new singlePassMax window overlap)) acts =
      some s) :
    s.pulled = slicePulls signal (.new singlePassMax window overlap) s.pulled.length ∧
      s.outOfBuffer = false := by
  have h := inv_run (WindowSpec.new_framed singlePassMax overlap hpos hdvd) hrun
  exact ⟨h.pulls, h.in_buffer⟩

theorem pulls_eq_slicePulls_two :
    let signal := List.replicate 1500 0
    let spec := WindowSpec.new 0 1280 640
    ∃ s : WindowSource Nat, run (WindowSource.step signal) (new spec)
        [.decode 1281, .pull, .decode 219, .endOfStream, .reclaim 0, .pull] = some s ∧
      s.pulled = slicePulls signal spec s.pulled.length ∧ s.outOfBuffer = false := by
  intro signal spec
  have hrun : (run (WindowSource.step signal) (new spec)
      [.decode 1281, .pull, .decode 219, .endOfStream, .reclaim 0, .pull]).isSome := by
    decide +kernel
  obtain ⟨s, hs⟩ := Option.isSome_iff_exists.mp hrun
  exact ⟨s, hs, pulls_eq_slicePulls 0 640 (by decide) (by decide) signal _ s hs⟩

end WindowSource

/-- A container decoder: the blocks it still yields, and what its resampler flushes at the end. -/
structure Decoder (α : Type) where
  blocks : List (List α)
  tail : List α
  deriving DecidableEq, Repr

/-- `FileWindows` or `VadWindows`: a window source over a decoder. The latter yields no window at
all, not even a last empty one, when nothing was decoded. -/
structure FileWindows (α : Type) where
  source : WindowSource α
  decoder : Decoder α
  skipsEmpty : Bool
  deriving DecidableEq, Repr

namespace FileWindows

def new (spec : WindowSpec) (decoder : Decoder α) (skipsEmpty : Bool) : FileWindows α :=
  { source := .new spec, decoder, skipsEmpty }

/-- Append a decoded block to the buffer. -/
def append (s : WindowSource α) (block : List α) : WindowSource α :=
  { s with buf := s.buf ++ block, decodedTotal := s.decodedTotal + block.length }

/-- Decode until `target` samples have been produced or the stream ends. -/
def fillTo (target : Nat) (tail : List α) :
    List (List α) → WindowSource α → WindowSource α × Decoder α
  | blocks, s =>
      if s.eof || target ≤ s.decodedTotal then (s, { blocks, tail })
      else match blocks with
        | [] => ({ append s tail with eof := true }, { blocks := [], tail := [] })
        | block :: rest => fillTo target tail rest (append s block)

def nextWindow (f : FileWindows α) : FileWindows α :=
  if f.source.cursor.done then f
  else
    let reclaimed := f.source.reclaim f.source.reclaimable
    let filled := fillTo reclaimed.cursor.fillTarget f.decoder.tail f.decoder.blocks reclaimed
    if f.skipsEmpty && filled.1.eof && filled.1.decodedTotal == 0 then
      { f with source := filled.1, decoder := filled.2 }
    else { f with source := filled.1.pull, decoder := filled.2 }

def nextWindows : Nat → FileWindows α → FileWindows α
  | 0, f => f
  | n + 1, f => nextWindows n f.nextWindow

/-- What has been decoded is the front of `signal` and what the decoder still yields is the rest. -/
def Decodes (signal : List α) (s : WindowSource α) (d : Decoder α) : Prop :=
  if s.eof then s.decodedTotal = signal.length
  else s.decodedTotal ≤ signal.length ∧ signal.drop s.decodedTotal = d.blocks.flatten ++ d.tail

theorem step_append {signal block rest : List α} {s : WindowSource α} (hlive : s.eof = false)
    (hle : s.decodedTotal ≤ signal.length) (hdrop : signal.drop s.decodedTotal = block ++ rest) :
    WindowSource.step signal s (.decode block.length) = some (append s block) ∧
      (append s block).decodedTotal ≤ signal.length ∧
      signal.drop (append s block).decodedTotal = rest := by
  have hlen : signal.length - s.decodedTotal = block.length + rest.length := by
    rw [← List.length_drop, hdrop, List.length_append]
  have hslice : slice signal s.decodedTotal (s.decodedTotal + block.length) = block := by
    rw [slice, List.drop_take, hdrop, Nat.add_sub_cancel_left, List.take_left]
  refine ⟨?_, ?_, ?_⟩
  · rw [WindowSource.step, if_pos ⟨by simp [hlive], by omega⟩, hslice]
    rfl
  · dsimp only [append]
    omega
  · dsimp only [append]
    rw [← List.drop_drop, hdrop, List.drop_left]

/-- Filling is a run of decoding steps, and it ends with the target or the end of the stream. -/
theorem fillTo_run {signal : List α} (target : Nat) (tail : List α) {blocks : List (List α)}
    {s t : WindowSource α} (hreach : Reachable (WindowSource.step signal) t s)
    (hdecodes : Decodes signal s { blocks, tail }) :
    let filled := fillTo target tail blocks s
    Reachable (WindowSource.step signal) t filled.1 ∧ Decodes signal filled.1 filled.2 ∧
      (filled.1.eof = true ∨ target ≤ filled.1.decodedTotal) ∧
      filled.1.cursor = s.cursor := by
  induction blocks generalizing s with
  | nil =>
      rw [fillTo]
      split
      · rename_i hstop
        exact ⟨hreach, hdecodes, by simpa using hstop, rfl⟩
      · rename_i hstop
        have hlive : s.eof = false := by
          cases heof : s.eof
          · rfl
          · simp [heof] at hstop
        simp only [Decodes, hlive, Bool.false_eq_true, if_false, List.flatten_nil,
          List.nil_append] at hdecodes
        obtain ⟨hstep, hle, hdrop⟩ :=
          step_append hlive hdecodes.1 (hdecodes.2.trans (List.append_nil tail).symm)
        have hend : (append s tail).decodedTotal = signal.length :=
          Nat.le_antisymm hle (List.drop_eq_nil_iff.mp hdrop)
        refine ⟨(hreach.tail hstep).tail (a := .endOfStream) ?_, ?_, Or.inl rfl, rfl⟩
        · rw [WindowSource.step, if_pos hend]
        · exact hend
  | cons block rest ih =>
      rw [fillTo]
      split
      · rename_i hstop
        exact ⟨hreach, hdecodes, by simpa using hstop, rfl⟩
      · rename_i hstop
        have hlive : s.eof = false := by
          cases heof : s.eof
          · rfl
          · simp [heof] at hstop
        simp only [Decodes, hlive, Bool.false_eq_true, if_false, List.flatten_cons,
          List.append_assoc] at hdecodes
        obtain ⟨hstep, hle, hdrop⟩ := step_append hlive hdecodes.1 hdecodes.2
        exact ih (hreach.tail hstep) (by
          simp only [Decodes, append, hlive, Bool.false_eq_true, if_false]
          exact ⟨hle, hdrop⟩)

/-- One `next_window` is a run of source steps. -/
theorem nextWindow_run {signal : List α} {t : WindowSource α} {f : FileWindows α}
    (hreach : Reachable (WindowSource.step signal) t f.source)
    (hdecodes : Decodes signal f.source f.decoder) :
    Reachable (WindowSource.step signal) t f.nextWindow.source ∧
      Decodes signal f.nextWindow.source f.nextWindow.decoder := by
  rw [nextWindow]
  split
  · exact ⟨hreach, hdecodes⟩
  · have hreclaim : Reachable (WindowSource.step signal) t
        (f.source.reclaim f.source.reclaimable) := by
      apply hreach.tail (a := .reclaim f.source.reclaimable)
      rw [WindowSource.step, if_pos (Nat.le_refl _)]
    obtain ⟨hfilled, hrest, hstop, hcursor⟩ := fillTo_run
      (f.source.reclaim f.source.reclaimable).cursor.fillTarget f.decoder.tail hreclaim hdecodes
    dsimp only
    split
    · exact ⟨hfilled, hrest⟩
    · constructor
      · apply hfilled.tail (a := .pull)
        rw [WindowSource.step, if_pos (by rw [hcursor]; exact hstop)]
      · simpa only [Decodes, WindowSource.pull_eof, WindowSource.pull_decodedTotal] using hrest

/-- A source over a container yields the windows of the whole decoded signal, whatever blocks the
decoder happens to yield. -/
theorem pulled_eq_slicePulls {spec : WindowSpec} (hspec : spec.Framed) (decoder : Decoder α)
    (skipsEmpty : Bool) (n : Nat) :
    let signal := decoder.blocks.flatten ++ decoder.tail
    let f := nextWindows n (new spec decoder skipsEmpty)
    f.source.pulled = slicePulls signal spec f.source.pulled.length ∧
      f.source.outOfBuffer = false := by
  intro signal f
  have hrun : Reachable (WindowSource.step signal) (.new spec) f.source := by
    have hstart : Decodes signal (new spec decoder skipsEmpty).source decoder :=
      ⟨Nat.zero_le _, rfl⟩
    suffices hall : ∀ (n : Nat) (g : FileWindows α),
        Reachable (WindowSource.step signal) (.new spec) g.source →
        Decodes signal g.source g.decoder →
        Reachable (WindowSource.step signal) (.new spec) (nextWindows n g).source from
      hall n _ (.refl _) hstart
    intro n
    induction n with
    | zero => exact fun _ hreach _ => hreach
    | succ n ih =>
        intro g hreach hdecodes
        obtain ⟨hnext, hrest⟩ := nextWindow_run hreach hdecodes
        exact ih g.nextWindow hnext hrest
  obtain ⟨acts, hacts⟩ := hrun
  have hinv := WindowSource.inv_run hspec hacts
  exact ⟨hinv.pulls, hinv.in_buffer⟩

end FileWindows

end Gigastt
