import Gigastt.WindowSource

/-!
Plain consecutive chunks of a container's audio. The samples come from a window source without overlap,
whose windows are themselves consecutive pieces; the chunks are cut from what has been pulled so far.
-/

namespace Gigastt

open Slices

/-- Samples pulled from the container at a time. -/
def pullSamples : Nat := 32000

variable {α : Type}

/-- What the next `next_window` lends, if anything: the entry it adds to the pulls. -/
def FileWindows.lent (f : FileWindows α) : Option (PcmWindow α) :=
  (f.nextWindow.source.pulled[f.source.pulled.length]?).join

structure AudioChunks (α : Type) where
  src : FileWindows α
  /-- Decoded, and not yet emitted. -/
  pending : List α
  chunkSamples : Nat
  eof : Bool

namespace AudioChunks

def fromDecoder (decoder : Decoder α) (chunkSamples : Nat) : AudioChunks α where
  src := .new (.new 0 pullSamples 0) decoder false
  pending := []
  chunkSamples := max chunkSamples 1
  eof := false

/-- The loop that fills a chunk, for at most so many rounds. -/
def fill : Nat → AudioChunks α → Option (AudioChunks α)
  | 0, _ => none
  | rounds + 1, c =>
      if !c.eof && c.pending.length < c.chunkSamples then
        match c.src.lent with
        | some w => fill rounds { c with src := c.src.nextWindow, pending := c.pending ++ w.samples }
        | none => fill rounds { c with src := c.src.nextWindow, eof := true }
      else some c

/-- The next chunk, if there is one, unless the loop has not ended after a pull for every sample. -/
def nextChunk (c : AudioChunks α) : Option (Option (List α) × AudioChunks α) :=
  (fill (c.chunkSamples + 2) c).map fun c =>
    if c.pending = [] then (none, c)
    else
      let take := min c.chunkSamples c.pending.length
      (some (c.pending.take take), { c with pending := c.pending.drop take })

/-- What so many calls return. -/
def nextChunks : Nat → AudioChunks α → Option (List (Option (List α)))
  | 0, _ => some []
  | count + 1, c =>
      c.nextChunk.bind fun result => (nextChunks count result.2).map (result.1 :: ·)

end AudioChunks

/-- The windows of a spec without overlap are the consecutive pieces of the signal. -/
theorem WindowCursor.Layout.getElem? {total : Nat} {c : WindowCursor} {ws : List (Nat × Nat)}
    (h : Layout total c ws) (hspec : c.spec.Framed) (hoverlap : c.spec.overlap = 0)
    (hceiling : c.spec.singlePassMax ≤ c.spec.window) (k : Nat) :
    ws[k]? =
      if c.nextStart + k * c.spec.window < total then
        some (c.nextStart + k * c.spec.window, min (c.nextStart + (k + 1) * c.spec.window) total)
      else none := by
  have hmax : c.lastWindowMax = c.spec.window := Nat.max_eq_right hceiling
  induction h generalizing k with
  | @last c start hlast _ =>
      have hstart := hlast.exact_of_partition hoverlap
      have hwithin := hlast.within
      have hlt := hlast.lt_total
      cases k with
      | zero =>
          rw [Nat.zero_mul, Nat.add_zero, Nat.zero_add, Nat.one_mul, if_pos (by omega), ← hstart,
            Nat.min_eq_right (by omega)]
          rfl
      | succ k =>
          rw [Nat.succ_mul, if_neg (by omega)]
          rfl
  | @cons c ws hfar _ ih =>
      have hstride : c.spec.stride = c.spec.window := by
        have hle := hspec.stride_le
        simp only [WindowSpec.overlap] at hoverlap
        omega
      cases k with
      | zero =>
          rw [Nat.zero_mul, Nat.add_zero, Nat.zero_add, Nat.one_mul, if_pos (by omega),
            Nat.min_eq_left (by omega)]
          rfl
      | succ k =>
          have hrest := ih hspec hoverlap hceiling k hmax
          have hshift : ∀ j, c.nextStart + c.spec.window + j * c.spec.window =
              c.nextStart + (j + 1) * c.spec.window := by
            intro j
            rw [Nat.succ_mul, Nat.add_assoc, Nat.add_comm c.spec.window]
          simp only [advance, hstride] at hrest
          rw [List.getElem?_cons_succ, hrest, hshift, hshift]

namespace AudioChunks

open WindowCursor

theorem framed : (WindowSpec.new 0 pullSamples 0).Framed :=
  WindowSpec.new_framed 0 0 (by decide) (by decide)

/-- The windows that the pulls give: the consecutive pieces of one pull. -/
theorem windows_pull (total k : Nat) :
    ((WindowSpec.new 0 pullSamples 0).windows total)[k]? =
      if k * pullSamples < total then
        some (k * pullSamples, min ((k + 1) * pullSamples) total)
      else none := by
  rcases Nat.eq_zero_or_pos total with rfl | hpos
  · rw [if_neg (Nat.not_lt_zero _)]
    rfl
  · have h := (windows_layout framed hpos).1.getElem? framed (by decide) (Nat.zero_le _) k
    rwa [show (WindowCursor.new (WindowSpec.new 0 pullSamples 0)).nextStart = 0 from rfl,
      Nat.zero_add, Nat.zero_add] at h

/-- The samples that so many pulls have given. -/
def received (signal : List α) (f : FileWindows α) : Nat :=
  min (f.source.pulled.length * pullSamples) signal.length

/-- A window source over the signal in the midst of its pulls. -/
structure Pulls (signal : List α) (f : FileWindows α) : Prop where
  inv : WindowSource.Inv signal (.new 0 pullSamples 0) f.source
  decodes : FileWindows.Decodes signal f.source f.decoder
  keeps : f.skipsEmpty = false

variable {signal : List α} {f : FileWindows α}

theorem pulls_new (decoder : Decoder α) :
    Pulls (decoder.blocks.flatten ++ decoder.tail) (.new (.new 0 pullSamples 0) decoder false) where
  inv := WindowSource.inv_new framed _
  decodes := ⟨Nat.zero_le _, rfl⟩
  keeps := rfl

theorem fillTo_pulled (target : Nat) (tail : List α) (blocks : List (List α)) (s : WindowSource α) :
    (FileWindows.fillTo target tail blocks s).1.pulled = s.pulled := by
  induction blocks generalizing s with
  | nil =>
      rw [FileWindows.fillTo]
      split <;> rfl
  | cons block blocks ih =>
      rw [FileWindows.fillTo]
      split
      · rfl
      · exact ih _

theorem length_pulled_pull {s : WindowSource α} (h : s.pull.outOfBuffer = false) :
    s.pull.pulled.length = s.pulled.length + 1 := by
  rcases htake : s.cursor.take s.decodedTotal s.eof with ⟨w, next⟩
  cases w with
  | none => simp only [WindowSource.pull, htake, List.length_append, List.length_singleton]
  | some w =>
      simp only [WindowSource.pull, htake] at h ⊢
      by_cases hbuf : s.bufStartAbs ≤ w.1 ∧ w.2 - s.bufStartAbs ≤ s.buf.length
      · rw [if_pos hbuf, List.length_append, List.length_singleton]
      · rw [if_neg hbuf] at h
        cases h

theorem Pulls.inv_next (h : Pulls signal f) :
    WindowSource.Inv signal (.new 0 pullSamples 0) f.nextWindow.source := by
  obtain ⟨⟨acts, hrun⟩, _⟩ := FileWindows.nextWindow_run (.refl f.source) h.decodes
  refine Transition.run_invariant ?_ hrun
    (Transition.guarded_of_forall (fun _ _ => trivial) _ _) h.inv
  exact fun _ _ _ hstep _ hs => hs.step framed hstep

theorem Pulls.nextWindow (h : Pulls signal f) : Pulls signal f.nextWindow where
  inv := h.inv_next
  decodes := (FileWindows.nextWindow_run (.refl f.source) h.decodes).2
  keeps := by
    rw [FileWindows.nextWindow]
    split
    · exact h.keeps
    · rw [h.keeps]
      rfl

/-- When nothing is pulled any more, everything has been. -/
theorem Pulls.received_of_done (h : Pulls signal f) (hdone : f.source.cursor.done = true) :
    received signal f = signal.length := by
  have hrest : ((WindowSpec.new 0 pullSamples 0).windows signal.length)[f.source.pulled.length]? =
      none := by
    have hremaining := h.inv.remaining
    rw [List.getElem?_eq_none_iff, ← List.drop_eq_nil_iff]
    generalize List.drop f.source.pulled.length _ = ws at hremaining
    cases hremaining with
    | done _ => rfl
    | empty hlive _ => exact absurd hdone (by simp [hlive])
    | live hc _ _ => exact absurd hdone (by simp [hc.live])
  rw [windows_pull] at hrest
  split at hrest
  · cases hrest
  · exact Nat.min_eq_right (by omega)

section Live

variable (hlive : ¬f.source.cursor.done = true)
include hlive

theorem Pulls.length_pulled (h : Pulls signal f) :
    f.nextWindow.source.pulled.length = f.source.pulled.length + 1 := by
  have hpull : f.nextWindow.source = (FileWindows.fillTo
      (f.source.reclaim f.source.reclaimable).cursor.fillTarget f.decoder.tail f.decoder.blocks
      (f.source.reclaim f.source.reclaimable)).1.pull := by
    rw [FileWindows.nextWindow, if_neg hlive, h.keeps]
    rfl
  rw [hpull, length_pulled_pull (hpull ▸ h.inv_next.in_buffer), fillTo_pulled]
  rfl

theorem Pulls.lent_eq (h : Pulls signal f) :
    f.lent = if f.source.pulled.length * pullSamples < signal.length then
      some (lend signal (f.source.pulled.length * pullSamples,
        min ((f.source.pulled.length + 1) * pullSamples) signal.length)) else none := by
  rw [FileWindows.lent, h.inv_next.pulls, h.length_pulled hlive, slicePulls, List.getElem?_map,
    List.getElem?_range (Nat.lt_succ_self _), Option.map_some, Option.join_some, windows_pull]
  split <;> rfl

end Live

/-- Every pull gives the next samples, until all have been given. -/
theorem Pulls.next (h : Pulls signal f) :
    received signal f.nextWindow = min (received signal f + pullSamples) signal.length ∧
      f.lent.map PcmWindow.samples =
        if received signal f < signal.length then
          some (slice signal (received signal f)
            (min (received signal f + pullSamples) signal.length))
        else none := by
  by_cases hdone : f.source.cursor.done = true
  · have hsame : f.nextWindow = f := by rw [FileWindows.nextWindow, if_pos hdone]
    rw [FileWindows.lent, hsame, h.received_of_done hdone, if_neg (Nat.lt_irrefl _),
      List.getElem?_eq_none (Nat.le_refl _)]
    exact ⟨(Nat.min_eq_right (Nat.le_add_right _ _)).symm, rfl⟩
  · have hlength := h.length_pulled hdone
    have hlent := h.lent_eq hdone
    constructor
    · rw [received, received, hlength, Nat.succ_mul]
      omega
    · by_cases hmore : f.source.pulled.length * pullSamples < signal.length
      · have hall : received signal f = f.source.pulled.length * pullSamples :=
          Nat.min_eq_left hmore.le
        rw [hlent, if_pos hmore, hall, if_pos hmore, Option.map_some, lend, Nat.succ_mul]
      · have hall : received signal f = signal.length := Nat.min_eq_right (by omega)
        rw [hlent, if_neg hmore, hall, if_neg (Nat.lt_irrefl _), Option.map_none]

/-- The chunks up to `pos` have been emitted; what has been pulled after it is pending. -/
structure Holds (signal : List α) (n pos : Nat) (c : AudioChunks α) : Prop where
  pulls : Pulls signal c.src
  size : c.chunkSamples = n
  pending : c.pending = slice signal pos (received signal c.src)
  emitted : pos ≤ received signal c.src
  at_end : c.eof = true → received signal c.src = signal.length

variable {n pos : Nat} {c : AudioChunks α}

theorem received_le (signal : List α) (f : FileWindows α) : received signal f ≤ signal.length :=
  Nat.min_le_right _ _

theorem Holds.length_pending (h : Holds signal n pos c) :
    c.pending.length = received signal c.src - pos := by
  rw [h.pending, length_slice (received_le signal c.src)]

section Pull

variable (h : Holds signal n pos c)
include h

/-- A pull that lends nothing comes at the end of the stream. -/
theorem Holds.ended (hw : c.src.lent = none) :
    Holds signal n pos { c with src := c.src.nextWindow, eof := true } := by
  obtain ⟨hnext, hlent⟩ := h.pulls.next
  have hreceived := received_le signal c.src
  have hemitted := h.emitted
  have hall : received signal c.src = signal.length := by
    rw [hw, Option.map_none] at hlent
    split at hlent
    · cases hlent
    · omega
  have hall' : received signal c.src.nextWindow = signal.length := by omega
  exact
    { pulls := h.pulls.nextWindow
      size := h.size
      pending := by rw [h.pending, hall, hall']
      emitted := by dsimp only; omega
      at_end := fun _ => hall' }

/-- A pull that lends samples lends the next ones. -/
theorem Holds.grown {w : PcmWindow α} (hw : c.src.lent = some w) (heof : c.eof = false) :
    Holds signal n pos { c with src := c.src.nextWindow, pending := c.pending ++ w.samples } ∧
      received signal c.src < received signal c.src.nextWindow := by
  obtain ⟨hnext, hlent⟩ := h.pulls.next
  have hemitted := h.emitted
  have hpull : 0 < pullSamples := by decide
  have hmore : received signal c.src < signal.length := by
    rw [hw, Option.map_some] at hlent
    split at hlent
    · assumption
    · cases hlent
  rw [hw, Option.map_some, if_pos hmore, Option.some.injEq, ← hnext] at hlent
  refine ⟨?_, by omega⟩
  exact
    { pulls := h.pulls.nextWindow
      size := h.size
      pending := by
        dsimp only
        rw [h.pending, hlent, slice_append_slice hemitted (by omega)]
      emitted := by dsimp only; omega
      at_end := fun hended => absurd hended (by simp [heof]) }

end Pull

/-- The loop ends with a whole chunk, or with all there is. -/
theorem Holds.fill (h : Holds signal n pos c) {rounds : Nat}
    (hrounds : n + 2 ≤ rounds + c.pending.length) (hsome : 0 < rounds) :
    ∃ c', AudioChunks.fill rounds c = some c' ∧ Holds signal n pos c' ∧
      min (pos + n) signal.length ≤ received signal c'.src := by
  induction rounds generalizing c with
  | zero => exact absurd hsome (Nat.lt_irrefl 0)
  | succ rounds ih =>
      have hlength := h.length_pending
      have hreceived := received_le signal c.src
      have hemitted := h.emitted
      rw [AudioChunks.fill]
      by_cases hloop : c.eof = false ∧ c.pending.length < n
      · rw [if_pos (by simp [hloop.1, h.size, hloop.2])]
        rcases hw : c.src.lent with _ | w
        · -- the stream has ended: the loop looks once more and leaves
          have hended := h.ended hw
          have hall := hended.at_end rfl
          obtain ⟨more, rfl⟩ : ∃ more, rounds = more + 1 := Nat.exists_eq_add_of_le' (by omega)
          refine ⟨_, ?_, hended, by rw [hall]; exact Nat.min_le_right _ _⟩
          dsimp only
          rw [AudioChunks.fill, if_neg (by simp)]
        · obtain ⟨hgrown, hless⟩ := h.grown hw hloop.1
          have hlength' := hgrown.length_pending
          dsimp only at hlength' ⊢
          exact ih hgrown (by dsimp only; omega) (by omega)
      · rw [if_neg (by simpa [h.size] using hloop)]
        refine ⟨c, rfl, h, ?_⟩
        by_cases heof : c.eof = true
        · have := h.at_end heof
          omega
        · have : ¬c.pending.length < n := fun hlt => hloop ⟨by simpa using heof, hlt⟩
          omega

/-- A call gives the next `n` samples, or those that are left. -/
theorem Holds.nextChunk (h : Holds signal n pos c) (hn : 0 < n) :
    ∃ c', c.nextChunk = some
        (if pos < signal.length then some (slice signal pos (pos + n)) else none, c') ∧
      Holds signal n (min (pos + n) signal.length) c' := by
  have hrounds : n + 2 ≤ n + 2 + c.pending.length := Nat.le_add_right _ _
  obtain ⟨c', hfill, hc', hreach⟩ := h.fill hrounds (Nat.succ_pos _)
  have hlength := hc'.length_pending
  have hreceived := received_le signal c'.src
  have hemitted := hc'.emitted
  have hempty : c'.pending = [] ↔ ¬pos < signal.length := by
    rw [← List.length_eq_zero_iff]
    omega
  rw [AudioChunks.nextChunk, h.size, hfill, Option.map_some]
  by_cases hmore : pos < signal.length
  · have htake : min c'.chunkSamples c'.pending.length = min (pos + n) signal.length - pos := by
      rw [hc'.size, hlength]
      omega
    have hstop : pos + (min (pos + n) signal.length - pos) = min (pos + n) signal.length := by omega
    have hchunk : c'.pending.take (min (pos + n) signal.length - pos) =
        slice signal pos (pos + n) := by
      rw [hc'.pending, take_slice, hstop, Nat.min_eq_left hreach, slice_min_length]
    dsimp only
    rw [if_neg (not_not_intro hmore ∘ hempty.mp), if_pos hmore, htake, hchunk]
    refine ⟨_, rfl, ?_⟩
    exact
      { pulls := hc'.pulls
        size := hc'.size
        pending := by
          dsimp only
          rw [hc'.pending, drop_slice, hstop]
        emitted := hreach
        at_end := hc'.at_end }
  · rw [if_pos (hempty.mpr hmore), if_neg hmore]
    refine ⟨c', rfl, ?_⟩
    have hpos : min (pos + n) signal.length = pos := by omega
    rwa [hpos]

theorem Holds.nextChunks (h : Holds signal n pos c) (hn : 0 < n) {k : Nat}
    (hpos : pos = min (k * n) signal.length) (count : Nat) :
    AudioChunks.nextChunks count c =
      some ((List.range' k count).map fun i => (pieces n signal)[i]?) := by
  induction count generalizing c pos k with
  | zero => rfl
  | succ count ih =>
      obtain ⟨c', hnext, hc'⟩ := h.nextChunk hn
      have hpiece : (if pos < signal.length then some (slice signal pos (pos + n)) else none) =
          (pieces n signal)[k]? := by
        rw [getElem?_pieces hn, Nat.succ_mul]
        by_cases hmore : k * n < signal.length
        · rw [hpos, Nat.min_eq_left hmore.le, if_pos hmore]
        · rw [if_neg hmore, if_neg (by omega)]
      have hrest := ih hc' (k := k + 1) (by rw [hpos, Nat.succ_mul]; omega)
      rw [AudioChunks.nextChunks, hnext, Option.bind_some, hrest, hpiece]
      rfl

/-- Whatever blocks the decoder yields, the chunks are the whole signal cut into consecutive pieces,
and then nothing. -/
theorem nextChunks_eq_pieces (decoder : Decoder α) (chunkSamples count : Nat) :
    nextChunks count (fromDecoder decoder chunkSamples) = some ((List.range count).map fun i =>
      (pieces (max chunkSamples 1) (decoder.blocks.flatten ++ decoder.tail))[i]?) := by
  have h : Holds (decoder.blocks.flatten ++ decoder.tail) (max chunkSamples 1) 0
      (fromDecoder decoder chunkSamples) :=
    { pulls := pulls_new decoder
      size := rfl
      pending := (slice_eq_nil (by simp [received, fromDecoder, FileWindows.new, WindowSource.new])).symm
      emitted := Nat.zero_le _
      at_end := fun heof => by cases heof }
  rw [h.nextChunks (by omega) (k := 0) (by rw [Nat.zero_mul, Nat.zero_min]), List.range_eq_range']

end AudioChunks

end Gigastt
