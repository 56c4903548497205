import Gigastt.AudioChunks

/-!
What successive calls of `next_window` return, for every window geometry: the windows of the whole signal
one after the other, and nothing from then on.
-/

namespace Gigastt.FileWindows

open Slices Transition WindowCursor

variable {α : Type}

/-- After `k` calls: every call has taken a window, or all windows have been taken. -/
structure Pulling (signal : List α) (spec : WindowSpec) (f : FileWindows α) (k : ℕ) : Prop where
  inv : WindowSource.Inv signal spec f.source
  decodes : Decodes signal f.source f.decoder
  done_eof : f.source.cursor.done = true → f.source.eof = true
  count : f.source.pulled.length = k ∨ (spec.windows signal.length).length ≤ k ∧
    (f.source.cursor.done = true ∨ f.skipsEmpty = true ∧ signal = [])

variable {signal : List α} {spec : WindowSpec} {f : FileWindows α} {k : ℕ}

theorem pulling_new (hspec : spec.Framed) (decoder : Decoder α) (skipsEmpty : Bool) :
    Pulling (decoder.blocks.flatten ++ decoder.tail) spec (new spec decoder skipsEmpty) 0 where
  inv := WindowSource.inv_new hspec _
  decodes := ⟨Nat.zero_le _, rfl⟩
  done_eof h := by cases h
  count := .inl rfl

/-- The buffer with the consumed front dropped and enough decoded for the next pull. -/
def filled (f : FileWindows α) : WindowSource α × Decoder α :=
  fillTo f.source.cursor.fillTarget f.decoder.tail f.decoder.blocks
    (f.source.reclaim f.source.reclaimable)

theorem filled_pulled : f.filled.1.pulled = f.source.pulled :=
  AudioChunks.fillTo_pulled _ _ _ _

theorem nextWindow_done (hdone : f.source.cursor.done = true) : f.nextWindow = f := by
  rw [nextWindow, if_pos hdone]

theorem nextWindow_skipped (hdone : f.source.cursor.done = false)
    (hskip : (f.skipsEmpty && f.filled.1.eof && f.filled.1.decodedTotal == 0) = true) :
    f.nextWindow = { f with source := f.filled.1, decoder := f.filled.2 } := by
  rw [nextWindow, hdone, if_neg Bool.false_ne_true]
  exact if_pos hskip

theorem nextWindow_pulled (hdone : f.source.cursor.done = false)
    (hskip : (f.skipsEmpty && f.filled.1.eof && f.filled.1.decodedTotal == 0) = false) :
    f.nextWindow = { f with source := f.filled.1.pull, decoder := f.filled.2 } := by
  rw [nextWindow, hdone, if_neg Bool.false_ne_true]
  exact if_neg (Bool.eq_false_iff.mp hskip)

theorem nextWindow_eof (hdone : f.source.cursor.done = false) :
    f.nextWindow.source.eof = f.filled.1.eof := by
  cases hskip : (f.skipsEmpty && f.filled.1.eof && f.filled.1.decodedTotal == 0) with
  | true => rw [nextWindow_skipped hdone hskip]
  | false => rw [nextWindow_pulled hdone hskip, WindowSource.pull_eof]

theorem inv_of_reachable (hspec : spec.Framed) {s t : WindowSource α}
    (hreach : Reachable (WindowSource.step signal) s t) (h : WindowSource.Inv signal spec s) :
    WindowSource.Inv signal spec t := by
  obtain ⟨acts, hrun⟩ := hreach
  refine run_invariant ?_ hrun (guarded_of_forall (fun _ _ => trivial) _ _) h
  exact fun _ _ _ hstep _ hs => hs.step hspec hstep

section Step

variable (h : Pulling signal spec f k)
include h

theorem Pulling.inv_next (hspec : spec.Framed) : WindowSource.Inv signal spec f.nextWindow.source :=
  inv_of_reachable hspec (nextWindow_run (.refl f.source) h.decodes).1 h.inv

/-- The buffer holds enough for the cursor to decide, and its cursor is the one of before. -/
theorem Pulling.filled_spec (hspec : spec.Framed) :
    WindowSource.Inv signal spec f.filled.1 ∧ Decodes signal f.filled.1 f.filled.2 ∧
      (f.filled.1.eof = true ∨ f.source.cursor.fillTarget ≤ f.filled.1.decodedTotal) ∧
      f.filled.1.cursor = f.source.cursor := by
  have hreclaim : Reachable (WindowSource.step signal) f.source
      (f.source.reclaim f.source.reclaimable) := by
    have hstep : WindowSource.step signal f.source (.reclaim f.source.reclaimable) =
        some (f.source.reclaim f.source.reclaimable) := by
      rw [WindowSource.step, if_pos (Nat.le_refl _)]
    exact (Reachable.refl f.source).tail hstep
  have hdecodes : Decodes signal (f.source.reclaim f.source.reclaimable)
      { blocks := f.decoder.blocks, tail := f.decoder.tail } := h.decodes
  obtain ⟨hreach, hrest⟩ :=
    fillTo_run f.source.cursor.fillTarget f.decoder.tail hreclaim hdecodes
  exact ⟨inv_of_reachable hspec hreach h.inv, hrest⟩

/-- All windows are taken when the cursor is done. -/
theorem Pulling.exhausted (hdone : f.source.cursor.done = true) :
    (spec.windows signal.length).length ≤ k := by
  rcases h.count with hcount | ⟨hcount, _⟩
  · have hremaining := h.inv.remaining
    rw [hcount] at hremaining
    rw [← List.drop_eq_nil_iff]
    generalize List.drop k _ = ws at hremaining
    cases hremaining with
    | done _ => rfl
    | empty hlive _ => exact absurd hdone (by simp [hlive])
    | live hc _ _ => exact absurd hdone (by simp [hc.live])
  · exact hcount

theorem Pulling.lent_done (hdone : f.source.cursor.done = true) :
    Pulling signal spec f.nextWindow (k + 1) ∧
      f.lent = ((spec.windows signal.length)[k]?).map (lend signal) := by
  have hall := h.exhausted hdone
  constructor
  · rw [nextWindow_done hdone]
    exact { h with count := .inr ⟨Nat.le_succ_of_le hall, .inl hdone⟩ }
  · rw [lent, nextWindow_done hdone, List.getElem?_eq_none (Nat.le_refl _),
      List.getElem?_eq_none hall]
    rfl

theorem Pulling.lent_skipped (hspec : spec.Framed) (hdone : f.source.cursor.done = false)
    (hskip : (f.skipsEmpty && f.filled.1.eof && f.filled.1.decodedTotal == 0) = true) :
    Pulling signal spec f.nextWindow (k + 1) ∧
      f.lent = ((spec.windows signal.length)[k]?).map (lend signal) := by
  obtain ⟨hinv, hdecodes, _, hcursor⟩ := h.filled_spec hspec
  simp only [Bool.and_eq_true, beq_iff_eq] at hskip
  have hempty : signal = [] := by
    rw [← List.length_eq_zero_iff, ← hinv.at_end hskip.1.2]
    exact hskip.2
  have hnone : spec.windows signal.length = [] := by
    rw [hempty]
    rfl
  rw [lent, nextWindow_skipped hdone (by simpa using hskip), hnone]
  refine ⟨{ inv := hinv, decodes := hdecodes, done_eof := fun _ => hskip.1.2, count := ?_ }, ?_⟩
  · exact .inr ⟨by rw [hnone]; exact Nat.zero_le _, .inr ⟨hskip.1.1, hempty⟩⟩
  · rw [List.getElem?_eq_none (Nat.le_of_eq (congrArg List.length filled_pulled))]
    rfl

/-- A pull before the end of the stream gives a window, and the cursor goes on. -/
theorem Pulling.pull_live (hspec : spec.Framed) (hdone : f.source.cursor.done = false)
    (hlive : f.filled.1.eof = false) : f.filled.1.pull.cursor.done = false ∧
      ((f.filled.1.pull.pulled[f.source.pulled.length]?).join).isSome := by
  obtain ⟨hinv, _, hfill, hcursor⟩ := h.filled_spec hspec
  have hreach := hfill.resolve_left (by simp [hlive])
  rw [← hcursor] at hdone hreach
  have htake := take_of_far f.filled.1.eof hdone (Nat.lt_of_succ_le hreach)
  have hbuf : f.filled.1.pull.outOfBuffer = false :=
    (hinv.pull hspec (.inr hreach)).in_buffer
  rw [WindowSource.pull, htake] at hbuf ⊢
  dsimp only at hbuf ⊢
  split at hbuf
  · rename_i hin
    rw [if_pos hin, ← filled_pulled]
    refine ⟨hdone, ?_⟩
    rw [List.getElem?_concat_length]
    rfl
  · cases hbuf

theorem Pulling.lent_pulled (hspec : spec.Framed) (hdone : f.source.cursor.done = false)
    (hskip : (f.skipsEmpty && f.filled.1.eof && f.filled.1.decodedTotal == 0) = false) :
    Pulling signal spec f.nextWindow (k + 1) ∧
      f.lent = ((spec.windows signal.length)[k]?).map (lend signal) := by
  have hinv := h.inv_next hspec
  obtain ⟨_, hdecodes, _⟩ := h.filled_spec hspec
  have hnext := nextWindow_pulled hdone hskip
  have hlength : f.nextWindow.source.pulled.length = f.source.pulled.length + 1 := by
    rw [hnext] at hinv ⊢
    rw [AudioChunks.length_pulled_pull hinv.in_buffer, filled_pulled]
  have hlent : f.lent = ((spec.windows signal.length)[f.source.pulled.length]?).map (lend signal) := by
    rw [lent, hinv.pulls, hlength, slicePulls, List.getElem?_map,
      List.getElem?_range (Nat.lt_succ_self _), Option.map_some, Option.join_some]
  constructor
  · refine { inv := hinv, decodes := ?_, done_eof := ?_, count := ?_ }
    · rw [hnext]
      simpa only [Decodes, WindowSource.pull_eof, WindowSource.pull_decodedTotal] using hdecodes
    · rw [hnext]
      intro hend
      rw [WindowSource.pull_eof]
      by_contra hlive
      rw [Bool.not_eq_true] at hlive
      exact absurd hend (by simp [(h.pull_live hspec hdone hlive).1])
    · rcases h.count with hcount | ⟨hcount, hend⟩
      · exact .inl (by rw [hlength, hcount])
      · rcases hend with hend | ⟨hskips, hempty⟩
        · exact absurd hend (by simp [hdone])
        · refine .inr ⟨Nat.le_succ_of_le hcount, .inr ⟨?_, hempty⟩⟩
          rw [hnext]
          exact hskips
  · rcases h.count with hcount | ⟨hcount, hend⟩
    · rw [hlent, hcount]
    · rcases hend with hend | ⟨hskips, hempty⟩
      · exact absurd hend (by simp [hdone])
      · have hnone : spec.windows signal.length = [] := by
          rw [hempty]
          rfl
        rw [hlent, hnone]
        rfl

/-- The next call returns the next window of the signal. -/
theorem Pulling.next (hspec : spec.Framed) : Pulling signal spec f.nextWindow (k + 1) ∧
    f.lent = ((spec.windows signal.length)[k]?).map (lend signal) := by
  cases hdone : f.source.cursor.done with
  | true => exact h.lent_done hdone
  | false =>
      cases hskip : (f.skipsEmpty && f.filled.1.eof && f.filled.1.decodedTotal == 0) with
      | true => exact h.lent_skipped hspec hdone hskip
      | false => exact h.lent_pulled hspec hdone hskip

/-- A call that returns nothing has met the end of the stream. -/
theorem Pulling.ended (hspec : spec.Framed) (hnone : f.lent = none) :
    f.nextWindow.source.eof = true := by
  cases hdone : f.source.cursor.done with
  | true =>
      rw [nextWindow_done hdone]
      exact h.done_eof hdone
  | false =>
      rw [nextWindow_eof hdone]
      by_contra hlive
      rw [Bool.not_eq_true] at hlive
      have hsome := (h.pull_live hspec hdone hlive).2
      rw [lent, nextWindow_pulled hdone (by rw [hlive, Bool.and_false, Bool.false_and])] at hnone
      rw [hnone] at hsome
      cases hsome

end Step

/-- All calls from now on. -/
theorem Pulling.all (h : Pulling signal spec f k) (hspec : spec.Framed) (n : ℕ) :
    Pulling signal spec (nextWindow^[n] f) (k + n) ∧
      (nextWindow^[n] f).lent = ((spec.windows signal.length)[k + n]?).map (lend signal) := by
  induction n generalizing f k with
  | zero => exact ⟨h, (h.next hspec).2⟩
  | succ n ih =>
      rw [Function.iterate_succ_apply, ← Nat.add_assoc, Nat.add_right_comm]
      exact ih (h.next hspec).1

/-- When all windows are taken, all samples have been decoded. -/
theorem Pulling.decodedTotal (h : Pulling signal spec f k)
    (hall : (spec.windows signal.length).length ≤ k) : f.source.decodedTotal = signal.length := by
  have hle := h.inv.decoded_le
  rcases h.count with hcount | ⟨_, hdone | ⟨_, hempty⟩⟩
  · have hremaining := h.inv.remaining
    rw [hcount, List.drop_eq_nil_iff.mpr hall] at hremaining
    cases hremaining with
    | done hdone => exact h.inv.at_end (h.done_eof hdone)
    | empty _ hzero => omega
    | live _ _ hlayout => cases hlayout
  · exact h.inv.at_end (h.done_eof hdone)
  · rw [hempty] at hle ⊢
    exact Nat.le_zero.mp hle

end Gigastt.FileWindows
