import Gigastt.FilePulls

/-!
How much audio a window source holds. A call drops the consumed front before it decodes, and stops as
soon as the next window is decided; so what is held is one longest window, one stride before it, and
the samples of one packet.
-/

namespace Gigastt

open WindowCursor

variable {α : Type}

theorem WindowCursor.take_nextStart (c : WindowCursor) (availEnd : ℕ) (eof : Bool) :
    (c.take availEnd eof).2.spec = c.spec ∧
      ((c.take availEnd eof).2.nextStart = c.nextStart ∨
        (c.take availEnd eof).2.nextStart = c.nextStart + c.spec.stride ∧
          c.nextStart ≤ availEnd) := by
  unfold take
  split
  · exact ⟨rfl, .inl rfl⟩
  split
  · exact ⟨rfl, .inl rfl⟩
  rename_i hmore
  dsimp only
  split
  · exact ⟨rfl, .inl rfl⟩
  rename_i hlast
  refine ⟨rfl, .inr ⟨?_, by omega⟩⟩
  -- a window that is not the last one starts where the cursor stands
  have hselect : (c.select availEnd eof).1 = c.nextStart := by
    unfold select at hlast ⊢
    dsimp only at hlast ⊢
    split
    · rfl
    · rename_i hfar
      rw [if_neg hfar] at hlast
      split
      · rename_i hend
        rw [if_pos hend] at hlast
        simp only [Bool.and_eq_true] at hend
        exact absurd (by simp [hend.1]) hlast
      · rfl
  rw [hselect]

namespace FileWindows

theorem fillTo_bounds {bound target : ℕ} {tail : List α} {blocks : List (List α)} {s : WindowSource α}
    (hblocks : ∀ block ∈ blocks, block.length ≤ bound) (htail : tail.length ≤ bound)
    (htotal : s.decodedTotal < target + bound) :
    s.decodedTotal ≤ (fillTo target tail blocks s).1.decodedTotal ∧
      (fillTo target tail blocks s).1.decodedTotal < target + bound ∧
      (fillTo target tail blocks s).1.bufStartAbs = s.bufStartAbs ∧
      (∀ block ∈ (fillTo target tail blocks s).2.blocks, block.length ≤ bound) ∧
      (fillTo target tail blocks s).2.tail.length ≤ bound := by
  induction blocks generalizing s with
  | nil =>
      rw [fillTo]
      split
      · exact ⟨Nat.le_refl _, htotal, rfl, hblocks, htail⟩
      · rename_i hmore
        simp only [Bool.or_eq_true, decide_eq_true_eq, not_or] at hmore
        refine ⟨Nat.le_add_right _ _, ?_, rfl, List.forall_mem_nil _, Nat.zero_le _⟩
        dsimp only [append]
        omega
  | cons block rest ih =>
      rw [fillTo]
      split
      · exact ⟨Nat.le_refl _, htotal, rfl, hblocks, htail⟩
      · rename_i hmore
        simp only [Bool.or_eq_true, decide_eq_true_eq, not_or] at hmore
        have hblock := hblocks block List.mem_cons_self
        have hrest := ih (s := append s block)
          (fun b hb => hblocks b (List.mem_cons_of_mem _ hb)) (by dsimp only [append]; omega)
        exact ⟨(Nat.le_add_right _ _).trans hrest.1, hrest.2⟩

/-- Where the buffer and the cursor stand between two calls. -/
structure Resident (bound : ℕ) (f : FileWindows α) : Prop where
  next_le : f.source.cursor.nextStart ≤ f.source.decodedTotal + f.source.cursor.spec.stride
  total_le : f.source.decodedTotal ≤
    f.source.cursor.nextStart + f.source.cursor.lastWindowMax + bound
  held : f.source.buf.length ≤
    f.source.cursor.lastWindowMax + f.source.cursor.spec.stride + bound
  blocks : ∀ block ∈ f.decoder.blocks, block.length ≤ bound
  tail : f.decoder.tail.length ≤ bound

theorem resident_new (spec : WindowSpec) {decoder : Decoder α} (skipsEmpty : Bool) {bound : ℕ}
    (hblocks : ∀ block ∈ decoder.blocks, block.length ≤ bound) (htail : decoder.tail.length ≤ bound) :
    Resident bound (new spec decoder skipsEmpty) where
  next_le := Nat.zero_le _
  total_le := Nat.zero_le _
  held := Nat.zero_le _
  blocks := hblocks
  tail := htail

variable {signal : List α} {spec : WindowSpec} {f : FileWindows α} {k bound : ℕ}

section Step

variable (h : Pulling signal spec f k) (hspec : spec.Framed) (hr : Resident bound f)
include h hspec hr

/-- After the front is dropped and the buffer filled. -/
theorem Resident.filled : f.filled.1.decodedTotal ≤
      f.source.cursor.nextStart + f.source.cursor.lastWindowMax + bound ∧
    f.source.decodedTotal ≤ f.filled.1.decodedTotal ∧
    f.filled.1.buf.length ≤
      f.source.cursor.lastWindowMax + f.source.cursor.spec.stride + bound ∧
    (∀ block ∈ f.filled.2.blocks, block.length ≤ bound) ∧ f.filled.2.tail.length ≤ bound := by
  obtain ⟨hinv, _, hfill, _⟩ := h.filled_spec hspec
  have hlen := h.inv.length_buf
  have hstart := h.inv.start_le
  have hnext := hr.next_le
  have htotal := hr.total_le
  obtain ⟨hmono, htotal', hstart', hblocks, htail⟩ :=
    fillTo_bounds (s := f.source.reclaim f.source.reclaimable) hr.blocks hr.tail
      (by simp only [WindowSource.reclaim, fillTarget]; omega : _ < f.source.cursor.fillTarget + _)
  change f.source.decodedTotal ≤ f.filled.1.decodedTotal at hmono
  change f.filled.1.decodedTotal < _ at htotal'
  change f.filled.1.bufStartAbs = _ at hstart'
  have hheld := hinv.length_buf
  have hdropped : f.source.cursor.nextStart ≤
      f.filled.1.bufStartAbs + f.source.cursor.spec.stride := by
    rw [hstart']
    simp only [WindowSource.reclaim, WindowSource.reclaimable, retainFrom]
    omega
  rw [fillTarget] at htotal'
  exact ⟨by omega, hmono, by omega, hblocks, htail⟩

theorem Resident.next : Resident bound f.nextWindow := by
  obtain ⟨htotal, hmono, hheld, hblocks, htail⟩ := hr.filled h hspec
  obtain ⟨_, _, _, hcursor⟩ := h.filled_spec hspec
  have hnext := hr.next_le
  cases hdone : f.source.cursor.done with
  | true =>
      rw [nextWindow_done hdone]
      exact hr
  | false =>
      cases hskip : (f.skipsEmpty && f.filled.1.eof && f.filled.1.decodedTotal == 0) with
      | true =>
          rw [nextWindow_skipped hdone hskip]
          rw [← hcursor] at htotal hheld hnext
          exact ⟨by dsimp only; omega, htotal, hheld, hblocks, htail⟩
      | false =>
          rw [nextWindow_pulled hdone hskip]
          obtain ⟨htakeSpec, htake⟩ :=
            take_nextStart f.filled.1.cursor f.filled.1.decodedTotal f.filled.1.eof
          have hpull : f.filled.1.pull.cursor =
                (f.filled.1.cursor.take f.filled.1.decodedTotal f.filled.1.eof).2 ∧
              f.filled.1.pull.buf = f.filled.1.buf := by
            unfold WindowSource.pull
            split
            · rename_i hnone
              exact ⟨by rw [hnone], rfl⟩
            · rename_i hsome
              rw [hsome]
              split <;> exact ⟨rfl, rfl⟩
          rw [← hpull.1] at htakeSpec htake
          have hmax : f.filled.1.pull.cursor.lastWindowMax = f.source.cursor.lastWindowMax := by
            rw [lastWindowMax, htakeSpec, hcursor, lastWindowMax]
          rw [hcursor] at htakeSpec htake
          have hstride := congrArg WindowSpec.stride htakeSpec
          constructor
          · dsimp only
            rw [WindowSource.pull_decodedTotal, hstride]
            omega
          · dsimp only
            rw [WindowSource.pull_decodedTotal, hmax]
            omega
          · dsimp only
            rw [hpull.2, hmax, hstride]
            exact hheld
          · exact hblocks
          · exact htail

end Step

theorem Resident.all (h : Pulling signal spec f k) (hspec : spec.Framed) (hr : Resident bound f)
    (n : ℕ) : Resident bound (nextWindow^[n] f) := by
  induction n generalizing f k with
  | zero => exact hr
  | succ n ih =>
      rw [Function.iterate_succ_apply]
      exact ih (h.next hspec).1 (hr.next h hspec)

end FileWindows

namespace Files.FileWindows

open Gigastt.FileWindows (Pulling Resident pulling_new resident_new)
open Outcomes

variable {codec : OpusDecoder α} {rubato : Rubato α} (rnd : Rounding) (ops : SampleOps α)

/-- However long the file, no more audio is held at a time than one longest window, one stride and what
one packet adds. -/
theorem held_bounded (src : Source codec rubato) {spec : WindowSpec} (hspec : spec.Framed) {bound : ℕ}
    (hblocks : ∀ block ∈ (src.trace rnd ops).blocks, block.length ≤ bound)
    (hflushed : ∀ tail, (src.trace rnd ops).outcome = .ok tail → tail.length ≤ bound) {n : ℕ}
    {windows : List (Option (PcmWindow α))} {f : FileWindows codec rubato}
    (hrun : Pulled.calls (nextWindow rnd ops) n (new src spec) = .ok (windows, f)) :
    f.source.buf.length ≤ max spec.singlePassMax spec.window + spec.stride + bound := by
  obtain ⟨tail, htail, hlength⟩ : ∃ tail : List α,
      (∀ flushed, (src.trace rnd ops).outcome = .ok flushed → tail = flushed) ∧
        tail.length ≤ bound := by
    cases houtcome : (src.trace rnd ops).outcome with
    | error e => exact ⟨[], nofun, Nat.zero_le _⟩
    | ok tail => exact ⟨tail, fun _ h => Except.ok.inj h, hflushed tail houtcome⟩
  have hpulling := pulling_new hspec { blocks := (src.trace rnd ops).blocks, tail } false
  obtain ⟨_, d, _, hover, _, hlast⟩ := (runs_follow rnd ops _ _ hspec).run
    ⟨_, 0, rfl, follows_new rnd ops src spec htail, hpulling⟩ hrun
  have hresident : Resident bound (Gigastt.FileWindows.nextWindow^[n] (onTrace (new src spec) _)) :=
    (resident_new spec false hblocks hlength).all hpulling hspec n
  rw [hover] at hresident hlast
  have hheld := hresident.held
  have hsame : (onTrace f d).source.cursor.spec = spec := hlast.inv.spec_eq
  rw [lastWindowMax, hsame] at hheld
  exact hheld

/-- Two windows of a file in two packets. -/
theorem held_bounded_wave : ∃ windows f,
    Pulled.calls (nextWindow .binary64 plainOps) 2 (new (waveFile none) (.new 0 1280 640)) =
      .ok (windows, f) ∧ f.source.buf.length ≤ 1280 + 640 + 900 := by
  have hrun : (Pulled.calls (nextWindow .binary64 plainOps) 2
      (new (waveFile none) (.new 0 1280 640))).toOption.isSome := by
    decide +kernel
  obtain ⟨⟨windows, f⟩, hrun⟩ := Option.isSome_iff_exists.mp hrun
  have hspec : (WindowSpec.new 0 1280 640).Framed :=
    WindowSpec.new_framed 0 640 (by decide) (by decide)
  have hblocks : ∀ block ∈ ((waveFile none).trace .binary64 plainOps).blocks,
      block.length ≤ 900 := by
    decide +kernel
  have hflushed : ((waveFile none).trace .binary64 plainOps).outcome = .ok [] := by
    decide +kernel
  refine ⟨windows, f, toOption_eq_some.mp hrun, ?_⟩
  refine held_bounded .binary64 plainOps (waveFile none) hspec hblocks ?_ (toOption_eq_some.mp hrun)
  intro tail h
  rw [← Except.ok.inj (hflushed.symm.trans h)]
  exact Nat.zero_le _

end Files.FileWindows

end Gigastt
