import Mathlib.Data.List.Nodup
import Mathlib.Algebra.Order.Group.Nat

/-!
The windows in which a long text is punctuated. Each keeps the labels of its middle; the kept ranges tile
the words, and the labels of the windows are put together along them.
-/

namespace Gigastt.Punctuation

/-- Words labelled in one model run. -/
def windowWords : ℕ := 250

/-- Words shared by neighbouring windows. -/
def windowOverlapWords : ℕ := 40

/-- The words encoded together, and those whose labels are kept. -/
structure Window where
  start : ℕ
  stop : ℕ
  keepStart : ℕ
  keepStop : ℕ
  deriving DecidableEq, Repr

/-- The window that begins at `start`. -/
def windowAt (numWords start : ℕ) : Window :=
  let stop := min (start + windowWords) numWords
  let half := windowOverlapWords / 2
  { start, stop
    keepStart := if start = 0 then 0 else start + half
    keepStop := if stop = numWords then numWords else stop - half }

theorem windowAt_stop (numWords start : ℕ) :
    (windowAt numWords start).stop = min (start + windowWords) numWords := rfl

/-- The windows from `start` on. -/
def windowsFrom (numWords start : ℕ) : List Window :=
  if (windowAt numWords start).stop = numWords then [windowAt numWords start]
  else
    windowAt numWords start :: windowsFrom numWords (start + (windowWords - windowOverlapWords))
termination_by numWords - start
decreasing_by
  rename_i hmore
  rw [windowAt_stop] at hmore
  have hstride : 0 < windowWords - windowOverlapWords := by decide
  omega

def planWindows (numWords : ℕ) : List Window :=
  if numWords = 0 then []
  else if numWords ≤ windowWords then [⟨0, numWords, 0, numWords⟩]
  else windowsFrom numWords 0

/-- The labels of one window, if it has any, in the slots of the words it keeps. -/
def spliceWindow (numWords : ℕ) (merged : List (Option ℕ)) (entry : Window × Option (List ℕ)) :
    List (Option ℕ) :=
  match entry.2 with
  | none => merged
  | some labels =>
      let keepStop := min entry.1.keepStop numWords
      let keepStart := min entry.1.keepStart keepStop
      if keepStart < entry.1.start then merged
      else
        let base := keepStart - entry.1.start
        merged.mapIdx fun i slot =>
          if keepStart ≤ i ∧ i < keepStop then labels[base + (i - keepStart)]? else slot

def spliceWindowLabels (windows : List Window) (perWindow : List (Option (List ℕ))) (numWords : ℕ) :
    List (Option ℕ) :=
  (windows.zip perWindow).foldl (spliceWindow numWords) (List.replicate numWords none)

section Plan

variable {n start : ℕ} {w : Window}

/-- Windows whose kept ranges follow one another from the first bound to the second. -/
def Tiles : ℕ → List Window → ℕ → Prop
  | a, [], b => a = b
  | a, w :: rest, b => w.keepStart = a ∧ a < w.keepStop ∧ Tiles w.keepStop rest b

/-- A window of a text of `n` words: not too long, with words around those that it keeps. -/
structure Window.Fits (w : Window) (n : ℕ) : Prop where
  short : w.stop - w.start ≤ windowWords
  start_le : w.start ≤ w.keepStart
  le_stop : w.keepStop ≤ w.stop
  stop_le : w.stop ≤ n
  before : w.start ≠ 0 → w.start + windowOverlapWords / 2 ≤ w.keepStart
  after : w.stop ≠ n → w.keepStop + windowOverlapWords / 2 ≤ w.stop

theorem windowWords_eq : windowWords = 250 ∧ windowOverlapWords = 40 := ⟨rfl, rfl⟩

theorem keepStart_windowAt (n start : ℕ) : (windowAt n start).keepStart =
    if start = 0 then 0 else start + windowOverlapWords / 2 := rfl

theorem keepStop_windowAt (n start : ℕ) : (windowAt n start).keepStop =
    if (windowAt n start).stop = n then n else (windowAt n start).stop - windowOverlapWords / 2 := rfl

theorem windowAt_fits (hstart : start < n) : (windowAt n start).Fits n := by
  obtain ⟨hwords, hoverlap⟩ := windowWords_eq
  have hfirst : (windowAt n start).start = start := rfl
  have hstop := windowAt_stop n start
  have hkeepStart := keepStart_windowAt n start
  have hkeepStop := keepStop_windowAt n start
  split_ifs at hkeepStart hkeepStop
  all_goals constructor
  all_goals omega

/-- A window that is not the last keeps words up to the first that the next one keeps. -/
theorem keepStop_of_more (hmore : (windowAt n start).stop ≠ n) :
    start + windowWords < n ∧ (windowAt n start).keepStop =
      start + (windowWords - windowOverlapWords) + windowOverlapWords / 2 := by
  obtain ⟨hwords, hoverlap⟩ := windowWords_eq
  have hstop := windowAt_stop n start
  rw [keepStop_windowAt, if_neg hmore]
  omega

theorem windowsFrom_tiles (hstart : start + windowOverlapWords < n ∨ start = 0 ∧ 0 < n) :
    Tiles (windowAt n start).keepStart (windowsFrom n start) n := by
  obtain ⟨hwords, hoverlap⟩ := windowWords_eq
  fun_induction windowsFrom n start with
  | case1 start hlast =>
      have hkeep : (windowAt n start).keepStop = n := if_pos hlast
      refine ⟨rfl, ?_, hkeep⟩
      rw [hkeep, keepStart_windowAt]
      split_ifs <;> omega
  | case2 start hmore ih =>
      obtain ⟨hlt, hkeep⟩ := keepStop_of_more hmore
      have htiles := ih (Or.inl (by omega))
      have hfirst : (windowAt n (start + (windowWords - windowOverlapWords))).keepStart =
          (windowAt n start).keepStop := by
        rw [hkeep, keepStart_windowAt, if_neg (by omega)]
      rw [hfirst] at htiles
      refine ⟨rfl, ?_, htiles⟩
      rw [hkeep, keepStart_windowAt]
      split_ifs <;> omega

theorem windowsFrom_fits (hstart : start < n) (hw : w ∈ windowsFrom n start) : w.Fits n := by
  obtain ⟨hwords, hoverlap⟩ := windowWords_eq
  fun_induction windowsFrom n start with
  | case1 start hlast =>
      rw [List.mem_singleton.mp hw]
      exact windowAt_fits hstart
  | case2 start hmore ih =>
      obtain ⟨hlt, _⟩ := keepStop_of_more hmore
      rcases List.mem_cons.mp hw with rfl | hw
      · exact windowAt_fits hstart
      · exact ih (by omega) hw

theorem planWindows_tiles (n : ℕ) : Tiles 0 (planWindows n) n := by
  unfold planWindows
  split_ifs with hzero hshort
  · exact hzero.symm
  · exact ⟨rfl, Nat.pos_of_ne_zero hzero, rfl⟩
  · exact windowsFrom_tiles (Or.inr ⟨rfl, Nat.pos_of_ne_zero hzero⟩)

theorem planWindows_fits (hw : w ∈ planWindows n) : w.Fits n := by
  unfold planWindows at hw
  split_ifs at hw with hzero hshort
  · cases hw
  · rw [List.mem_singleton.mp hw]
    exact ⟨hshort, le_rfl, le_rfl, le_rfl, fun h => absurd rfl h, fun h => absurd rfl h⟩
  · exact windowsFrom_fits (Nat.pos_of_ne_zero hzero) hw

end Plan

section Tiling

variable {windows : List Window} {a b k : ℕ} {w : Window}

/-- The word is one that the window keeps. -/
def Window.Keeps (w : Window) (k : ℕ) : Prop := w.keepStart ≤ k ∧ k < w.keepStop

theorem Tiles.le (h : Tiles a windows b) : a ≤ b := by
  induction windows generalizing a with
  | nil => exact Nat.le_of_eq h
  | cons w windows ih => exact (Nat.le_of_lt h.2.1).trans (ih h.2.2)

/-- The kept ranges cover the words once, in order. -/
theorem Tiles.flatMap_range' (h : Tiles a windows b) :
    windows.flatMap (fun w => List.range' w.keepStart (w.keepStop - w.keepStart)) =
      List.range' a (b - a) := by
  induction windows generalizing a with
  | nil =>
      rw [show a = b from h, Nat.sub_self]
      rfl
  | cons w windows ih =>
      obtain ⟨hfirst, hlt, hrest⟩ := h
      have hle := hrest.le
      rw [List.flatMap_cons, ih hrest, hfirst]
      have hnext : w.keepStop = a + (w.keepStop - a) := by omega
      have hcount : b - a = w.keepStop - a + (b - w.keepStop) := by omega
      rw [hcount, ← List.range'_append_1, ← hnext]

theorem Tiles.bounds (h : Tiles a windows b) (hw : w ∈ windows) : a ≤ w.keepStart ∧ w.keepStop ≤ b := by
  induction windows generalizing a with
  | nil => cases hw
  | cons v windows ih =>
      obtain ⟨hfirst, hlt, hrest⟩ := h
      rcases List.mem_cons.mp hw with rfl | hw
      · exact ⟨Nat.le_of_eq hfirst.symm, hrest.le⟩
      · obtain ⟨hlow, hhigh⟩ := ih hrest hw
        omega

/-- No word is kept by two windows. -/
theorem Tiles.pairwise (h : Tiles a windows b) :
    windows.Pairwise fun v w => v.keepStop ≤ w.keepStart := by
  induction windows generalizing a with
  | nil => exact List.Pairwise.nil
  | cons v windows ih =>
      refine List.pairwise_cons.mpr ⟨fun w hw => (h.2.2.bounds hw).1, ih h.2.2⟩

theorem Tiles.keeps_unique {w' : Window} (h : Tiles a windows b) (hw : w ∈ windows)
    (hw' : w' ∈ windows) (hk : w.Keeps k) (hk' : w'.Keeps k) : w = w' := by
  obtain ⟨i, hi, rfl⟩ := List.getElem_of_mem hw
  obtain ⟨j, hj, rfl⟩ := List.getElem_of_mem hw'
  have hbefore := List.pairwise_iff_getElem.mp h.pairwise
  rcases Nat.lt_trichotomy i j with hlt | rfl | hlt
  · exact absurd (hbefore i j hi hj hlt) (Nat.not_le.mpr (hk'.1.trans_lt hk.2))
  · rfl
  · exact absurd (hbefore j i hj hi hlt) (Nat.not_le.mpr (hk.1.trans_lt hk'.2))

/-- Every word is kept by a window. -/
theorem Tiles.exists_keeps (h : Tiles a windows b) (hlow : a ≤ k) (hhigh : k < b) :
    ∃ w ∈ windows, w.Keeps k := by
  have hmem : k ∈ List.range' a (b - a) := List.mem_range'_1.mpr ⟨hlow, by omega⟩
  rw [← h.flatMap_range'] at hmem
  obtain ⟨w, hw, hk⟩ := List.mem_flatMap.mp hmem
  obtain ⟨hstart, hstop⟩ := List.mem_range'_1.mp hk
  exact ⟨w, hw, hstart, by omega⟩

end Tiling

section Splice

variable {n k : ℕ} {merged : List (Option ℕ)} {w : Window} {labels : Option (List ℕ)}

/-- A label for every word of the window, if there are labels. -/
def OnePerWord (w : Window) (labels : Option (List ℕ)) : Prop :=
  ∀ l ∈ labels, l.length = w.stop - w.start

theorem length_spliceWindow (entry : Window × Option (List ℕ)) :
    (spliceWindow n merged entry).length = merged.length := by
  unfold spliceWindow
  split
  · rfl
  · dsimp only
    split_ifs
    · rfl
    · exact List.length_mapIdx

/-- A window leaves the slots of the words that it does not keep alone. -/
theorem spliceWindow_frame (hfits : w.Fits n) (hk : ¬w.Keeps k) :
    (spliceWindow n merged (w, labels))[k]? = merged[k]? := by
  unfold spliceWindow
  split
  · rfl
  · dsimp only
    split_ifs with hbase
    · rfl
    · rw [List.getElem?_mapIdx]
      have hkeep : ¬(min w.keepStart (min w.keepStop n) ≤ k ∧ k < min w.keepStop n) := by
        rintro ⟨hlow, hhigh⟩
        have := hfits.le_stop
        have := hfits.stop_le
        refine hk ⟨?_, ?_⟩ <;> omega
      simp only [if_neg hkeep, Option.map_id']

/-- And fills those of the others with its labels. -/
theorem spliceWindow_keeps (hfits : w.Fits n) (hk : w.Keeps k) (hlength : k < merged.length)
    {l : List ℕ} :
    (spliceWindow n merged (w, some l))[k]? = some l[k - w.start]? := by
  obtain ⟨hlow, hhigh⟩ := hk
  have hstart := hfits.start_le
  have hstop : min w.keepStop n = w.keepStop := Nat.min_eq_left (hfits.le_stop.trans hfits.stop_le)
  have hkeep : min w.keepStart w.keepStop = w.keepStart := Nat.min_eq_left (hlow.trans hhigh.le)
  have hoffset : w.keepStart - w.start + (k - w.keepStart) = k - w.start := by omega
  rw [spliceWindow]
  dsimp only
  rw [hstop, hkeep, if_neg (Nat.not_lt.mpr hstart), List.getElem?_mapIdx,
    List.getElem?_eq_getElem hlength, Option.map_some, if_pos ⟨hlow, hhigh⟩, hoffset]

theorem splice_frame {entries : List (Window × Option (List ℕ))}
    (hentries : ∀ e ∈ entries, e.1.Fits n ∧ ¬e.1.Keeps k) :
    (entries.foldl (spliceWindow n) merged)[k]? = merged[k]? := by
  induction entries generalizing merged with
  | nil => rfl
  | cons entry entries ih =>
      obtain ⟨hfits, hk⟩ := hentries entry List.mem_cons_self
      rw [List.foldl_cons, ih fun e he => hentries e (List.mem_cons_of_mem entry he)]
      exact spliceWindow_frame hfits hk

theorem length_splice (entries : List (Window × Option (List ℕ))) :
    (entries.foldl (spliceWindow n) merged).length = merged.length := by
  induction entries generalizing merged with
  | nil => rfl
  | cons entry entries ih => rw [List.foldl_cons, ih, length_spliceWindow]

/-- The entry of the window that keeps a word decides its slot. -/
theorem splice_keeps {before after : List (Window × Option (List ℕ))}
    (hfits : ∀ e ∈ before ++ (w, labels) :: after, e.1.Fits n)
    (hpairs : (before ++ (w, labels) :: after).Pairwise fun e f => e.1.keepStop ≤ f.1.keepStart)
    (hk : w.Keeps k) :
    ((before ++ (w, labels) :: after).foldl (spliceWindow n) (List.replicate n none))[k]? =
      some (labels.bind fun l => l[k - w.start]?) := by
  obtain ⟨_, hright, hcross⟩ := List.pairwise_append.mp hpairs
  have hw : w.Fits n := hfits (w, labels) (List.mem_append_right _ List.mem_cons_self)
  have hkn : k < n := hk.2.trans_le (hw.le_stop.trans hw.stop_le)
  have hbefore : ∀ e ∈ before, e.1.Fits n ∧ ¬e.1.Keeps k := by
    intro e he
    refine ⟨hfits e (List.mem_append_left _ he), fun hkeeps => ?_⟩
    exact absurd (hcross e he _ List.mem_cons_self) (Nat.not_le.mpr (hk.1.trans_lt hkeeps.2))
  have hafter : ∀ e ∈ after, e.1.Fits n ∧ ¬e.1.Keeps k := by
    intro e he
    refine ⟨hfits e (List.mem_append_right _ (List.mem_cons_of_mem _ he)), fun hkeeps => ?_⟩
    exact absurd ((List.pairwise_cons.mp hright).1 e he) (Nat.not_le.mpr (hkeeps.1.trans_lt hk.2))
  rw [List.foldl_append, List.foldl_cons, splice_frame hafter]
  have hlength : (before.foldl (spliceWindow n) (List.replicate n none)).length = n := by
    rw [length_splice, List.length_replicate]
  cases labels with
  | some l => exact spliceWindow_keeps hw hk (hlength.symm ▸ hkn)
  | none =>
      have hskip : spliceWindow n (before.foldl (spliceWindow n) (List.replicate n none)) (w, none) =
          before.foldl (spliceWindow n) (List.replicate n none) := rfl
      rw [hskip, splice_frame hbefore, List.getElem?_replicate_of_lt hkn]
      rfl

theorem splice_at {perWindow : List (Option (List ℕ))}
    (hlength : (planWindows n).length = perWindow.length) {i : ℕ} (hi : (planWindows n)[i]? = some w)
    (hi' : perWindow[i]? = some labels) (hk : w.Keeps k) :
    (spliceWindowLabels (planWindows n) perWindow n)[k]? =
      some (labels.bind fun l => l[k - w.start]?) := by
  have hentry : ((planWindows n).zip perWindow)[i]? = some (w, labels) :=
    List.getElem?_zip_eq_some.mpr ⟨hi, hi'⟩
  have hfst : ((planWindows n).zip perWindow).map Prod.fst = planWindows n :=
    List.map_fst_zip (Nat.le_of_eq hlength)
  have hfits : ∀ e ∈ (planWindows n).zip perWindow, e.1.Fits n := fun e he =>
    planWindows_fits (hfst ▸ List.mem_map_of_mem he)
  have hpairs : ((planWindows n).zip perWindow).Pairwise fun e f => e.1.keepStop ≤ f.1.keepStart :=
    List.pairwise_map.mp (hfst.symm ▸ (planWindows_tiles n).pairwise)
  obtain ⟨hentryLt, hget⟩ := List.getElem?_eq_some_iff.mp hentry
  have hsplit : (planWindows n).zip perWindow =
      ((planWindows n).zip perWindow).take i ++ (w, labels) ::
        ((planWindows n).zip perWindow).drop (i + 1) := by
    rw [← hget, ← List.drop_eq_getElem_cons hentryLt, List.take_append_drop]
  rw [hsplit] at hfits hpairs
  have hslot := splice_keeps hfits hpairs hk
  rwa [← hsplit] at hslot

theorem length_spliceWindowLabels (windows : List Window) (perWindow : List (Option (List ℕ))) (n : ℕ) :
    (spliceWindowLabels windows perWindow n).length = n := by
  rw [spliceWindowLabels, length_splice, List.length_replicate]

/-- The kept ranges cover the words once and in order, with twenty words around every kept one unless the
text ends there; a word gets the label of the window that keeps it, if that has labels. -/
theorem windows_cover_splice (n : ℕ) :
    (planWindows n).flatMap (fun w => List.range' w.keepStart (w.keepStop - w.keepStart)) =
        List.range n ∧
      (∀ w ∈ planWindows n, w.stop - w.start ≤ 250 ∧ ∀ k, w.Keeps k →
        (w.start ≤ k ∧ k < w.stop ∧ w.stop ≤ n) ∧
          (w.start ≠ 0 → 20 ≤ k - w.start) ∧ (w.stop ≠ n → 20 ≤ w.stop - (k + 1))) ∧
      ∀ perWindow, List.Forall₂ OnePerWord (planWindows n) perWindow →
        (spliceWindowLabels (planWindows n) perWindow n).length = n ∧
          ∀ (i : ℕ) (w : Window) labels (k : ℕ),
            (planWindows n)[i]? = some w → perWindow[i]? = some labels → w.Keeps k →
            (labels = none → (spliceWindowLabels (planWindows n) perWindow n)[k]? = some none) ∧
              ∀ l, labels = some l → ∃ label, l[k - w.start]? = some label ∧
                (spliceWindowLabels (planWindows n) perWindow n)[k]? = some (some label) := by
  obtain ⟨hwords, hoverlap⟩ := windowWords_eq
  have htiles := planWindows_tiles n
  refine ⟨?_, fun w hw => ?_, fun perWindow hlabels =>
    ⟨length_spliceWindowLabels _ _ n, fun i w labels k hi hi' hk => ?_⟩⟩
  · rw [htiles.flatMap_range', Nat.sub_zero, List.range_eq_range']
  · have hfits := planWindows_fits hw
    refine ⟨hwords ▸ hfits.short, fun k hk => ?_⟩
    obtain ⟨hlow, hhigh⟩ := hk
    obtain ⟨_, hstart, hstop, hn, hbefore, hafter⟩ := hfits
    refine ⟨⟨by omega, by omega, hn⟩, fun hfirst => ?_, fun hlast => ?_⟩
    · have := hbefore hfirst
      omega
    · have := hafter hlast
      omega
  · rw [splice_at hlabels.length_eq hi hi' hk]
    refine ⟨fun hnone => by rw [hnone]; rfl, ?_⟩
    rintro l rfl
    obtain ⟨hlt, rfl⟩ := List.getElem?_eq_some_iff.mp hi
    obtain ⟨hlt', hsome⟩ := List.getElem?_eq_some_iff.mp hi'
    have hone := (List.forall₂_iff_get.mp hlabels).2 i hlt hlt'
    have hlength : l.length = (planWindows n)[i].stop - (planWindows n)[i].start :=
      hone l (by rw [List.get_eq_getElem, hsome]; rfl)
    have hkeeps := planWindows_fits (List.getElem_mem hlt)
    have hlabel : k - (planWindows n)[i].start < l.length := by
      have := hkeeps.start_le
      have := hkeeps.le_stop
      obtain ⟨hlow, hhigh⟩ := hk
      omega
    refine ⟨l[k - (planWindows n)[i].start], List.getElem?_eq_getElem hlabel, ?_⟩
    rw [Option.bind_some, List.getElem?_eq_getElem hlabel]

end Splice

end Gigastt.Punctuation
