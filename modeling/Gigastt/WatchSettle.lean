import Gigastt.Watch

/-!
What the watch loop keeps over every run: which tasks are in flight, how long the signature of a
file has stayed the same, and whether it changed under a task.
-/

namespace Gigastt.Watch

open Transition

variable {Path : Type*} [DecidableEq Path] {opts : WatchOptions}

/-- The signature of a file that an event shows. -/
def observed (p : Path) : Event Path → Option FileSignature
  | .scan files => (files.find p).join
  | _ => none

/-- The observations of a file: the scans that could read its signature. -/
def observations (p : Path) (events : List (Event Path)) : List FileSignature :=
  events.filterMap (observed p)

/-- The last observations are the same, each but the first unchanged from the one before. -/
def Settled (opts : WatchOptions) (sig : FileSignature) (log : List FileSignature) : Prop :=
  List.replicate (opts.settle.toNat + 1) sig <:+ log

theorem observations_concat (p : Path) (events : List (Event Path)) (e : Event Path) :
    observations p (events ++ [e]) = observations p events ++ (observed p e).toList := by
  rw [observations, List.filterMap_append]
  cases h : observed p e with
  | none => simp [observations, h]
  | some sig => simp [observations, h]

namespace WatchEntry

/-- What an entry records of the observations of its file. -/
structure Accounts (log : List FileSignature) (e : WatchEntry) : Prop where
  settling : e.status = .pending → List.replicate (e.stablePolls.toNat + 1) e.sig <:+ log
  inFlight : e.status = .inFlight → [e.sig] <:+ log
  clean : e.status ≠ .inFlight → e.dirty = false

theorem observe_none (settle : UInt32) (free : Bool) (sig : FileSignature) :
    observe settle free sig none = (⟨sig, 0, .pending, false⟩, false) := rfl

/-- Everything an observation can do to an entry. -/
theorem observe_cases (settle : UInt32) (free : Bool) (sig : FileSignature) (e : WatchEntry) :
    (e.sig ≠ sig ∧ e.status = .inFlight ∧ observe settle free sig (some e)
        = ({ e with sig, stablePolls := 0, dirty := true }, false)) ∨
    (e.sig ≠ sig ∧ e.status ≠ .inFlight ∧ observe settle free sig (some e)
        = ({ e with sig, stablePolls := 0, status := .pending }, false)) ∨
    (e.sig = sig ∧ e.status = .pending ∧ settle ≤ e.stablePolls + 1 ∧ free = true ∧
      observe settle free sig (some e)
        = ({ e with stablePolls := e.stablePolls + 1, status := .inFlight }, true)) ∨
    (e.sig = sig ∧ e.status = .pending ∧ observe settle free sig (some e)
        = ({ e with stablePolls := e.stablePolls + 1 }, false)) ∨
    (e.sig = sig ∧ e.status ≠ .pending ∧ observe settle free sig (some e) = (e, false)) := by
  by_cases hsig : e.sig = sig
  · by_cases hpending : e.status = .pending
    · by_cases hspawn : settle ≤ e.stablePolls + 1 ∧ free = true
      · simp [observe, hsig, hpending, hspawn]
      · simp [observe, hsig, hpending, hspawn]
    · simp [observe, hsig, hpending]
  · by_cases hflight : e.status = .inFlight
    · simp [observe, hsig, hflight]
    · simp [observe, hsig, hflight]

theorem observe_accounts {log : List FileSignature} {old : Option WatchEntry} (settle : UInt32)
    (free : Bool) (sig : FileSignature) (h : ∀ e ∈ old, Accounts log e) :
    Accounts (log ++ [sig]) (observe settle free sig old).1 := by
  have hlast : [sig] <:+ log ++ [sig] := List.suffix_append log [sig]
  cases old with
  | none => exact ⟨fun _ => hlast, fun _ => hlast, fun _ => rfl⟩
  | some e =>
      have he : Accounts log e := h e rfl
      have hpolls : e.sig = sig → e.status = .pending →
          List.replicate ((e.stablePolls + 1).toNat + 1) e.sig <:+ log ++ [sig] := by
        intro hsig hpending
        have hgrown : List.replicate (e.stablePolls.toNat + 1 + 1) e.sig <:+ log ++ [sig] := by
          rw [List.replicate_succ', hsig]
          exact List.suffix_append_self_iff.mpr (hsig ▸ he.settling hpending)
        have hwrap : (e.stablePolls + 1).toNat ≤ e.stablePolls.toNat + 1 := by
          rw [UInt32.toNat_add]
          exact Nat.mod_le _ _
        refine List.IsSuffix.trans ?_ hgrown
        exact (List.suffix_replicate_iff.mpr ⟨by simpa using hwrap, by simp⟩)
      rcases observe_cases settle free sig e with
        ⟨-, hflight, heq⟩ | ⟨-, hidle, heq⟩ | ⟨hsig, hpending, -, -, heq⟩ | ⟨hsig, hpending, heq⟩ |
          ⟨hsig, hidle, heq⟩
      · rw [heq]
        exact ⟨fun _ => hlast, fun _ => hlast, fun hne => absurd hflight hne⟩
      · rw [heq]
        exact ⟨fun _ => hlast, fun _ => hlast, fun _ => he.clean hidle⟩
      · rw [heq]
        exact ⟨by simp, fun _ => hsig ▸ hlast, by simp⟩
      · rw [heq]
        refine ⟨fun _ => hpolls hsig hpending, ?_, ?_⟩
        · simp [hpending]
        · exact fun _ => he.clean (by simp [hpending])
      · rw [heq]
        exact ⟨fun hpending => absurd hpending hidle, fun _ => hsig ▸ hlast, he.clean⟩

/-- A task is spawned for a pending file whose signature has settled. -/
theorem observe_spawns {log : List FileSignature} {old : Option WatchEntry} {free : Bool}
    {sig : FileSignature} (h : ∀ e ∈ old, Accounts log e)
    (hspawn : (observe opts.settle free sig old).2 = true) :
    (∃ e, old = some e ∧ e.status = .pending) ∧ free = true ∧ Settled opts sig (log ++ [sig]) ∧
      (observe opts.settle free sig old).1.status = .inFlight ∧
      (observe opts.settle free sig old).1.sig = sig ∧
      (observe opts.settle free sig old).1.dirty = false := by
  cases old with
  | none => cases hspawn
  | some e =>
      have he : Accounts log e := h e rfl
      rcases observe_cases opts.settle free sig e with
        ⟨-, -, heq⟩ | ⟨-, -, heq⟩ | ⟨hsig, hpending, hsettle, hfree, heq⟩ | ⟨-, -, heq⟩ |
          ⟨-, -, heq⟩
      · rw [heq] at hspawn
        cases hspawn
      · rw [heq] at hspawn
        cases hspawn
      · have hle : opts.settle.toNat ≤ e.stablePolls.toNat + 1 := by
          apply Nat.le_trans (UInt32.le_iff_toNat_le.mp hsettle)
          rw [UInt32.toNat_add]
          exact Nat.mod_le _ _
        have hsettled : Settled opts sig (log ++ [sig]) := by
          rw [Settled, List.replicate_succ']
          apply List.suffix_append_self_iff.mpr
          refine List.IsSuffix.trans ?_ (hsig ▸ he.settling hpending)
          exact List.suffix_replicate_iff.mpr ⟨by simpa using hle, by simp⟩
        rw [heq]
        exact ⟨⟨e, rfl, hpending⟩, hfree, hsettled, rfl, hsig, he.clean (by simp [hpending])⟩
      · rw [heq] at hspawn
        cases hspawn
      · rw [heq] at hspawn
        cases hspawn

theorem complete_accounts {log : List FileSignature} {e : WatchEntry} (ok : Bool)
    (h : Accounts log e) : Accounts log (e.complete ok) := by
  unfold complete
  split
  · exact h
  · split
    · rename_i hflight _
      exact ⟨fun _ => h.inFlight (not_not.mp hflight), by simp, fun _ => rfl⟩
    · rename_i _ hclean
      refine ⟨?_, ?_, fun _ => by simpa using hclean⟩
      · cases ok <;> simp
      · cases ok <;> simp

end WatchEntry

namespace State

/-- The tasks in flight are those of the entries that say so, and each has a slot of its own. -/
structure Running (opts : WatchOptions) (s : State Path) : Prop where
  entries : ∀ p, p ∈ s.set ↔ ∃ e, s.known.find p = some e ∧ e.status = .inFlight
  nodup : s.set.Nodup
  slots : s.set.length ≤ opts.slots

theorem observe_find (s : State Path) (f p : Path) (sig : FileSignature) :
    (s.observe opts f sig).known.find p
      = if p = f then
          some (WatchEntry.observe opts.settle (s.set.length < opts.slots) sig (s.known.find f)).1
        else s.known.find p :=
  Table.find_insert p

theorem observe_set (s : State Path) (f : Path) (sig : FileSignature) :
    (s.observe opts f sig).set
      = if (WatchEntry.observe opts.settle (s.set.length < opts.slots) sig
          (s.known.find f)).2 then s.set ++ [f] else s.set :=
  rfl

theorem mem_observe_set {s : State Path} {f p : Path} {sig : FileSignature} :
    p ∈ (s.observe opts f sig).set ↔ p ∈ s.set ∨ (p = f ∧
      (WatchEntry.observe opts.settle (s.set.length < opts.slots) sig (s.known.find f)).2
        = true) := by
  rw [observe_set]
  split
  · simp [*]
  · simp [*]

theorem mem_observe_set_of_ne {s : State Path} {f p : Path} {sig : FileSignature} (hne : p ≠ f) :
    p ∈ (s.observe opts f sig).set ↔ p ∈ s.set := by
  simp [mem_observe_set, hne]

theorem retain_find (s : State Path) (files : Table Path (Option FileSignature)) (p : Path) :
    (s.retain files).known.find p
      = (s.known.find p).filter fun e => e.status = .inFlight ∨ (files.find p).isSome :=
  Table.find_filter _ p

theorem Running.observe {s : State Path} (h : s.Running opts) (f : Path) (sig : FileSignature) :
    (s.observe opts f sig).Running opts := by
  have hentry : f ∈ (s.observe opts f sig).set ↔
      (WatchEntry.observe opts.settle (s.set.length < opts.slots) sig (s.known.find f)).1.status
        = .inFlight := by
    rw [mem_observe_set, h.entries f]
    cases hf : s.known.find f with
    | none => simp [WatchEntry.observe_none]
    | some e =>
        rcases WatchEntry.observe_cases opts.settle (s.set.length < opts.slots) sig e with
          ⟨-, hflight, heq⟩ | ⟨-, hidle, heq⟩ | ⟨-, -, -, -, heq⟩ | ⟨-, hpending, heq⟩ |
            ⟨-, -, heq⟩
        · simp [heq, hflight]
        · simp [heq, hidle]
        · simp [heq]
        · simp [heq, hpending]
        · simp [heq]
  have hspawn : (WatchEntry.observe opts.settle (s.set.length < opts.slots) sig
      (s.known.find f)).2 = true → f ∉ s.set ∧ s.set.length < opts.slots := by
    intro hspawn
    rw [h.entries f]
    cases hf : s.known.find f with
    | none => simp [hf, WatchEntry.observe_none] at hspawn
    | some e =>
        rw [hf] at hspawn
        rcases WatchEntry.observe_cases opts.settle (s.set.length < opts.slots) sig e with
          ⟨-, -, heq⟩ | ⟨-, -, heq⟩ | ⟨-, hpending, -, hfree, -⟩ | ⟨-, -, heq⟩ | ⟨-, -, heq⟩
        · simp [heq] at hspawn
        · simp [heq] at hspawn
        · simp [hpending, of_decide_eq_true hfree]
        · simp [heq] at hspawn
        · simp [heq] at hspawn
  refine ⟨?_, ?_, ?_⟩
  · intro p
    rw [observe_find]
    by_cases hp : p = f
    · rw [hp, hentry]
      simp
    · rw [mem_observe_set_of_ne hp, if_neg hp]
      exact h.entries p
  · rw [observe_set]
    split
    · rename_i hspawned
      exact List.nodup_append.mpr ⟨h.nodup, List.nodup_singleton f, fun a ha b hb hab =>
        (hspawn hspawned).1 (List.mem_singleton.mp hb ▸ hab ▸ ha)⟩
    · exact h.nodup
  · rw [observe_set]
    split
    · rename_i hspawned
      have hfree := (hspawn hspawned).2
      rw [List.length_append, List.length_singleton]
      omega
    · exact h.slots

theorem Running.retain {s : State Path} (h : s.Running opts)
    (files : Table Path (Option FileSignature)) : (s.retain files).Running opts := by
  refine ⟨fun p => ?_, h.nodup, h.slots⟩
  rw [retain_find]
  apply (h.entries p).trans
  cases s.known.find p with
  | none => simp
  | some e =>
      simp only [Option.filter_eq_some_iff, Option.some.injEq]
      constructor
      · rintro ⟨e', rfl, hflight⟩
        exact ⟨e, ⟨rfl, by simp [hflight]⟩, hflight⟩
      · rintro ⟨e', ⟨rfl, -⟩, hflight⟩
        exact ⟨e, rfl, hflight⟩

theorem Running.observeAll {s : State Path} (h : s.Running opts)
    (files : List (Path × Option FileSignature)) : (s.observeAll opts files).Running opts := by
  induction files generalizing s with
  | nil => exact h
  | cons x rest ih =>
      obtain ⟨f, sig⟩ := x
      cases sig with
      | none => exact ih h
      | some sig => exact ih (h.observe f sig)

theorem Running.scan {s : State Path} (h : s.Running opts)
    (files : Table Path (Option FileSignature)) : (s.scan opts files).Running opts :=
  (h.retain files).observeAll files.entries

/-- Observations of other files leave a file alone. -/
theorem observeAll_of_not_mem {files : List (Path × Option FileSignature)} {p : Path}
    (hp : ∀ sig, (p, some sig) ∉ files) (s : State Path) :
    (s.observeAll opts files).known.find p = s.known.find p ∧
      (p ∈ (s.observeAll opts files).set ↔ p ∈ s.set) := by
  induction files generalizing s with
  | nil => exact ⟨rfl, Iff.rfl⟩
  | cons x rest ih =>
      obtain ⟨f, sig⟩ := x
      have hrest := ih fun sig hmem => hp sig (List.mem_cons_of_mem _ hmem)
      cases sig with
      | none => exact hrest s
      | some sig =>
          have hne : p ≠ f := by
            rintro rfl
            exact hp sig List.mem_cons_self
          obtain ⟨hfind, hset⟩ := hrest (s.observe opts f sig)
          rw [observe_find, if_neg hne] at hfind
          exact ⟨hfind, hset.trans (mem_observe_set_of_ne hne)⟩

theorem observeAll_of_mem (opts : WatchOptions) {files : List (Path × Option FileSignature)}
    {p : Path} {sig : FileSignature} (hnodup : (files.map Prod.fst).Nodup) (hp : (p, some sig) ∈ files)
    (s : State Path) :
    ∃ free, (s.observeAll opts files).known.find p
        = some (WatchEntry.observe opts.settle free sig (s.known.find p)).1 ∧
      (p ∈ (s.observeAll opts files).set ↔ p ∈ s.set ∨
        (WatchEntry.observe opts.settle free sig (s.known.find p)).2 = true) := by
  induction files generalizing s with
  | nil => cases hp
  | cons x rest ih =>
      obtain ⟨hhead, htail⟩ := List.nodup_cons.mp hnodup
      rcases List.mem_cons.mp hp with rfl | hmem
      · have hquiet : ∀ later, (p, some later) ∉ rest := fun later hmem =>
          hhead (List.mem_map.mpr ⟨_, hmem, rfl⟩)
        obtain ⟨hfind, hset⟩ := observeAll_of_not_mem hquiet (s.observe opts p sig)
        refine ⟨s.set.length < opts.slots, hfind.trans ?_, hset.trans ?_⟩
        · rw [observe_find, if_pos rfl]
        · simp [mem_observe_set]
      · obtain ⟨f, other⟩ := x
        cases other with
        | none => exact ih htail hmem s
        | some other =>
            have hne : p ≠ f := by
              rintro rfl
              exact hhead (List.mem_map.mpr ⟨_, hmem, rfl⟩)
            obtain ⟨free, hfind, hset⟩ := ih htail hmem (s.observe opts f other)
            rw [observe_find, if_neg hne] at hfind hset
            exact ⟨free, hfind, hset.trans (or_congr_left (mem_observe_set_of_ne hne))⟩

/-- What a scan does with a file whose signature it could not read, and with one it observed. -/
theorem scan_cases (opts : WatchOptions) (s : State Path)
    (files : Table Path (Option FileSignature)) (p : Path) :
    ((files.find p).join = none ∧
      (s.scan opts files).known.find p = (s.retain files).known.find p ∧
      (p ∈ (s.scan opts files).set ↔ p ∈ s.set)) ∨
    (∃ sig free, (files.find p).join = some sig ∧ (s.scan opts files).known.find p
        = some (WatchEntry.observe opts.settle free sig ((s.retain files).known.find p)).1 ∧
      (p ∈ (s.scan opts files).set ↔ p ∈ s.set ∨
        (WatchEntry.observe opts.settle free sig ((s.retain files).known.find p)).2 = true)) := by
  rcases Option.eq_none_or_eq_some (files.find p).join with hnone | ⟨sig, hsig⟩
  · refine Or.inl ⟨hnone, observeAll_of_not_mem ?_ (s.retain files)⟩
    intro sig hmem
    rw [Table.find_eq_some.mpr hmem] at hnone
    cases hnone
  · obtain ⟨free, hscan⟩ := observeAll_of_mem opts files.nodup
      (Table.find_eq_some.mp (Option.join_eq_some_iff.mp hsig)) (s.retain files)
    exact Or.inr ⟨sig, free, hsig, hscan⟩

end State

end Gigastt.Watch
