import Gigastt.Pool

/-!
Wakeups. A checkin that finds no waiter lets go of the waiters lock before it takes the items lock,
so a call can register in between: the item then goes idle beside a waiter nobody will serve.
-/

namespace Gigastt.Pool

open Transition

variable {T : Type}

/-- The waiter's receiver is alive. -/
def State.alive (s : State T) (waiter : Nat) : Prop :=
  ∃ kind slot, s.calls[waiter]? = some (.waiting kind slot)

/-- No checkin is between two of its own steps. -/
def State.Quiescent (s : State T) : Prop :=
  ∀ checkin ∈ s.checkins, checkin = .returned ∨ ∃ item, checkin = .entry item

/-- Whenever an item is idle, no live waiter is queued. -/
def State.NoneStarved (s : State T) : Prop :=
  s.items ≠ [] → ∀ waiter ∈ s.waiters, ¬s.alive waiter

/-- A checkin pushes its item onto the idle queue only while no live waiter is queued. -/
def PushesUnwatched (s : State T) : Action → Prop
  | .checkin task => ∀ item, s.checkins[task]? = some (.pushing item) →
      ∀ waiter ∈ s.waiters, ¬s.alive waiter
  | _ => True

/-- A call that is not registering cannot come to life. -/
theorem alive_of_set {s : State T} {call waiter : Nat} {b : Call T}
    (hb : ∀ kind slot, b = .waiting kind slot → s.alive call)
    (h : { s with calls := s.calls.set call b }.alive waiter) : s.alive waiter := by
  obtain ⟨kind, slot, hget⟩ := h
  rw [List.getElem?_set] at hget
  split at hget
  · rename_i heq
    subst heq
    split at hget
    · exact hb kind slot (Option.some.inj hget)
    · cases hget
  · exact ⟨kind, slot, hget⟩

theorem alive_of_checkout {s : State T} {kind : Kind} {waiter : Nat}
    (h : { s with calls := s.calls ++ [Call.fast kind] }.alive waiter) : s.alive waiter := by
  obtain ⟨kind', slot, hget⟩ := h
  rw [List.getElem?_append] at hget
  split at hget
  · exact ⟨kind', slot, hget⟩
  · rw [List.getElem?_singleton] at hget
    split at hget <;> cases hget

/-- Steps that idle no item, register no waiter and revive none keep the wakeup invariant. -/
theorem State.NoneStarved.mono {s t : State T} (hs : s.NoneStarved)
    (hitems : t.items ≠ [] → s.items ≠ []) (hwaiters : ∀ w ∈ t.waiters, w ∈ s.waiters)
    (halive : ∀ w, t.alive w → s.alive w) : t.NoneStarved :=
  fun ht w hw hlive => hs (hitems ht) w (hwaiters w hw) (halive w hlive)

theorem State.NoneStarved.returnCall {s : State T} (hs : s.NoneStarved) (call : Nat) (held : List T) :
    { s with held, calls := s.calls.set call .returned }.NoneStarved :=
  State.NoneStarved.mono hs id (fun _ => id) fun _ =>
    alive_of_set (s := s) (b := .returned) fun _ _ h => by cases h

theorem State.NoneStarved.takeItem {s : State T} (hs : s.NoneStarved) {call : Nat} {item : T}
    {rest : List T} (hitems : s.items = item :: rest) :
    (s.takeItem call item rest).NoneStarved :=
  State.NoneStarved.mono hs (fun _ => by simp [hitems]) (fun _ => id) fun _ =>
    alive_of_set (s := s) (b := .returned) fun _ _ h => by cases h

theorem noneStarved_fastPath {s : State T} (hs : s.NoneStarved) (call : Nat) (kind : Kind) :
    (s.fastPath call kind).NoneStarved := by
  unfold State.fastPath
  split
  · exact hs.returnCall call s.held
  · split
    · rename_i hitems
      exact hs.takeItem hitems
    · rename_i hitems
      intro ht
      exact absurd hitems ht

/-- Registration happens under the items lock, so only beside an empty idle queue. -/
theorem noneStarved_slowPath {s : State T} (hs : s.NoneStarved) (call : Nat) (kind : Kind) :
    (s.slowPath call kind).NoneStarved := by
  unfold State.slowPath
  split
  · exact hs.returnCall call s.held
  · split
    · rename_i hitems
      exact hs.takeItem hitems
    · rename_i hitems
      intro ht
      exact absurd hitems ht

theorem noneStarved_checkinStep {s t : State T} {task : Nat} {a : Checkin T}
    (htask : s.checkins[task]? = some a) (h : s.checkinStep task a = some t)
    (hguard : PushesUnwatched s (.checkin task)) (hs : s.NoneStarved) : t.NoneStarved := by
  cases a with
  | entry item =>
      simp only [State.checkinStep] at h
      split at h <;> cases h <;> exact hs
  | popping item =>
      simp only [State.checkinStep] at h
      split at h <;> cases h
      · rename_i waiter rest hwaiters
        exact State.NoneStarved.mono hs id (fun w hw => by rw [hwaiters]; exact List.mem_cons_of_mem _ hw)
          fun _ => id
      · exact hs
  | sending item waiter =>
      simp only [State.checkinStep] at h
      split at h <;> cases h
      · rename_i kind hcall
        exact State.NoneStarved.mono hs id (fun _ => id) fun _ =>
          alive_of_set (s := s) fun _ _ _ => ⟨kind, none, hcall⟩
      · exact hs
  | pushing item =>
      cases h
      intro _ w hw hlive
      exact hguard item htask w hw hlive
  | returned => cases h

theorem noneStarved_step {s t : State T} {a : Action} (h : step s a = some t)
    (hguard : PushesUnwatched s a) (hs : s.NoneStarved) : t.NoneStarved := by
  cases a with
  | checkout kind =>
      cases h
      exact State.NoneStarved.mono hs id (fun _ => id) fun _ => alive_of_checkout
  | fastPath call =>
      simp only [step] at h
      split at h <;> cases h
      exact noneStarved_fastPath hs call _
  | slowPath call =>
      simp only [step] at h
      split at h <;> cases h
      exact noneStarved_slowPath hs call _
  | receive call =>
      simp only [step] at h
      split at h <;> cases h
      exact hs.returnCall call _
  | receiveClosed call =>
      simp only [step] at h
      split at h
      · split at h <;> cases h
        exact hs.returnCall call s.held
      · cases h
  | abandon call =>
      simp only [step] at h
      split at h <;> cases h <;> exact hs.returnCall call s.held
  | tryCheckoutN n =>
      cases h
      unfold State.tryCheckoutN
      split
      · exact hs
      · split
        · exact hs
        · exact State.NoneStarved.mono hs (fun ht hitems => ht (by simp [hitems])) (fun _ => id)
            fun _ => id
  | dropGuard guard =>
      simp only [step] at h
      split at h <;> cases h
      exact hs
  | checkin task =>
      simp only [step] at h
      split at h
      · rename_i htask
        exact noneStarved_checkinStep htask h hguard hs
      · cases h
  | closeStore =>
      cases h
      exact hs
  | closeClear =>
      simp only [step] at h
      split at h <;> cases h
      intro _ w hw
      cases hw

/-- A checkin that pushes its item beside a live waiter, with no other checkin on its way, leaves
both: the item idle and the waiter asleep. -/
theorem starved_of_push {s t : State T} {task : Nat} {item : T} (waiter : Nat)
    (htask : s.checkins[task]? = some (.pushing item)) (hwaiter : waiter ∈ s.waiters)
    (hlive : s.alive waiter) (h : step s (.checkin task) = some t) : ¬t.NoneStarved := by
  simp only [step, htask, State.checkinStep, Option.some.injEq] at h
  subst h
  intro hnone
  exact hnone (by simp) waiter hwaiter hlive

/-- No wakeup is lost in a run in which no checkin pushes its item beside a live waiter; and the
first one that does, with no other checkin on its way, loses one. -/
theorem no_lost_wakeup (items : List T) (acts : List Action) (s : State T)
    (hrun : run step (new items) acts = some s) :
    (Guarded step PushesUnwatched (new items) acts →
      s.closed = false → s.Quiescent → s.NoneStarved) ∧
    (∀ a t, step s a = some t → ¬PushesUnwatched s a →
      t.closed = false → t.Quiescent → ¬t.NoneStarved) := by
  constructor
  · intro hguard _ _
    apply run_invariant (fun _ _ _ h hg hs => noneStarved_step h hg hs) hrun hguard
    intro _ w hw
    cases hw
  · intro a t hstep hwatched _ _
    cases a with
    | checkin task =>
        simp only [PushesUnwatched, not_forall, not_not] at hwatched
        obtain ⟨item, htask, waiter, hwaiter, hlive⟩ := hwatched
        exact starved_of_push waiter htask hwaiter hlive hstep
    | _ => exact absurd trivial hwatched

theorem no_lost_wakeup_idle :
    { new [7] with calls := [.returned], checkins := [.returned] : State Nat }.NoneStarved :=
  (no_lost_wakeup [7] [.checkout .blocking, .fastPath 0, .dropGuard 0, .checkin 0, .checkin 0,
    .checkin 0] _ rfl).1
    (by simp [Guarded, PushesUnwatched, step, new, State.fastPath, State.takeItem,
      State.checkinStep])
    rfl fun _ h => Or.inl (List.mem_singleton.mp h)

/-- The second client registers between the first client's empty-queue check and its push. -/
theorem wakeup_lost :
    ∃ s, run step (new [7]) [.checkout .blocking, .fastPath 0, .checkout .blocking, .fastPath 1,
        .dropGuard 0, .checkin 0, .checkin 0, .slowPath 1, .checkin 0] = some s ∧
      s.closed = false ∧ s.Quiescent ∧ ¬s.NoneStarved := by
  refine ⟨{ new [7] with
    waiters := [1]
    calls := [.returned, .waiting .blocking none]
    checkins := [.returned] }, rfl, rfl, by simp [State.Quiescent], fun hnone => ?_⟩
  exact hnone (by simp [new]) 1 (by simp) ⟨.blocking, none, rfl⟩

end Gigastt.Pool
