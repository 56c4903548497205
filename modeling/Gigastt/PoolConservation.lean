import Gigastt.Pool
import Mathlib.Algebra.BigOperators.Group.Multiset.Basic
import Mathlib.Algebra.Order.Group.Multiset
import Mathlib.Tactic.Abel

/-!
Where the items of an open pool are. Every item is in the idle queue, a live guard, a checkin or
the channel of a waiting call; the only step that takes one out of all four is the dropping of a
waiter whose channel already holds it.
-/

namespace Gigastt.Pool

open Transition

theorem sum_map_set {α M : Type*} [AddCommMonoid M] (f : α → M) {l : List α} {i : Nat} {a : α}
    (b : α) (h : l[i]? = some a) : ((l.set i b).map f).sum + f a = (l.map f).sum + f b := by
  induction l generalizing i with
  | nil => simp at h
  | cons x l ih =>
      cases i with
      | zero =>
          cases h
          simp only [List.set_cons_zero, List.map_cons, List.sum_cons]
          abel
      | succ i =>
          have htail := ih (i := i) h
          simp only [List.set_cons_succ, List.map_cons, List.sum_cons, add_assoc, htail]

variable {T : Type}

/-- The item in the channel of a call whose receiver is alive. -/
def Call.inChannel : Call T → Multiset T
  | .waiting _ (some item) => {item}
  | _ => 0

/-- The item a checkin is carrying. -/
def Checkin.carried : Checkin T → Multiset T
  | .entry item | .popping item | .sending item _ | .pushing item => {item}
  | .returned => 0

namespace State

/-- All items, counted once for every place that holds one. -/
def places (s : State T) : Multiset T :=
  s.items + s.held + (s.checkins.map Checkin.carried).sum + (s.calls.map Call.inChannel).sum

/-- The items an action destroys: what the channel of an abandoned call holds. -/
def destroyed (s : State T) : Action → Multiset T
  | .abandon call =>
      match s.calls[call]? with
      | some a => a.inChannel
      | none => 0
  | _ => 0

end State

theorem places_new (items : List T) : (new items).places = items := by
  simp [State.places, new]

theorem places_set_call (s : State T) {call : Nat} {a : Call T} (b : Call T)
    (h : s.calls[call]? = some a) :
    { s with calls := s.calls.set call b }.places + a.inChannel = s.places + b.inChannel := by
  simp only [State.places, add_assoc, sum_map_set Call.inChannel b h]

theorem places_set_checkin (s : State T) {task : Nat} {a : Checkin T} (b : Checkin T)
    (h : s.checkins[task]? = some a) :
    { s with checkins := s.checkins.set task b }.places + a.carried = s.places + b.carried := by
  have hset := sum_map_set Checkin.carried b h
  simp only [State.places]
  rw [add_right_comm, add_assoc _ _ a.carried, hset]
  abel

theorem places_advance_checkin (s : State T) {task : Nat} {a b : Checkin T}
    (h : s.checkins[task]? = some a) (hcarried : a.carried = b.carried) :
    { s with checkins := s.checkins.set task b }.places = s.places := by
  have hset := places_set_checkin s b h
  rw [hcarried] at hset
  exact add_right_cancel hset

theorem places_takeItem (s : State T) {call : Nat} {a : Call T} {item : T} {rest : List T}
    (hcall : s.calls[call]? = some a) (ha : a.inChannel = 0) (hitems : s.items = item :: rest) :
    (s.takeItem call item rest).places = s.places := by
  have hset := sum_map_set Call.inChannel (.returned : Call T) hcall
  rw [ha, add_zero] at hset
  simp only [State.places, State.takeItem, hset, hitems, Call.inChannel, add_zero,
    ← Multiset.coe_add, ← Multiset.cons_coe, ← Multiset.singleton_add, Multiset.coe_nil]
  abel

theorem places_fastPath (s : State T) {call : Nat} {kind : Kind}
    (hcall : s.calls[call]? = some (.fast kind)) : (s.fastPath call kind).places = s.places := by
  unfold State.fastPath
  split
  · simpa [Call.inChannel] using places_set_call s .returned hcall
  · split
    · rename_i item rest hitems
      exact places_takeItem s hcall rfl hitems
    · simpa [Call.inChannel] using places_set_call s (.slow kind) hcall

theorem places_slowPath (s : State T) {call : Nat} {kind : Kind}
    (hcall : s.calls[call]? = some (.slow kind)) : (s.slowPath call kind).places = s.places := by
  unfold State.slowPath
  split
  · simpa [Call.inChannel] using places_set_call s .returned hcall
  · split
    · rename_i item rest hitems
      exact places_takeItem s hcall rfl hitems
    · simpa [Call.inChannel, State.places] using places_set_call s (.waiting kind none) hcall

theorem places_tryCheckoutN (s : State T) (n : Nat) : (s.tryCheckoutN n).places = s.places := by
  unfold State.tryCheckoutN
  split
  · rfl
  · split
    · rfl
    · have hsplit : (s.items : Multiset T) = s.items.take n + s.items.drop n := by
        rw [Multiset.coe_add, List.take_append_drop]
      simp only [State.places, hsplit, ← Multiset.coe_add]
      abel

/-- Within an open pool a checkin carries its item to the next place. -/
theorem places_checkinStep {s t : State T} {task : Nat} {a : Checkin T}
    (htask : s.checkins[task]? = some a) (hopen : s.closed = false)
    (h : s.checkinStep task a = some t) : t.places = s.places := by
  cases a with
  | entry item =>
      simp only [State.checkinStep, hopen, Bool.false_eq_true, if_false, Option.some.injEq] at h
      subst h
      exact places_advance_checkin s htask rfl
  | popping item =>
      simp only [State.checkinStep] at h
      split at h <;> cases h
      · exact places_advance_checkin s htask rfl
      · exact places_advance_checkin s htask rfl
  | sending item waiter =>
      simp only [State.checkinStep] at h
      split at h <;> cases h
      · rename_i kind hcall
        have hcheckin := places_set_checkin s .returned htask
        have hchannel := places_set_call { s with checkins := s.checkins.set task .returned }
          (.waiting kind (some item)) hcall
        simp only [Checkin.carried, Call.inChannel, add_zero] at hcheckin hchannel
        exact hchannel.trans hcheckin
      · exact places_advance_checkin s htask rfl
  | pushing item =>
      cases h
      have hcheckin := places_set_checkin s .returned htask
      simp only [Checkin.carried, add_zero] at hcheckin
      rw [← hcheckin]
      simp only [State.places, ← Multiset.coe_add, ← Multiset.coe_singleton]
      abel
  | returned => cases h

theorem places_set_returned (s : State T) {call : Nat} {a : Call T}
    (h : s.calls[call]? = some a) :
    { s with calls := s.calls.set call .returned }.places + a.inChannel = s.places := by
  simpa [Call.inChannel] using places_set_call s .returned h

/-- What one action of an open pool does to the items: none moves out of the four places but those
it destroys. -/
theorem places_step {s t : State T} {a : Action} (h : step s a = some t)
    (hopen : s.closed = false) : t.places + s.destroyed a = s.places := by
  cases a with
  | checkout kind =>
      cases h
      simp [State.places, State.destroyed, Call.inChannel]
  | fastPath call =>
      simp only [step] at h
      split at h <;> cases h
      rename_i hcall
      exact (add_zero _).trans (places_fastPath s hcall)
  | slowPath call =>
      simp only [step] at h
      split at h <;> cases h
      rename_i hcall
      exact (add_zero _).trans (places_slowPath s hcall)
  | receive call =>
      simp only [step] at h
      split at h <;> cases h
      rename_i item hcall
      have hreturned := places_set_returned s hcall
      simp only [Call.inChannel] at hreturned
      rw [← hreturned]
      simp only [State.places, State.destroyed, ← Multiset.coe_add, ← Multiset.coe_singleton]
      abel
  | receiveClosed call =>
      simp only [step] at h
      split at h
      · rename_i hcall
        split at h <;> cases h
        exact places_set_returned s hcall
      · cases h
  | abandon call =>
      simp only [step] at h
      split at h <;> cases h
      all_goals
        rename_i hcall
        simpa only [State.destroyed, hcall] using places_set_returned s hcall
  | tryCheckoutN n =>
      cases h
      exact (add_zero _).trans (places_tryCheckoutN s n)
  | dropGuard guard =>
      simp only [step] at h
      split at h <;> cases h
      rename_i item hguard
      obtain ⟨hlt, hitem⟩ := List.getElem?_eq_some_iff.mp hguard
      have hheld : (s.held : Multiset T) = {item} + (s.held.eraseIdx guard : Multiset T) := by
        rw [Multiset.singleton_add, Multiset.cons_coe, Multiset.coe_eq_coe, ← hitem]
        exact (List.getElem_cons_eraseIdx_perm hlt).symm
      simp only [State.places, State.destroyed, hheld, List.map_append, List.sum_append,
        List.map_cons, List.map_nil, List.sum_cons, List.sum_nil, Checkin.carried]
      abel
  | checkin task =>
      simp only [step] at h
      split at h
      · rename_i htask
        exact (add_zero _).trans (places_checkinStep htask hopen h)
      · cases h
  | closeStore =>
      cases h
      exact add_zero _
  | closeClear =>
      simp only [step] at h
      split at h <;> cases h
      exact add_zero _

/-- The closed flag is never cleared. -/
theorem open_of_step {s t : State T} {a : Action} (h : step s a = some t)
    (ht : t.closed = false) : s.closed = false := by
  cases a with
  | checkin task =>
      simp only [step] at h
      split at h
      · rename_i checkin _
        cases checkin <;> simp only [State.checkinStep] at h <;> (try split at h) <;> cases h <;>
          exact ht
      · cases h
  | fastPath call | slowPath call =>
      simp only [step] at h
      split at h <;> cases h
      simp only [State.fastPath, State.slowPath] at ht
      split at ht
      · exact ht
      · split at ht <;> exact ht
  | tryCheckoutN n =>
      cases h
      simp only [State.tryCheckoutN] at ht
      split at ht
      · exact ht
      · split at ht <;> exact ht
  | closeStore => cases h; cases ht
  | _ =>
      simp only [step] at h
      repeat' split at h
      all_goals first | cases h; exact ht | cases h

theorem open_of_run {acts : List Action} {s t : State T} (h : run step s acts = some t)
    (ht : t.closed = false) : s.closed = false := by
  induction acts generalizing s with
  | nil =>
      cases h
      exact ht
  | cons a rest ih =>
      obtain ⟨u, hu, hrest⟩ := run_cons h
      exact open_of_step hu (ih hrest)

/-- Everything the abandoned channels of a run held. -/
def destroyedBy (s : State T) : List Action → Multiset T
  | [] => 0
  | a :: rest => s.destroyed a + ((step s a).map fun t => destroyedBy t rest).getD 0

theorem places_run {acts : List Action} {s t : State T} (h : run step s acts = some t)
    (hopen : t.closed = false) : t.places + destroyedBy s acts = s.places := by
  induction acts generalizing s with
  | nil =>
      cases h
      exact add_zero _
  | cons a rest ih =>
      obtain ⟨u, hu, hrest⟩ := run_cons h
      have hs := open_of_step hu (open_of_run hrest hopen)
      calc t.places + destroyedBy s (a :: rest)
          = t.places + destroyedBy u rest + s.destroyed a := by
            simp only [destroyedBy, hu, Option.map_some, Option.getD_some]
            abel
        _ = u.places + s.destroyed a := by rw [ih hrest]
        _ = s.places := places_step hu hs

/-- A call is abandoned only while its channel is empty. -/
def AbandonsEmpty (s : State T) : Action → Prop
  | .abandon call => ∀ kind item, s.calls[call]? ≠ some (.waiting kind (some item))
  | _ => True

theorem destroyed_eq_zero {s : State T} {a : Action} :
    s.destroyed a = 0 ↔ AbandonsEmpty s a := by
  cases a with
  | abandon call =>
      simp only [State.destroyed, AbandonsEmpty]
      rcases s.calls[call]? with _ | (_ | _ | ⟨kind, _ | item⟩ | _)
      all_goals simp [Call.inChannel]
  | _ => simp [State.destroyed, AbandonsEmpty]

theorem destroyedBy_eq_zero {acts : List Action} {s t : State T}
    (h : run step s acts = some t) :
    destroyedBy s acts = 0 ↔ Guarded step AbandonsEmpty s acts := by
  induction acts generalizing s with
  | nil => simp [destroyedBy, Guarded]
  | cons a rest ih =>
      obtain ⟨u, hu, hrest⟩ := run_cons h
      simp only [destroyedBy, hu, Option.map_some, Option.getD_some]
      rw [add_eq_zero_iff_of_nonneg (Multiset.zero_le _) (Multiset.zero_le _), destroyed_eq_zero,
        ih hrest]
      simp only [Guarded, hu, Option.some.injEq, forall_eq']

/-- An open pool has every item it was created with in exactly one place if and only if no call
was abandoned after a checkin had sent an item into its channel. -/
theorem items_conserved_iff (items : List T) (acts : List Action) (s : State T)
    (hrun : run step (new items) acts = some s) (hopen : s.closed = false) :
    s.places = items ↔ Guarded step AbandonsEmpty (new items) acts := by
  have hplaces := places_run hrun hopen
  rw [places_new] at hplaces
  rw [← destroyedBy_eq_zero hrun, ← hplaces]
  exact left_eq_add.trans Iff.rfl

/-- One client holds the only item, a second one waits for it, and the first hands it over. -/
def sendToWaiter : List Action :=
  [.checkout .async, .fastPath 0, .checkout .async, .fastPath 1, .slowPath 1, .dropGuard 0,
    .checkin 0, .checkin 0, .checkin 0]

theorem items_conserved_receive :
    Guarded step AbandonsEmpty (new [7]) (sendToWaiter ++ [.receive 1]) :=
  (items_conserved_iff [7] (sendToWaiter ++ [.receive 1]) _ rfl rfl).mp rfl

/-- A waiter dropped between the send and its receive takes the only item with it. -/
theorem item_destroyed :
    ∃ s, run step (new [7]) (sendToWaiter ++ [.abandon 1]) = some s ∧
      s.closed = false ∧ s.places = 0 :=
  ⟨_, rfl, rfl, rfl⟩

end Gigastt.Pool
