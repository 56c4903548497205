import Gigastt.JobLedger

/-!
What the store holds at most. A job is admitted below both limits, whatever the wall clock says and
whatever the other operations did before; no other operation adds a job or lets an upload grow. So
there are at most `jobs_max` jobs, and the uploads exceed `jobs_max_bytes` by less than one of them.
-/

namespace Gigastt

namespace Jobs

theorem Update.apply_body (f : Update) (job : Job) (rt : Runtime) :
    (f.apply job rt).1.body = job.body := by
  cases f with
  | register flag snapshot =>
      simp only [Update.apply]
      split <;> rfl
  | total seconds => rfl
  | processed seconds =>
      simp only [Update.apply]
      split <;> rfl
  | broadcast event => exact congrArg Core.body (Job.broadcast_core event)
  | diarize outcome => rfl

/-- A transition keeps the upload, for the next attempt, or releases it. -/
theorem Job.transition_body_le (now : ℚ) (transition : JobTransition) (job : Job) (rt : Runtime) :
    (job.transition now transition rt).1.body.length ≤ job.body.length := by
  have hbody : (job.transition now transition rt).1.body = (job.core.next transition).body :=
    congrArg Core.body (Job.transition_core now transition)
  rw [hbody]
  cases transition with
  | start | retry => exact le_rfl
  | complete result | fail error | cancel => exact Nat.zero_le _

namespace Store

/-- One operation of the store. Nothing is asked of the id of a new job. -/
def step (s : Store) : Ledger.Action → Store
  | .create now id body => (s.create now id body).1
  | .evict now => s.evictExpired now
  | .nextQueued now => (s.nextQueued now).1
  | .transition now id transition => (s.transition now id transition).1
  | .update now id f => s.update now id f
  | .subscribe id => s.subscribe id
  | .closeReceiver tx => s.closeReceiver tx
  | .register now id snapshot =>
      s.newFlag.update now id (.register s.runtime.flags.length snapshot)
  | .raise flag => s.raise flag

/-- The operations in the order of their critical sections. -/
def run (s : Store) (acts : List Ledger.Action) : Store := acts.foldl step s

/-- The bytes of the upload that an operation admits. -/
def admittedBytes (s : Store) : Ledger.Action → Nat
  | .create now id body => if (s.create now id body).2 then body.length else 0
  | _ => 0

/-- The largest upload that the operations admit. -/
def largestAdmitted (s : Store) : List Ledger.Action → Nat
  | [] => 0
  | a :: rest => max (s.admittedBytes a) ((s.step a).largestAdmitted rest)

/-- The store `t` holds no more than `s`, under the same limits. -/
structure Shrinks (s t : Store) : Prop where
  limits : t.limits = s.limits
  count : t.jobs.entries.length ≤ s.jobs.entries.length
  bytes : t.residentBodyBytes ≤ s.residentBodyBytes

namespace Shrinks

variable {s t : Store}

theorem of_jobs (hlimits : t.limits = s.limits) (hjobs : t.jobs = s.jobs) : s.Shrinks t := by
  refine ⟨hlimits, ?_, ?_⟩
  · rw [hjobs]
  · rw [residentBodyBytes, residentBodyBytes, hjobs]

theorem refl (s : Store) : s.Shrinks s := of_jobs rfl rfl

theorem evictExpired (now : ℚ) : s.Shrinks (s.evictExpired now) where
  limits := rfl
  count := Table.length_filter_le _
  bytes := Table.weight_filter_le (fun job : Job => job.body.length) _

theorem put {id : Nat} {job : Job} (hjob : s.find id = some job) {r : Job × Runtime}
    (hr : r.1.body.length ≤ job.body.length) : s.Shrinks (s.put id r) where
  limits := rfl
  count := (Table.length_modify _).le
  bytes := by
    apply Table.weight_modify_le fun job : Job => job.body.length
    intro job' hjob'
    cases Option.some.inj (hjob.symm.trans hjob')
    exact hr

theorem transition (now : ℚ) (id : Nat) (transition : JobTransition) :
    s.Shrinks (s.transition now id transition).1 := by
  cases hjob : s.find id with
  | none =>
      rw [transition_missing hjob]
      exact refl s
  | some job =>
      cases hallowed : job.allowed transition with
      | false =>
          rw [transition_rejected hjob hallowed]
          exact refl s
      | true =>
          have hput : s.Shrinks (s.put id (job.transition now transition s.runtime)) :=
            put hjob (job.transition_body_le now transition s.runtime)
          rw [transition_applied hjob hallowed]
          dsimp only
          split
          · exact ⟨hput.limits, hput.count, hput.bytes⟩
          · exact hput

theorem update (now : ℚ) (id : Nat) (f : Update) : s.Shrinks (s.update now id f) := by
  cases hjob : s.find id with
  | none =>
      rw [update_of_missing hjob]
      exact refl s
  | some job =>
      rw [update_of_find hjob]
      apply put hjob
      exact (congrArg List.length (f.apply_body job s.runtime)).le

theorem subscribe (id : Nat) : s.Shrinks (s.subscribe id) := by
  cases hjob : s.find id with
  | none =>
      rw [subscribe_of_missing hjob]
      exact refl s
  | some job =>
      rw [subscribe_of_find hjob]
      have hcore : (job.subscribe s.runtime.channels.length (s.opened id)).1.core = job.core :=
        Job.subscribe_core _
      apply put hjob
      exact (congrArg (fun c => c.body.length) hcore).le

end Shrinks

/-- A new job comes in below both limits, after the eviction. Any other operation shrinks the
store. -/
theorem step_cases (s : Store) (a : Ledger.Action) :
    s.Shrinks (s.step a) ∨ ∃ now id body, a = .create now id body ∧
      (s.evictExpired now).atCapacity = false ∧
      s.create now id body = ((s.evictExpired now).enqueue now id body, true) := by
  cases a with
  | create now id body =>
      cases hfull : (s.evictExpired now).atCapacity with
      | true =>
          have hcreate : s.create now id body = (s.evictExpired now, false) := if_pos hfull
          rw [step, hcreate]
          exact Or.inl (Shrinks.evictExpired now)
      | false =>
          have hcreate : s.create now id body = ((s.evictExpired now).enqueue now id body, true) :=
            if_neg (ne_true_of_eq_false hfull)
          exact Or.inr ⟨now, id, body, rfl, hfull, hcreate⟩
  | evict now => exact Or.inl (Shrinks.evictExpired now)
  | nextQueued now =>
      have hevict : s.Shrinks (s.evictExpired now) := Shrinks.evictExpired now
      exact Or.inl ⟨hevict.limits, hevict.count, hevict.bytes⟩
  | transition now id transition => exact Or.inl (Shrinks.transition now id transition)
  | update now id f => exact Or.inl (Shrinks.update now id f)
  | subscribe id => exact Or.inl (Shrinks.subscribe id)
  | register now id snapshot =>
      have hupdate : s.newFlag.Shrinks (s.step (.register now id snapshot)) :=
        Shrinks.update now id _
      exact Or.inl ⟨hupdate.limits, hupdate.count, hupdate.bytes⟩
  | closeReceiver tx | raise flag => exact Or.inl (Shrinks.of_jobs rfl rfl)

/-- Within the limits, but for an upload of `largest` bytes. -/
structure Bounded (limits : Limits) (largest : Nat) (s : Store) : Prop where
  same : s.limits = limits
  count : s.jobs.entries.length ≤ limits.jobsMax
  bytes : 1 ≤ limits.jobsMaxBytes → s.residentBodyBytes < limits.jobsMaxBytes + largest

namespace Bounded

variable {limits : Limits} {largest : Nat} {s : Store}

theorem new (limits : Limits) : (Store.new limits).Bounded limits 0 :=
  ⟨rfl, Nat.zero_le _, fun hbytes => hbytes⟩

theorem of_shrinks {t : Store} (h : s.Bounded limits largest) (ht : s.Shrinks t) :
    t.Bounded limits largest :=
  ⟨ht.limits.trans h.same, ht.count.trans h.count, fun hbytes =>
    ht.bytes.trans_lt (h.bytes hbytes)⟩

theorem mono {largest' : Nat} (h : s.Bounded limits largest) (hle : largest ≤ largest') :
    s.Bounded limits largest' :=
  ⟨h.same, h.count, fun hbytes => (h.bytes hbytes).trans_le (Nat.add_le_add_left hle _)⟩

/-- A store that is not full has room for one more job, and an upload may cross the line. -/
theorem enqueue (hlimits : s.limits = limits) (hroom : s.atCapacity = false) (now : ℚ) (id : Nat)
    (body : List UInt8) : (s.enqueue now id body).Bounded limits body.length := by
  simp only [atCapacity, Bool.or_eq_false_iff, decide_eq_false_iff_not, not_le, hlimits] at hroom
  obtain ⟨hcount, hbytes⟩ := hroom
  refine ⟨hlimits, ?_, fun _ => ?_⟩
  · calc (s.enqueue now id body).jobs.entries.length
        ≤ s.jobs.entries.length + 1 := Table.length_insert_le
      _ ≤ limits.jobsMax := hcount
  · calc (s.enqueue now id body).residentBodyBytes
        ≤ s.residentBodyBytes + body.length :=
          Table.weight_insert_le fun job : Job => job.body.length
      _ < limits.jobsMaxBytes + body.length := Nat.add_lt_add_right hbytes _

theorem step (h : s.Bounded limits largest) (a : Ledger.Action) :
    (s.step a).Bounded limits (max largest (s.admittedBytes a)) := by
  rcases s.step_cases a with hshrinks | ⟨now, id, body, rfl, hroom, hcreate⟩
  · exact (h.of_shrinks hshrinks).mono (le_max_left _ _)
  · have hadmitted : s.admittedBytes (.create now id body) = body.length := by
      rw [admittedBytes, hcreate]
      exact if_pos rfl
    rw [hadmitted, Store.step, hcreate]
    exact (enqueue (s := s.evictExpired now) h.same hroom now id body).mono (le_max_right _ _)

theorem run (h : s.Bounded limits largest) (acts : List Ledger.Action) :
    (s.run acts).Bounded limits (max largest (s.largestAdmitted acts)) := by
  induction acts generalizing s largest with
  | nil => exact h.mono (le_max_left _ _)
  | cons a rest ih =>
      rw [largestAdmitted, ← max_assoc]
      exact ih (h.step a)

end Bounded

/-- At any moment the store holds at most `jobs_max` jobs, and less than `jobs_max_bytes` bytes of
uploads beyond the largest one it admitted. -/
theorem admission_bound (limits : Limits) (acts : List Ledger.Action) :
    ((new limits).run acts).jobs.entries.length ≤ limits.jobsMax ∧
      (1 ≤ limits.jobsMaxBytes → ((new limits).run acts).residentBodyBytes
        < limits.jobsMaxBytes + (new limits).largestAdmitted acts) := by
  have h := (Bounded.new limits).run acts
  rw [Nat.zero_max] at h
  exact ⟨h.count, h.bytes⟩

/-- The second upload crosses the line of three bytes, and the third is refused. -/
theorem admission_bound_crossing :
    let acts := [.create 0 0 [1, 2], .create 1 1 [3, 4], .create 2 2 [5]]
    let s := (new ⟨0, 4, 3⟩).run acts
    s.jobs.entries.length = 2 ∧ s.residentBodyBytes = 4 ∧
      4 < 3 + (new ⟨0, 4, 3⟩).largestAdmitted acts := by
  intro acts s
  have hbytes : s.residentBodyBytes = 4 := by decide
  refine ⟨by decide, hbytes, ?_⟩
  have hbound := (admission_bound ⟨0, 4, 3⟩ acts).2 (by decide)
  exact hbytes ▸ hbound

end Store

namespace Ledger

/-- The ledger counts along: its store takes the same operations. -/
theorem store_step {l l' : Ledger} {a : Action} (hstep : l.step a = some l') :
    l'.store = l.store.step a := by
  cases a with
  | create now id body =>
      obtain ⟨_, rfl⟩ := Option.ite_none_left_eq_some.mp hstep |>.imp_right Option.some.inj
      rfl
  | _ =>
      cases hstep
      rfl

theorem store_run {acts : List Action} {l l' : Ledger}
    (hrun : Transition.run step l acts = some l') : l'.store = l.store.run acts := by
  induction acts generalizing l with
  | nil =>
      cases hrun
      rfl
  | cons a rest ih =>
      obtain ⟨u, hu, hrest⟩ := Transition.run_cons hrun
      rw [ih hrest, store_step hu]
      rfl

theorem bounded_of_run {limits : Limits} {acts : List Action} {l : Ledger}
    (hrun : Transition.run step (new limits) acts = some l) :
    l.store.Bounded limits ((Store.new limits).largestAdmitted acts) := by
  have h := (Store.Bounded.new limits).run acts
  rw [Nat.zero_max] at h
  rw [store_run hrun]
  exact h

end Ledger

end Jobs

end Gigastt
