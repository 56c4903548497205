import Gigastt.JobLedger

/-!
The event streams of the jobs. A stream that stays open and keeps its place among the listeners ends
with the one terminal event that matches the end of its job, and with nothing after it.
-/

namespace Gigastt

namespace Jobs

open Indexed

/-- The receiver gets the event, unless it is closed. -/
def Channel.receive (event : JobEvent) (ch : Channel) : Channel :=
  if ch.closed then ch else { ch with events := ch.events ++ [event] }

namespace Channel

variable {event : JobEvent} {ch : Channel}

theorem receive_job : (ch.receive event).job = ch.job := by
  unfold receive
  split <;> rfl

theorem receive_closed : (ch.receive event).closed = ch.closed := by
  unfold receive
  split <;> rfl

theorem receive_displaced : (ch.receive event).displaced = ch.displaced := by
  unfold receive
  split <;> rfl

theorem receive_events (hopen : ch.closed = false) :
    (ch.receive event).events = ch.events ++ [event] := by
  rw [receive, if_neg (ne_true_of_eq_false hopen)]

/-- A stream stays the same stream, whether the event is for it or not. -/
theorem receive_same (event : JobEvent) (ch : Channel) (listens : Prop) [Decidable listens] :
    (if listens then ch.receive event else ch).job = ch.job ∧
      (if listens then ch.receive event else ch).closed = ch.closed ∧
      (if listens then ch.receive event else ch).displaced = ch.displaced := by
  split
  · exact ⟨receive_job, receive_closed, receive_displaced⟩
  · exact ⟨rfl, rfl, rfl⟩

theorem receive_quiet (hquiet : ∀ x ∈ ch.events, x.isTerminal = false)
    (hevent : event.isTerminal = false) : ∀ x ∈ (ch.receive event).events, x.isTerminal = false := by
  intro x hx
  unfold receive at hx
  split at hx
  · exact hquiet x hx
  · rcases List.mem_append.mp hx with hx | hx
    · exact hquiet x hx
    · rwa [List.mem_singleton.mp hx]

/-- An event is sent only into a stream without a terminal one. -/
theorem receive_dropLast (hquiet : ∀ x ∈ ch.events, x.isTerminal = false) :
    ∀ x ∈ (ch.receive event).events.dropLast, x.isTerminal = false := by
  intro x hx
  unfold receive at hx
  split at hx
  · exact hquiet x (List.mem_of_mem_dropLast hx)
  · rw [List.dropLast_concat] at hx
    exact hquiet x hx

end Channel

namespace Runtime

variable {rt : Runtime} {event : JobEvent}

theorem send_channels (tx t : Nat) :
    (rt.send tx event).1.channels[t]?
      = rt.channels[t]?.map fun ch => if t = tx then ch.receive event else ch := by
  unfold send isClosed
  cases hget : rt.channels[t]? with
  | none =>
      rw [Option.map_none]
      split
      · exact hget
      · show (rt.channels.modify tx _)[t]? = none
        rw [List.getElem?_modify, hget]
        rfl
  | some ch =>
      rw [Option.map_some]
      by_cases ht : t = tx
      · subst ht
        rw [if_pos rfl, hget, Option.all_some, Channel.receive]
        by_cases hclosed : ch.closed = true
        · rw [if_pos hclosed, if_pos hclosed]
          exact hget
        · rw [if_neg hclosed, if_neg hclosed]
          show (rt.channels.modify t _)[t]? = _
          rw [List.getElem?_modify_eq, hget]
          rfl
      · rw [if_neg ht]
        split
        · exact hget
        · show (rt.channels.modify tx _)[t]? = _
          rw [List.getElem?_modify, hget]
          exact congrArg some (if_neg (Ne.symm ht))

theorem send_delivered (tx : Nat) : (rt.send tx event).2 = !rt.isClosed tx := by
  unfold send
  cases rt.isClosed tx <;> rfl

theorem isClosed_send (tx t : Nat) : (rt.send tx event).1.isClosed t = rt.isClosed t := by
  unfold isClosed
  rw [send_channels]
  cases rt.channels[t]? with
  | none => rfl
  | some ch =>
      rw [Option.map_some, Option.all_some, Option.all_some]
      split
      · exact Channel.receive_closed
      · rfl

/-- Each listener receives the event once. -/
theorem sendAll_channels {channels : List Nat} (hnodup : channels.Nodup) (t : Nat) :
    (rt.sendAll event channels).2.channels[t]?
      = rt.channels[t]?.map fun ch => if t ∈ channels then ch.receive event else ch := by
  induction channels generalizing rt with
  | nil =>
      show rt.channels[t]? = _
      cases rt.channels[t]? <;> rfl
  | cons tx rest ih =>
      obtain ⟨hhead, htail⟩ := List.nodup_cons.mp hnodup
      have hrest : (rt.sendAll event (tx :: rest)).2.channels[t]? = _ := ih htail
      rw [send_channels, Option.map_map] at hrest
      refine hrest.trans (congrArg (Option.map · _) (funext fun ch => ?_))
      by_cases ht : t = tx
      · subst ht
        rw [Function.comp_apply, if_pos rfl, if_neg hhead, if_pos List.mem_cons_self]
      · rw [Function.comp_apply, if_neg ht]
        simp only [List.mem_cons, ht, false_or]

/-- The listeners that stay are those that are open, and none once the stream has ended. -/
theorem sendAll_listeners (channels : List Nat) :
    (rt.sendAll event channels).1
      = if event.isTerminal then [] else channels.filter fun tx => !rt.isClosed tx := by
  induction channels generalizing rt with
  | nil => split <;> rfl
  | cons tx rest ih =>
      have hrest : ((rt.send tx event).1.sendAll event rest).1 = _ := ih
      simp only [isClosed_send] at hrest
      simp only [sendAll, hrest, send_delivered, List.filter_cons]
      cases event.isTerminal <;> cases rt.isClosed tx <;> rfl

end Runtime

theorem Job.terminalEvent_eq_none {job : Job} :
    job.terminalEvent = none ↔ job.status.isTerminal = false := by
  unfold terminalEvent
  cases job.status with
  | queued | processing => exact ⟨fun _ => rfl, fun _ => rfl⟩
  | done | failed | cancelled => exact ⟨nofun, nofun⟩

theorem Job.isTerminal_of_terminalEvent {job : Job} {e : JobEvent}
    (he : job.terminalEvent = some e) : e.isTerminal = true := by
  unfold terminalEvent at he
  split at he <;> cases he <;> rfl

/-- The stream ends with `e`, its only terminal event. -/
def EndsWith (events : List JobEvent) (e : JobEvent) : Prop :=
  ∃ before, events = before ++ [e] ∧ ∀ x ∈ before, x.isTerminal = false

/-- What the stream `tx` has been told about the end of its job. -/
def Told (stored : Option Job) (tx : Nat) (ch : Channel) : Prop :=
  match stored with
  | none => ∃ e, e.isTerminal = true ∧ EndsWith ch.events e
  | some job =>
      match job.terminalEvent with
      | none => tx ∈ job.eventChannels
      | some e => EndsWith ch.events e

theorem told_of_open {job : Job} {tx : Nat} {ch : Channel} (he : job.terminalEvent = none) :
    Told (some job) tx ch ↔ tx ∈ job.eventChannels := by
  simp only [Told, he]

theorem told_of_ended {job : Job} {tx : Nat} {ch : Channel} {e : JobEvent}
    (he : job.terminalEvent = some e) : Told (some job) tx ch ↔ EndsWith ch.events e := by
  simp only [Told, he]

/-- The event streams of one job, stored or gone. -/
structure Heard (id : Nat) (stored : Option Job) (channels : List Channel) : Prop where
  listed : ∀ job, stored = some job → ∀ tx ∈ job.eventChannels, ∃ ch, channels[tx]? = some ch ∧
    ch.job = id ∧ ∀ x ∈ ch.events, x.isTerminal = false
  nodup : ∀ job, stored = some job → job.eventChannels.Nodup
  silent : ∀ job, stored = some job → job.status.isTerminal = true → job.eventChannels = []
  told : ∀ (tx : Nat) (ch : Channel), channels[tx]? = some ch → ch.job = id → ch.closed = false →
    ch.displaced = false → Told stored tx ch
  last : ∀ (tx : Nat) (ch : Channel), channels[tx]? = some ch → ch.job = id →
    ∀ x ∈ ch.events.dropLast, x.isTerminal = false

/-- A stream whose receiver may have been closed. -/
theorem closed_cases {channels : List Channel} {tx t : Nat} {ch' : Channel}
    (hget : (channels.modify tx fun ch => { ch with closed := true })[t]? = some ch') :
    ∃ ch, channels[t]? = some ch ∧ ch'.job = ch.job ∧ ch'.events = ch.events ∧
      (ch'.closed = false → ch' = ch) := by
  rw [List.getElem?_modify] at hget
  obtain ⟨ch, hch, rfl⟩ := Option.map_eq_some_iff.mp hget
  refine ⟨ch, hch, ?_⟩
  split
  · exact ⟨rfl, rfl, nofun⟩
  · exact ⟨rfl, rfl, fun _ => rfl⟩

theorem modify_closed {channels : List Channel} (tx : Nat) {t : Nat} {ch : Channel}
    (hget : channels[t]? = some ch) :
    ∃ ch', (channels.modify tx fun ch => { ch with closed := true })[t]? = some ch' ∧
      ch'.job = ch.job ∧ ch'.events = ch.events := by
  rw [List.getElem?_modify, hget]
  refine ⟨_, rfl, ?_⟩
  split
  · exact ⟨rfl, rfl⟩
  · exact ⟨rfl, rfl⟩

namespace Heard

variable {id : Nat} {stored : Option Job} {channels : List Channel} {job : Job} {rt : Runtime}

/-- The streams of other jobs do not matter. -/
theorem frame (h : Heard id stored channels) {channels' : List Channel}
    (hsame : ∀ (tx : Nat) (ch : Channel), ch.job = id →
      (channels'[tx]? = some ch ↔ channels[tx]? = some ch)) : Heard id stored channels' where
  listed job hjob tx htx := by
    obtain ⟨ch, hget, hid, hquiet⟩ := h.listed job hjob tx htx
    exact ⟨ch, (hsame tx ch hid).mpr hget, hid, hquiet⟩
  nodup := h.nodup
  silent := h.silent
  told tx ch hget hid := h.told tx ch ((hsame tx ch hid).mp hget) hid
  last tx ch hget hid := h.last tx ch ((hsame tx ch hid).mp hget) hid

theorem congr (h : Heard id (some job) channels) {job' : Job}
    (hchannels : job'.eventChannels = job.eventChannels) (hstatus : job'.status = job.status)
    (herror : job'.error = job.error) : Heard id (some job') channels := by
  have hevent : job'.terminalEvent = job.terminalEvent := by
    rw [Job.terminalEvent, Job.terminalEvent, hstatus, herror]
  refine ⟨?_, ?_, ?_, fun tx ch hget hid hopen hkept => ?_, h.last⟩
  · rintro x ⟨⟩
    rw [hchannels]
    exact h.listed job rfl
  · rintro x ⟨⟩
    rw [hchannels]
    exact h.nodup job rfl
  · rintro x ⟨⟩
    rw [hchannels, hstatus]
    exact h.silent job rfl
  · have htold := h.told tx ch hget hid hopen hkept
    simp only [Told, hevent, hchannels] at htold ⊢
    exact htold

/-- A listener has heard nothing terminal yet. -/
theorem quiet (h : Heard id (some job) channels) {tx : Nat} (htx : tx ∈ job.eventChannels)
    {ch : Channel} (hch : channels[tx]? = some ch) : ∀ x ∈ ch.events, x.isTerminal = false := by
  obtain ⟨ch', hch', _, hquiet⟩ := h.listed job rfl tx htx
  rw [hch] at hch'
  cases hch'
  exact hquiet

/-- An event reaches every listener of an open job. A terminal one is the last. -/
theorem deliver (h : Heard id (some job) rt.channels) (hopen : job.status.isTerminal = false)
    {event : JobEvent} {job' : Job}
    (hlisteners : job'.eventChannels = (rt.sendAll event job.eventChannels).1)
    (hevent : job'.terminalEvent = if event.isTerminal then some event else none) :
    Heard id (some job') (rt.sendAll event job.eventChannels).2.channels := by
  have hnodup := h.nodup job rfl
  rw [Runtime.sendAll_listeners] at hlisteners
  have hget : ∀ (tx : Nat) (ch' : Channel),
      (rt.sendAll event job.eventChannels).2.channels[tx]? = some ch' →
      ∃ ch, rt.channels[tx]? = some ch ∧
        ch' = if tx ∈ job.eventChannels then ch.receive event else ch := by
    intro tx ch' hch'
    rw [Runtime.sendAll_channels hnodup] at hch'
    obtain ⟨ch, hch, rfl⟩ := Option.map_eq_some_iff.mp hch'
    exact ⟨ch, hch, rfl⟩
  refine ⟨?_, ?_, ?_, fun tx ch' hch' hid hlive hkept => ?_, fun tx ch' hch' hid => ?_⟩
  · rintro x ⟨⟩ tx htx
    rw [hlisteners] at htx
    cases hterminal : event.isTerminal with
    | true =>
        rw [hterminal, if_pos rfl] at htx
        cases htx
    | false =>
        rw [hterminal, if_neg Bool.false_ne_true] at htx
        have hmem := (List.mem_filter.mp htx).1
        obtain ⟨ch, hch, hid, hquiet⟩ := h.listed job rfl tx hmem
        refine ⟨ch.receive event, ?_, Channel.receive_job.trans hid,
          Channel.receive_quiet hquiet hterminal⟩
        rw [Runtime.sendAll_channels hnodup, hch, Option.map_some, if_pos hmem]
  · rintro x ⟨⟩
    rw [hlisteners]
    split
    · exact List.nodup_nil
    · exact hnodup.filter _
  · rintro x ⟨⟩ hstatus
    rw [hlisteners, if_pos]
    cases hterminal : event.isTerminal with
    | true => rfl
    | false =>
        rw [hterminal, if_neg Bool.false_ne_true, Job.terminalEvent_eq_none] at hevent
        exact absurd hstatus (ne_true_of_eq_false hevent)
  · obtain ⟨ch, hch, rfl⟩ := hget tx ch' hch'
    obtain ⟨hjob, hclosed, hdisplaced⟩ := ch.receive_same event (tx ∈ job.eventChannels)
    rw [hjob] at hid
    rw [hclosed] at hlive
    rw [hdisplaced] at hkept
    have htold := (told_of_open (Job.terminalEvent_eq_none.mpr hopen)).mp
      (h.told tx ch hch hid hlive hkept)
    rw [if_pos htold]
    cases hterminal : event.isTerminal with
    | true =>
        rw [hterminal, if_pos rfl] at hevent
        refine (told_of_ended hevent).mpr ⟨ch.events, ?_, h.quiet htold hch⟩
        rw [Channel.receive_events hlive]
    | false =>
        rw [hterminal, if_neg Bool.false_ne_true] at hevent
        apply (told_of_open hevent).mpr
        rw [hlisteners, hterminal, if_neg Bool.false_ne_true]
        refine List.mem_filter.mpr ⟨htold, ?_⟩
        rw [Runtime.isClosed, hch, Option.all_some, hlive]
        rfl
  · obtain ⟨ch, hch, rfl⟩ := hget tx ch' hch'
    split
    · rename_i hmem
      exact Channel.receive_dropLast (h.quiet hmem hch)
    · rename_i hmem
      rw [if_neg hmem] at hid
      exact h.last tx ch hch hid

theorem broadcast (h : Heard id (some job) rt.channels) (event : JobEvent) :
    Heard id (some (job.broadcast event rt).1) (job.broadcast event rt).2.channels := by
  unfold Job.broadcast
  split
  · rename_i hcompatible
    cases hstatus : job.status.isTerminal with
    | true =>
        have hnone := h.silent job rfl hstatus
        simp only [hnone, Runtime.sendAll]
        exact h.congr hnone.symm rfl rfl
    | false =>
        apply h.deliver hstatus rfl
        have hquiet : event.isTerminal = false := by
          unfold Job.compatible at hcompatible
          split at hcompatible
          · rename_i hdone
            rw [hdone] at hstatus
            cases hstatus
          · rename_i hfailed
            rw [hfailed] at hstatus
            cases hstatus
          · rename_i hcancelled
            rw [hcancelled] at hstatus
            cases hstatus
          · exact (Bool.not_eq_true' _).mp (Bool.and_eq_true_iff.mp hcompatible).1
        rw [hquiet, if_neg Bool.false_ne_true]
        exact Job.terminalEvent_eq_none.mpr hstatus
  · exact h

theorem transition (h : Heard id (some job) rt.channels) {transition : JobTransition}
    (hallowed : job.allowed transition = true) (now : ℚ) :
    Heard id (some (job.transition now transition rt).1)
      (job.transition now transition rt).2.channels := by
  let job' := job.applied now transition
  have hopen := Job.not_terminal_of_allowed hallowed
  have hchannels : (job.signal transition rt).channels = rt.channels := by
    unfold Job.signal
    split <;> rfl
  have hlisteners : job'.eventChannels = job.eventChannels := by
    cases transition <;> rfl
  have hcompatible : Job.compatible (job'.terminalEvent.getD (.progress 0 0)) job'.status = true := by
    cases transition <;> rfl
  have hevent : job'.terminalEvent = if (job'.terminalEvent.getD (.progress 0 0)).isTerminal
      then some (job'.terminalEvent.getD (.progress 0 0)) else none := by
    cases transition <;> rfl
  show Heard id (some (job'.broadcast _ (job.signal transition rt)).1)
    (job'.broadcast _ (job.signal transition rt)).2.channels
  rw [Job.broadcast, if_pos hcompatible, hlisteners]
  rw [← hchannels] at h
  exact h.deliver hopen rfl hevent

/-- A closed receiver hears no more. -/
theorem close (h : Heard id stored channels) (tx : Nat) :
    Heard id stored (channels.modify tx fun ch => { ch with closed := true }) := by
  refine ⟨fun job hjob t ht => ?_, h.nodup, h.silent, fun t ch' hch' hid hopen hkept => ?_,
    fun t ch' hch' hid => ?_⟩
  · obtain ⟨ch, hch, hid, hquiet⟩ := h.listed job hjob t ht
    obtain ⟨ch', hch', hjob', hevents⟩ := modify_closed tx hch
    exact ⟨ch', hch', hjob'.trans hid, hevents ▸ hquiet⟩
  · obtain ⟨ch, hch, _, _, hsame⟩ := closed_cases hch'
    obtain rfl := hsame hopen
    exact h.told t ch' hch hid hopen hkept
  · obtain ⟨ch, hch, hjob, hevents, _⟩ := closed_cases hch'
    rw [hevents]
    exact h.last t ch hch (hjob.symm.trans hid)

/-- The streams of a job that is not stored. -/
theorem gone (htold : ∀ (tx : Nat) (ch : Channel), channels[tx]? = some ch → ch.job = id →
      ch.closed = false → ch.displaced = false → Told none tx ch)
    (hlast : ∀ (tx : Nat) (ch : Channel), channels[tx]? = some ch → ch.job = id →
      ∀ x ∈ ch.events.dropLast, x.isTerminal = false) : Heard id none channels := by
  have hgone : ∀ {x : Job}, none = some x → False := fun hx => Option.some_ne_none _ hx.symm
  exact ⟨fun _ hx => (hgone hx).elim, fun _ hx => (hgone hx).elim, fun _ hx => (hgone hx).elim,
    htold, hlast⟩

theorem evict (h : Heard id (some job) channels) (hterminal : job.status.isTerminal = true) :
    Heard id none channels := by
  refine gone (fun tx ch hch hid hopen hkept => ?_) h.last
  have htold := h.told tx ch hch hid hopen hkept
  cases he : job.terminalEvent with
  | none =>
      rw [Job.terminalEvent_eq_none] at he
      exact absurd hterminal (ne_true_of_eq_false he)
  | some e =>
      have hends := (told_of_ended he).mp htold
      exact ⟨e, Job.isTerminal_of_terminalEvent he, hends⟩

/-- A new job has no streams. -/
theorem queued (hnone : ∀ ch ∈ channels, ch.job ≠ id) (now : ℚ) (body : List UInt8) :
    Heard id (some (Job.queued now body)) channels := by
  have habsurd : ∀ (tx : Nat) (ch : Channel), channels[tx]? = some ch → ch.job = id → False :=
    fun tx ch hch hid => hnone ch (List.mem_of_getElem? hch) hid
  refine ⟨?_, ?_, ?_, fun tx ch hch hid => (habsurd tx ch hch hid).elim,
    fun tx ch hch hid => (habsurd tx ch hch hid).elim⟩
  · rintro x ⟨⟩ tx htx
    cases htx
  · rintro x ⟨⟩
    exact List.nodup_nil
  · rintro x ⟨⟩ _
    rfl

/-- A stream subscribed to a job that has ended is told so at once. -/
theorem subscribe_ended {event : JobEvent} (hevent : job.terminalEvent = some event)
    (hrt : rt.channels = channels ++ [Channel.new id]) :
    (job.subscribe channels.length rt).1 = job ∧
      (job.subscribe channels.length rt).2.channels
        = channels ++ [{ Channel.new id with events := [event] }] := by
  have hopen : rt.isClosed channels.length = false := by
    rw [Runtime.isClosed, hrt, List.getElem?_concat_length]
    rfl
  rw [Job.subscribe, hevent]
  refine ⟨rfl, ?_⟩
  show (rt.send channels.length event).1.channels = _
  rw [Runtime.send, hopen, if_neg Bool.false_ne_true]
  show rt.channels.modify channels.length _ = _
  rw [hrt]
  exact modify_concat channels (Channel.new id) _

/-- A new stream joins the listeners of an open job. One that neither closed nor was displaced keeps
its place. -/
theorem join (h : Heard id (some job) channels) (hopen : job.status.isTerminal = false)
    {job' : Job} {kept : List Nat} {channels' : List Channel}
    (hlisteners : job'.eventChannels = kept ++ [channels.length])
    (hstatus : job'.status = job.status) (hkept : kept.Sublist job.eventChannels)
    (hnew : channels'[channels.length]? = some (Channel.new id))
    (hold : ∀ (t : Nat) (ch : Channel), channels[t]? = some ch →
      ∃ ch', channels'[t]? = some ch' ∧ ch'.job = ch.job ∧ ch'.events = ch.events)
    (hget : ∀ (t : Nat) (ch' : Channel), channels'[t]? = some ch' →
      (t = channels.length ∧ ch' = Channel.new id) ∨
        ∃ ch, channels[t]? = some ch ∧ ch'.job = ch.job ∧ ch'.events = ch.events ∧
          (ch'.closed = false → ch'.displaced = false →
            ch' = ch ∧ (t ∈ job.eventChannels → t ∈ kept))) :
    Heard id (some job') channels' := by
  have hgoing : job'.terminalEvent = none :=
    Job.terminalEvent_eq_none.mpr ((congrArg JobStatus.isTerminal hstatus).trans hopen)
  refine ⟨?_, ?_, ?_, fun t ch' hch' hid hlive hplace => ?_, fun t ch' hch' hid => ?_⟩
  · rintro x ⟨⟩ t ht
    rw [hlisteners] at ht
    rcases List.mem_append.mp ht with ht | ht
    · obtain ⟨ch, hch, hid, hquiet⟩ := h.listed job rfl t (hkept.subset ht)
      obtain ⟨ch', hch', hjob, hevents⟩ := hold t ch hch
      exact ⟨ch', hch', hjob.trans hid, hevents ▸ hquiet⟩
    · rw [List.mem_singleton.mp ht]
      exact ⟨Channel.new id, hnew, rfl, nofun⟩
  · rintro x ⟨⟩
    rw [hlisteners, List.nodup_append]
    refine ⟨(h.nodup job rfl).sublist hkept, List.nodup_singleton _, ?_⟩
    rintro t ht _ hlast rfl
    obtain ⟨ch, hch, _⟩ := h.listed job rfl t (hkept.subset ht)
    have hlt := (List.getElem?_eq_some_iff.mp hch).1
    exact absurd (List.mem_singleton.mp hlast) (Nat.ne_of_lt hlt)
  · rintro x ⟨⟩ hterminal
    rw [hstatus, hopen] at hterminal
    cases hterminal
  · apply (told_of_open hgoing).mpr
    rw [hlisteners, List.mem_append]
    rcases hget t ch' hch' with ⟨rfl, _⟩ | ⟨ch, hch, _, _, hsame⟩
    · exact Or.inr (List.mem_singleton_self _)
    · obtain ⟨rfl, hplaced⟩ := hsame hlive hplace
      have htold := h.told t ch' hch hid hlive hplace
      exact Or.inl (hplaced ((told_of_open (Job.terminalEvent_eq_none.mpr hopen)).mp htold))
  · rcases hget t ch' hch' with ⟨_, rfl⟩ | ⟨ch, hch, hjob, hevents, _⟩
    · exact nofun
    · rw [hevents]
      exact h.last t ch hch (hjob.symm.trans hid)

/-- A stream that was told the end of its job at once. -/
theorem late (h : Heard id (some job) channels) {event : JobEvent}
    (hevent : job.terminalEvent = some event) :
    Heard id (some job) (channels ++ [{ Channel.new id with events := [event] }]) := by
  refine ⟨fun x hx t ht => ?_, h.nodup, h.silent, fun t ch' hch' hid hlive hplace => ?_,
    fun t ch' hch' hid => ?_⟩
  · obtain ⟨ch, hch, hrest⟩ := h.listed x hx t ht
    exact ⟨ch, getElem?_concat_left hch, hrest⟩
  · rcases getElem?_concat_cases hch' with hch | ⟨_, rfl⟩
    · exact h.told t ch' hch hid hlive hplace
    · exact (told_of_ended hevent).mpr ⟨[], rfl, nofun⟩
  · rcases getElem?_concat_cases hch' with hch | ⟨_, rfl⟩
    · exact h.last t ch' hch hid
    · exact nofun

/-- At the cap, the stream of the oldest live listener is displaced. -/
theorem displace (h : Heard id (some job) channels) (hopen : job.status.isTerminal = false)
    (hrt : rt.channels = channels ++ [Channel.new id]) {head : Nat} {rest : List Nat}
    (hlive : (head :: rest).Sublist job.eventChannels)
    (hstays : ∀ (t : Nat) (ch : Channel), channels[t]? = some ch → ch.closed = false →
      t ∈ job.eventChannels → t ∈ head :: rest) :
    Heard id (some { job with eventChannels := rest ++ [channels.length] })
      (rt.displace head).channels := by
  obtain ⟨ch₀, hhead, _⟩ := h.listed job rfl head (hlive.subset List.mem_cons_self)
  have hlt := (List.getElem?_eq_some_iff.mp hhead).1
  have hget : ∀ t : Nat, (rt.displace head).channels[t]?
      = (channels ++ [Channel.new id])[t]?.map fun ch =>
          if head = t then { ch with displaced := true } else ch := by
    intro t
    rw [← hrt]
    exact List.getElem?_modify _ _ _ _
  refine h.join hopen rfl rfl ((List.sublist_cons_self head rest).trans hlive) ?_ ?_ ?_
  · rw [hget, List.getElem?_concat_length, Option.map_some, if_neg (Nat.ne_of_lt hlt)]
  · intro t ch hch
    rw [hget, getElem?_concat_left hch]
    refine ⟨_, rfl, ?_⟩
    split
    · exact ⟨rfl, rfl⟩
    · exact ⟨rfl, rfl⟩
  · intro t ch' hch'
    rw [hget] at hch'
    obtain ⟨ch, hch, rfl⟩ := Option.map_eq_some_iff.mp hch'
    rcases getElem?_concat_cases hch with hch | ⟨rfl, rfl⟩
    · refine Or.inr ⟨ch, hch, ?_⟩
      split
      · exact ⟨rfl, rfl, nofun⟩
      · rename_i hne
        refine ⟨rfl, rfl, fun hclosed _ => ⟨rfl, fun ht => ?_⟩⟩
        exact (List.mem_cons.mp (hstays t ch hch hclosed ht)).resolve_left (Ne.symm hne)
    · exact Or.inl ⟨rfl, if_neg (Nat.ne_of_lt hlt)⟩

theorem subscribe (h : Heard id (some job) channels)
    (hrt : rt.channels = channels ++ [Channel.new id]) :
    Heard id (some (job.subscribe channels.length rt).1)
      (job.subscribe channels.length rt).2.channels := by
  cases hevent : job.terminalEvent with
  | some event =>
      obtain ⟨hjob, hchannels⟩ := subscribe_ended hevent hrt
      rw [hjob, hchannels]
      exact h.late hevent
  | none =>
      have hopen := Job.terminalEvent_eq_none.mp hevent
      have hsub : (job.eventChannels.filter fun tx => !rt.isClosed tx).Sublist job.eventChannels :=
        List.filter_sublist
      have hstays : ∀ (t : Nat) (ch : Channel), channels[t]? = some ch → ch.closed = false →
          t ∈ job.eventChannels → t ∈ job.eventChannels.filter fun tx => !rt.isClosed tx := by
        intro t ch hch hclosed ht
        refine List.mem_filter.mpr ⟨ht, ?_⟩
        rw [Runtime.isClosed, hrt, getElem?_concat_left hch, Option.all_some, hclosed]
        rfl
      rw [Job.subscribe, hevent]
      dsimp only
      generalize (job.eventChannels.filter fun tx => !rt.isClosed tx) = live at hsub hstays ⊢
      split
      · rename_i hcap
        cases live with
        | nil => exact absurd hcap (by decide)
        | cons head rest => exact h.displace hopen hrt hsub hstays
      · refine h.join hopen rfl rfl hsub ?_ (fun t ch hch => ?_) fun t ch' hch' => ?_
        · rw [hrt]
          exact List.getElem?_concat_length
        · exact ⟨ch, hrt ▸ getElem?_concat_left hch, rfl, rfl⟩
        · rw [hrt] at hch'
          rcases getElem?_concat_cases hch' with hch | hlast
          · exact Or.inr ⟨ch', hch, rfl, rfl, fun hclosed _ => ⟨rfl, hstays t ch' hch hclosed⟩⟩
          · exact Or.inl hlast

end Heard

/-- Only streams of the job differ. -/
def AgreeOff (id : Nat) (channels channels' : List Channel) : Prop :=
  ∀ (t : Nat) (ch : Channel), ch.job ≠ id → (channels'[t]? = some ch ↔ channels[t]? = some ch)

namespace AgreeOff

variable {id : Nat} {channels channels' channels'' : List Channel} {job : Job} {rt : Runtime}

theorem refl (id : Nat) (channels : List Channel) : AgreeOff id channels channels :=
  fun _ _ _ => Iff.rfl

theorem trans (h : AgreeOff id channels channels') (h' : AgreeOff id channels' channels'') :
    AgreeOff id channels channels'' :=
  fun t ch hch => (h' t ch hch).trans (h t ch hch)

theorem concat {ch : Channel} (hch : ch.job = id) : AgreeOff id channels (channels ++ [ch]) := by
  intro t x hx
  refine ⟨fun hget => ?_, getElem?_concat_left⟩
  rcases getElem?_concat_cases hget with hget | ⟨_, rfl⟩
  · exact hget
  · exact absurd hch hx

/-- A change of streams of the job that leaves them its streams. -/
theorem of_map {f : Nat → Channel → Channel}
    (hget : ∀ t : Nat, channels'[t]? = channels[t]?.map (f t))
    (hjob : ∀ (t : Nat) (ch : Channel), channels[t]? = some ch → (f t ch).job = ch.job)
    (hsame : ∀ (t : Nat) (ch : Channel), channels[t]? = some ch → ch.job ≠ id → f t ch = ch) :
    AgreeOff id channels channels' := by
  intro t x hx
  rw [hget, Option.map_eq_some_iff]
  constructor
  · rintro ⟨ch, hch, rfl⟩
    rw [hjob t ch hch] at hx
    rw [hsame t ch hch hx]
    exact hch
  · intro hch
    exact ⟨x, hch, hsame t x hch hx⟩

theorem broadcast (hnodup : job.eventChannels.Nodup)
    (hlisted : ∀ t ∈ job.eventChannels, ∀ ch, rt.channels[t]? = some ch → ch.job = id)
    (event : JobEvent) : AgreeOff id rt.channels (job.broadcast event rt).2.channels := by
  unfold Job.broadcast
  split
  · refine of_map (Runtime.sendAll_channels hnodup) (fun t ch _ => ?_) fun t ch hch hne => ?_
    · split
      · exact Channel.receive_job
      · rfl
    · split
      · rename_i hmem
        exact absurd (hlisted t hmem ch hch) hne
      · rfl
  · exact refl id rt.channels

theorem listed (h : Heard id (some job) channels) :
    ∀ t ∈ job.eventChannels, ∀ ch, channels[t]? = some ch → ch.job = id := by
  intro t ht ch hch
  obtain ⟨x, hx, hid, _⟩ := h.listed job rfl t ht
  rw [hch] at hx
  cases hx
  exact hid

theorem transition (h : Heard id (some job) rt.channels) (now : ℚ)
    (transition : JobTransition) :
    AgreeOff id rt.channels (job.transition now transition rt).2.channels := by
  have hchannels : (job.signal transition rt).channels = rt.channels := by
    unfold Job.signal
    split <;> rfl
  have hlisteners : (job.applied now transition).eventChannels = job.eventChannels := by
    cases transition <;> rfl
  have hlisted := listed h
  rw [← hlisteners, ← hchannels] at hlisted
  rw [← hchannels]
  exact broadcast (hlisteners ▸ h.nodup job rfl) hlisted _

theorem subscribe (h : Heard id (some job) channels)
    (hrt : rt.channels = channels ++ [Channel.new id]) :
    AgreeOff id channels (job.subscribe channels.length rt).2.channels := by
  have hnew : AgreeOff id channels rt.channels := hrt ▸ concat rfl
  cases hevent : job.terminalEvent with
  | some event =>
      rw [(Heard.subscribe_ended hevent hrt).2]
      exact concat rfl
  | none =>
      rw [Job.subscribe, hevent]
      dsimp only
      split
      · cases hlive : job.eventChannels.filter fun tx => !rt.isClosed tx with
        | nil => exact hnew
        | cons head rest =>
            have hmem : head ∈ job.eventChannels :=
              (List.mem_filter.mp (hlive ▸ List.mem_cons_self)).1
            obtain ⟨ch₀, hch₀, hid, _⟩ := h.listed job rfl head hmem
            refine hnew.trans (of_map (fun t => List.getElem?_modify _ _ _ _) ?_ ?_)
            · intro t ch _
              split <;> rfl
            · intro t ch hch hne
              split
              · rename_i ht
                rw [hrt, ← ht, getElem?_concat_left hch₀] at hch
                cases hch
                exact absurd hid hne
              · rfl
      · exact hnew

end AgreeOff

namespace Ledger

/-- The event streams of all jobs. -/
structure Streams (l : Ledger) : Prop where
  heard : ∀ k, Heard k (l.store.find k) l.store.runtime.channels
  owned : ∀ ch ∈ l.store.runtime.channels, ch.job ∈ l.created

variable {l l' : Ledger} {id : Nat} {job : Job}

theorem streams_new (limits : Limits) : (new limits).Streams :=
  ⟨fun _ => Heard.gone nofun nofun, nofun⟩

theorem Streams.put (h : l.Streams) (hid : id ∈ l.created) {r : Job × Runtime}
    (hjob : l.store.find id = some job) (hheard : Heard id (some r.1) r.2.channels)
    (hagree : AgreeOff id l.store.runtime.channels r.2.channels) :
    (l.onStore fun s => s.put id r).Streams := by
  constructor
  · intro k
    show Heard k ((l.store.put id r).find k) r.2.channels
    rw [Store.find_put]
    by_cases hk : k = id
    · subst hk
      rw [if_pos rfl, hjob]
      exact hheard
    · rw [if_neg hk]
      exact (h.heard k).frame fun t ch hch => hagree t ch (hch ▸ hk)
  · intro ch hmem
    by_cases hch : ch.job = id
    · exact hch ▸ hid
    · obtain ⟨t, ht⟩ := List.mem_iff_getElem?.mp hmem
      exact h.owned ch (List.mem_of_getElem? ((hagree t ch hch).mp ht))

/-- Steps that leave the jobs and the streams alone. -/
theorem Streams.same (h : l.Streams) (hfind : ∀ k, l'.store.find k = l.store.find k)
    (hchannels : l'.store.runtime.channels = l.store.runtime.channels)
    (hcreated : l'.created = l.created) : l'.Streams := by
  constructor
  · intro k
    rw [hfind, hchannels]
    exact h.heard k
  · rw [hchannels, hcreated]
    exact h.owned

theorem Streams.evict (h : l.Streams) (now : ℚ) :
    (l.onStore (Store.evictExpired now)).Streams := by
  refine ⟨fun k => ?_, h.owned⟩
  show Heard k ((l.store.evictExpired now).find k) l.store.runtime.channels
  rcases l.store.evictExpired_cases now k with ⟨hfind, _⟩ | ⟨hnone, _, job, hjob, hterminal⟩
  · rw [hfind]
    exact h.heard k
  · rw [hnone]
    exact (hjob ▸ h.heard k).evict hterminal

theorem Streams.enqueue (h : l.Streams) (now : ℚ) (id : Nat) (body : List UInt8)
    (hfresh : id ∉ l.created) : (l.enqueue now id body).Streams := by
  constructor
  · intro k
    show Heard k ((l.store.enqueue now id body).find k) l.store.runtime.channels
    rw [Store.find_enqueue]
    by_cases hk : k = id
    · subst hk
      rw [if_pos rfl]
      refine Heard.queued (fun ch hch heq => hfresh ?_) now body
      rw [← heq]
      exact h.owned ch hch
    · rw [if_neg hk]
      exact h.heard k
  · exact fun ch hch => List.mem_append_left _ (h.owned ch hch)

theorem Streams.transition (h : l.Streams) (hsound : l.Sound) (now : ℚ) (id : Nat)
    (transition : JobTransition) : (l.transition now id transition).1.Streams := by
  have hstore : (l.transition now id transition).1.store
      = (l.store.transition now id transition).1 := rfl
  have hcreated : (l.transition now id transition).1.created = l.created := rfl
  generalize (l.transition now id transition).1 = l' at hstore hcreated ⊢
  rcases Option.eq_none_or_eq_some (l.store.find id) with hjob | ⟨job, hjob⟩
  · rw [Store.transition_missing hjob] at hstore
    exact h.same (fun _ => by rw [hstore]) (by rw [hstore]) hcreated
  · by_cases hallowed : job.allowed transition = true
    · have hheard : Heard id (some job) l.store.runtime.channels := hjob ▸ h.heard id
      have hput := h.put (hsound.known id job.core (Store.core_of_find hjob)) hjob
        (hheard.transition hallowed now) (AgreeOff.transition hheard now transition)
      rw [Store.transition_applied hjob hallowed] at hstore
      refine hput.same (fun k => ?_) ?_ hcreated
      · rw [hstore]
        dsimp only
        split <;> rfl
      · rw [hstore]
        dsimp only
        split <;> rfl
    · rw [Store.transition_rejected hjob (Bool.eq_false_of_not_eq_true hallowed)] at hstore
      exact h.same (fun _ => by rw [hstore]) (by rw [hstore]) hcreated

theorem Streams.update (h : l.Streams) (hsound : l.Sound) (now : ℚ) (id : Nat) (f : Update) :
    (l.onStore (Store.update now id f)).Streams := by
  rcases Option.eq_none_or_eq_some (l.store.find id) with hjob | ⟨job, hjob⟩
  · rw [onStore, Store.update_of_missing hjob]
    exact h.same (fun _ => rfl) rfl rfl
  · have hheard : Heard id (some job) l.store.runtime.channels := hjob ▸ h.heard id
    have hknown := hsound.known id job.core (Store.core_of_find hjob)
    rw [onStore, Store.update_of_find hjob]
    refine h.put hknown hjob ?_ ?_
    · cases f with
      | broadcast event => exact (hheard.broadcast event).congr rfl rfl rfl
      | total seconds => exact hheard.congr rfl rfl rfl
      | diarize outcome => exact hheard.congr rfl rfl rfl
      | processed seconds =>
          simp only [Update.apply]
          split
          · exact hheard.congr rfl rfl rfl
          · exact hheard.congr rfl rfl rfl
      | register flag snapshot =>
          simp only [Update.apply]
          split <;> split <;> exact hheard.congr rfl rfl rfl
    · cases f with
      | broadcast event => exact AgreeOff.broadcast (hheard.nodup job rfl) (AgreeOff.listed hheard) event
      | register flag snapshot =>
          simp only [Update.apply]
          split <;> split <;> exact AgreeOff.refl _ _
      | _ => exact AgreeOff.refl _ _

theorem Streams.subscribe (h : l.Streams) (hsound : l.Sound) (id : Nat) :
    (l.onStore (Store.subscribe id)).Streams := by
  rcases Option.eq_none_or_eq_some (l.store.find id) with hjob | ⟨job, hjob⟩
  · rw [onStore, Store.subscribe_of_missing hjob]
    exact h.same (fun _ => rfl) rfl rfl
  · have hheard : Heard id (some job) l.store.runtime.channels := hjob ▸ h.heard id
    rw [onStore, Store.subscribe_of_find hjob]
    exact h.put (hsound.known id job.core (Store.core_of_find hjob)) hjob (hheard.subscribe rfl)
      (AgreeOff.subscribe hheard rfl)

theorem Streams.step (h : l.Streams) (hsound : l.Sound) {a : Action}
    (hstep : l.step a = some l') : l'.Streams := by
  cases a with
  | create now id body =>
      obtain ⟨hfresh, rfl⟩ := (Option.ite_none_left_eq_some.mp hstep).imp_right Option.some.inj
      rcases l.create_cases now id body with hfull | hadmitted
      · exact hfull ▸ h.evict now
      · exact hadmitted ▸ (h.evict now).enqueue now id body hfresh
  | evict now =>
      cases hstep
      exact h.evict now
  | nextQueued now =>
      cases hstep
      exact (h.evict now).same (fun _ => rfl) rfl rfl
  | transition now id transition =>
      cases hstep
      exact h.transition hsound now id transition
  | update now id f =>
      cases hstep
      exact h.update hsound now id f
  | subscribe id =>
      cases hstep
      exact h.subscribe hsound id
  | closeReceiver tx =>
      cases hstep
      refine ⟨fun k => (h.heard k).close tx, fun ch hch => ?_⟩
      obtain ⟨t, ht⟩ := List.mem_iff_getElem?.mp hch
      obtain ⟨x, hx, hid, _⟩ := closed_cases ht
      exact hid ▸ h.owned x (List.mem_of_getElem? hx)
  | register now id snapshot =>
      cases hstep
      have hflag : (l.onStore Store.newFlag).Streams := h.same (fun _ => rfl) rfl rfl
      exact hflag.update ⟨hsound.known, hsound.clean⟩ now id (.register _ snapshot)
  | raise flag =>
      cases hstep
      exact h.same (fun _ => rfl) rfl rfl

theorem streams_of_reachable {limits : Limits} (hrun : Transition.Reachable step (new limits) l) :
    l.Sound ∧ l.Streams := by
  let Kept (l : Ledger) : Prop := l.Sound ∧ l.Streams
  have hstep : ∀ u a v, step u a = some v → Kept u → Kept v :=
    fun _ _ _ hstep hu => ⟨hu.1.step hstep, hu.2.step hu.1 hstep⟩
  exact hrun.invariant hstep ⟨sound_new limits, streams_new limits⟩

/-- Only a broadcast sends. -/
theorem channels_update (s : Store) (now : ℚ) (id : Nat) {f : Update}
    (hf : ∀ event, f ≠ .broadcast event) :
    (s.update now id f).runtime.channels = s.runtime.channels := by
  rcases Option.eq_none_or_eq_some (s.find id) with hjob | ⟨job, hjob⟩
  · rw [Store.update_of_missing hjob]
  · rw [Store.update_of_find hjob]
    show (f.apply job s.runtime).2.channels = s.runtime.channels
    cases f with
    | broadcast event => exact absurd rfl (hf event)
    | register flag snapshot =>
        simp only [Update.apply]
        split <;> split <;> rfl
    | _ => rfl

section Settled

variable (h : l.Streams) {tx : Nat} {ch : Channel}
  (hch : l.store.runtime.channels[tx]? = some ch) (hjob : l.store.find ch.job = some job)
  (hterminal : job.status.isTerminal = true)
include h hch hjob hterminal

/-- A transition is applied to another job, if to any. -/
theorem Streams.settled_transition (now : ℚ) (id : Nat) (transition : JobTransition) :
    (l.store.transition now id transition).1.runtime.channels[tx]? = some ch := by
  rcases Option.eq_none_or_eq_some (l.store.find id) with hmissing | ⟨x, hx⟩
  · rw [Store.transition_missing hmissing]
    exact hch
  · by_cases hallowed : x.allowed transition = true
    · have hne : ch.job ≠ id := by
        rintro rfl
        rw [hjob] at hx
        cases hx
        have hopen := Job.not_terminal_of_allowed hallowed
        exact Bool.false_ne_true (hopen.symm.trans hterminal)
      rw [Store.runtime_transition now hx hallowed]
      exact (AgreeOff.transition (hx ▸ h.heard id) now transition tx ch hne).mpr hch
    · rw [Store.transition_rejected hx (Bool.eq_false_of_not_eq_true hallowed)]
      exact hch

/-- An event about the job has no listener left. -/
theorem Streams.settled_update (now : ℚ) (id : Nat) (f : Update) :
    (l.store.update now id f).runtime.channels[tx]? = some ch := by
  by_cases hf : ∀ event, f ≠ .broadcast event
  · rw [channels_update l.store now id hf]
    exact hch
  · obtain ⟨event, hevent⟩ := not_forall.mp hf
    obtain rfl := not_not.mp hevent
    rcases Option.eq_none_or_eq_some (l.store.find id) with hmissing | ⟨x, hx⟩
    · rw [Store.update_of_missing hmissing]
      exact hch
    · rw [Store.update_of_find hx]
      show (x.broadcast event l.store.runtime).2.channels[tx]? = some ch
      have hheard : Heard id (some x) l.store.runtime.channels := hx ▸ h.heard id
      by_cases hid : ch.job = id
      · subst hid
        rw [hjob] at hx
        cases hx
        rw [Job.broadcast, (h.heard ch.job).silent job hjob hterminal]
        split <;> exact hch
      · have hagree := AgreeOff.broadcast (hheard.nodup x rfl) (AgreeOff.listed hheard) event
        exact (hagree tx ch hid).mpr hch

/-- A new listener of the job gets a stream of its own. -/
theorem Streams.settled_subscribe (id : Nat) :
    (l.store.subscribe id).runtime.channels[tx]? = some ch := by
  rcases Option.eq_none_or_eq_some (l.store.find id) with hmissing | ⟨x, hx⟩
  · rw [Store.subscribe_of_missing hmissing]
    exact hch
  · rw [Store.subscribe_of_find hx]
    by_cases hid : ch.job = id
    · subst hid
      rw [hjob] at hx
      cases hx
      cases hevent : job.terminalEvent with
      | none =>
          rw [Job.terminalEvent_eq_none] at hevent
          exact absurd hterminal (ne_true_of_eq_false hevent)
      | some e =>
          show (job.subscribe _ (l.store.opened ch.job)).2.channels[tx]? = some ch
          rw [(Heard.subscribe_ended hevent rfl).2]
          exact getElem?_concat_left hch
    · exact (AgreeOff.subscribe (hx ▸ h.heard id) rfl tx ch hid).mpr hch

/-- Nothing is sent about a job that has ended. -/
theorem Streams.settled {a : Action} (hstep : l.step a = some l') :
    ∃ ch', l'.store.runtime.channels[tx]? = some ch' ∧ ch'.events = ch.events := by
  cases a with
  | create now id body =>
      obtain ⟨_, rfl⟩ := (Option.ite_none_left_eq_some.mp hstep).imp_right Option.some.inj
      rcases l.create_cases now id body with hfull | hadmitted
      · exact ⟨ch, hfull ▸ hch, rfl⟩
      · exact ⟨ch, hadmitted ▸ hch, rfl⟩
  | evict now | nextQueued now | raise flag =>
      cases hstep
      exact ⟨ch, hch, rfl⟩
  | transition now id transition =>
      cases hstep
      exact ⟨ch, h.settled_transition hch hjob hterminal now id transition, rfl⟩
  | update now id f =>
      cases hstep
      exact ⟨ch, h.settled_update hch hjob hterminal now id f, rfl⟩
  | subscribe id =>
      cases hstep
      exact ⟨ch, h.settled_subscribe hch hjob hterminal id, rfl⟩
  | closeReceiver t =>
      cases hstep
      obtain ⟨ch', hch', _, hevents⟩ := modify_closed t hch
      exact ⟨ch', hch', hevents⟩
  | register now id snapshot =>
      cases hstep
      let f : Update := .register l.store.runtime.flags.length snapshot
      have hsame := channels_update l.store.newFlag now id (f := f) nofun
      exact ⟨ch, hsame.symm ▸ hch, rfl⟩

end Settled

/-- The event streams over every interleaving of the store's operations: a subscriber that stays
open and is not displaced has heard one terminal event if and only if its job has ended, the matching
one, as its last event; nothing is sent about a job that has ended; and who subscribes to such a job
is told at once. -/
theorem subscribers_told (limits : Limits) (l : Ledger)
    (hrun : Transition.Reachable step (new limits) l) :
    (∀ id job (tx : Nat) (ch : Channel), l.store.find id = some job →
      l.store.runtime.channels[tx]? = some ch → ch.job = id → ch.closed = false →
      ch.displaced = false →
      (ch.events.countP JobEvent.isTerminal = 1 ↔ job.status.isTerminal = true) ∧
        ch.events.filter JobEvent.isTerminal = job.terminalEvent.toList ∧
        ∀ e, job.terminalEvent = some e → ch.events.getLast? = some e) ∧
    (∀ (tx : Nat) (ch : Channel), l.store.runtime.channels[tx]? = some ch →
      ∀ x ∈ ch.events.dropLast, x.isTerminal = false) ∧
    (∀ a l' (tx : Nat) (ch : Channel) job, l.step a = some l' →
      l.store.runtime.channels[tx]? = some ch → l.store.find ch.job = some job →
      job.status.isTerminal = true →
      ∃ ch', l'.store.runtime.channels[tx]? = some ch' ∧ ch'.events = ch.events) ∧
    (∀ id job e, l.store.find id = some job → job.terminalEvent = some e →
      (l.store.subscribe id).runtime.channels
        = l.store.runtime.channels ++ [{ Channel.new id with events := [e] }]) := by
  obtain ⟨hsound, hstreams⟩ := streams_of_reachable hrun
  refine ⟨fun id job tx ch hjob hch hid hopen hkept => ?_, fun tx ch hch => ?_,
    fun a l' tx ch job hstep hch hjob hterminal => ?_, fun id job e hjob hevent => ?_⟩
  · have hheard : Heard id (some job) l.store.runtime.channels := hjob ▸ hstreams.heard id
    have htold := hheard.told tx ch hch hid hopen hkept
    cases hevent : job.terminalEvent with
    | none =>
        have hquiet := hheard.quiet ((told_of_open hevent).mp htold) hch
        have hnone : ch.events.filter JobEvent.isTerminal = [] :=
          List.filter_eq_nil_iff.mpr fun e he => ne_true_of_eq_false (hquiet e he)
        rw [Job.terminalEvent_eq_none] at hevent
        rw [List.countP_eq_length_filter, hnone, hevent]
        exact ⟨⟨nofun, nofun⟩, rfl, nofun⟩
    | some e =>
        obtain ⟨before, hevents, hquiet⟩ := (told_of_ended hevent).mp htold
        have hone : ch.events.filter JobEvent.isTerminal = [e] := by
          have hnone : before.filter JobEvent.isTerminal = [] :=
            List.filter_eq_nil_iff.mpr fun x hx => ne_true_of_eq_false (hquiet x hx)
          rw [hevents, List.filter_append, hnone, List.nil_append]
          exact List.filter_cons_of_pos (Job.isTerminal_of_terminalEvent hevent)
        have hterminal : job.status.isTerminal = true := by
          by_contra hopen
          rw [Job.terminalEvent_eq_none.mpr (Bool.eq_false_of_not_eq_true hopen)] at hevent
          cases hevent
        rw [List.countP_eq_length_filter, hone]
        refine ⟨⟨fun _ => hterminal, fun _ => rfl⟩, rfl, ?_⟩
        rintro x ⟨⟩
        rw [hevents]
        exact List.getLast?_concat
  · exact (hstreams.heard ch.job).last tx ch hch rfl
  · exact hstreams.settled hch hjob hterminal hstep
  · rw [Store.subscribe_of_find hjob]
    exact (Heard.subscribe_ended hevent rfl).2

/-- A subscriber hears progress and the end of its job, and a second one comes too late. -/
def heardOut : List Action :=
  [.create 0 7 [1], .subscribe 7, .transition 0 7 .start, .update 0 7 (.broadcast (.progress 50 3)),
    .transition 0 7 (.fail "Transcription failed."), .update 0 7 (.broadcast (.progress 100 6)),
    .subscribe 7]

theorem subscribers_told_out :
    ∃ l job ch, Transition.run step (new ⟨0, 4, 100⟩) heardOut = some l ∧
      l.store.find 7 = some job ∧ l.store.runtime.channels[0]? = some ch ∧
      ch.events.getLast? = some (.failed "Transcription failed.") :=
  ⟨_, _, _, rfl, rfl, rfl,
    ((subscribers_told ⟨0, 4, 100⟩ _ ⟨heardOut, rfl⟩).1 7 _ 0 _ rfl rfl rfl rfl rfl).2.2 _ rfl⟩

end Ledger

end Jobs

end Gigastt
