import Gigastt.Transition
import Mathlib.Data.Finset.Card

/-!
Admission of uploads. A request with audio takes a permit before its body is read, and the permit is
taken as long as anything owns it: the middleware, the extensions of the request, and the input that a
handler retains. No more uploads are in memory at one time than there are permits, and no permit is lost
or returned twice.
-/

namespace Gigastt.Upload

open Transition

structure Request where
  method : String
  path : String

def uploadPaths : List String :=
  ["/v1/transcribe", "/v1/transcribe/stream", "/v1/audio/transcriptions", "/v1/jobs"]

def Request.isUpload (request : Request) : Bool :=
  request.method == "POST" && uploadPaths.contains request.path

/-- The free permits, and the owners of the permits that are taken: each is given by the number of the
request that has taken the permit. -/
structure UploadAdmission where
  slots : Nat
  retryAfterSecs : Nat
  owners : List Nat
  nextRequest : Nat

inductive Response where
  | passed
  | admitted (request : Nat)
  | uploadBusy (retryAfter retryAfterMs : Nat)
  deriving DecidableEq

inductive Action where
  | request (request : Request)
  | retain (request : Nat)
  /-- The last owner returns the permit. -/
  | drop (request : Nat)

/-- Saturating at `u64::MAX`, and at most `u32::MAX`. -/
def retryAfterMs (retryAfterSecs : Nat) : Nat :=
  min (min (retryAfterSecs * 1000) 18446744073709551615) 4294967295

namespace UploadAdmission

def new (capacity retryAfterSecs : Nat) : UploadAdmission where
  slots := max capacity 1
  retryAfterSecs
  owners := []
  nextRequest := 0

variable (s : UploadAdmission)

def admitRequest (request : Request) : UploadAdmission × Response :=
  if request.isUpload then
    match s.slots with
    | 0 => (s, .uploadBusy s.retryAfterSecs (retryAfterMs s.retryAfterSecs))
    | slots + 1 =>
        -- one owner stays in the middleware, and its clone goes to the extensions of the request
        ({ s with
            slots
            owners := s.nextRequest :: s.nextRequest :: s.owners
            nextRequest := s.nextRequest + 1 },
          .admitted s.nextRequest)
  else (s, .passed)

def retain (request : Nat) : Option UploadAdmission :=
  if request ∈ s.owners then some { s with owners := request :: s.owners } else none

def drop (request : Nat) : Option UploadAdmission :=
  if request ∈ s.owners then
    some { s with
      owners := s.owners.erase request
      slots := if request ∈ s.owners.erase request then s.slots else s.slots + 1 }
  else none

def step : Action → Option UploadAdmission
  | .request request => some (s.admitRequest request).1
  | .retain request => s.retain request
  | .drop request => s.drop request

/-- The admitted requests whose permit something owns. -/
def admitted : Finset Nat := s.owners.toFinset

end UploadAdmission

open UploadAdmission

structure Inv (capacity retryAfterSecs : Nat) (s : UploadAdmission) : Prop where
  conserved : s.slots + s.admitted.card = max capacity 1
  fresh : ∀ request ∈ s.owners, request < s.nextRequest
  retry : s.retryAfterSecs = retryAfterSecs

theorem retryAfterMs_eq (retryAfterSecs : Nat) :
    retryAfterMs retryAfterSecs = min (retryAfterSecs * 1000) 4294967295 := by
  rw [retryAfterMs, min_assoc]
  rfl

theorem toFinset_eq_insert_erase {owners : List Nat} {request : Nat} (h : request ∈ owners) :
    owners.toFinset = insert request (owners.erase request).toFinset := by
  rw [List.toFinset_eq_of_perm _ _ (List.perm_cons_erase h), List.toFinset_cons]

variable {capacity retryAfterSecs : Nat} {s t : UploadAdmission}

theorem inv_new : Inv capacity retryAfterSecs (new capacity retryAfterSecs) where
  conserved := rfl
  fresh _ h := by cases h
  retry := rfl

theorem Inv.nextRequest_notMem (h : Inv capacity retryAfterSecs s) : s.nextRequest ∉ s.owners :=
  fun hmem => Nat.lt_irrefl _ (h.fresh s.nextRequest hmem)

theorem Inv.admitRequest (h : Inv capacity retryAfterSecs s) (request : Request) :
    Inv capacity retryAfterSecs (s.admitRequest request).1 := by
  rw [UploadAdmission.admitRequest]
  split
  · split
    · exact h
    · next slots hslots =>
      refine ⟨?_, ?_, h.retry⟩
      · have hcard : (s.nextRequest :: s.nextRequest :: s.owners).toFinset.card =
            s.owners.toFinset.card + 1 := by
          rw [List.toFinset_cons, List.toFinset_cons, Finset.insert_idem]
          apply Finset.card_insert_of_notMem
          rw [List.mem_toFinset]
          exact h.nextRequest_notMem
        have hconserved := h.conserved
        rw [admitted, hslots] at hconserved
        show slots + (s.nextRequest :: s.nextRequest :: s.owners).toFinset.card = max capacity 1
        rw [hcard]
        omega
      · intro owner howner
        simp only [List.mem_cons] at howner
        rcases howner with rfl | rfl | howner
        · exact Nat.lt_succ_self _
        · exact Nat.lt_succ_self _
        · exact Nat.lt_succ_of_lt (h.fresh owner howner)
  · exact h

theorem Inv.retain (h : Inv capacity retryAfterSecs s) {request : Nat}
    (hretain : s.retain request = some t) : Inv capacity retryAfterSecs t := by
  rw [UploadAdmission.retain] at hretain
  split at hretain
  · next hmem =>
    cases hretain
    refine ⟨?_, ?_, h.retry⟩
    · rw [admitted, List.toFinset_cons, Finset.insert_eq_of_mem (List.mem_toFinset.mpr hmem)]
      exact h.conserved
    · intro owner howner
      rcases List.mem_cons.mp howner with rfl | howner
      · exact h.fresh owner hmem
      · exact h.fresh owner howner
  · cases hretain

theorem Inv.drop (h : Inv capacity retryAfterSecs s) {request : Nat}
    (hdrop : s.drop request = some t) : Inv capacity retryAfterSecs t := by
  rw [UploadAdmission.drop] at hdrop
  split at hdrop
  · next hmem =>
    cases hdrop
    refine ⟨?_, fun owner howner => h.fresh owner (List.mem_of_mem_erase howner), h.retry⟩
    have hconserved := h.conserved
    rw [admitted, toFinset_eq_insert_erase hmem] at hconserved
    by_cases hleft : request ∈ s.owners.erase request
    · rw [Finset.insert_eq_of_mem (List.mem_toFinset.mpr hleft)] at hconserved
      rw [if_pos hleft]
      exact hconserved
    · rw [Finset.card_insert_of_notMem fun h => hleft (List.mem_toFinset.mp h)] at hconserved
      rw [if_neg hleft]
      show s.slots + 1 + (s.owners.erase request).toFinset.card = max capacity 1
      omega
  · cases hdrop

theorem Inv.step (h : Inv capacity retryAfterSecs s) {action : Action}
    (hstep : s.step action = some t) : Inv capacity retryAfterSecs t := by
  cases action with
  | request request =>
      cases hstep
      exact h.admitRequest request
  | retain request => exact h.retain hstep
  | drop request => exact h.drop hstep

/-- However requests come, retain their input and end: the permits are conserved; a request that is not
an upload passes; an upload is admitted, under a new number, if the requests whose permit something
still owns are fewer than the permits, and is told to come back later otherwise. -/
theorem admission_exact (capacity retryAfterSecs : Nat) (actions : List Action) (s : UploadAdmission)
    (hrun : run step (new capacity retryAfterSecs) actions = some s) :
    s.slots + s.admitted.card = max capacity 1 ∧ s.nextRequest ∉ s.admitted ∧
      ∀ request, (s.admitRequest request).2 =
        if request.isUpload then
          if s.admitted.card < max capacity 1 then .admitted s.nextRequest
          else .uploadBusy retryAfterSecs (min (retryAfterSecs * 1000) 4294967295)
        else .passed := by
  have h : Inv capacity retryAfterSecs s :=
    Reachable.invariant ⟨actions, hrun⟩ (fun _ _ _ hstep hinv => Inv.step hinv hstep) inv_new
  refine ⟨h.conserved, fun hmem => h.nextRequest_notMem (List.mem_toFinset.mp hmem), fun request => ?_⟩
  have hconserved := h.conserved
  rw [UploadAdmission.admitRequest]
  split
  · split
    · next hslots =>
      rw [if_neg (by omega), h.retry, retryAfterMs_eq]
    · next slots hslots => rw [if_pos (by omega)]
  · rfl

/-- The permit of a request that has ended is taken as long as its input is there. -/
theorem admission_exact_retained :
    ∃ s, run step (new 1 30)
        [.request ⟨"POST", "/v1/jobs"⟩, .retain 0, .drop 0, .drop 0] = some s ∧
      (s.admitRequest ⟨"POST", "/v1/transcribe"⟩).2 = .uploadBusy 30 30000 :=
  ⟨_, rfl, (admission_exact 1 30
    [.request ⟨"POST", "/v1/jobs"⟩, .retain 0, .drop 0, .drop 0] _ rfl).2.2 ⟨"POST", "/v1/transcribe"⟩⟩

end Gigastt.Upload
