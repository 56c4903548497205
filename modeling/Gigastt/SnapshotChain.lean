import Mathlib.Data.List.GetD
import Gigastt.Snapshot

/-!
The chunk chain against plain lists. A chain shows the concatenation of its chunks' visible words;
retaining a prefix takes that many words, and a publication truncates and extends.
-/

namespace Gigastt

open Transition

namespace Chain

/-- Every chunk counts the chain up to it and shows at least half of its words. -/
def Sound : Chain → Prop
  | [] => True
  | chunk :: previous =>
      chunk.total = total previous + chunk.used ∧ chunk.used ≤ chunk.words.length ∧
        chunk.words.length ≤ 2 * chunk.used ∧ Sound previous

theorem collectWords_cons (chunk : WordChunk) (previous : Chain) :
    collectWords (chunk :: previous) = collectWords previous ++ chunk.words.take chunk.used := by
  simp [collectWords]

theorem Sound.length_collectWords {chain : Chain} (h : Sound chain) :
    (collectWords chain).length = total chain := by
  induction chain with
  | nil => rfl
  | cons chunk previous ih =>
      obtain ⟨htotal, hused, _, hprevious⟩ := h
      rw [collectWords_cons, List.length_append, ih hprevious, List.length_take,
        Nat.min_eq_left hused, total, htotal]

theorem retainLoop_spec {chain : Chain} (h : Sound chain) {retained : Nat}
    (hle : retained ≤ total chain) (hpos : 0 < retained) :
    Sound (retainLoop retained chain) ∧ total (retainLoop retained chain) = retained ∧
      collectWords (retainLoop retained chain) = (collectWords chain).take retained := by
  induction chain with
  | nil => exact absurd hle (by rw [total]; omega)
  | cons chunk previous ih =>
      have hlength := h.length_collectWords
      obtain ⟨htotal, hused, hhalf, hprevious⟩ := h
      have hbefore : chunk.total - chunk.used = total previous := by omega
      rw [total] at hle hlength
      rw [retainLoop]
      dsimp only
      split
      · rename_i hall
        refine ⟨⟨htotal, hused, hhalf, hprevious⟩, ?_, ?_⟩
        · rw [total]
          omega
        · rw [List.take_of_length_le (by omega)]
      · rw [hbefore]
        split
        · rename_i hin
          obtain ⟨hsound, hlen, hcollect⟩ := ih hprevious hin
          refine ⟨hsound, hlen, ?_⟩
          rw [hcollect, collectWords_cons, List.take_append_of_le_length]
          rw [hprevious.length_collectWords]
          exact hin
        · rename_i hpast
          -- the cut falls inside this chunk
          have hcut : (collectWords (chunk :: previous)).take retained =
              collectWords previous ++ chunk.words.take (retained - total previous) := by
            rw [collectWords_cons, List.take_append, hprevious.length_collectWords,
              List.take_of_length_le (by rw [hprevious.length_collectWords]; omega),
              List.take_take, Nat.min_eq_left (by omega)]
          split
          · refine ⟨⟨by dsimp only; omega, ?_, ?_, hprevious⟩, rfl, ?_⟩
            · rw [List.length_take]
              dsimp only
              omega
            · rw [List.length_take]
              dsimp only
              omega
            · rw [hcut, collectWords_cons, List.take_take, Nat.min_self]
          · refine ⟨⟨by dsimp only; omega, ?_, ?_, hprevious⟩, rfl, ?_⟩
            · dsimp only
              omega
            · dsimp only
              omega
            · rw [hcut, collectWords_cons]

theorem retainPrefix_spec {chain : Chain} (h : Sound chain) {retained : Nat}
    (hle : retained ≤ total chain) :
    Sound (retainPrefix chain retained) ∧ total (retainPrefix chain retained) = retained ∧
      collectWords (retainPrefix chain retained) = (collectWords chain).take retained := by
  rw [retainPrefix]
  split
  · rename_i hzero
    subst hzero
    exact ⟨trivial, rfl, (List.take_zero ..).symm⟩
  · exact retainLoop_spec h hle (by omega)

end Chain

/-- The result of a channel, as far as a snapshot knows it. -/
def TranscribeResult.ofWords (words : List WordInfo) : TranscribeResult :=
  { text := joinWords words, words, durationS := 0, confidence := none }

/-- The words of each channel of a request as plain lists: what a publisher is for. -/
structure NaiveRequest where
  channels : List (List WordInfo)
  split : Bool
  deriving DecidableEq, Repr

namespace NaiveRequest

def new : NaiveRequest := { channels := [], split := false }

/-- Channel 0 with nothing retained, or a change of kind, starts a new request. -/
def current (r : NaiveRequest) (u : Update) : List (List WordInfo) :=
  if r.split != u.channel.isSome || (u.channel.getD 0 = 0 && u.retained = 0) then []
  else r.channels

/-- Truncate the channel to the retained words and extend it. Words retained beyond its length are
no valid update. -/
def publish (r : NaiveRequest) (u : Update) : Option NaiveRequest :=
  let index := u.channel.getD 0
  let words := (r.current u).getD index []
  if u.retained ≤ words.length then
    some {
      channels := setChannel (r.current u) index [] (words.take u.retained ++ u.labelled)
      split := u.channel.isSome }
  else none

variable (rnd rnd32 : Rounding)

/-- The words a reader should see: the channels of a split request are merged. -/
def words (r : NaiveRequest) : List WordInfo :=
  if r.split then (mergeChannelResults rnd rnd32 (r.channels.map .ofWords)).words
  else r.channels.flatten

/-- The segment rebuilt from all words at once. -/
def segment (r : NaiveRequest) (timestamp : ℚ) : TranscriptSegment :=
  (TranscriptAssembler.new.append (r.words rnd rnd32)).partialSegment rnd rnd32 timestamp

/-- Each word of a split channel names its channel. -/
def Labelled (r : NaiveRequest) : Prop :=
  r.split = true → ∀ c (words : List WordInfo), r.channels[c]? = some words →
    ∀ w ∈ words, w.speaker = some c

end NaiveRequest

section SetChannel

variable {β γ : Type} (l : List β) (i : Nat) (empty x : β)

theorem map_setChannel (f : β → γ) :
    (setChannel l i empty x).map f = setChannel (l.map f) i (f empty) (f x) := by
  rw [setChannel, setChannel, List.map_set, List.map_append, List.map_replicate, List.length_map]

theorem mem_setChannel {y : β} (h : y ∈ setChannel l i empty x) : y ∈ l ∨ y = empty ∨ y = x := by
  rcases List.mem_or_eq_of_mem_set h with hmem | rfl
  · rcases List.mem_append.mp hmem with hl | hr
    · exact .inl hl
    · exact .inr (.inl (List.eq_of_mem_replicate hr))
  · exact .inr (.inr rfl)

theorem getElem?_setChannel (j : Nat) (y : β) (h : (setChannel l i empty x)[j]? = some y) :
    (j = i ∧ y = x) ∨ y = empty ∨ l[j]? = some y := by
  rw [setChannel, List.getElem?_set] at h
  split at h
  · rename_i hij
    split at h
    · cases h
      exact .inl ⟨hij.symm, rfl⟩
    · cases h
  · rcases Nat.lt_or_ge j l.length with hlt | hge
    · rw [List.getElem?_append_left hlt] at h
      exact .inr (.inr h)
    · rw [List.getElem?_append_right hge] at h
      exact .inr (.inl (List.eq_of_mem_replicate (List.mem_of_getElem? h)))

end SetChannel

namespace SnapshotPublisher

/-- The publisher's chains show the request's lists. -/
structure Represents (p : SnapshotPublisher) (r : NaiveRequest) : Prop where
  split_eq : p.split = r.split
  channels_eq : p.channels.map Chain.collectWords = r.channels
  sound : ∀ chain ∈ p.channels, Chain.Sound chain
  labelled : r.Labelled

theorem represents_new : Represents new NaiveRequest.new :=
  ⟨rfl, rfl, fun _ h => (List.not_mem_nil h).elim, fun h => Bool.noConfusion h⟩

/-- The words an update adds to a split channel, and those it keeps, name the channel. -/
theorem labelled_publish {r next : NaiveRequest} {u : Update} (h : r.Labelled)
    (hnext : r.publish u = some next) : next.Labelled := by
  unfold NaiveRequest.publish at hnext
  dsimp only at hnext
  split at hnext
  · cases hnext
    intro hsplit c words hwords w hw
    obtain ⟨channel, hchannel⟩ := Option.isSome_iff_exists.mp hsplit
    have hkept : ∀ (c : Nat) (words : List WordInfo), (r.current u)[c]? = some words →
        ∀ w ∈ words, w.speaker = some c := by
      intro c words hc
      unfold NaiveRequest.current at hc
      split at hc
      · cases hc
      · rename_i hsame
        simp only [hchannel, Option.isSome_some, Bool.or_eq_true, not_or, bne_iff_ne, ne_eq,
          Decidable.not_not] at hsame
        exact h hsame.1 c words hc
    rcases getElem?_setChannel _ _ _ _ _ _ hwords with ⟨rfl, rfl⟩ | rfl | hold
    · rcases List.mem_append.mp hw with hw | hw
      · have hmem := List.mem_of_mem_take hw
        rw [List.getD_eq_getElem?_getD] at hmem
        cases hold : (r.current u)[u.channel.getD 0]? with
        | none => simp [hold] at hmem
        | some old => exact hkept _ old hold w (by simpa [hold] using hmem)
      · rw [Update.labelled, hchannel] at hw
        obtain ⟨_, _, rfl⟩ := List.mem_map.mp hw
        rw [hchannel, Option.getD_some]
    · cases hw
    · exact hkept c words hold w hw
  · cases hnext

/-- The channels an update continues. -/
theorem Represents.current {p : SnapshotPublisher} {r : NaiveRequest} (h : Represents p r)
    (u : Update) : (p.current u).map Chain.collectWords = r.current u ∧
      ∀ chain ∈ p.current u, Chain.Sound chain := by
  unfold SnapshotPublisher.current NaiveRequest.current
  rw [h.split_eq]
  split
  · exact ⟨rfl, fun _ h => (List.not_mem_nil h).elim⟩
  · exact ⟨h.channels_eq, h.sound⟩

theorem sound_getD {chains : List Chain} (h : ∀ chain ∈ chains, Chain.Sound chain) (i : Nat) :
    Chain.Sound (chains.getD i []) := by
  rw [List.getD_eq_getElem?_getD]
  cases hi : chains[i]? with
  | none => exact trivial
  | some chain => exact h chain (List.mem_of_getElem? hi)

/-- The head after an update: the retained prefix, and a full chunk unless nothing is added. -/
theorem head_spec {previous : Chain} (h : Chain.Sound previous) (words : List WordInfo) :
    let head := if words.isEmpty then previous
      else { words, used := words.length, total := Chain.total previous + words.length } :: previous
    Chain.Sound head ∧ Chain.collectWords head = Chain.collectWords previous ++ words := by
  dsimp only
  split
  · rename_i hnil
    rw [List.isEmpty_iff.mp hnil, List.append_nil]
    exact ⟨h, rfl⟩
  · refine ⟨⟨rfl, Nat.le_refl _, by dsimp only; omega, h⟩, ?_⟩
    rw [Chain.collectWords_cons, List.take_length]

theorem Represents.publish {p : SnapshotPublisher} {r next : NaiveRequest} {u : Update}
    (h : Represents p r) (hnext : r.publish u = some next) : Represents (p.publish u) next := by
  obtain ⟨hchannels, hsound⟩ := h.current u
  have hlabelled := labelled_publish h.labelled hnext
  unfold NaiveRequest.publish at hnext
  dsimp only at hnext
  rw [← hchannels] at hnext
  split at hnext
  · rename_i hle
    cases hnext
    have hchain := sound_getD hsound (u.channel.getD 0)
    have hwords : ((p.current u).map Chain.collectWords).getD (u.channel.getD 0) [] =
        Chain.collectWords ((p.current u).getD (u.channel.getD 0) []) :=
      List.getD_map (p.current u) [] Chain.collectWords
    rw [hwords] at hle
    rw [hchain.length_collectWords] at hle
    obtain ⟨hprevious, _, hcollect⟩ := Chain.retainPrefix_spec hchain hle
    obtain ⟨hhead, hcollect_head⟩ := head_spec hprevious u.labelled
    refine ⟨rfl, ?_, ?_, hlabelled⟩
    · unfold SnapshotPublisher.publish
      dsimp only
      rw [map_setChannel, hcollect_head, hcollect, hwords]
      rfl
    · intro chain hmem
      rcases mem_setChannel _ _ _ _ hmem with hold | rfl | rfl
      · exact hsound chain hold
      · exact trivial
      · exact hhead
  · cases hnext

/-- Labelling words by their channel changes nothing in channels that are labelled already. -/
theorem flatMap_relabel {channels : List (List WordInfo)} {n : Nat}
    (h : ∀ c (words : List WordInfo), channels[c]? = some words →
      ∀ w ∈ words, w.speaker = some (n + c)) :
    ((channels.map TranscribeResult.ofWords).zipIdx n).flatMap
      (fun r => r.1.words.map fun w => { w with speaker := some r.2 }) = channels.flatten := by
  induction channels generalizing n with
  | nil => rfl
  | cons words channels ih =>
      have hsame : (words.map fun w => { w with speaker := some n }) = words := by
        refine (List.map_congr_left fun w hw => ?_).trans (List.map_id words)
        have hspeaker : w.speaker = some n := h 0 words rfl w hw
        rw [← hspeaker]
        rfl
      rw [List.map_cons, List.zipIdx_cons, List.flatMap_cons, List.flatten_cons]
      refine congrArg₂ (· ++ ·) hsame (ih fun c words hc w hw => ?_)
      rw [h (c + 1) words hc w hw, Nat.add_assoc, Nat.add_comm c]

/-- A reader of the chains sees the segment rebuilt from the lists. -/
theorem Represents.read {p : SnapshotPublisher} {r : NaiveRequest} (h : Represents p r)
    (rnd rnd32 : Rounding) (timestamp : ℚ) :
    (p.data timestamp).read rnd rnd32 = r.segment rnd rnd32 timestamp := by
  have hwords : p.channels.flatMap Chain.collectWords = r.channels.flatten := by
    rw [← h.channels_eq, List.flatten_eq_flatMap, List.flatMap_map]
    rfl
  have hread : (if p.split then r.channels.flatten.mergeSort chronological
      else r.channels.flatten) = r.words rnd rnd32 := by
    rw [h.split_eq, NaiveRequest.words]
    split
    · rename_i hsplit
      unfold mergeChannelResults
      dsimp only
      rw [flatMap_relabel fun c words hc w hw => by rw [Nat.zero_add]; exact h.labelled hsplit c words hc w hw]
    · rfl
  unfold NaiveRequest.segment
  simp only [data, SnapshotData.read, hwords, hread]
  rfl

end SnapshotPublisher

section Run

variable {ι : Type} [DecidableEq ι]

/-- The updates of one of the requests. -/
def updatesOf (i : ι) (updates : List (ι × Update)) : List Update :=
  updates.filterMap fun u => if u.1 = i then some u.2 else none

theorem updatesOf_concat (i : ι) (updates : List (ι × Update)) (u : ι × Update) :
    updatesOf i (updates ++ [u]) =
      if u.1 = i then updatesOf i updates ++ [u.2] else updatesOf i updates := by
  rw [updatesOf, List.filterMap_append]
  by_cases h : u.1 = i <;> simp [h, updatesOf]

theorem publishAll_concat (s : Publishers ι) (updates : List (ι × Update)) (u : ι × Update) :
    s.publishAll (updates ++ [u]) = (s.publishAll updates).publish u.1 u.2 := by
  rw [Publishers.publishAll, List.foldl_append, List.foldl_cons, List.foldl_nil,
    Publishers.publishAll]

/-- Whatever the interleaving, every publisher shows the lists of its own request. -/
theorem publishAll_represents {updates : List (ι × Update)} (j : ι) {r : NaiveRequest}
    (hrun : run NaiveRequest.publish .new (updatesOf j updates) = some r) :
    ((Publishers.new.publishAll updates).publishers j).Represents r := by
  induction updates using List.reverseRecOn generalizing r with
  | nil =>
      cases hrun
      exact SnapshotPublisher.represents_new
  | append_singleton updates u ih =>
      rw [publishAll_concat, Publishers.publish]
      rw [updatesOf_concat] at hrun
      dsimp only
      by_cases h : u.1 = j
      · rw [if_pos h, run_concat] at hrun
        obtain ⟨before, hbefore, hnext⟩ := Option.bind_eq_some_iff.mp hrun
        rw [← h, Function.update_self]
        exact (h ▸ ih hbefore).publish hnext
      · rw [if_neg h] at hrun
        rw [Function.update_of_ne (Ne.symm h)]
        exact ih hrun

/-- Any number of requests publish into one snapshot, each with valid updates. After every update a
reader sees the words and text of that update's request, rebuilt by truncating and extending plain
lists, and all chunk chains are sound. -/
theorem snapshot_eq_naive (rnd rnd32 : Rounding) (updates : List (ι × Update)) (i : ι) (u : Update)
    (hvalid : ∀ j, (run NaiveRequest.publish .new (updatesOf j (updates ++ [(i, u)]))).isSome) :
    let s := Publishers.new.publishAll (updates ++ [(i, u)])
    (∃ r, run NaiveRequest.publish .new (updatesOf i (updates ++ [(i, u)])) = some r ∧
      s.snapshot.map (SnapshotData.read rnd rnd32) = some (r.segment rnd rnd32 u.timestamp)) ∧
      ∀ j, ∀ chain ∈ (s.publishers j).channels, Chain.Sound chain := by
  intro s
  have hrepresents : ∀ j, ∃ r,
      run NaiveRequest.publish .new (updatesOf j (updates ++ [(i, u)])) = some r ∧
        (s.publishers j).Represents r := by
    intro j
    obtain ⟨r, hr⟩ := Option.isSome_iff_exists.mp (hvalid j)
    exact ⟨r, hr, publishAll_represents j hr⟩
  refine ⟨?_, fun j => ?_⟩
  · obtain ⟨r, hr, hrep⟩ := hrepresents i
    refine ⟨r, hr, ?_⟩
    have hsnapshot : s.snapshot = some ((s.publishers i).data u.timestamp) := by
      simp only [s, publishAll_concat, Publishers.publish, Function.update_self]
    rw [hsnapshot, Option.map_some, hrep.read]
  · obtain ⟨r, _, hrep⟩ := hrepresents j
    exact hrep.sound

/-- A mono request and a split one, publishing in turn. -/
theorem snapshot_eq_naive_two :
    let word := fun (text : Char) (start : ℚ) => (⟨[text], start, start, 1, none⟩ : WordInfo)
    let updates : List (Bool × Update) :=
      [(true, { retained := 0, words := [word 'a' 1, word 'b' 2], channel := none, timestamp := 0 }),
       (false, { retained := 0, words := [word 'c' 1], channel := some 0, timestamp := 1 }),
       (true, { retained := 1, words := [word 'd' 3], channel := none, timestamp := 2 })]
    let last : Update :=
      { retained := 0, words := [word 'e' 0], channel := some 1, timestamp := 3 }
    (∀ j, (run NaiveRequest.publish .new (updatesOf j (updates ++ [(false, last)]))).isSome) ∧
      let s := Publishers.new.publishAll (updates ++ [(false, last)])
      (∃ r, run NaiveRequest.publish .new (updatesOf false (updates ++ [(false, last)])) = some r ∧
        s.snapshot.map (SnapshotData.read .binary64 .binary32) =
          some (r.segment .binary64 .binary32 last.timestamp)) ∧
        ∀ j, ∀ chain ∈ (s.publishers j).channels, Chain.Sound chain := by
  intro word updates last
  have hvalid : ∀ j, (run NaiveRequest.publish .new
      (updatesOf j (updates ++ [(false, last)]))).isSome := by decide
  exact ⟨hvalid, snapshot_eq_naive .binary64 .binary32 updates false last hvalid⟩

end Run

end Gigastt
