import Gigastt.Metering
import Gigastt.RateLimit

/-!
What the rate limiter lets through in an interval. A bucket that was dropped comes back full, so the
bound of the bucket holds of the limiter only when a bucket idle for long enough to be dropped has
filled up by then.
-/

namespace Gigastt.RateLimit

/-- The tokens the rate gives back per millisecond. -/
def refillRate (rpm : Nat) : ℚ := rpm / 60000

theorem refillRate_nonneg (rpm : Nat) : 0 ≤ refillRate rpm :=
  div_nonneg (Nat.cast_nonneg rpm) (by norm_num)

/-- A bucket of the limiter for `(rpm, burst)`, as a time finds it. -/
structure TokenBucket.Sound (rpm burst : Nat) (now : ℚ) (bucket : TokenBucket) : Prop where
  capacity : bucket.capacity = burst
  rate : bucket.refillPerMs = refillRate rpm
  tokens_nonneg : 0 ≤ bucket.tokens
  tokens_le : bucket.tokens ≤ burst
  past : bucket.lastRefill ≤ now
  seen : bucket.lastSeenMs = unixMs bucket.lastRefill

namespace TokenBucket

/-- The tokens the bucket would have if it were refilled at a time. -/
def level (bucket : TokenBucket) (now : ℚ) : ℚ :=
  min (bucket.tokens + (now - bucket.lastRefill) * bucket.refillPerMs) bucket.capacity

variable {rpm burst : Nat} {now : ℚ} {bucket : TokenBucket}

theorem Sound.later (hsound : bucket.Sound rpm burst now) {now' : ℚ} (hle : now ≤ now') :
    bucket.Sound rpm burst now' := { hsound with past := hsound.past.trans hle }

theorem sound_new : (new burst (refillRate rpm) now (unixMs now)).Sound rpm burst now where
  capacity := rfl
  rate := rfl
  tokens_nonneg := Nat.cast_nonneg burst
  tokens_le := le_rfl
  past := le_rfl
  seen := rfl

theorem level_new (rate : ℚ) (nowMs : Nat) : (new burst rate now nowMs).level now = burst := by
  unfold level new
  rw [sub_self, zero_mul, add_zero, min_self]

theorem Sound.level_nonneg (hsound : bucket.Sound rpm burst now) : 0 ≤ bucket.level now := by
  have hrate : 0 ≤ bucket.refillPerMs := hsound.rate ▸ refillRate_nonneg rpm
  have hadded := mul_nonneg (sub_nonneg.mpr hsound.past) hrate
  apply le_min (add_nonneg hsound.tokens_nonneg hadded)
  rw [hsound.capacity]
  exact Nat.cast_nonneg burst

theorem Sound.level_le (hsound : bucket.Sound rpm burst now) : bucket.level now ≤ burst :=
  (min_le_right _ _).trans_eq hsound.capacity

theorem Sound.level_later (hsound : bucket.Sound rpm burst now) {now' : ℚ} (hle : now ≤ now') :
    bucket.level now' ≤ bucket.level now + refillRate rpm * (now' - now) := by
  have hadded := mul_nonneg (refillRate_nonneg rpm) (sub_nonneg.mpr hle)
  unfold level
  rw [hsound.rate, ← min_add_add_right]
  refine min_le_min (le_of_eq ?_) (le_add_of_nonneg_right hadded)
  ring

/-- The refill brings the bucket to its level. -/
theorem Sound.refill (hsound : bucket.Sound rpm burst now) :
    (bucket.refill now).tokens = bucket.level now ∧ (bucket.refill now).lastRefill = now ∧
      (bucket.refill now).capacity = burst ∧ (bucket.refill now).refillPerMs = refillRate rpm := by
  have hmax : max (now - bucket.lastRefill) 0 = now - bucket.lastRefill :=
    max_eq_left (sub_nonneg.mpr hsound.past)
  unfold TokenBucket.refill level
  rw [hmax]
  dsimp only
  split_ifs with helapsed
  · exact ⟨rfl, rfl, hsound.capacity, hsound.rate⟩
  · have hnow : now = bucket.lastRefill :=
      le_antisymm (sub_nonpos.mp (not_lt.mp helapsed)) hsound.past
    have htokens : bucket.tokens ≤ bucket.capacity := hsound.capacity ▸ hsound.tokens_le
    rw [hnow, sub_self, zero_mul, add_zero, min_eq_left htokens]
    exact ⟨rfl, rfl, hsound.capacity, hsound.rate⟩

/-- A request is allowed when the level has a token for it, and takes it. -/
theorem Sound.tryConsume (hsound : bucket.Sound rpm burst now) :
    (bucket.tryConsume now (unixMs now)).1.Sound rpm burst now ∧
      (bucket.tryConsume now (unixMs now)).2 = decide (1 ≤ bucket.level now) ∧
      (bucket.tryConsume now (unixMs now)).1.level now
        = bucket.level now - if 1 ≤ bucket.level now then 1 else 0 := by
  obtain ⟨htokens, hrefilled, hcapacity, hrate⟩ := hsound.refill
  have hle := hsound.level_le
  have hnonneg := hsound.level_nonneg
  unfold TokenBucket.tryConsume
  simp only [htokens]
  split_ifs with hone
  · refine ⟨⟨hcapacity, hrate, sub_nonneg.mpr hone, ?_, hrefilled.le, ?_⟩, ?_, ?_⟩
    · show bucket.level now - 1 ≤ burst
      linarith
    · rw [hrefilled]
    · exact (decide_eq_true hone).symm
    · show min (bucket.level now - 1 + (now - (bucket.refill now).lastRefill) * _) _ = _
      rw [hrefilled, hcapacity, sub_self, zero_mul, add_zero]
      exact min_eq_left (by linarith)
  · refine ⟨⟨hcapacity, hrate, htokens ▸ hnonneg, htokens ▸ hle, hrefilled.le, ?_⟩, ?_, ?_⟩
    · rw [hrefilled]
    · exact (decide_eq_false hone).symm
    · show min (bucket.level now + (now - (bucket.refill now).lastRefill) * _) _ = _
      rw [hrefilled, hcapacity, sub_self, zero_mul, add_zero, sub_zero]
      exact min_eq_left hle

end TokenBucket

/-- A bucket that the eviction drops was last used more than the idle time ago. -/
theorem idle_of_stale {past now : ℚ} (hle : past ≤ now)
    (hstale : unixMs past < unixMs now - staleAfterMs % 2 ^ 64) : (staleAfterMs : ℚ) ≤ now - past := by
  have hfloor : ⌊past⌋₊ ≤ ⌊now⌋₊ := Nat.floor_mono hle
  have hgap : ⌊past⌋₊ + 1 + staleAfterMs ≤ ⌊now⌋₊ := by
    unfold unixMs staleAfterMs at *
    omega
  have hnow : (⌊now⌋₊ : ℚ) ≤ now := by
    apply Nat.floor_le
    by_contra hneg
    rw [Nat.floor_of_nonpos (not_le.mp hneg).le] at hgap
    omega
  have hpast : past < ⌊past⌋₊ + 1 := Nat.lt_floor_add_one past
  have hcast : ((⌊past⌋₊ + 1 + staleAfterMs : Nat) : ℚ) ≤ (⌊now⌋₊ : ℚ) := Nat.cast_le.mpr hgap
  push_cast at hcast
  linarith

namespace RateLimiter

/-- The tokens the limiter would have for `ip`: a bucket it has to add is full. -/
def level (limiter : RateLimiter) (ip : IpAddr) (now : ℚ) : ℚ :=
  match limiter.buckets.find ip with
  | some bucket => bucket.level now
  | none => limiter.capacity.get

/-- The limiter for `(rpm, burst)`, as a time finds it. -/
structure Sound (rpm burst : Nat) (now : ℚ) (limiter : RateLimiter) : Prop where
  capacity : limiter.capacity.get = burst
  rate : limiter.refillPerMs = refillRate rpm
  buckets : ∀ ip bucket, limiter.buckets.find ip = some bucket → bucket.Sound rpm burst now

variable {iter : Iter} {rpm burst : Nat} {now : ℚ} {limiter : RateLimiter} {ip : IpAddr}

theorem Sound.later (hsound : limiter.Sound rpm burst now) {now' : ℚ} (hle : now ≤ now') :
    limiter.Sound rpm burst now' :=
  { hsound with buckets := fun ip bucket hfind => (hsound.buckets ip bucket hfind).later hle }

theorem sound_new (hrpm : 1 ≤ rpm) (hmax : rpm ≤ maxRpm) (hburst : 1 ≤ burst) :
    (new rpm burst).Sound rpm burst now where
  capacity := max_eq_left hburst
  rate := by
    show ((min (max rpm 1) maxRpm : Nat) : ℚ) / 60000 = rpm / 60000
    rw [max_eq_left hrpm, min_eq_left hmax]
  buckets ip bucket hfind := absurd (Table.find_empty.symm.trans hfind) nofun

theorem level_of_find {bucket : TokenBucket} (hfind : limiter.buckets.find ip = some bucket) :
    limiter.level ip now = bucket.level now := by
  unfold level
  rw [hfind]

theorem level_of_none (hfind : limiter.buckets.find ip = none) :
    limiter.level ip now = limiter.capacity.get := by
  unfold level
  rw [hfind]

theorem Sound.level_nonneg (hsound : limiter.Sound rpm burst now) : 0 ≤ limiter.level ip now := by
  rcases Option.eq_none_or_eq_some (limiter.buckets.find ip) with hfind | ⟨bucket, hfind⟩
  · rw [level_of_none hfind]
    exact Nat.cast_nonneg _
  · rw [level_of_find hfind]
    exact (hsound.buckets ip bucket hfind).level_nonneg

theorem Sound.level_le (hsound : limiter.Sound rpm burst now) : limiter.level ip now ≤ burst := by
  rcases Option.eq_none_or_eq_some (limiter.buckets.find ip) with hfind | ⟨bucket, hfind⟩
  · rw [level_of_none hfind, hsound.capacity]
  · rw [level_of_find hfind]
    exact (hsound.buckets ip bucket hfind).level_le

theorem Sound.level_later (hsound : limiter.Sound rpm burst now) {now' : ℚ} (hle : now ≤ now') :
    limiter.level ip now' ≤ limiter.level ip now + refillRate rpm * (now' - now) := by
  rcases Option.eq_none_or_eq_some (limiter.buckets.find ip) with hfind | ⟨bucket, hfind⟩
  · rw [level_of_none hfind, level_of_none hfind]
    exact le_add_of_nonneg_right (mul_nonneg (refillRate_nonneg rpm) (sub_nonneg.mpr hle))
  · rw [level_of_find hfind, level_of_find hfind]
    exact (hsound.buckets ip bucket hfind).level_later hle

/-- With room for its bucket, a check is one `try_consume` of the bucket the map has, or of a full one. -/
theorem Sound.check_eq (iter : Iter) (hsound : limiter.Sound rpm burst now)
    (hroom : limiter.HasRoom (.check ip)) : ∃ bucket : TokenBucket,
      bucket.Sound rpm burst now ∧ bucket.level now = limiter.level ip now ∧
      limiter.check iter ip now
        = ({ limiter with
              buckets := limiter.buckets.insert ip (bucket.tryConsume now (unixMs now)).1 },
            (bucket.tryConsume now (unixMs now)).2) := by
  rcases Option.eq_none_or_eq_some (limiter.buckets.find ip) with hfind | ⟨bucket, hfind⟩
  · refine ⟨.new burst (refillRate rpm) now (unixMs now), TokenBucket.sound_new, ?_, ?_⟩
    · rw [level_of_none hfind, hsound.capacity, TokenBucket.level_new]
    · unfold check
      rw [hfind, hsound.capacity, hsound.rate, if_neg (not_le.mpr (hroom hfind))]
  · refine ⟨bucket, hsound.buckets ip bucket hfind, (level_of_find hfind).symm, ?_⟩
    unfold check
    rw [hfind]

/-- A check allows a request when there is a token for it, and takes only that token. -/
theorem Sound.check (iter : Iter) (hsound : limiter.Sound rpm burst now)
    (hroom : limiter.HasRoom (.check ip)) :
    (limiter.check iter ip now).1.Sound rpm burst now ∧
      (limiter.check iter ip now).2 = decide (1 ≤ limiter.level ip now) ∧
      (limiter.check iter ip now).1.level ip now
        = limiter.level ip now - (if 1 ≤ limiter.level ip now then 1 else 0) ∧
      ∀ other, other ≠ ip →
        (limiter.check iter ip now).1.buckets.find other = limiter.buckets.find other := by
  obtain ⟨bucket, hbucket, hlevel, hcheck⟩ := hsound.check_eq iter hroom
  obtain ⟨hnext, hallowed, htaken⟩ := hbucket.tryConsume
  rw [hcheck, ← hlevel]
  refine ⟨⟨hsound.capacity, hsound.rate, fun other b hfind => ?_⟩, hallowed, ?_, ?_⟩
  · rw [Table.find_insert] at hfind
    split_ifs at hfind with hother
    · exact Option.some_inj.mp hfind ▸ hnext
    · exact hsound.buckets other b hfind
  · rw [level_of_find (Table.find_insert ip |>.trans (if_pos rfl)), htaken]
  · exact fun other hother => (Table.find_insert other).trans (if_neg hother)

theorem find_evictStale (limiter : RateLimiter) (ip : IpAddr) (now : ℚ) (olderThanMs : Nat) :
    (limiter.evictStale olderThanMs now).buckets.find ip
    = (limiter.buckets.find ip).filter
        fun bucket => unixMs now - olderThanMs % 2 ^ 64 ≤ bucket.lastSeenMs :=
  Table.find_filter _ ip

theorem Sound.evictStale (hsound : limiter.Sound rpm burst now) (olderThanMs : Nat) :
    (limiter.evictStale olderThanMs now).Sound rpm burst now where
  capacity := hsound.capacity
  rate := hsound.rate
  buckets ip bucket hfind := by
    rw [find_evictStale, Option.filter_eq_some_iff] at hfind
    exact hsound.buckets ip bucket hfind.1

/-- If the call drops the bucket of `ip`, the bucket has filled up. -/
def DropsFull (ip : IpAddr) (limiter : RateLimiter) (now : ℚ) : Call → Prop
  | .check _ => True
  | .evictStale => ∀ bucket, limiter.buckets.find ip = some bucket →
      bucket.lastSeenMs < unixMs now - staleAfterMs → bucket.capacity ≤ bucket.level now

/-- The run drops the bucket of `ip` only when it has filled up. -/
def AlwaysDropsFull (iter : Iter) (ip : IpAddr) (limiter : RateLimiter) : List (ℚ × Call) → Prop
  | [] => True
  | (now, call) :: rest =>
      limiter.DropsFull ip now call ∧
        (limiter.call iter now call).1.AlwaysDropsFull iter ip rest

/-- In the idle time the rate gives back five tokens for each request per minute. -/
theorem Sound.dropsFull (hsound : limiter.Sound rpm burst now) (hburst : burst ≤ 5 * rpm)
    (call : Call) : limiter.DropsFull ip now call := by
  cases call with
  | check caller => trivial
  | evictStale =>
      intro bucket hfind hstale
      have hbucket := hsound.buckets ip bucket hfind
      have hidle := idle_of_stale hbucket.past (hbucket.seen ▸ hstale)
      have hcast : (burst : ℚ) ≤ 5 * rpm := by exact_mod_cast hburst
      have hrate := mul_le_mul_of_nonneg_right hidle (refillRate_nonneg rpm)
      have hrefilled : (burst : ℚ) ≤ (now - bucket.lastRefill) * refillRate rpm := by
        refine le_trans ?_ hrate
        unfold refillRate staleAfterMs
        push_cast
        linarith
      have htokens := hbucket.tokens_nonneg
      refine le_min ?_ le_rfl
      rw [hbucket.rate, hbucket.capacity]
      linarith

/-- An eviction that drops only a full bucket changes no level. -/
theorem Sound.level_evictStale (hsound : limiter.Sound rpm burst now)
    (hfull : limiter.DropsFull ip now .evictStale) :
    (limiter.evictStale staleAfterMs now).level ip now = limiter.level ip now := by
  have hevict := find_evictStale limiter ip now staleAfterMs
  rcases Option.eq_none_or_eq_some (limiter.buckets.find ip) with hfind | ⟨bucket, hfind⟩
  · rw [hfind, Option.filter_none] at hevict
    rw [level_of_none hfind, level_of_none hevict]
    rfl
  · rw [hfind, Option.filter_some] at hevict
    by_cases hkept : unixMs now - staleAfterMs % 2 ^ 64 ≤ bucket.lastSeenMs
    · rw [if_pos (decide_eq_true hkept)] at hevict
      rw [level_of_find hfind, level_of_find hevict]
    · rw [if_neg fun hdec => hkept (of_decide_eq_true hdec)] at hevict
      have hbucket := hsound.buckets ip bucket hfind
      have hcapacity := hfull bucket hfind (not_le.mp hkept)
      rw [hbucket.capacity] at hcapacity
      rw [level_of_find hfind, level_of_none hevict]
      show (limiter.capacity.get : ℚ) = bucket.level now
      rw [hsound.capacity]
      exact le_antisymm hcapacity hbucket.level_le

theorem Sound.call (hsound : limiter.Sound rpm burst now) {call : Call}
    (hroom : limiter.HasRoom call) : (limiter.call iter now call).1.Sound rpm burst now := by
  cases call with
  | check caller => exact (hsound.check iter hroom).1
  | evictStale => exact hsound.evictStale staleAfterMs

/-- A call that allows a request from `ip` takes its token, and no call adds one. -/
theorem Sound.level_call (hsound : limiter.Sound rpm burst now) {call : Call}
    (hroom : limiter.HasRoom call) (hfull : limiter.DropsFull ip now call) :
    (limiter.call iter now call).1.level ip now
        + (if (limiter.call iter now call).2 = some ip then 1 else 0)
      ≤ limiter.level ip now := by
  cases call with
  | check caller =>
      obtain ⟨_, hallowed, htaken, hothers⟩ := hsound.check iter hroom
      show (limiter.check iter caller now).1.level ip now
          + (if (if (limiter.check iter caller now).2 then some caller else none) = some ip
              then 1 else 0)
        ≤ limiter.level ip now
      rw [hallowed]
      by_cases hip : ip = caller
      · subst hip
        rw [htaken]
        by_cases hone : 1 ≤ limiter.level ip now
        · simp [hone]
        · simp [hone]
      · have hlevel : (limiter.check iter caller now).1.level ip now = limiter.level ip now := by
          unfold level
          rw [hothers ip hip]
          rw [(hsound.check iter hroom).1.capacity, hsound.capacity]
        have hnot : (if decide (1 ≤ limiter.level caller now) = true then some caller else none)
            ≠ some ip := by
          split_ifs
          · exact fun hsome => hip (Option.some_inj.mp hsome).symm
          · exact nofun
        rw [hlevel, if_neg hnot, add_zero]
  | evictStale => exact ((add_zero _).trans (hsound.level_evictStale hfull)).le

/-- The limiter as a meter of the requests from one address. -/
def meter (iter : Iter) (ip : IpAddr) (rpm burst : Nat) : Meter RateLimiter Call where
  step limiter now call :=
    ((limiter.call iter now call).1, (limiter.call iter now call).2 = some ip)
  level limiter now := limiter.level ip now
  Valid limiter now := limiter.Sound rpm burst now
  Covers limiter now call := limiter.HasRoom call ∧ limiter.DropsFull ip now call
  cap := burst
  rate := refillRate rpm
  rate_nonneg := refillRate_nonneg rpm
  level_nonneg _ _ hsound := hsound.level_nonneg
  level_le_cap _ _ hsound := hsound.level_le
  level_later _ _ _ hsound hle := hsound.level_later hle
  valid_later _ _ _ hsound hle := hsound.later hle
  valid_step _ _ _ hsound hcovers := hsound.call hcovers.1
  level_step _ _ _ hsound hcovers := by
    simpa only [decide_eq_true_eq] using hsound.level_call hcovers.1 hcovers.2

theorem allowed_cons (call : Call) (rest : List (ℚ × Call)) :
    limiter.allowed iter ip ((now, call) :: rest)
      = if (limiter.call iter now call).2 = some ip
          then now :: (limiter.call iter now call).1.allowed iter ip rest
          else (limiter.call iter now call).1.allowed iter ip rest := rfl

theorem served_meter (rpm burst : Nat) (calls : List (ℚ × Call)) :
    (meter iter ip rpm burst).served limiter calls = limiter.allowed iter ip calls := by
  induction calls generalizing limiter with
  | nil => rfl
  | cons head rest ih =>
      obtain ⟨now, call⟩ := head
      rw [allowed_cons, Meter.served_cons, ih]
      by_cases hallowed : (limiter.call iter now call).2 = some ip
      · rw [if_pos hallowed]
        exact if_pos (decide_eq_true hallowed)
      · rw [if_neg hallowed]
        exact if_neg fun hdec => hallowed (of_decide_eq_true hdec)

theorem coversAll_meter {calls : List (ℚ × Call)} (hroom : limiter.Uncapped iter calls)
    (hfull : limiter.AlwaysDropsFull iter ip calls) :
    (meter iter ip rpm burst).CoversAll limiter calls := by
  induction calls generalizing limiter with
  | nil => trivial
  | cons head rest ih => exact ⟨⟨hroom.1, hfull.1⟩, ih hroom.2 hfull.2⟩

theorem alwaysDropsFull {calls : List (ℚ × Call)} (hsound : limiter.Sound rpm burst now)
    (hburst : burst ≤ 5 * rpm) (horder : Meter.InOrder now calls)
    (hroom : limiter.Uncapped iter calls) : limiter.AlwaysDropsFull iter ip calls := by
  induction calls generalizing limiter now with
  | nil => trivial
  | cons head rest ih =>
      obtain ⟨hle, hrest⟩ := horder.tail
      have hlater := hsound.later hle
      exact ⟨hlater.dropsFull hburst head.2, ih (hlater.call hroom.1) hrest hroom.2⟩

/-- While only full buckets are dropped, the bound of the bucket is the bound of the limiter. -/
theorem allowedBetween_le {calls : List (ℚ × Call)} {t a b : ℚ}
    (hsound : limiter.Sound rpm burst t) (horder : Meter.InOrder t calls)
    (hroom : limiter.Uncapped iter calls) (hfull : limiter.AlwaysDropsFull iter ip calls)
    (hab : a ≤ b) :
    (limiter.allowedBetween iter ip calls a b : ℚ) ≤ burst + refillRate rpm * (b - a) := by
  unfold allowedBetween
  rw [← served_meter rpm burst]
  exact Meter.servedBetween_le (m := meter iter ip rpm burst) hsound horder
    (coversAll_meter hroom hfull) hab

/-- The state after a run of calls. -/
def after (iter : Iter) (limiter : RateLimiter) (calls : List (ℚ × Call)) : RateLimiter :=
  calls.foldl (fun limiter x => (limiter.call iter x.1 x.2).1) limiter

theorem allowed_append (first rest : List (ℚ × Call)) :
    limiter.allowed iter ip (first ++ rest)
      = limiter.allowed iter ip first ++ (limiter.after iter first).allowed iter ip rest := by
  induction first generalizing limiter with
  | nil => rfl
  | cons head first ih =>
      obtain ⟨now, call⟩ := head
      rw [List.cons_append, allowed_cons, allowed_cons, ih]
      split_ifs
      · rfl
      · rfl

theorem uncapped_append (first rest : List (ℚ × Call)) :
    limiter.Uncapped iter (first ++ rest)
      ↔ limiter.Uncapped iter first ∧ (limiter.after iter first).Uncapped iter rest := by
  induction first generalizing limiter with
  | nil => exact (iff_of_eq (true_and _)).symm
  | cons head first ih =>
      obtain ⟨now, call⟩ := head
      exact (and_congr_right fun _ => ih).trans and_assoc.symm

/-- Only `ip` may have a bucket, in a map that has room for it. -/
structure Alone (ip : IpAddr) (limiter : RateLimiter) : Prop where
  others : ∀ other, other ≠ ip → limiter.buckets.find other = none
  room : 0 < limiter.maxEntries

theorem Alone.hasRoom (halone : limiter.Alone ip) : limiter.HasRoom (.check ip) := by
  intro hfind
  have hnil : limiter.buckets.entries = [] := by
    apply List.eq_nil_iff_forall_not_mem.mpr
    intro x hx
    have hsome : limiter.buckets.find x.1 = some x.2 := Table.find_eq_some.mpr hx
    by_cases hx' : x.1 = ip
    · rw [hx', hfind] at hsome
      exact absurd hsome nofun
    · rw [halone.others x.1 hx'] at hsome
      exact absurd hsome nofun
  rw [hnil]
  exact halone.room

theorem maxEntries_check : (limiter.check iter ip now).1.maxEntries = limiter.maxEntries := by
  rcases Option.eq_none_or_eq_some (limiter.buckets.find ip) with hfind | ⟨bucket, hfind⟩
  · simp only [check, hfind]
  · simp only [check, hfind]

/-- A run of requests takes the tokens the bucket has, and all of them are allowed. -/
theorem checks_allowed (iter : Iter) {n : Nat} (hsound : limiter.Sound rpm burst now)
    (halone : limiter.Alone ip) (htokens : (n : ℚ) ≤ limiter.level ip now) :
    limiter.Uncapped iter (List.replicate n (now, .check ip)) ∧
      limiter.allowed iter ip (List.replicate n (now, .check ip)) = List.replicate n now ∧
      (limiter.after iter (List.replicate n (now, .check ip))).Sound rpm burst now ∧
      (limiter.after iter (List.replicate n (now, .check ip))).Alone ip := by
  induction n generalizing limiter with
  | zero => exact ⟨trivial, rfl, hsound, halone⟩
  | succ n ih =>
      have hroom := halone.hasRoom
      obtain ⟨hnext, hallowed, htaken, hothers⟩ := hsound.check iter hroom
      have hone : 1 ≤ limiter.level ip now := by
        have hleft : (0 : ℚ) ≤ n := Nat.cast_nonneg n
        push_cast at htokens
        linarith
      have halone' : (limiter.check iter ip now).1.Alone ip := by
        refine ⟨fun other hother => (hothers other hother).trans (halone.others other hother), ?_⟩
        rw [maxEntries_check]
        exact halone.room
      have hleft : (n : ℚ) ≤ (limiter.check iter ip now).1.level ip now := by
        rw [htaken, if_pos hone]
        push_cast at htokens
        linarith
      obtain ⟨huncapped, hrest, hsound', hafter⟩ := ih hnext halone' hleft
      have hcall : (limiter.call iter now (.check ip)).2 = some ip := by
        show (if (limiter.check iter ip now).2 then some ip else none) = some ip
        rw [hallowed, if_pos (decide_eq_true hone)]
      refine ⟨⟨hroom, huncapped⟩, ?_, hsound', hafter⟩
      rw [List.replicate_succ, allowed_cons, if_pos hcall, List.replicate_succ]
      exact congrArg (now :: ·) hrest

/-- Two bursts, the second as soon as the background task has dropped the bucket of the first. -/
def refilledBursts (burst : Nat) (ip : IpAddr) : List (ℚ × Call) :=
  List.replicate burst (1 / 2, .check ip) ++
    ((300001, .evictStale) :: List.replicate burst (300001, .check ip))

theorem refilledBursts_pairwise :
    ((refilledBursts burst ip).map Prod.fst).Pairwise (· ≤ ·) := by
  unfold refilledBursts
  rw [List.map_append, List.map_replicate, List.map_cons, List.map_replicate]
  rw [List.pairwise_append, List.pairwise_cons]
  have hequal : ∀ t : ℚ, (List.replicate burst t).Pairwise (· ≤ ·) :=
    fun t => List.pairwise_replicate.mpr (Or.inr le_rfl)
  refine ⟨hequal _, ⟨?_, hequal _⟩, ?_⟩
  · exact fun t ht => (List.eq_of_mem_replicate ht).ge
  · intro t ht t' ht'
    rw [List.eq_of_mem_replicate ht]
    rcases List.mem_cons.mp ht' with rfl | ht'
    · norm_num
    · rw [List.eq_of_mem_replicate ht']
      norm_num

/-- A bucket last used in the first millisecond is dropped as soon as it may be. -/
theorem Sound.dropped (hsound : limiter.Sound rpm burst (1 / 2)) (ip : IpAddr) :
    (limiter.evictStale staleAfterMs 300001).buckets.find ip = none := by
  rw [find_evictStale]
  rcases Option.eq_none_or_eq_some (limiter.buckets.find ip) with hfind | ⟨bucket, hfind⟩
  · rw [hfind, Option.filter_none]
  · have hbucket := hsound.buckets ip bucket hfind
    have hfloor : ⌊bucket.lastRefill⌋₊ = 0 :=
      Nat.floor_eq_zero.mpr (hbucket.past.trans_lt (by norm_num))
    have hcutoff : unixMs 300001 = 300001 := by
      unfold unixMs
      rw [Nat.floor_ofNat]
      decide
    rw [hfind, Option.filter_some, if_neg]
    rw [hbucket.seen, hcutoff, decide_eq_true_eq]
    unfold unixMs staleAfterMs
    rw [hfloor]
    decide

theorem refilledBursts_allowed (hrpm : 1 ≤ rpm) (hmax : rpm ≤ maxRpm) (hone : 1 ≤ burst) :
    (new rpm burst).Uncapped iter (refilledBursts burst ip) ∧
      (new rpm burst).allowed iter ip (refilledBursts burst ip)
        = List.replicate burst (1 / 2) ++ List.replicate burst 300001 := by
  have hnew : (new rpm burst).Sound rpm burst (1 / 2) := sound_new hrpm hmax hone
  have halone : (new rpm burst).Alone ip := ⟨fun _ _ => Table.find_empty, Nat.succ_pos _⟩
  have hfull : (burst : ℚ) ≤ (new rpm burst).level ip (1 / 2) := by
    rw [level_of_none Table.find_empty, hnew.capacity]
  obtain ⟨huncapped, hallowed, hsound, hafter⟩ := checks_allowed iter hnew halone hfull
  generalize hspent : (new rpm burst).after iter (List.replicate burst (1 / 2, .check ip)) = spent
    at hsound hafter
  have hdropped := hsound.dropped ip
  have hlate : spent.Sound rpm burst 300001 := hsound.later (by norm_num)
  have hsound' := hlate.evictStale staleAfterMs
  have halone' : (spent.evictStale staleAfterMs 300001).Alone ip := by
    refine ⟨fun other hother => ?_, hafter.room⟩
    rw [find_evictStale, hafter.others other hother, Option.filter_none]
  have hfull' : (burst : ℚ) ≤ (spent.evictStale staleAfterMs 300001).level ip 300001 := by
    rw [level_of_none hdropped, hsound'.capacity]
  obtain ⟨huncapped', hallowed', _⟩ := checks_allowed iter hsound' halone' hfull'
  unfold refilledBursts
  rw [uncapped_append, allowed_append, hspent, hallowed]
  exact ⟨⟨huncapped, trivial, huncapped'⟩, congrArg (_ ++ ·) hallowed'⟩

/-- In every interval of the run, the requests allowed from `ip` are no more than the burst and what
the rate gives back. -/
def RateBounded (iter : Iter) (ip : IpAddr) (rpm burst : Nat) (calls : List (ℚ × Call)) : Prop :=
  ∀ a b : ℚ, a ≤ b →
    ((new rpm burst).allowedBetween iter ip calls a b : ℚ) ≤ burst + rpm * (b - a) / 60000

theorem refilledBursts_not_bounded (iter : Iter) (ip : IpAddr) (hrpm : 1 ≤ rpm)
    (hmax : rpm ≤ maxRpm) (hburst : 5 * rpm < burst) :
    ¬ RateBounded iter ip rpm burst (refilledBursts burst ip) := by
  intro hbounded
  have hone : 1 ≤ burst := by omega
  have hbound := hbounded (1 / 2) 300001 (by norm_num)
  have hcount : (new rpm burst).allowedBetween iter ip (refilledBursts burst ip) (1 / 2) 300001
      = 2 * burst := by
    unfold allowedBetween
    rw [(refilledBursts_allowed hrpm hmax hone).2, List.countP_append, List.countP_replicate,
      List.countP_replicate, if_pos (by norm_num), if_pos (by norm_num), two_mul]
  rw [hcount] at hbound
  have hgap : (5 * rpm + 1 : ℚ) ≤ burst := by exact_mod_cast hburst
  have hrate : (rpm : ℚ) ≤ 60000 := by exact_mod_cast hmax
  push_cast at hbound
  linarith

/-- While the buckets it drops are full, the limiter allows no more than the burst and the rate. It
does so in every run exactly when the idle time fills a bucket. -/
theorem rate_bounded (iter : Iter) (ip : IpAddr) (rpm burst : Nat) (hrpm : 1 ≤ rpm)
    (hmax : rpm ≤ maxRpm) (hburst : 1 ≤ burst) :
    (∀ calls : List (ℚ × Call), (calls.map Prod.fst).Pairwise (· ≤ ·) →
        (new rpm burst).Uncapped iter calls →
        (new rpm burst).AlwaysDropsFull iter ip calls → RateBounded iter ip rpm burst calls) ∧
      ((∀ calls : List (ℚ × Call), (calls.map Prod.fst).Pairwise (· ≤ ·) →
          (new rpm burst).Uncapped iter calls → RateBounded iter ip rpm burst calls)
        ↔ burst ≤ 5 * rpm) := by
  have hfull : ∀ calls : List (ℚ × Call), (calls.map Prod.fst).Pairwise (· ≤ ·) →
      (new rpm burst).Uncapped iter calls →
      (new rpm burst).AlwaysDropsFull iter ip calls → RateBounded iter ip rpm burst calls := by
    intro calls horder hroom hfull a b hab
    obtain ⟨t, ht⟩ := Meter.InOrder.of_pairwise horder
    have hle := allowedBetween_le (sound_new hrpm hmax hburst) ht hroom hfull hab
    apply hle.trans_eq
    unfold refillRate
    ring
  refine ⟨hfull, fun hbounded => ?_, fun hidle calls horder hroom => ?_⟩
  · by_contra hnot
    apply refilledBursts_not_bounded iter ip hrpm hmax (not_le.mp hnot)
    exact hbounded _ refilledBursts_pairwise (refilledBursts_allowed hrpm hmax hburst).1
  · obtain ⟨t, ht⟩ := Meter.InOrder.of_pairwise horder
    exact hfull calls horder hroom (alwaysDropsFull (sound_new hrpm hmax hburst) hidle ht hroom)

/-- At one request per minute and a burst of one, the second request of a minute waits for its end. -/
theorem rate_bounded_one :
    let ip := IpAddr.v4 0x7f000001
    let calls := [(0, Call.check ip), (0, .check ip), (60000, .check ip), (400000, .evictStale),
      (400000, .check ip)]
    (new 1 1).allowed Table.entries ip calls = [0, 60000, 400000] ∧
      RateBounded Table.entries ip 1 1 calls := by
  have hroom : ∀ n : Nat, n < 2 → n < maxBuckets := fun n hn => hn.trans (by decide)
  refine ⟨by decide +kernel, ?_⟩
  refine (rate_bounded Table.entries (.v4 0x7f000001) 1 1 le_rfl (by decide) le_rfl).2.mpr
    (by decide) _ (by decide +kernel) ?_
  exact ⟨fun _ => hroom _ (by decide +kernel), fun _ => hroom _ (by decide +kernel),
    fun _ => hroom _ (by decide +kernel), trivial, fun _ => hroom _ (by decide +kernel), trivial⟩

/-- One request per minute with a burst of ten: two bursts of ten pass in five minutes and a second,
where the burst and the rate come to fifteen. -/
theorem rate_exceeded :
    ¬ ∀ calls : List (ℚ × Call), (calls.map Prod.fst).Pairwise (· ≤ ·) →
        (new 1 10).Uncapped Table.entries calls →
        RateBounded Table.entries (.v4 0x7f000001) 1 10 calls := by
  intro hbounded
  refine refilledBursts_not_bounded Table.entries (.v4 0x7f000001) le_rfl (by decide) (by decide)
    (hbounded _ refilledBursts_pairwise ?_)
  exact (refilledBursts_allowed le_rfl (by decide) (by decide)).1

end RateLimiter

end Gigastt.RateLimit
