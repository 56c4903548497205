import Gigastt.Table
import Mathlib.Algebra.Order.Field.Rat
import Mathlib.Algebra.Order.Floor.Ring
import Mathlib.Data.List.MinMax
import Mathlib.Data.Rat.Floor

/-!
The per-IP token-bucket rate limiter. Times are milliseconds since the epoch as exact rationals, with
the wall clock and the monotonic clock in step.
-/

namespace Gigastt

inductive IpAddr where
  | v4 (addr : BitVec 32)
  | v6 (addr : BitVec 128)
  deriving DecidableEq

namespace RateLimit

def maxRpm : Nat := 60000

def maxBuckets : Nat := 100000

/-- Requests per minute. -/
structure Rpm where
  get : Nat
  pos : 0 < get
  le_max : get ≤ maxRpm

def Rpm.new (rpm : Nat) : Except String Rpm :=
  if hzero : rpm = 0 then .error "rpm must be > 0"
  else if hmax : maxRpm < rpm then .error s!"rpm must be <= {maxRpm}"
  else .ok ⟨rpm, Nat.pos_of_ne_zero hzero, Nat.le_of_not_lt hmax⟩

/-- The most tokens a bucket may hold. -/
structure Burst where
  get : Nat
  pos : 1 ≤ get

def Burst.new (burst : Nat) : Except String Burst :=
  if hburst : burst < 1 then .error "burst must be >= 1" else .ok ⟨burst, Nat.le_of_not_lt hburst⟩

structure TokenBucket where
  capacity : ℚ
  refillPerMs : ℚ
  tokens : ℚ
  lastRefill : ℚ
  lastSeenMs : Nat

namespace TokenBucket

def new (capacity : Nat) (refillPerMs : ℚ) (now : ℚ) (nowMs : Nat) : TokenBucket where
  capacity := capacity
  refillPerMs := refillPerMs
  tokens := capacity
  lastRefill := now
  lastSeenMs := nowMs

/-- The refill of `try_consume`, which saturates a clock that went back. -/
def refill (bucket : TokenBucket) (now : ℚ) : TokenBucket :=
  let elapsedMs := max (now - bucket.lastRefill) 0
  if 0 < elapsedMs then
    { bucket with
      tokens := min (bucket.tokens + elapsedMs * bucket.refillPerMs) bucket.capacity
      lastRefill := now }
  else bucket

def tryConsume (bucket : TokenBucket) (now : ℚ) (nowMs : Nat) : TokenBucket × Bool :=
  let bucket := { bucket.refill now with lastSeenMs := nowMs }
  if 1 ≤ bucket.tokens then ({ bucket with tokens := bucket.tokens - 1 }, true) else (bucket, false)

end TokenBucket

abbrev Buckets := Table IpAddr TokenBucket

structure RateLimiter where
  buckets : Buckets
  capacity : Burst
  refillPerMs : ℚ
  effectiveRpm : Rpm
  maxEntries : Nat

/-- The order in which the hash map lists its entries, which the standard library leaves open. -/
abbrev Iter := Buckets → List (IpAddr × TokenBucket)

/-- `unix_ms`: whole milliseconds since the epoch, cut to 64 bits. -/
def unixMs (now : ℚ) : Nat := ⌊now⌋₊ % 2 ^ 64

namespace RateLimiter

def new (rpm burst : Nat) : RateLimiter where
  buckets := .empty
  capacity := ⟨max burst 1, le_max_right burst 1⟩
  refillPerMs := (min (max rpm 1) maxRpm : Nat) / 60000
  effectiveRpm := ⟨min (max rpm 1) maxRpm, by simp [maxRpm], min_le_right _ _⟩
  maxEntries := maxBuckets

def intervalMs (limiter : RateLimiter) : Nat := max (60000 / max limiter.effectiveRpm.get 1) 1

def evictOne (iter : Iter) (buckets : Buckets) : Buckets :=
  let oldest := ((iter buckets).take 100).argmin fun x => x.2.lastSeenMs
  match oldest with
  | some (key, _) => buckets.filter fun ip _ => ip ≠ key
  | none => buckets

def check (iter : Iter) (limiter : RateLimiter) (ip : IpAddr) (now : ℚ) : RateLimiter × Bool :=
  let nowMs := unixMs now
  match limiter.buckets.find ip with
  | some bucket =>
      let (bucket, allowed) := bucket.tryConsume now nowMs
      ({ limiter with buckets := limiter.buckets.insert ip bucket }, allowed)
  | none =>
      let buckets :=
        if limiter.maxEntries ≤ limiter.buckets.entries.length then evictOne iter limiter.buckets
        else limiter.buckets
      let (bucket, allowed) :=
        (TokenBucket.new limiter.capacity.get limiter.refillPerMs now nowMs).tryConsume now nowMs
      ({ limiter with buckets := buckets.insert ip bucket }, allowed)

def evictStale (limiter : RateLimiter) (olderThanMs : Nat) (now : ℚ) : RateLimiter :=
  let cutoff := unixMs now - olderThanMs % 2 ^ 64
  { limiter with buckets := limiter.buckets.filter fun _ bucket => cutoff ≤ bucket.lastSeenMs }

end RateLimiter

/-- The idle time after which the background task drops a bucket. -/
def staleAfterMs : Nat := 300000

/-- What is done to the limiter: a request is checked, or the background task evicts. -/
inductive Call where
  | check (ip : IpAddr)
  | evictStale

/-- One call at a time, and the address it allowed, if any. -/
def RateLimiter.call (iter : Iter) (limiter : RateLimiter) (now : ℚ) :
    Call → RateLimiter × Option IpAddr
  | .check ip =>
      let (limiter, allowed) := limiter.check iter ip now
      (limiter, if allowed then some ip else none)
  | .evictStale => (limiter.evictStale staleAfterMs now, none)

/-- The times at which requests from `ip` were allowed. -/
def RateLimiter.allowed (iter : Iter) (ip : IpAddr) (limiter : RateLimiter) : List (ℚ × Call) → List ℚ
  | [] => []
  | (now, call) :: rest =>
      let (limiter, allowed) := limiter.call iter now call
      if allowed = some ip then now :: limiter.allowed iter ip rest else limiter.allowed iter ip rest

/-- How many requests from `ip` were allowed between two times. -/
def RateLimiter.allowedBetween (iter : Iter) (ip : IpAddr) (limiter : RateLimiter)
    (calls : List (ℚ × Call)) (a b : ℚ) : Nat :=
  (limiter.allowed iter ip calls).countP fun now => a ≤ now ∧ now ≤ b

/-- The call does not have to add a bucket to a full map. -/
def RateLimiter.HasRoom (limiter : RateLimiter) : Call → Prop
  | .check ip =>
      limiter.buckets.find ip = none → limiter.buckets.entries.length < limiter.maxEntries
  | .evictStale => True

/-- No call of the run finds the map full. -/
def RateLimiter.Uncapped (iter : Iter) (limiter : RateLimiter) : List (ℚ × Call) → Prop
  | [] => True
  | (now, call) :: rest =>
      limiter.HasRoom call ∧ (limiter.call iter now call).1.Uncapped iter rest

end RateLimit

end Gigastt
