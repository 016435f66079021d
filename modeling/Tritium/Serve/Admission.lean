import Tritium.Lib.Machine
import Mathlib.Algebra.Order.Floor.Div

/-!
# Admission of requests

A token bucket for each principal. Instants are nanoseconds since some origin, in whatever order the
callers have read the clock.
-/

namespace Tritium.Serve

def minuteNanos : ℕ := 60000000000

structure PrincipalRateLimit where
  requestsPerMinute : UInt32
  burst : UInt32

/-- One request costs `minuteNanos` units of credit, and every nanosecond that passes brings
`requestsPerMinute` of them. -/
structure Bucket where
  credit : ℕ
  last : ℕ
deriving DecidableEq, Repr

structure PrincipalLimiter where
  requestsPerMinute : ℕ
  capacity : ℕ
  buckets : List Bucket
deriving DecidableEq, Repr

inductive AdmissionDecision where
  | allow
  | reject (retryAfterSecs : ℕ)
deriving DecidableEq, Repr

def Bucket.check (requestsPerMinute capacity : ℕ) (bucket : Bucket) (now : ℕ) :
    Bucket × AdmissionDecision :=
  let elapsed := now - bucket.last
  let refill := min (elapsed * requestsPerMinute) (2 ^ 128 - 1)
  let credit := min (min (bucket.credit + refill) (2 ^ 128 - 1)) capacity
  if minuteNanos ≤ credit then
    (⟨credit - minuteNanos, now⟩, .allow)
  else
    let waitNanos := (minuteNanos - credit) ⌈/⌉ requestsPerMinute
    let waitSecs := max (waitNanos ⌈/⌉ 1000000000) 1
    (⟨credit, now⟩, .reject (min waitSecs (2 ^ 64 - 1)))

namespace PrincipalLimiter

def new (limit : PrincipalRateLimit) (principalCount now : ℕ) : Outcome String PrincipalLimiter :=
  if limit.requestsPerMinute = 0 ∨ limit.burst = 0 then
    .err "rate-limit requests_per_minute and burst must both be >= 1"
  else do
    let capacity ← okOr (checkedMul 128 limit.burst.toNat minuteNanos)
      "rate-limit burst is too large"
    return ⟨limit.requestsPerMinute.toNat, capacity, List.replicate principalCount ⟨capacity, now⟩⟩

def checkAt (limiter : PrincipalLimiter) (principal now : ℕ) :
    PrincipalLimiter × AdmissionDecision :=
  match limiter.buckets[principal]? with
  | none => (limiter, .reject 60)
  | some bucket =>
    let (bucket, decision) := bucket.check limiter.requestsPerMinute limiter.capacity now
    ({ limiter with buckets := limiter.buckets.set principal bucket }, decision)

/-- The calls, each a principal and an instant, with the decision on each. -/
def run : List (ℕ × ℕ) → PrincipalLimiter → List ((ℕ × ℕ) × AdmissionDecision)
  | [], _ => []
  | call :: calls, limiter =>
    (call, (limiter.checkAt call.1 call.2).2) :: run calls (limiter.checkAt call.1 call.2).1

end PrincipalLimiter

end Tritium.Serve
