import Tritium.Serve.Admission

/-!
# What the rate limit bounds

The decisions for a principal depend on its own calls alone. As long as these come in the order of
their instants, the credit spent in a window is at most the credit at its start and what the window
brings. A call with an earlier instant turns the bucket's clock back, and the same nanoseconds bring
credit once more.
-/

namespace Tritium.Serve

open List

variable {rate capacity start window now principal : ℕ} {bucket : Bucket} {nows : List ℕ}
  {limiter : PrincipalLimiter}

section Bucket

variable (rate capacity) (bucket : Bucket)

def Bucket.run : List ℕ → Bucket → List (ℕ × AdmissionDecision)
  | [], _ => []
  | now :: nows, bucket =>
    (now, (bucket.check rate capacity now).2) :: run nows (bucket.check rate capacity now).1

/-- The requests admitted at an instant of the window. -/
def admitted (start window : ℕ) (decisions : List (ℕ × AdmissionDecision)) : ℕ :=
  decisions.countP fun entry => start ≤ entry.1 ∧ entry.1 ≤ start + window ∧ entry.2 = .allow

/-- An admitted request is paid from the credit before and what the time since has brought. -/
theorem Bucket.check_credit_le (now : ℕ) :
    (bucket.check rate capacity now).1.last = now ∧ (bucket.check rate capacity now).1.credit +
        (if (bucket.check rate capacity now).2 = .allow then minuteNanos else 0) ≤
      min (bucket.credit + (now - bucket.last) * rate) capacity := by
  rw [Bucket.check]
  generalize hcredit : min (min (bucket.credit + _) _) _ = credit
  have hle : credit ≤ min (bucket.credit + (now - bucket.last) * rate) capacity := by omega
  by_cases henough : minuteNanos ≤ credit
  · simp only [if_pos henough, if_true]
    exact ⟨trivial, by omega⟩
  · simp only [if_neg henough, reduceCtorEq, if_false]
    exact ⟨trivial, hle⟩

theorem Bucket.admitted_run_cons (now : ℕ) (nows : List ℕ) :
    admitted start window (bucket.run rate capacity (now :: nows)) =
      admitted start window ((bucket.check rate capacity now).1.run rate capacity nows) +
        if start ≤ now ∧ now ≤ start + window ∧ (bucket.check rate capacity now).2 = .allow then 1
        else 0 := by
  simp [Bucket.run, admitted, countP_cons]

/-- Nothing is admitted in the window by calls behind it. -/
theorem Bucket.admitted_of_late (hsorted : (now :: nows).Pairwise (· ≤ ·))
    (hlate : start + window < now) :
    admitted start window (bucket.run rate capacity (now :: nows)) = 0 := by
  induction nows generalizing bucket now with
  | nil => rw [admitted_run_cons, if_neg (by omega)]; rfl
  | cons later nows ih =>
    have hle := (pairwise_cons.mp hsorted).1 later mem_cons_self
    rw [admitted_run_cons, if_neg (by omega), ih _ hsorted.of_cons (by omega)]

/-- One call in the window, given what the later ones take. -/
theorem Bucket.admitted_cons_le (hstart : start ≤ now) (hstop : now ≤ start + window)
    (hrest : admitted start window ((bucket.check rate capacity now).1.run rate capacity nows) *
      minuteNanos ≤ (bucket.check rate capacity now).1.credit + (start + window - now) * rate) :
    admitted start window (bucket.run rate capacity (now :: nows)) * minuteNanos ≤
      min (bucket.credit + (now - bucket.last) * rate) capacity + (start + window - now) * rate := by
  have hcredit := (bucket.check_credit_le rate capacity now).2
  rw [admitted_run_cons, add_mul, ite_mul, one_mul, zero_mul]
  simp only [hstart, hstop, true_and]
  omega

theorem Bucket.admitted_le_of_start_le (window : ℕ)
    (hsorted : (bucket.last :: nows).Pairwise (· ≤ ·))
    (hstart : start ≤ bucket.last) :
    admitted start window (bucket.run rate capacity nows) * minuteNanos ≤
      bucket.credit + (start + window - bucket.last) * rate := by
  induction nows generalizing bucket with
  | nil => simp [Bucket.run, admitted]
  | cons now nows ih =>
    obtain ⟨hlast, hsorted⟩ := pairwise_cons.mp hsorted
    have hnow := hlast now mem_cons_self
    obtain hlate | hstop := lt_or_ge (start + window) now
    · rw [bucket.admitted_of_late rate capacity hsorted hlate]
      omega
    · have hafter := (bucket.check_credit_le rate capacity now).1
      have hrest := ih (bucket.check rate capacity now).1 (by rwa [hafter]) (by omega)
      rw [hafter] at hrest
      have hle := bucket.admitted_cons_le rate capacity (hstart.trans hnow) hstop hrest
      have htime : (now - bucket.last) * rate + (start + window - now) * rate =
          (start + window - bucket.last) * rate := by
        rw [← add_mul]
        congr 1
        omega
      omega

theorem Bucket.admitted_le (start window : ℕ) (hsorted : nows.Pairwise (· ≤ ·)) :
    admitted start window (bucket.run rate capacity nows) * minuteNanos ≤
      capacity + window * rate := by
  induction nows generalizing bucket with
  | nil => simp [Bucket.run, admitted]
  | cons now nows ih =>
    have hafter := (bucket.check_credit_le rate capacity now).1
    obtain _ | hstart := lt_or_ge now start
    · rw [admitted_run_cons, if_neg (by omega)]
      exact ih _ hsorted.of_cons
    obtain hlate | hstop := lt_or_ge (start + window) now
    · rw [bucket.admitted_of_late rate capacity hsorted hlate]
      omega
    · have hrest := (bucket.check rate capacity now).1.admitted_le_of_start_le rate capacity
        window (by rwa [hafter]) (hafter ▸ hstart)
      rw [hafter] at hrest
      have hle := bucket.admitted_cons_le rate capacity hstart hstop hrest
      have htime : (start + window - now) * rate ≤ window * rate :=
        Nat.mul_le_mul_right rate (by omega)
      omega

/-- The wait is the least number of seconds that brings what is missing. -/
theorem Bucket.check_of_reject {secs : ℕ} (hrate : 0 < rate) (hroom : minuteNanos ≤ capacity)
    (hcapacity : capacity < 2 ^ 128)
    (hreject : (bucket.check rate capacity now).2 = .reject secs) :
    ∃ least, secs = max least 1 ∧ ∀ wait, ((bucket.check rate capacity now).1.check rate capacity
      (now + wait * 1000000000)).2 = .allow ↔ least ≤ wait := by
  rw [Bucket.check] at hreject ⊢
  generalize hcredit : min (min (bucket.credit + _) _) _ = credit at hreject ⊢
  dsimp only at hreject ⊢
  split_ifs at hreject ⊢ with henough
  have hleast : ∀ wait, (minuteNanos - credit) ⌈/⌉ rate ⌈/⌉ 1000000000 ≤ wait ↔
      minuteNanos - credit ≤ wait * 1000000000 * rate := by
    intro wait
    rw [ceilDiv_le_iff_le_mul (by decide), ceilDiv_le_iff_le_mul hrate, mul_comm rate,
      mul_comm wait]
  have hminute : minuteNanos - credit ≤ 60 * 1000000000 * rate :=
    (Nat.sub_le _ _).trans (Nat.le_mul_of_pos_right minuteNanos hrate)
  have hbound := (hleast 60).mpr hminute
  refine ⟨(minuteNanos - credit) ⌈/⌉ rate ⌈/⌉ 1000000000, ?_, fun wait => ?_⟩
  · have hsecs := AdmissionDecision.reject.inj hreject
    omega
  · rw [hleast, Bucket.check]
    dsimp only
    rw [Nat.add_sub_cancel_left]
    generalize wait * 1000000000 * rate = brought
    split_ifs with hallow
    · exact ⟨fun _ => by omega, fun _ => rfl⟩
    · exact ⟨nofun, fun _ => by omega⟩

/-- The last call, and the one behind it. -/
theorem Bucket.exists_of_getLast? {decision : AdmissionDecision}
    (hlast : (bucket.run rate capacity nows).getLast? = some (now, decision)) :
    ∃ before : Bucket, (before.check rate capacity now).2 = decision ∧ ∀ later,
      (bucket.run rate capacity (nows ++ [later])).getLast? =
        some (later, ((before.check rate capacity now).1.check rate capacity later).2) := by
  induction nows generalizing bucket with
  | nil => cases hlast
  | cons first nows ih =>
    cases nows with
    | nil =>
      cases hlast
      exact ⟨bucket, rfl, fun _ => rfl⟩
    | cons second nows =>
      rw [Bucket.run, Bucket.run, getLast?_cons_cons] at hlast
      obtain ⟨before, hdecision, hlater⟩ := ih (bucket.check rate capacity first).1 hlast
      refine ⟨before, hdecision, fun later => ?_⟩
      rw [← hlater later]
      exact getLast?_cons_cons

end Bucket

namespace PrincipalLimiter

/-- The instants of a principal's calls, with the decisions on them. -/
def decisionsOf (principal : ℕ) (entries : List ((ℕ × ℕ) × AdmissionDecision)) :
    List (ℕ × AdmissionDecision) :=
  (entries.filter (·.1.1 = principal)).map fun entry => (entry.1.2, entry.2)

def instantsOf (principal : ℕ) (calls : List (ℕ × ℕ)) : List ℕ :=
  (calls.filter (·.1 = principal)).map Prod.snd

/-- A principal is decided on by its bucket alone. -/
theorem decisionsOf_run (principal : ℕ) (calls : List (ℕ × ℕ)) (limiter : PrincipalLimiter) :
    decisionsOf principal (limiter.run calls) = match limiter.buckets[principal]? with
      | none => (instantsOf principal calls).map (·, .reject 60)
      | some bucket =>
        bucket.run limiter.requestsPerMinute limiter.capacity (instantsOf principal calls) := by
  induction calls generalizing limiter with
  | nil => cases limiter.buckets[principal]? <;> rfl
  | cons call calls ih =>
    have hrest := ih (limiter.checkAt call.1 call.2).1
    by_cases hcaller : call.1 = principal
    · rw [run, decisionsOf, filter_cons_of_pos (by simpa using hcaller), instantsOf,
        filter_cons_of_pos (by simpa using hcaller)]
      change _ :: decisionsOf principal _ = _
      rw [hrest, hcaller, checkAt]
      cases hbucket : limiter.buckets[principal]? with
      | none => simp [hbucket, instantsOf]
      | some bucket =>
        have hlt := (List.getElem?_eq_some_iff.mp hbucket).1
        simp [getElem?_set_self hlt, Bucket.run, instantsOf]
    · rw [run, decisionsOf, filter_cons_of_neg (by simpa using hcaller), instantsOf,
        filter_cons_of_neg (by simpa using hcaller)]
      change decisionsOf principal _ = _
      rw [hrest, checkAt]
      cases limiter.buckets[call.1]? with
      | none => rfl
      | some bucket => simp only [getElem?_set_ne hcaller]; rfl

theorem new_eq_ok {limit : PrincipalRateLimit} {principalCount created : ℕ}
    (hnew : new limit principalCount created = .ok limiter) :
    limiter.requestsPerMinute = limit.requestsPerMinute.toNat ∧
      limiter.capacity = limit.burst.toNat * minuteNanos ∧ 0 < limiter.requestsPerMinute ∧
      minuteNanos ≤ limiter.capacity ∧ limiter.capacity < 2 ^ 128 ∧
      limiter.buckets = replicate principalCount ⟨limiter.capacity, created⟩ := by
  obtain ⟨hpositive, hnew⟩ := refuse_eq_ok hnew
  obtain ⟨capacity, hcapacity, hnew⟩ := bind_eq_ok hnew
  obtain ⟨hfits, rfl⟩ := checkedMul_eq_ok hcapacity
  obtain rfl := ok.inj hnew
  rw [not_or, ← UInt32.toNat_inj, ← UInt32.toNat_inj] at hpositive
  exact ⟨rfl, rfl, Nat.pos_of_ne_zero hpositive.1,
    Nat.le_mul_of_pos_left _ (Nat.pos_of_ne_zero hpositive.2), hfits, rfl⟩

/-- **The rate limit.** No principal's decisions depend on the calls of another one, and one whose
calls come in the order of their instants is admitted in any window at most its burst and what the
window brings. -/
theorem limiter_bounds {limit : PrincipalRateLimit} {principalCount created : ℕ}
    (hnew : new limit principalCount created = .ok limiter) (calls : List (ℕ × ℕ))
    (principal : ℕ) :
    decisionsOf principal (limiter.run calls) =
      decisionsOf principal (limiter.run (calls.filter (·.1 = principal))) ∧
    ((instantsOf principal calls).Pairwise (· ≤ ·) → ∀ start window,
      admitted start window (decisionsOf principal (limiter.run calls)) ≤
        limit.burst.toNat + limit.requestsPerMinute.toNat * window / minuteNanos) := by
  obtain ⟨hrate, hcapacity, -⟩ := new_eq_ok hnew
  constructor
  · simp [decisionsOf_run, instantsOf]
  · intro hsorted start window
    rw [decisionsOf_run]
    cases hbucket : limiter.buckets[principal]? with
    | none => simp [admitted, countP_map, Function.comp_def]
    | some bucket =>
      have hpos : 0 < minuteNanos := by decide
      have hle := bucket.admitted_le limiter.requestsPerMinute limiter.capacity start window hsorted
      rw [add_comm, ← Nat.add_mul_div_right _ _ hpos, Nat.le_div_iff_mul_le hpos, ← hrate,
        ← hcapacity, add_comm, mul_comm limiter.requestsPerMinute]
      exact hle

/-- Sixty requests a minute, one at a time. -/
def secondLimiter : PrincipalLimiter := ⟨60, minuteNanos, [⟨minuteNanos, 0⟩]⟩

theorem limiter_bounds_sample :
    new ⟨60, 1⟩ 1 0 = .ok secondLimiter ∧ admitted 0 500000000
      (decisionsOf 0 (secondLimiter.run [(0, 0), (1, 7), (0, 500000000)])) ≤ 1 := by
  have hnew : new ⟨60, 1⟩ 1 0 = .ok secondLimiter := by decide +kernel
  exact ⟨hnew, (limiter_bounds hnew [(0, 0), (1, 7), (0, 500000000)] 0).2 (by decide) 0 500000000⟩

/-- Every return to the earlier of two instants lets the second between them bring the credit of a
request again. -/
theorem limiter_exceeds_bound :
    new ⟨60, 1⟩ 1 0 = .ok secondLimiter ∧ ¬ admitted 0 1000000000 (decisionsOf 0
        (secondLimiter.run [(0, 0), (0, 1000000000), (0, 0), (0, 1000000000)])) ≤
      1 + 60 * 1000000000 / minuteNanos := by
  decide +kernel

/-- **The wait is exact.** A principal that is told to wait, and makes no other call, is admitted
after so many seconds, and not a second earlier unless it is told to wait for one. -/
theorem retryAfter_exact {limit : PrincipalRateLimit} {principalCount created secs : ℕ}
    (hnew : new limit principalCount created = .ok limiter) (hprincipal : principal < principalCount)
    {calls between : List (ℕ × ℕ)} (hbetween : ∀ call ∈ between, call.1 ≠ principal)
    (hreject : (decisionsOf principal (limiter.run calls)).getLast? = some (now, .reject secs)) :
    (decisionsOf principal (limiter.run
        (calls ++ between ++ [(principal, now + secs * 1000000000)]))).getLast? =
      some (now + secs * 1000000000, .allow) ∧
    (1 < secs → ∃ again, (decisionsOf principal (limiter.run
        (calls ++ between ++ [(principal, now + (secs - 1) * 1000000000)]))).getLast? =
      some (now + (secs - 1) * 1000000000, .reject again)) := by
  obtain ⟨-, -, hrate, hroom, hfits, hbuckets⟩ := new_eq_ok hnew
  have hbucket : limiter.buckets[principal]? = some ⟨limiter.capacity, created⟩ := by
    rw [hbuckets, getElem?_replicate_of_lt hprincipal]
  have hinstants : ∀ later, instantsOf principal (calls ++ between ++ [(principal, later)]) =
      instantsOf principal calls ++ [later] := by
    intro later
    have hnone : between.filter (·.1 = principal) = [] :=
      filter_eq_nil_iff.mpr fun call hcall => by simpa using hbetween call hcall
    simp [instantsOf, hnone]
  simp only [decisionsOf_run, hbucket, hinstants] at hreject ⊢
  obtain ⟨before, hdecision, hlater⟩ := Bucket.exists_of_getLast? _ _ _ hreject
  obtain ⟨least, hsecs, hallow⟩ := before.check_of_reject _ _ hrate hroom hfits hdecision
  rw [hlater, hlater, (hallow secs).mpr (by omega)]
  refine ⟨rfl, fun hmore => ?_⟩
  cases hagain : ((before.check _ _ now).1.check _ _ (now + (secs - 1) * 1000000000)).2 with
  | allow => exact absurd ((hallow _).mp hagain) (by omega)
  | reject again => exact ⟨again, rfl⟩

/-- At thirty requests a minute the second one is told to wait for two seconds. -/
theorem retryAfter_exact_sample :
    ∃ limiter again, new ⟨30, 1⟩ 1 0 = .ok limiter ∧
      (decisionsOf 0 (limiter.run [(0, 0), (0, 5), (7, 6), (0, 2000000005)])).getLast? =
        some (2000000005, .allow) ∧
      (decisionsOf 0 (limiter.run [(0, 0), (0, 5), (7, 6), (0, 1000000005)])).getLast? =
        some (1000000005, .reject again) := by
  let limiter : PrincipalLimiter := ⟨30, minuteNanos, [⟨minuteNanos, 0⟩]⟩
  have hnew : new ⟨30, 1⟩ 1 0 = .ok limiter := by decide +kernel
  have hbetween : ∀ call ∈ [(7, 6)], call.1 ≠ 0 := by decide
  have hreject : (decisionsOf 0 (limiter.run [(0, 0), (0, 5)])).getLast? = some (5, .reject 2) := by
    decide +kernel
  obtain ⟨hallow, hearlier⟩ := retryAfter_exact hnew one_pos hbetween hreject
  obtain ⟨again, hagain⟩ := hearlier (by decide)
  exact ⟨limiter, again, hnew, hallow, hagain⟩

end PrincipalLimiter

end Tritium.Serve
