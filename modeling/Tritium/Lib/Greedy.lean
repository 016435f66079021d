import Mathlib.Algebra.BigOperators.Ring.Finset
import Mathlib.Algebra.Order.BigOperators.Group.Finset
import Mathlib.Tactic.Linarith
import Mathlib.Tactic.Ring

/-!
# Greedy allocation

Units are handed out one at a time, each to the member that offers most for its next one, the first
such member on ties. Where what a member offers falls from unit to unit, the offers taken are all
above a level and those left all below it, and that makes the allocation best among those that hand
out no more units.
-/

namespace Tritium.Greedy

variable {ι κ : Type} [LinearOrder ι] [LinearOrder κ]

/-- What a member offers for its next unit, if it may have one. -/
abbrev Offers (ι κ : Type) : Type := (ι → ℕ) → ι → Option κ

variable {offers : Offers ι κ} {counts final : ι → ℕ} {i : ι}

def raise (counts : ι → ℕ) (i : ι) : ι → ℕ := Function.update counts i (counts i + 1)

theorem raise_self (counts : ι → ℕ) (i : ι) : raise counts i i = counts i + 1 :=
  Function.update_self ..

theorem raise_of_ne {j : ι} (hne : j ≠ i) : raise counts i j = counts j :=
  Function.update_of_ne hne ..

structure IsBest (offers : Offers ι κ) (counts : ι → ℕ) (i : ι) (gain : κ) : Prop where
  offer_eq : offers counts i = some gain
  best : ∀ j other, offers counts j = some other → other < gain ∨ other = gain ∧ i ≤ j

inductive Run (offers : Offers ι κ) : (ι → ℕ) → (ι → ℕ) → Prop
  | stop {counts : ι → ℕ} (hnone : ∀ i, offers counts i = none) : Run offers counts counts
  | step {counts final : ι → ℕ} {i : ι} {gain : κ} (hbest : IsBest offers counts i gain)
      (hrun : Run offers (raise counts i) final) : Run offers counts final

theorem IsBest.unique {j : ι} {gain gain' : κ} (hi : IsBest offers counts i gain)
    (hj : IsBest offers counts j gain') : i = j := by
  obtain hlt | ⟨heq, hle⟩ := hi.best j gain' hj.offer_eq
  · obtain hgt | ⟨heq, _⟩ := hj.best i gain hi.offer_eq
    · exact absurd hlt hgt.asymm
    · exact absurd heq hlt.ne'
  · obtain hgt | ⟨_, hge⟩ := hj.best i gain hi.offer_eq
    · exact absurd heq.symm hgt.ne
    · exact le_antisymm hle hge

theorem Run.unique {final' : ι → ℕ} (hrun : Run offers counts final)
    (hrun' : Run offers counts final') : final = final' := by
  induction hrun with
  | stop hnone =>
    cases hrun' with
    | stop _ => rfl
    | step hbest _ => exact absurd hbest.offer_eq (by simp [hnone])
  | step hbest _ ih =>
    cases hrun' with
    | stop hnone => exact absurd hbest.offer_eq (by simp [hnone])
    | step hbest' hrun' => exact ih (hbest.unique hbest' ▸ hrun')

/-- What holds at the start and is kept by every step holds at the end, where nothing is offered. -/
theorem Run.invariant (holds : (ι → ℕ) → Prop) (hrun : Run offers counts final)
    (hstep : ∀ counts i gain, holds counts → IsBest offers counts i gain → holds (raise counts i))
    (hstart : holds counts) : holds final ∧ ∀ i, offers final i = none := by
  induction hrun with
  | stop hnone => exact ⟨hstart, hnone⟩
  | step hbest _ ih => exact ih (hstep _ _ _ hstart hbest)

variable {K : Type} [CommRing K]

theorem sum_mul_raise [Fintype ι] (cost : ι → K) (counts : ι → ℕ) (i : ι) :
    ∑ j, cost j * (raise counts i j : K) = ∑ j, cost j * (counts j : K) + cost i := by
  have hsplit : ∀ j, cost j * (raise counts i j : K) =
      cost j * counts j + if j = i then cost i else 0 := by
    intro j
    by_cases hj : j = i
    · rw [hj, raise_self, if_pos rfl]
      push_cast
      ring
    · rw [raise_of_ne hj, if_neg hj, add_zero]
  rw [Finset.sum_congr rfl fun j _ => hsplit j, Finset.sum_add_distrib, Finset.sum_ite_eq',
    if_pos (Finset.mem_univ i)]

section Level

variable [LinearOrder K] {loss : ι → ℕ → K} {low high : ℕ} {level : K}

/-- What the next unit saves a member. -/
def saving (loss : ι → ℕ → K) (i : ι) (t : ℕ) : K := loss i t - loss i (t + 1)

/-- Every unit given out saves at least the level, and no next one saves more. -/
structure Level (loss : ι → ℕ → K) (low high : ℕ) (counts : ι → ℕ) (level : K) : Prop where
  taken : ∀ i t, low ≤ t → t < counts i → level ≤ saving loss i t
  left : ∀ i, counts i < high → saving loss i (counts i) ≤ level

variable (hfalling : ∀ i t, saving loss i (t + 1) ≤ saving loss i t)
  (hlevel : Level loss low high counts level)

include hfalling hlevel

theorem Level.raise (hroom : counts i < high)
    (hbest : ∀ j, counts j < high → saving loss j (counts j) ≤ saving loss i (counts i)) :
    Level loss low high (raise counts i) (saving loss i (counts i)) := by
  have hnext := hlevel.left i hroom
  refine ⟨fun j t hlow ht => ?_, fun j hj => ?_⟩
  · by_cases hji : j = i
    · subst hji
      rw [raise_self, Nat.lt_succ_iff_lt_or_eq] at ht
      obtain ht | rfl := ht
      · exact hnext.trans (hlevel.taken j t hlow ht)
      · exact le_rfl
    · rw [raise_of_ne hji] at ht
      exact hnext.trans (hlevel.taken j t hlow ht)
  · by_cases hji : j = i
    · rw [hji, raise_self]
      exact hfalling i (counts i)
    · rw [raise_of_ne hji] at hj ⊢
      exact hbest j hj

omit [LinearOrder ι]

variable [IsStrictOrderedRing K]

/-- Moving a member away from its count costs at least the level for each unit. -/
theorem Level.loss_add_le {t : ℕ} (hlow : low ≤ t) (hhigh : t ≤ high) :
    loss i (counts i) + level * counts i ≤ loss i t + level * t := by
  obtain hle | hle := le_total t (counts i)
  · obtain ⟨more, hmore⟩ := Nat.exists_eq_add_of_le hle
    have hcost : ∀ units ≤ more,
        loss i (t + units) + level * (t + units : ℕ) ≤ loss i t + level * t := by
      intro units hunits
      induction units with
      | zero => exact le_rfl
      | succ units ih =>
        have hstep := hlevel.taken i (t + units) (by omega) (by omega)
        have hprevious := ih (by omega)
        rw [saving] at hstep
        rw [← add_assoc]
        push_cast at hprevious ⊢
        linarith
    rw [hmore]
    exact hcost more le_rfl
  · clear hlow
    obtain ⟨more, rfl⟩ := Nat.exists_eq_add_of_le hle
    have hfall : ∀ units, saving loss i (counts i + units) ≤ saving loss i (counts i) := by
      intro units
      induction units with
      | zero => exact le_rfl
      | succ units ih => exact (hfalling i (counts i + units)).trans ih
    induction more with
    | zero => exact le_rfl
    | succ more ih =>
      have hstep := (hfall more).trans (hlevel.left i (by omega))
      have hprevious := ih (by omega) (by omega)
      rw [saving] at hstep
      rw [← add_assoc]
      push_cast at hprevious ⊢
      linarith

/-- **Greedy is best** among the allocations that hand out no more units, or where the level is
zero. -/
theorem Level.sum_le [Fintype ι] {other : ι → ℕ} (hbounds : ∀ i, low ≤ other i ∧ other i ≤ high)
    (hunits : level * ∑ i, (other i : K) ≤ level * ∑ i, (counts i : K)) :
    ∑ i, loss i (counts i) ≤ ∑ i, loss i (other i) := by
  have hsum : ∑ i, (loss i (counts i) + level * counts i) ≤
      ∑ i, (loss i (other i) + level * other i) :=
    Finset.sum_le_sum fun i _ => hlevel.loss_add_le hfalling (hbounds i).1 (hbounds i).2
  rw [Finset.sum_add_distrib, Finset.sum_add_distrib, ← Finset.mul_sum, ← Finset.mul_sum] at hsum
  linarith

end Level

end Tritium.Greedy
