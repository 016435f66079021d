import Tritium.Allocator.WaterFilling
import Tritium.Lib.Greedy
import Mathlib.Algebra.BigOperators.Fin

/-!
# The heap fills as the scan does

The heap holds a candidate of every group that can still be given a plane, and of some that cannot
be afforded any more. Its greatest affordable candidate is the one the scan finds, so both are runs
of one greedy rule, and what is proved of the rule holds for both.
-/

namespace Tritium.WaterFilling

open List
open Greedy

namespace GroupCurve

variable {group : GroupCurve} {planes : ℕ}

theorem curveAt_congr {other : GroupCurve} (hcurve : group.curve = other.curve) (planes : ℕ) :
    group.curveAt planes = other.curveAt planes := by
  obtain ⟨curve, _, _, _⟩ := group
  obtain ⟨curve', _, _, _⟩ := other
  obtain rfl : curve = curve' := hcurve
  rfl

theorem curveAt_succ_of_le (hle : group.curve.length ≤ planes + 1) :
    group.curveAt (planes + 1) = group.curveAt planes := by
  rw [curveAt]
  congr 2
  omega

/-- The curve falls, by less from plane to plane. -/
structure Convex (group : GroupCurve) : Prop where
  nonincreasing : ∀ t, t + 1 < group.curve.length → group.curveAt (t + 1) ≤ group.curveAt t
  convex : ∀ t, t + 2 < group.curve.length →
    group.curveAt (t + 1) - group.curveAt (t + 2) ≤ group.curveAt t - group.curveAt (t + 1)

theorem Convex.drop_nonneg (hgroup : group.Convex) (planes : ℕ) :
    0 ≤ group.curveAt planes - group.curveAt (planes + 1) := by
  rw [sub_nonneg]
  obtain hlt | hle := lt_or_ge (planes + 1) group.curve.length
  · exact hgroup.nonincreasing planes hlt
  · exact (curveAt_succ_of_le hle).le

theorem Convex.drop_le (hgroup : group.Convex) (planes : ℕ) :
    group.curveAt (planes + 1) - group.curveAt (planes + 2) ≤
      group.curveAt planes - group.curveAt (planes + 1) := by
  obtain hlt | hle := lt_or_ge (planes + 2) group.curve.length
  · exact hgroup.convex planes hlt
  · rw [curveAt_succ_of_le hle, sub_self]
    exact hgroup.drop_nonneg planes

end GroupCurve

namespace Task

variable {task : Task} {t final : task.Counts} {g : Fin task.groups.length} {gain : ℚ}
  {c : Candidate task.groups.length} {heap : List (Candidate task.groups.length)}

theorem nextGain_eq_some_iff {planes : ℕ} :
    task.nextGain g planes = some gain ↔ planes < task.cfg.tMax ∧
      (task.group g).curveAt (planes + 1) < (task.group g).curveAt planes ∧
      (task.group g).sensitivity * ((task.group g).curveAt planes -
        (task.group g).curveAt (planes + 1)) / task.bitsPerPlane g = gain := by
  rw [nextGain]
  dsimp only
  split_ifs with hmax hdrop
  · exact iff_of_false nofun fun h => absurd h.1 (not_lt.mpr hmax)
  · exact iff_of_false nofun fun h => absurd (sub_pos.mpr h.2.1) (not_lt.mpr hdrop)
  · rw [not_le, sub_pos] at hdrop
    rw [Option.some.injEq, and_iff_right (not_le.mp hmax), and_iff_right hdrop]

theorem mem_candidate_iff :
    c ∈ task.candidate t g ↔ c.group = g ∧ task.nextGain g (t g) = some c.gain := by
  rw [candidate, Option.mem_map]
  constructor
  · rintro ⟨_, hgain, rfl⟩
    exact ⟨rfl, hgain⟩
  · rintro ⟨rfl, hgain⟩
    exact ⟨c.gain, hgain, rfl⟩

def totalBits (task : Task) (t : task.Counts) : ℚ := ∑ g, task.bitsPerPlane g * t g

theorem totalBits_raise (t : task.Counts) (g : Fin task.groups.length) :
    task.totalBits (raise t g) = task.totalBits t + task.bitsPerPlane g :=
  sum_mul_raise _ _ _

theorem baseBits_eq (task : Task) : task.baseBits = task.totalBits task.start := by
  rw [baseBits, ← Fin.sum_univ_def, Finset.sum_mul]
  rfl

/-- What a group gains per bit by a plane that can be afforded. -/
def offers (task : Task) : Offers (Fin task.groups.length) ℚ := fun t g =>
  if task.cfg.Affords (task.totalBits t + task.bitsPerPlane g) then task.nextGain g (t g) else none

theorem offers_eq_some_iff : task.offers t g = some gain ↔
    task.cfg.Affords (task.totalBits t + task.bitsPerPlane g) ∧ task.nextGain g (t g) = some gain :=
  Option.ite_none_right_eq_some

/-- The planes that could still be given out. -/
def room (task : Task) (t : task.Counts) : ℕ := ∑ g, (task.cfg.tMax - t g)

theorem room_raise (hroom : t g < task.cfg.tMax) : task.room (raise t g) < task.room t := by
  refine Finset.sum_lt_sum (fun other _ => ?_) ⟨g, Finset.mem_univ g, ?_⟩
  · by_cases hother : other = g
    · rw [hother, raise_self]
      omega
    · rw [raise_of_ne hother]
  · rw [raise_self]
    omega

instance {n : ℕ} : Std.TransCmp fun left right : Candidate n => right.cmp left :=
  inferInstanceAs (Std.TransCmp (compareLex
    (fun left right : Candidate n => compareOn Candidate.gain right left)
    (compareOn Candidate.group)))

theorem isLE_cmp_iff {n : ℕ} {left right : Candidate n} : (left.cmp right).isLE ↔
    left.gain < right.gain ∨ left.gain = right.gain ∧ right.group ≤ left.group := by
  rw [Candidate.cmp, Ordering.isLE_then_iff_or, compare_lt_iff_lt, compare_eq_iff_eq,
    Std.LawfulLECmp.isLE_iff_le]

/-- An offer that no candidate is greater than is the best one. -/
theorem isBest_of_minBy (hmin : minBy (fun left right => Candidate.cmp right left) heap = some c)
    (hoffer : task.offers t c.group = some c.gain)
    (hheap : ∀ g gain, task.offers t g = some gain → ⟨gain, g⟩ ∈ heap) :
    IsBest task.offers t c.group c.gain :=
  ⟨hoffer, fun g gain hgain => isLE_cmp_iff.mp ((minBy_spec _ hmin).2 _ (hheap g gain hgain))⟩

theorem offers_eq_none (hmin : minBy (fun left right => Candidate.cmp right left) heap = none)
    (hheap : ∀ g gain, task.offers t g = some gain → ⟨gain, g⟩ ∈ heap) (g : Fin task.groups.length) :
    task.offers t g = none := by
  refine Option.eq_none_iff_forall_ne_some.mpr fun gain hgain => ?_
  obtain ⟨_, _, hbest⟩ := exists_minBy (fun left right => Candidate.cmp right left)
    (ne_nil_of_mem (hheap g gain hgain))
  rw [hmin] at hbest
  cases hbest

def affordable (task : Task) (t : task.Counts) : List (Candidate task.groups.length) :=
  (finRange task.groups.length).filterMap fun g =>
    if task.cfg.Affords (task.totalBits t + task.bitsPerPlane g) then task.candidate t g else none

theorem mem_affordable_iff : c ∈ task.affordable t ↔ task.offers t c.group = some c.gain := by
  rw [affordable, mem_filterMap, offers_eq_some_iff]
  constructor
  · rintro ⟨_, -, hg⟩
    obtain ⟨hafford, hcandidate⟩ := Option.ite_none_right_eq_some.mp hg
    obtain ⟨rfl, hgain⟩ := mem_candidate_iff.mp hcandidate
    exact ⟨hafford, hgain⟩
  · rintro ⟨hafford, hgain⟩
    exact ⟨c.group, mem_finRange _, Option.ite_none_right_eq_some.mpr
      ⟨hafford, mem_candidate_iff.mpr ⟨rfl, hgain⟩⟩⟩

theorem scanned_eq (t : task.Counts) (spent : ℚ) : task.scanned t spent = fun g =>
    if task.cfg.Affords (spent + task.bitsPerPlane g) then task.candidate t g else none := by
  funext g
  rw [scanned, candidate, nextGain]
  by_cases hmax : task.cfg.tMax ≤ t g
  · rw [if_pos (.inl hmax), if_pos hmax, Option.map_none, ite_self]
  · by_cases hafford : task.cfg.Affords (spent + task.bitsPerPlane g)
    · rw [if_neg (not_or.mpr ⟨hmax, not_not.mpr hafford⟩), if_neg hmax, if_pos hafford]
      dsimp only
      split_ifs <;> rfl
    · rw [if_pos (.inr hafford), if_neg hafford]

/-- The scan looks at the groups in their order, so the first of equal gains has the least index. -/
theorem scanBest_eq (t : task.Counts) : task.scanBest t (task.totalBits t) =
    minBy (fun left right => Candidate.cmp right left) (task.affordable t) := by
  rw [scanBest, scanned_eq]
  refine minBy_congr _ (Pairwise.filterMap _ ?_ (pairwise_lt_finRange task.groups.length))
  intro first second hlt left hleft right hright
  obtain ⟨rfl, -⟩ := mem_candidate_iff.mp (Option.ite_none_right_eq_some.mp hleft).2
  obtain ⟨rfl, -⟩ := mem_candidate_iff.mp (Option.ite_none_right_eq_some.mp hright).2
  rw [Candidate.cmp, compare_lt_iff_lt.mpr hlt]
  cases compare right.gain left.gain <;> decide

theorem scan_run (turns : ℕ) (t : task.Counts) (hturns : task.room t < turns) :
    ∃ final, task.scan turns t (task.totalBits t) = .ok final ∧ Run task.offers t final := by
  induction turns generalizing t with
  | zero => exact absurd hturns (Nat.not_lt_zero _)
  | succ turns ih =>
    have hheap : ∀ g gain, task.offers t g = some gain → ⟨gain, g⟩ ∈ task.affordable t :=
      fun g gain hgain => mem_affordable_iff.mpr hgain
    rw [scan, scanBest_eq]
    cases hmin : minBy (fun left right => Candidate.cmp right left) (task.affordable t) with
    | none => exact ⟨t, rfl, .stop (offers_eq_none hmin hheap)⟩
    | some c =>
      have hoffer := mem_affordable_iff.mp (minBy_spec _ hmin).1
      have hroom := room_raise (nextGain_eq_some_iff.mp (offers_eq_some_iff.mp hoffer).2).1
      obtain ⟨final, hscan, hrun⟩ := ih (raise t c.group) (by omega)
      rw [totalBits_raise] at hscan
      exact ⟨final, hscan, .step (isBest_of_minBy hmin hoffer hheap) hrun⟩

/-- The heap has a candidate of every group with an offer, and of no group more than one. -/
structure Holds (heap : List (Candidate task.groups.length)) (t : task.Counts) : Prop where
  nodup : heap.Nodup
  current : ∀ c ∈ heap, task.nextGain c.group (t c.group) = some c.gain
  complete : ∀ g gain, task.offers t g = some gain → ⟨gain, g⟩ ∈ heap

theorem holds_start (t : task.Counts) :
    Holds ((finRange task.groups.length).filterMap (task.candidate t)) t := by
  refine ⟨?_, fun c hc => ?_, fun g gain hoffer => ?_⟩
  · refine (nodup_finRange _).filterMap fun first second c hfirst hsecond => ?_
    rw [← (mem_candidate_iff.mp hfirst).1, ← (mem_candidate_iff.mp hsecond).1]
  · obtain ⟨g, -, hcandidate⟩ := mem_filterMap.mp hc
    obtain ⟨rfl, hgain⟩ := mem_candidate_iff.mp hcandidate
    exact hgain
  · exact mem_filterMap.mpr ⟨g, mem_finRange g,
      mem_candidate_iff.mpr ⟨rfl, (offers_eq_some_iff.mp hoffer).2⟩⟩

section Holds

variable (hholds : Holds heap t)

include hholds

/-- A candidate that is too dear is not missed. -/
theorem Holds.drop (hdear : ¬task.cfg.Affords (task.totalBits t + task.bitsPerPlane c.group)) :
    Holds (heap.erase c) t := by
  refine ⟨hholds.nodup.erase c, fun other hother => hholds.current other (mem_of_mem_erase hother),
    fun g gain hoffer => (mem_erase_of_ne ?_).mpr (hholds.complete g gain hoffer)⟩
  rintro rfl
  exact hdear (offers_eq_some_iff.mp hoffer).1

variable (hc : c ∈ heap)

include hc

theorem Holds.group_ne {other : Candidate task.groups.length} (hother : other ∈ heap.erase c) :
    other.group ≠ c.group := by
  obtain ⟨hne, hmem⟩ := hholds.nodup.mem_erase_iff.mp hother
  intro heq
  have hgain := hholds.current other hmem
  rw [heq, hholds.current c hc, Option.some.injEq] at hgain
  exact hne (Candidate.ext hgain.symm heq)

/-- What can be afforded after a plane was given could be before. -/
theorem Holds.raise (hbits : 0 ≤ task.bitsPerPlane c.group) :
    Holds (heap.erase c ++ (task.candidate (raise t c.group) c.group).toList)
      (raise t c.group) := by
  refine ⟨?_, ?_, fun g gain hoffer => ?_⟩
  · refine (hholds.nodup.erase c).append (Option.toList_nodup _) ?_
    intro other hother hnew
    exact hholds.group_ne hc hother (mem_candidate_iff.mp (Option.mem_toList.mp hnew)).1
  · refine forall_mem_append.mpr ⟨fun other hother => ?_, fun other hother => ?_⟩
    · rw [raise_of_ne (hholds.group_ne hc hother)]
      exact hholds.current other (mem_of_mem_erase hother)
    · obtain ⟨heq, hgain⟩ := mem_candidate_iff.mp (Option.mem_toList.mp hother)
      rw [heq, hgain]
  · obtain ⟨hafford, hgain⟩ := offers_eq_some_iff.mp hoffer
    by_cases heq : g = c.group
    · subst heq
      exact mem_append_right _ (Option.mem_toList.mpr (mem_candidate_iff.mpr ⟨rfl, hgain⟩))
    · rw [totalBits_raise] at hafford
      rw [raise_of_ne heq] at hgain
      have hearlier := offers_eq_some_iff.mpr
        ⟨le_trans (WithTop.coe_le_coe.mpr (by linarith)) hafford, hgain⟩
      refine mem_append_left _ ((mem_erase_of_ne ?_).mpr (hholds.complete g gain hearlier))
      rintro rfl
      exact heq rfl

end Holds

theorem fill_run (hbits : ∀ g, 0 ≤ task.bitsPerPlane g) (turns : ℕ) (hholds : Holds heap t)
    (hturns : heap.length + task.room t < turns) :
    ∃ final, task.fill turns t (task.totalBits t) heap = .ok final ∧ Run task.offers t final := by
  induction turns generalizing t heap with
  | zero => exact absurd hturns (Nat.not_lt_zero _)
  | succ turns ih =>
    rw [fill]
    cases hmin : minBy (fun left right => Candidate.cmp right left) heap with
    | none => exact ⟨t, rfl, .stop (offers_eq_none hmin hholds.complete)⟩
    | some c =>
      have hc := (minBy_spec _ hmin).1
      have hlength := length_erase_of_mem hc
      have hpos := length_pos_of_mem hc
      dsimp only
      split_ifs with hafford
      · have hgain := hholds.current c hc
        have hroom := room_raise (nextGain_eq_some_iff.mp hgain).1
        have hnew := Option.length_toList_le (o := task.candidate (raise t c.group) c.group)
        obtain ⟨final, hfill, hrun⟩ := ih (hholds.raise hc (hbits c.group)) (by
          rw [length_append]
          omega)
        rw [totalBits_raise] at hfill
        exact ⟨final, hfill, .step (isBest_of_minBy hmin
          (offers_eq_some_iff.mpr ⟨hafford, hgain⟩) hholds.complete) hrun⟩
      · exact ih (hholds.drop hafford) (by omega)

/-- Groups that weigh something and do no harm, a range of counts, and a budget for the least of
them. -/
structure Allocatable (task : Task) : Prop where
  trit_pos : 0 < task.tritBits
  weights_pos : ∀ group ∈ task.groups, 0 < group.weights
  sensitivity_nonneg : ∀ group ∈ task.groups, 0 ≤ group.sensitivity
  range_le : task.cfg.tMin ≤ task.cfg.tMax
  affords_base : task.cfg.Affords task.baseBits

section Allocatable

variable (htask : task.Allocatable)

include htask

theorem Allocatable.bits_pos (g : Fin task.groups.length) : 0 < task.bitsPerPlane g :=
  mul_pos (Nat.cast_pos.mpr (htask.weights_pos _ (get_mem _ g))) htask.trit_pos

theorem Allocatable.exists_run : ∃ final, task.allocateWithCurves = .ok ⟨ofFn final⟩ ∧
    task.allocateReference = .ok ⟨ofFn final⟩ ∧ Run task.offers task.start final := by
  have hroom : task.room task.start = task.groups.length * (task.cfg.tMax - task.cfg.tMin) := by
    simp [room, start]
  obtain ⟨final, hscan, hrun⟩ := scan_run
    (task.groups.length * (task.cfg.tMax - task.cfg.tMin) + 1) task.start (by omega)
  obtain ⟨_, hfill, hrun'⟩ := fill_run (fun g => (htask.bits_pos g).le)
    (task.groups.length * (task.cfg.tMax - task.cfg.tMin + 1) + 1)
    (holds_start task.start) (by
      have hlength := length_filterMap_le (task.candidate task.start)
        (finRange task.groups.length)
      rw [length_finRange] at hlength
      rw [Nat.mul_succ]
      omega)
  obtain rfl := hrun.unique hrun'
  rw [← baseBits_eq] at hscan hfill
  refine ⟨final, ?_, ?_, hrun⟩
  · have hsensitive : (finRange task.groups.length).find?
        (fun g => (task.group g).sensitivity < 0) = none := by
      refine find?_eq_none.mpr fun g _ => ?_
      rw [decide_eq_true_eq, not_lt]
      exact htask.sensitivity_nonneg _ (get_mem _ g)
    have hslack : 0 ≤ budgetFeasibilitySlackRel * max task.baseBits 1 :=
      mul_nonneg (by norm_num [budgetFeasibilitySlackRel]) (le_max_of_le_right zero_le_one)
    have hbudget :=
      htask.affords_base.trans (le_add_of_nonneg_right (WithTop.coe_nonneg.mpr hslack))
    rw [allocateWithCurves, if_neg (not_lt.mpr htask.range_le), hsensitive]
    rw [if_neg (not_lt.mpr hbudget), hfill]
    rfl
  · rw [allocateReference, hscan]
    rfl

variable (hrun : Run task.offers task.start final)

include hrun

theorem Allocatable.within : (∀ g, task.cfg.tMin ≤ final g ∧ final g ≤ task.cfg.tMax) ∧
    task.cfg.Affords (task.totalBits final) := by
  refine (hrun.invariant (fun t => (∀ g, task.cfg.tMin ≤ t g ∧ t g ≤ task.cfg.tMax) ∧
    task.cfg.Affords (task.totalBits t)) ?_ ⟨fun _ => ⟨le_rfl, htask.range_le⟩, ?_⟩).1
  · rintro _ g _ ⟨hbounds, -⟩ hbest
    obtain ⟨_, hgain⟩ := offers_eq_some_iff.mp hbest.offer_eq
    have hroom := (nextGain_eq_some_iff.mp hgain).1
    refine ⟨fun other => ?_, by rwa [totalBits_raise]⟩
    by_cases heq : other = g
    · rw [heq, raise_self]
      exact ⟨Nat.le_succ_of_le (hbounds g).1, hroom⟩
    · rw [raise_of_ne heq]
      exact hbounds other
  · rw [← baseBits_eq]
    exact htask.affords_base

/-- At equal counts the more sensitive of two like groups comes first. -/
theorem Allocatable.le_of_sensitivity_lt {i j : Fin task.groups.length}
    (hcurve : (task.group i).curve = (task.group j).curve)
    (hweights : (task.group i).weights = (task.group j).weights)
    (hlt : (task.group j).sensitivity < (task.group i).sensitivity) : final j ≤ final i := by
  refine (hrun.invariant (fun t => t j ≤ t i) ?_ le_rfl).1
  intro t g gain hle hbest
  have hij : i ≠ j := by
    rintro rfl
    exact absurd hlt (lt_irrefl _)
  have hsame := GroupCurve.curveAt_congr hcurve
  have hbits : task.bitsPerPlane i = task.bitsPerPlane j := by
    rw [bitsPerPlane, hweights, bitsPerPlane]
  by_cases hg : g = j
  · subst hg
    rw [raise_self, raise_of_ne hij]
    refine lt_of_le_of_ne hle fun heq => ?_
    obtain ⟨hafford, hgain⟩ := offers_eq_some_iff.mp hbest.offer_eq
    obtain ⟨hroom, hdrop, rfl⟩ := nextGain_eq_some_iff.mp hgain
    have hgreater := div_lt_div_of_pos_right (mul_lt_mul_of_pos_right hlt (sub_pos.mpr hdrop))
      (htask.bits_pos g)
    rw [← hsame, ← hsame, ← hbits, heq] at hbest hgreater
    have hoffer := offers_eq_some_iff.mpr ⟨hbits ▸ hafford, nextGain_eq_some_iff.mpr
      ⟨heq ▸ hroom, by rwa [hsame, hsame, ← heq], rfl⟩⟩
    obtain hless | ⟨hequal, -⟩ := hbest.best i _ hoffer
    · exact hless.asymm hgreater
    · exact hgreater.ne' hequal
  · rw [raise_of_ne (Ne.symm hg)]
    by_cases hgi : i = g
    · rw [hgi, raise_self, ← hgi]
      omega
    · rwa [raise_of_ne hgi]

end Allocatable

/-- The error that a number of planes leaves to a group, as far as it is sensitive to it. -/
def weightedError (task : Task) (g : Fin task.groups.length) (planes : ℕ) : ℚ :=
  (task.group g).sensitivity * (task.group g).curveAt planes

theorem saving_weightedError (g : Fin task.groups.length) (planes : ℕ) :
    saving task.weightedError g planes = (task.group g).sensitivity *
      ((task.group g).curveAt planes - (task.group g).curveAt (planes + 1)) :=
  (mul_sub _ _ _).symm

section Optimal

variable (htask : task.Allocatable) {size : ℕ}
  (hlike : ∀ group ∈ task.groups, group.weights = size ∧ group.Convex)

include hlike

theorem bitsPerPlane_eq (g : Fin task.groups.length) :
    task.bitsPerPlane g = size * task.tritBits := by
  rw [bitsPerPlane, group, (hlike _ (get_mem _ g)).1]

include htask

theorem saving_nonneg (g : Fin task.groups.length) (planes : ℕ) :
    0 ≤ saving task.weightedError g planes := by
  rw [saving_weightedError]
  exact mul_nonneg (htask.sensitivity_nonneg _ (get_mem _ g))
    ((hlike _ (get_mem _ g)).2.drop_nonneg planes)

theorem saving_falling (g : Fin task.groups.length) (planes : ℕ) :
    saving task.weightedError g (planes + 1) ≤ saving task.weightedError g planes := by
  rw [saving_weightedError, saving_weightedError]
  exact mul_le_mul_of_nonneg_left ((hlike _ (get_mem _ g)).2.drop_le planes)
    (htask.sensitivity_nonneg _ (get_mem _ g))

/-- A group below the ceiling offers what it would save, unless that is nothing. -/
theorem offers_or_saving_nonpos (hroom : t g < task.cfg.tMax)
    (hafford : task.cfg.Affords (task.totalBits t + size * task.tritBits)) :
    task.offers t g = some (saving task.weightedError g (t g) / (size * task.tritBits)) ∨
      saving task.weightedError g (t g) ≤ 0 := by
  rw [← bitsPerPlane_eq hlike g] at hafford ⊢
  rw [saving_weightedError]
  obtain hdrop | hdrop := lt_or_ge ((task.group g).curveAt (t g + 1)) ((task.group g).curveAt (t g))
  · exact Or.inl (offers_eq_some_iff.mpr ⟨hafford, nextGain_eq_some_iff.mpr ⟨hroom, hdrop, rfl⟩⟩)
  · exact Or.inr (mul_nonpos_of_nonneg_of_nonpos
      (htask.sensitivity_nonneg _ (get_mem _ g)) (sub_nonpos.mpr hdrop))

variable (hrun : Run task.offers task.start final)

include hrun

theorem exists_level : ∃ level, 0 ≤ level ∧
    Level task.weightedError task.cfg.tMin task.cfg.tMax final level := by
  refine (hrun.invariant (fun t => ∃ level, 0 ≤ level ∧
    Level task.weightedError task.cfg.tMin task.cfg.tMax t level) ?_ ?_).1
  · rintro t g _ ⟨_, -, hlevel⟩ hbest
    obtain ⟨hafford, hgain⟩ := offers_eq_some_iff.mp hbest.offer_eq
    obtain ⟨hroom, -, rfl⟩ := nextGain_eq_some_iff.mp hgain
    have hnonneg := saving_nonneg htask hlike g (t g)
    rw [bitsPerPlane_eq hlike] at hafford
    refine ⟨_, hnonneg, hlevel.raise (saving_falling htask hlike) hroom fun j hj => ?_⟩
    obtain hoffer | hnone := offers_or_saving_nonpos htask hlike hj hafford
    · rw [← saving_weightedError, bitsPerPlane_eq hlike] at hbest
      have hle : _ / _ ≤ _ / _ := (hbest.best j _ hoffer).elim le_of_lt fun h => h.1.le
      rwa [div_le_div_iff_of_pos_right (bitsPerPlane_eq hlike g ▸ htask.bits_pos g)] at hle
    · exact hnone.trans hnonneg
  · have hnonneg := fun g => saving_nonneg htask hlike g task.cfg.tMin
    refine ⟨∑ g, _, Finset.sum_nonneg fun g _ => hnonneg g, fun g planes hlow hhigh =>
      absurd hlow (not_le.mpr hhigh), fun g _ => ?_⟩
    exact Finset.single_le_sum (fun g _ => hnonneg g) (Finset.mem_univ g)

theorem sum_weightedError_le {other : task.Counts}
    (hbounds : ∀ g, task.cfg.tMin ≤ other g ∧ other g ≤ task.cfg.tMax)
    (hother : task.cfg.Affords (task.totalBits other)) :
    ∑ g, task.weightedError g (final g) ≤ ∑ g, task.weightedError g (other g) := by
  have hfalling := saving_falling htask hlike
  by_cases hafford : task.cfg.Affords (task.totalBits final + size * task.tritBits)
  · -- nothing is offered although it could be paid for, so no plane more saves anything
    have hnone := (hrun.invariant (fun _ => True) (fun _ _ _ _ _ => trivial) trivial).2
    have hlevel : Level task.weightedError task.cfg.tMin task.cfg.tMax final 0 := by
      refine ⟨fun g planes _ _ => saving_nonneg htask hlike g planes, fun g hg => ?_⟩
      refine (offers_or_saving_nonpos htask hlike hg hafford).resolve_left ?_
      rw [hnone g]
      nofun
    exact hlevel.sum_le hfalling hbounds (by rw [zero_mul, zero_mul])
  · -- no allocation has more planes
    obtain ⟨_, hnonneg, hlevel⟩ := exists_level htask hlike hrun
    refine hlevel.sum_le hfalling hbounds (mul_le_mul_of_nonneg_left ?_ hnonneg)
    have hlt := WithTop.coe_lt_coe.mp (hother.trans_lt (not_le.mp hafford))
    simp only [totalBits, bitsPerPlane_eq hlike, ← Finset.mul_sum] at hlt
    rw [← mul_add_one] at hlt
    have hunits := lt_of_mul_lt_mul_left hlt
      (mul_nonneg (Nat.cast_nonneg size) htask.trit_pos.le)
    norm_cast at hunits ⊢
    omega

end Optimal

/-- **Water filling.** The heap gives the planes that the scan gives. They stay within the range and
the budget, a more sensitive group gets no fewer than a like one, and among groups of one size with
convex curves no other allocation leaves less. -/
theorem allocateWithCurves_fills (htask : task.Allocatable) :
    ∃ counts : task.Counts, task.allocateWithCurves = .ok ⟨ofFn counts⟩ ∧
      task.allocateReference = .ok ⟨ofFn counts⟩ ∧
      (∀ g, task.cfg.tMin ≤ counts g ∧ counts g ≤ task.cfg.tMax) ∧
      task.cfg.Affords (task.totalBits counts) ∧
      (∀ i j, (task.group i).curve = (task.group j).curve →
        (task.group i).weights = (task.group j).weights →
        (task.group j).sensitivity < (task.group i).sensitivity → counts j ≤ counts i) ∧
      ∀ size, (∀ group ∈ task.groups, group.weights = size ∧ group.Convex) →
        ∀ other : task.Counts, (∀ g, task.cfg.tMin ≤ other g ∧ other g ≤ task.cfg.tMax) →
          task.cfg.Affords (task.totalBits other) →
          ∑ g, task.weightedError g (counts g) ≤ ∑ g, task.weightedError g (other g) := by
  obtain ⟨counts, hfill, hscan, hrun⟩ := htask.exists_run
  obtain ⟨hbounds, hafford⟩ := htask.within hrun
  exact ⟨counts, hfill, hscan, hbounds, hafford,
    fun i j hcurve hweights hlt => htask.le_of_sensitivity_lt hrun hcurve hweights hlt,
    fun size hlike other hother htotal => sum_weightedError_le htask hlike hrun hother htotal⟩

/-- Two groups that differ in their sensitivity, and a budget for three planes. -/
def twoGroups : Task :=
  ⟨[⟨[8, 2, 1], 1, 1, cons_ne_nil _ _⟩, ⟨[8, 2, 1], 1, 2, cons_ne_nil _ _⟩], ⟨1, 2, (3 : ℚ)⟩, 1⟩

theorem allocateWithCurves_fills_twoGroups :
    twoGroups.Allocatable ∧ ∃ counts : twoGroups.Counts,
      twoGroups.allocateWithCurves = .ok ⟨ofFn counts⟩ ∧
        counts ⟨0, by decide⟩ ≤ counts ⟨1, by decide⟩ := by
  have htask : twoGroups.Allocatable := by
    refine ⟨one_pos, by simp [twoGroups], by simp [twoGroups], by decide, ?_⟩
    exact WithTop.coe_le_coe.mpr (by decide +kernel)
  obtain ⟨counts, hfill, -, -, -, hmore, -⟩ := allocateWithCurves_fills htask
  exact ⟨htask, counts, hfill, hmore ⟨1, by decide⟩ ⟨0, by decide⟩ rfl rfl (by decide +kernel)⟩

end Task

end Tritium.WaterFilling
