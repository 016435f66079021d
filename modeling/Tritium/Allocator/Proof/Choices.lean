import Tritium.Allocator.Proof.Ranked
import Tritium.Allocator.Regular
import Tritium.Lib.Knapsack
import Mathlib.Data.List.GetD
import Mathlib.Data.List.ReduceOption

/-!
# Comparing choices

A choice names a plane vector without writing it out. The comparisons of the solver (exact
reductions, then upgrade counts, then the first group two choices disagree on) order the choices as
the vectors they name are ordered by preference.
-/

namespace Tritium.Allocator

open List
open Knapsack

variable {hull candidate current : HullChoice} {special : Option ℕ} {rank : ℕ} {x y : ℕ → ℕ}

variable {U B : Type} [RankedUnitUpgrade U] [RankedBundledUpgrade B]

/-- The sorted upgrades rank the chains of a problem whose levels count planes above `floor`, and
the indexes are those of the sorted upgrades. -/
structure Ranks (indexes : RegularIndexes U B) {p : Problem ℕ} (R : Ranking p)
    (floor : ℕ → ℕ) : Prop where
  steps_eq : R.steps = indexes.units.map fun unit => (group unit,
    targetPlanes unit - floor (group unit))
  bundles_eq : R.bundles = indexes.bundles.map group
  unit_gain : ∀ unit ∈ indexes.units, (reduction unit).toNat =
    p.stepGain (group unit, targetPlanes unit - floor (group unit))
  bundle_gain : ∀ bundle ∈ indexes.bundles, (reduction bundle).toNat = p.gain (group bundle) 2
  first_gain : ∀ bundle ∈ indexes.bundles,
    (firstPlaneReduction bundle).toNat = p.gain (group bundle) 1
  unitSums : indexes.unitSums.Sums indexes.units
  bundleSums : indexes.bundleSums.Sums indexes.bundles
  unitLex : indexes.unitLex.Indexes indexes.units
  bundleLex : indexes.bundleLex.Indexes indexes.bundles
  units_below : BelowSentinel indexes.units
  bundles_below : BelowSentinel indexes.bundles
  sum_lt : reductionSum indexes.units + 2 * reductionSum indexes.bundles < ExactDistortion.capacity

/-- The levels a hull names, one bundle being set aside at its own level. -/
def choiceLevels {p : Problem ℕ} (R : Ranking p) (hull : HullChoice) (special : Option ℕ)
    (level : ℕ) : ℕ → ℕ :=
  match special with
  | none => R.hullLevels hull.unitCount hull.bundlePrefixLen
  | some rank =>
    Function.update (R.hullLevels hull.unitCount hull.bundlePrefixLen) (R.bundles.getD rank 0) level

/-- Counts and ranks within the sorted upgrades. -/
structure ValidChoice (indexes : RegularIndexes U B) (hull : HullChoice) (special : Option ℕ) :
    Prop where
  unitCount_le : hull.unitCount ≤ indexes.units.length
  prefix_le : hull.bundlePrefixLen ≤ indexes.bundles.length
  special_lt : ∀ rank ∈ special, rank < indexes.bundles.length

/-- The levels a regular choice names, its exceptional bundle being one above its floor. -/
abbrev regularLevels {p : Problem ℕ} (R : Ranking p) (choice : RegularChoice) : ℕ → ℕ :=
  choiceLevels R choice.hull choice.exceptionalBundleRank 1

abbrev ValidRegular (indexes : RegularIndexes U B) (choice : RegularChoice) : Prop :=
  ValidChoice indexes choice.hull choice.exceptionalBundleRank

abbrev Differ (candidate current : RegularChoice) (rank : ℕ) : Prop :=
  bundlePlanesForChoice candidate rank ≠ bundlePlanesForChoice current rank

section Comparison

variable {indexes : RegularIndexes U B} {p : Problem ℕ} {R : Ranking p}
  {floor candidatePlanes currentPlanes : ℕ → ℕ} {choice : RegularChoice}

section

variable (hranks : Ranks indexes R floor)

include hranks

theorem Ranks.steps_length : R.steps.length = indexes.units.length := by
  rw [hranks.steps_eq, length_map]

theorem Ranks.bundles_length : R.bundles.length = indexes.bundles.length := by
  rw [hranks.bundles_eq, length_map]

theorem Ranks.reductionSum_units (count : ℕ) :
    reductionSum (indexes.units.take count) = ((R.steps.take count).map p.stepGain).sum := by
  rw [hranks.steps_eq, ← map_take, map_map]
  refine congrArg _ (map_congr_left fun unit hunit => ?_)
  exact hranks.unit_gain unit (mem_of_mem_take hunit)

theorem Ranks.reductionSum_bundles (count : ℕ) :
    reductionSum (indexes.bundles.take count) =
      ((R.bundles.take count).map fun i => p.gain i 2).sum := by
  rw [hranks.bundles_eq, ← map_take, map_map]
  refine congrArg _ (map_congr_left fun bundle hbundle => ?_)
  exact hranks.bundle_gain bundle (mem_of_mem_take hbundle)

end

theorem choiceLevels_of_notMem {i : ℕ} (hi : i ∉ R.bundles)
    (hspecial : ∀ rank ∈ special, rank < R.bundles.length) (level : ℕ) :
    choiceLevels R hull special level i = R.stepLevels hull.unitCount i := by
  cases special with
  | none => exact R.hullLevels_of_notMem hi _ _
  | some rank =>
    have hrank := hspecial rank rfl
    have hne : i ≠ R.bundles.getD rank 0 := by
      rw [getD_eq_getElem _ _ hrank]
      exact fun heq => hi (heq ▸ getElem_mem hrank)
    rw [choiceLevels, Function.update_of_ne hne, R.hullLevels_of_notMem hi]

theorem choiceLevels_bundle (hrank : rank < R.bundles.length) (hull : HullChoice)
    (hspecial : ∀ other ∈ special, other < R.bundles.length) (level : ℕ) :
    choiceLevels R hull special level R.bundles[rank] =
      if special = some rank then level else if rank < hull.bundlePrefixLen then 2 else 0 := by
  cases special with
  | none =>
    rw [choiceLevels, R.hullLevels_bundle hrank, if_neg (Option.some_ne_none rank).symm]
  | some other =>
    have hother := hspecial other rfl
    rw [choiceLevels, getD_eq_getElem _ _ hother]
    rcases eq_or_ne other rank with rfl | hne
    · simp
    · have hdistinct : R.bundles[rank] ≠ R.bundles[other] := by
        rw [Ne, R.bundles_nodup.getElem_inj_iff]
        exact hne.symm
      rw [Function.update_of_ne hdistinct, R.hullLevels_bundle hrank,
        if_neg fun heq => hne (Option.some.inj heq)]

theorem hullReduction_eq (hranks : Ranks indexes R floor) (profile : SaltV2Profile)
    (hvalid : ValidChoice indexes hull special) :
    ∃ sum, hullReduction indexes profile hull special = .ok sum ∧
      sum.toNat = p.value (choiceLevels R hull special 0) := by
  obtain ⟨unitSum, hunitSum, _⟩ := hranks.unitSums profile _ hvalid.unitCount_le
  obtain ⟨bundleSum, hbundleSum, _⟩ := hranks.bundleSums profile _ hvalid.prefix_le
  have hunitBound := reductionSum_take_le indexes.units hull.unitCount
  have hbundleBound := reductionSum_take_le indexes.bundles hull.bundlePrefixLen
  have hsum := hranks.sum_lt
  have hhull := R.value_hullLevels (hranks.steps_length ▸ hvalid.unitCount_le)
    (hranks.bundles_length ▸ hvalid.prefix_le)
  rw [← hranks.reductionSum_units, ← hranks.reductionSum_bundles] at hhull
  rw [hullReduction, hunitSum, ok_bind, hbundleSum, ok_bind]
  cases special with
  | none =>
    obtain ⟨sum, hadd, hvalue⟩ := checkedReductionAdd_eq unitSum bundleSum profile (by omega)
    refine ⟨sum, hadd, ?_⟩
    rw [choiceLevels]
    omega
  | some rank =>
    have hrank := hvalid.special_lt rank rfl
    have hrank' : rank < R.bundles.length := hranks.bundles_length ▸ hrank
    have hgain := hranks.bundle_gain _ (getElem_mem hrank)
    have hgroup : R.bundles[rank] = group indexes.bundles[rank] := by
      simp only [hranks.bundles_eq, getElem_map]
    have hupdate := Problem.value_update
      (s := R.hullLevels hull.unitCount hull.bundlePrefixLen)
      (R.mem_support_of_bundle _ (getElem_mem hrank')) 0
    rw [R.hullLevels_bundle hrank', p.gain_zero] at hupdate
    simp only [choiceLevels, getD_eq_getElem _ _ hrank']
    by_cases hlt : rank < hull.bundlePrefixLen
    · rw [if_pos hlt, hgroup] at hupdate
      have hmem : indexes.bundles[rank] ∈ indexes.bundles.take hull.bundlePrefixLen :=
        mem_take_iff_getElem.mpr ⟨rank, by omega, rfl⟩
      have hle := reduction_le_reductionSum hmem
      obtain ⟨difference, hdifference⟩ := ExactDistortion.exists_checkedSub bundleSum
        (reduction indexes.bundles[rank]).exact (by
          rw [ExactReduction.exact_toNat]
          omega)
      have hrest := ExactDistortion.checkedSub_eq_some_iff.mp hdifference
      rw [ExactReduction.exact_toNat] at hrest
      obtain ⟨sum, hadd, hvalue⟩ := checkedReductionAdd_eq unitSum difference profile (by omega)
      refine ⟨sum, ?_, ?_⟩
      · simp only [if_pos hlt]
        rw [index_of_lt hrank, ok_bind, hdifference, okOr_bind, hadd]
      · rw [hgroup]
        omega
    · rw [if_neg hlt, p.gain_zero] at hupdate
      obtain ⟨sum, hadd, _⟩ := checkedReductionAdd_eq unitSum bundleSum profile (by omega)
      refine ⟨sum, ?_, by omega⟩
      simp only [if_neg hlt]
      exact hadd

theorem regularReduction_eq (hranks : Ranks indexes R floor) (profile : SaltV2Profile)
    (hvalid : ValidRegular indexes choice) :
    ∃ sum, regularReduction indexes profile choice = .ok sum ∧
      sum.toNat = p.value (regularLevels R choice) := by
  obtain ⟨hullSum, hhullSum, hhullValue⟩ := hullReduction_eq hranks profile hvalid
  rw [regularReduction, hhullSum, ok_bind, regularLevels]
  rcases hspecial : choice.exceptionalBundleRank with _ | rank
  · rw [hspecial] at hhullValue
    exact ⟨hullSum, rfl, hhullValue⟩
  · have hrank := hvalid.special_lt rank hspecial
    have hrank' : rank < R.bundles.length := hranks.bundles_length ▸ hrank
    have hgroup : R.bundles[rank] = group indexes.bundles[rank] := by
      simp only [hranks.bundles_eq, getElem_map]
    have hfirst := hranks.first_gain _ (getElem_mem hrank)
    have hfull := hranks.bundle_gain _ (getElem_mem hrank)
    have hbundle := R.gain_of_bundle _ (getElem_mem hrank')
    rw [hgroup] at hbundle
    have hle := reduction_le_reductionSum (getElem_mem hrank)
    have hsum := hranks.sum_lt
    have hzero := Problem.value_update
      (s := R.hullLevels choice.hull.unitCount choice.hull.bundlePrefixLen)
      (R.mem_support_of_bundle _ (getElem_mem hrank')) 0
    have hone := Problem.value_update
      (s := R.hullLevels choice.hull.unitCount choice.hull.bundlePrefixLen)
      (R.mem_support_of_bundle _ (getElem_mem hrank')) 1
    have hhull := R.value_hullLevels (hranks.steps_length ▸ hvalid.unitCount_le)
      (hranks.bundles_length ▸ hvalid.prefix_le)
    rw [← hranks.reductionSum_units, ← hranks.reductionSum_bundles] at hhull
    have hunitBound := reductionSum_take_le indexes.units choice.hull.unitCount
    have hbundleBound := reductionSum_take_le indexes.bundles choice.hull.bundlePrefixLen
    rw [p.gain_zero] at hzero
    rw [hgroup] at hzero hone
    simp only [hspecial, choiceLevels, getD_eq_getElem _ _ hrank', hgroup] at hhullValue ⊢
    obtain ⟨sum, hadd, hvalue⟩ := checkedReductionAdd_eq hullSum
      (firstPlaneReduction indexes.bundles[rank]).exact profile (by
        rw [ExactReduction.exact_toNat]
        omega)
    rw [ExactReduction.exact_toNat] at hvalue
    refine ⟨sum, ?_, by omega⟩
    rw [index_of_lt hrank, ok_bind, hadd]

/-- The first member of a set at which two vectors differ. -/
def IsFirstDifference (members : Set ℕ) (x y : ℕ → ℕ) : Option ℕ → Prop
  | none => ∀ i ∈ members, x i = y i
  | some first => first ∈ members ∧ x first ≠ y first ∧ ∀ i ∈ members, i < first → x i = y i

theorem IsFirstDifference.below {members : Set ℕ} {difference : Option ℕ}
    (hdifference : IsFirstDifference members x y difference) {i : ℕ} (hi : i ∈ members)
    (hbelow : ∀ first ∈ difference, i < first) : x i = y i := by
  cases difference with
  | none => exact hdifference i hi
  | some first => exact hdifference.2.2 i hi (hbelow first rfl)

theorem firstDifferencePrefersCandidate_iff {members : Set ℕ}
    {unitDifference : Option (RankedGroup × Bool)} {bundleDifference : Option RankedGroup}
    (hunits : IsFirstDifference membersᶜ x y (unitDifference.map fun entry => entry.1.group))
    (hmore : ∀ entry ∈ unitDifference, entry.2 = decide (y entry.1.group < x entry.1.group))
    (hbundles : IsFirstDifference members x y (bundleDifference.map RankedGroup.group))
    (hplanes : ∀ bundle ∈ bundleDifference,
      (currentPlanes bundle.rank < candidatePlanes bundle.rank ↔ y bundle.group < x bundle.group)) :
    firstDifferencePrefersCandidate unitDifference bundleDifference candidatePlanes
      currentPlanes = true ↔ toLex y < toLex x := by
  have hfirst : ∀ {first : ℕ}, x first ≠ y first →
      (∀ unit ∈ unitDifference.map fun entry => entry.1.group, first ≤ unit) →
      (∀ bundle ∈ bundleDifference.map RankedGroup.group, first ≤ bundle) →
      (y first < x first ↔ toLex y < toLex x) := by
    intro first hne hunit hbundle
    refine (Problem.lex_lt_iff_of_first (fun i hi => ?_) hne.symm).symm
    by_cases hmem : i ∈ members
    · exact (hbundles.below hmem fun bundle h => hi.trans_le (hbundle bundle h)).symm
    · exact (hunits.below hmem fun unit h => hi.trans_le (hunit unit h)).symm
  rcases unitDifference with _ | ⟨unit, more⟩
  · rcases bundleDifference with _ | bundle
    · have heq : x = y := by
        funext i
        by_cases hi : i ∈ members
        · exact hbundles i hi
        · exact hunits i hi
      simp only [firstDifferencePrefersCandidate, heq, Bool.false_eq_true, false_iff]
      exact lt_irrefl _
    · have hlex := hfirst hbundles.2.1 (by simp) (by simp)
      exact decide_eq_true_iff.trans ((hplanes bundle rfl).trans hlex)
  · have hmoreEq : more = decide (y unit.group < x unit.group) := hmore (unit, more) rfl
    rcases bundleDifference with _ | bundle
    · rw [hmoreEq]
      exact decide_eq_true_iff.trans (hfirst hunits.2.1 (by simp) (by simp))
    · rw [firstDifferencePrefersCandidate]
      by_cases hlt : unit.group < bundle.group
      · rw [if_pos hlt, hmoreEq]
        exact decide_eq_true_iff.trans (hfirst hunits.2.1 (by simp) (by simpa using hlt.le))
      · have hlex := hfirst hbundles.2.1 (by simpa using hlt) (by simp)
        rw [if_neg hlt]
        exact decide_eq_true_iff.trans ((hplanes bundle rfl).trans hlex)

section

variable (hranks : Ranks indexes R floor)

include hranks

theorem Ranks.step_group (hrank : rank < R.steps.length) :
    R.steps[rank].1 = (rankedEntry indexes.units rank).group := by
  have hrank' : rank < indexes.units.length := hranks.steps_length ▸ hrank
  simp only [hranks.steps_eq, getElem_map, rankedEntry, getElem?_eq_getElem hrank',
    Option.elim_some]

theorem Ranks.bundle_group (hrank : rank < R.bundles.length) :
    R.bundles[rank] = (rankedEntry indexes.bundles rank).group := by
  have hrank' : rank < indexes.bundles.length := hranks.bundles_length ▸ hrank
  simp only [hranks.bundles_eq, getElem_map, rankedEntry, getElem?_eq_getElem hrank',
    Option.elim_some]

/-- Two unit prefixes differ first at the least group between them. -/
theorem prefixDifference_eq {candidate current : ℕ} (hcandidate : candidate ≤ indexes.units.length)
    (hcurrent : current ≤ indexes.units.length)
    (hx : ∀ i ∉ R.bundles, x i = R.stepLevels candidate i)
    (hy : ∀ i ∉ R.bundles, y i = R.stepLevels current i) :
    ∃ difference,
      prefixDifference indexes.unitLex indexes.units candidate current = .ok difference ∧
      IsFirstDifference {i | i ∈ R.bundles}ᶜ x y (difference.map fun entry => entry.1.group) ∧
      ∀ entry ∈ difference, entry.2 = decide (y entry.1.group < x entry.1.group) := by
  have hlength := hranks.steps_length
  rw [prefixDifference]
  by_cases heq : candidate = current
  · subst heq
    refine ⟨none, by rw [if_neg (not_not.mpr rfl)]; rfl, fun i hi => ?_, by simp⟩
    rw [hx i hi, hy i hi]
  rw [if_pos heq]
  obtain ⟨found, hfound, hleast⟩ := LexGroupIndex.rangeMin_isLeast hranks.units_below hranks.unitLex
    (min candidate current) (max candidate current) (by omega) (by omega)
  rw [hfound]
  rcases found with _ | first
  · have hempty := Set.eq_empty_iff_forall_notMem.mp hleast (min candidate current)
    exact absurd ⟨le_rfl, by omega⟩ hempty
  obtain ⟨hrange, hentry, hmin⟩ := hleast
  have hrank : first.rank < R.steps.length := by
    have := hrange.2
    omega
  have hgroup : R.steps[first.rank].1 = first.group := by
    rw [hranks.step_group hrank, ← hentry]
  have hstep := ((R.mem_steps R.steps[first.rank].1 R.steps[first.rank].2).mp (getElem_mem hrank)).1
  rw [hgroup] at hstep
  have hbelow : ∀ i < first.group, R.stepLevels (max candidate current) i =
      R.stepLevels (min candidate current) i := by
    intro i hi
    refine R.stepLevels_eq_of_forall_ne (by omega) (by omega) fun r hlow hr hhigh hgroupEq => ?_
    have hle := RankedGroup.le_iff.mp (hmin r ⟨hlow, hhigh⟩)
    rw [← hranks.step_group hr] at hle
    omega
  have hlt := R.stepLevels_lt_of_step (by omega) hrange.1 hrange.2 hrank
  rw [hgroup] at hlt
  have hfirst : x first.group ≠ y first.group ∧ (∀ i ∉ R.bundles, i < first.group → x i = y i) ∧
      (current < candidate ↔ y first.group < x first.group) := by
    rw [hx _ hstep, hy _ hstep]
    rcases Nat.lt_or_gt_of_ne heq with hless | hless
    · rw [max_eq_right hless.le, min_eq_left hless.le] at hlt hbelow
      refine ⟨hlt.ne, fun i hi hi' => ?_, iff_of_false hless.not_gt hlt.not_gt⟩
      rw [hx i hi, hy i hi, hbelow i hi']
    · rw [max_eq_left hless.le, min_eq_right hless.le] at hlt hbelow
      refine ⟨hlt.ne', fun i hi hi' => ?_, iff_of_true hless hlt⟩
      rw [hx i hi, hy i hi, hbelow i hi']
  refine ⟨some (first, decide (current < candidate)), rfl, ⟨hstep, hfirst.1, hfirst.2.1⟩, ?_⟩
  rintro entry hmem
  obtain rfl := Option.some.inj hmem
  exact decide_eq_decide.mpr hfirst.2.2

/-- The least rank at which two plane assignments of the bundles differ is the first bundle at which
the vectors differ. -/
theorem isFirstDifference_of_isLeastRanked
    (hx : ∀ rank, ∀ hrank : rank < R.bundles.length, x R.bundles[rank] + 1 = candidatePlanes rank)
    (hy : ∀ rank, ∀ hrank : rank < R.bundles.length, y R.bundles[rank] + 1 = currentPlanes rank)
    {difference : Option RankedGroup} (hleast : IsLeastRanked indexes.bundles
      {rank | rank < R.bundles.length ∧ candidatePlanes rank ≠ currentPlanes rank} difference) :
    IsFirstDifference {i | i ∈ R.bundles} x y (difference.map RankedGroup.group) ∧
      ∀ bundle ∈ difference, (currentPlanes bundle.rank < candidatePlanes bundle.rank ↔
        y bundle.group < x bundle.group) := by
  have hdiffer : ∀ rank, ∀ hrank : rank < R.bundles.length,
      (candidatePlanes rank ≠ currentPlanes rank ↔ x R.bundles[rank] ≠ y R.bundles[rank]) := by
    intro rank hrank
    rw [← hx rank hrank, ← hy rank hrank]
    omega
  rcases difference with _ | bundle
  · refine ⟨fun i hi => ?_, by simp⟩
    obtain ⟨rank, hrank, rfl⟩ := getElem_of_mem hi
    by_contra hne
    exact Set.eq_empty_iff_forall_notMem.mp hleast rank ⟨hrank, (hdiffer rank hrank).mpr hne⟩
  · obtain ⟨⟨hrank, hne⟩, hentry, hmin⟩ := hleast
    have hgroup : R.bundles[bundle.rank] = bundle.group := by
      rw [hranks.bundle_group hrank, ← hentry]
    refine ⟨⟨?_, ?_, fun i hi hlt => ?_⟩, ?_⟩
    · exact hgroup ▸ getElem_mem hrank
    · exact hgroup ▸ (hdiffer bundle.rank hrank).mp hne
    · obtain ⟨rank, hrank', rfl⟩ := getElem_of_mem hi
      by_contra hne'
      have hle := RankedGroup.le_iff.mp (hmin rank ⟨hrank', (hdiffer rank hrank').mpr hne'⟩)
      rw [← hranks.bundle_group hrank'] at hle
      omega
    · rintro other hother
      obtain rfl := Option.some.inj hother
      rw [← hx bundle.rank hrank, ← hy bundle.rank hrank, hgroup]
      omega

theorem firstHullBundleDifference_eq (hcandidate : ValidChoice indexes candidate special)
    (hcurrent : ValidChoice indexes current special) :
    ∃ difference, firstHullBundleDifference indexes candidate current special = .ok difference ∧
      IsLeastRanked indexes.bundles {rank | rank < R.bundles.length ∧
        hullBundlePlanes candidate rank special ≠ hullBundlePlanes current rank special}
        difference := by
  have hcandidateLe := hcandidate.prefix_le
  have hcurrentLe := hcurrent.prefix_le
  have hlength := hranks.bundles_length
  obtain ⟨found, hfound, hleast⟩ := rangeMinExcluding_isLeast hranks.bundles_below
    hranks.bundleLex (min_le_max (a := candidate.bundlePrefixLen) (b := current.bundlePrefixLen))
    (by omega) (special, none)
  have hranksEq : {rank | rank < R.bundles.length ∧
      hullBundlePlanes candidate rank special ≠ hullBundlePlanes current rank special} =
      {rank | min candidate.bundlePrefixLen current.bundlePrefixLen ≤ rank ∧
        rank < max candidate.bundlePrefixLen current.bundlePrefixLen ∧ special ≠ some rank ∧
        none ≠ some rank} := by
    ext rank
    simp only [Set.mem_ofPred_eq, hullBundlePlanes]
    by_cases hspecial : special = some rank
    · simp [hspecial]
    · rw [if_neg hspecial, if_neg hspecial]
      simp only [ne_eq, hspecial, not_false_eq_true, reduceCtorEq, and_true]
      split <;> split <;> omega
  rw [hranksEq]
  refine ⟨found, ?_, hleast⟩
  rw [firstHullBundleDifference, hfound]
  cases special with
  | none => rfl
  | some rank => simp [hullBundlePlanes]

end

omit [RankedUnitUpgrade U] in
/-- One exceptional rank joins the differences when the two choices disagree on it. -/
theorem exceptionalDifference_eq (candidate current : RegularChoice) {ranks : Set ℕ}
    (state : Option RankedGroup × Option ℕ) (hbest : IsLeastRanked indexes.bundles ranks state.1)
    (hrank : rank < indexes.bundles.length)
    (hchecked : state.2 = some rank → Differ candidate current rank → rank ∈ ranks) :
    ∃ next, exceptionalDifference indexes candidate current state rank = .ok next ∧
      next.2 = some rank ∧
      IsLeastRanked indexes.bundles (ranks ∪ {other | other = rank ∧ Differ candidate current other})
        next.1 := by
  have hsame : (Differ candidate current rank → rank ∈ ranks) →
      ranks ∪ {other | other = rank ∧ Differ candidate current other} = ranks := by
    intro hmem
    refine Set.union_eq_left.mpr ?_
    rintro other ⟨rfl, hdiffers⟩
    exact hmem hdiffers
  rw [exceptionalDifference]
  by_cases hskip : state.2 = some rank
  · refine ⟨state, by rw [if_pos hskip], hskip, ?_⟩
    rwa [hsame (hchecked hskip)]
  rw [if_neg hskip]
  by_cases hdiffers : Differ candidate current rank
  · refine ⟨(minOptionalRanked state.1 (rankedEntry indexes.bundles rank), some rank), ?_, rfl, ?_⟩
    · rw [if_pos hdiffers, rankedGroup_eq hrank]
      rfl
    · have hsingleton : {other | other = rank ∧ Differ candidate current other} = {rank} := by
        ext other
        simp only [Set.mem_ofPred_eq, Set.mem_singleton_iff, and_iff_left_iff_imp]
        rintro rfl
        exact hdiffers
      rw [hsingleton]
      exact hbest.minOptionalRanked (.singleton rank)
  · refine ⟨(state.1, some rank), by rw [if_neg hdiffers]; rfl, rfl, ?_⟩
    rwa [hsame fun h => absurd h hdiffers]

section

variable (hranks : Ranks indexes R floor)

include hranks

theorem firstRegularBundleDifference_eq {candidate current : RegularChoice}
    (hcandidate : ValidRegular indexes candidate) (hcurrent : ValidRegular indexes current) :
    ∃ difference, firstRegularBundleDifference indexes candidate current = .ok difference ∧
      IsLeastRanked indexes.bundles
        {rank | rank < R.bundles.length ∧ Differ candidate current rank} difference := by
  have hcandidateLe := hcandidate.prefix_le
  have hcurrentLe := hcurrent.prefix_le
  have hlength := hranks.bundles_length
  obtain ⟨found, hfound, hleast⟩ := rangeMinExcluding_isLeast hranks.bundles_below
    hranks.bundleLex
    (min_le_max (a := candidate.hull.bundlePrefixLen) (b := current.hull.bundlePrefixLen)) (by omega)
    (candidate.exceptionalBundleRank, current.exceptionalBundleRank)
  -- Outside the exceptional ranks the choices differ exactly between their prefixes.
  have hordinary : ∀ rank, candidate.exceptionalBundleRank ≠ some rank →
      current.exceptionalBundleRank ≠ some rank → (Differ candidate current rank ↔
        min candidate.hull.bundlePrefixLen current.hull.bundlePrefixLen ≤ rank ∧
          rank < max candidate.hull.bundlePrefixLen current.hull.bundlePrefixLen) := by
    intro rank hfirst hsecond
    rw [Differ, bundlePlanesForChoice, bundlePlanesForChoice, if_neg hfirst, if_neg hsecond]
    change (if rank < candidate.hull.bundlePrefixLen then 3 else 1) ≠
      (if rank < current.hull.bundlePrefixLen then 3 else 1) ↔ _
    split <;> split <;> omega
  generalize hrange : {rank | _} = ranks at hleast
  have hranksEq : {rank | rank < R.bundles.length ∧ Differ candidate current rank} = ranks ∪
      {rank | (candidate.exceptionalBundleRank = some rank ∨
        current.exceptionalBundleRank = some rank) ∧ Differ candidate current rank} := by
    ext rank
    simp only [← hrange, Set.mem_ofPred_eq, Set.mem_union]
    by_cases hfirst : candidate.exceptionalBundleRank = some rank
    · have := hcandidate.special_lt rank hfirst
      simp only [hfirst, ne_eq, not_true_eq_false, false_and, and_false, true_or, true_and, false_or]
      omega
    by_cases hsecond : current.exceptionalBundleRank = some rank
    · have := hcurrent.special_lt rank hsecond
      simp only [hsecond, ne_eq, not_true_eq_false, and_false, or_true, true_and, false_or]
      omega
    · have hiff := hordinary rank hfirst hsecond
      rw [Differ] at hiff
      simp only [hfirst, hsecond, false_and, or_false, ne_eq, not_false_eq_true, and_true]
      omega
  rw [hranksEq, firstRegularBundleDifference, hfound]
  rcases hfirst : candidate.exceptionalBundleRank with _ | first
  · rcases hsecond : current.exceptionalBundleRank with _ | second
    · refine ⟨found, rfl, ?_⟩
      simpa using hleast
    · obtain ⟨next, hnext, _, hnextLeast⟩ := exceptionalDifference_eq candidate current
        (found, none) hleast
        (hcurrent.special_lt second hsecond) (by simp)
      refine ⟨next.1, ?_, ?_⟩
      · simp [hnext]
      · convert hnextLeast using 3
        simp [eq_comm]
  · obtain ⟨next, hnext, hchecked, hnextLeast⟩ := exceptionalDifference_eq
      candidate current (found, none) hleast
      (hcandidate.special_lt first hfirst) (by simp)
    rcases hsecond : current.exceptionalBundleRank with _ | second
    · refine ⟨next.1, ?_, ?_⟩
      · simp [hnext]
      · convert hnextLeast using 3
        simp [eq_comm]
    · obtain ⟨last, hlast, _, hlastLeast⟩ := exceptionalDifference_eq
        candidate current next hnextLeast
        (hcurrent.special_lt second hsecond) (by
          intro heq hdiffers
          rw [hchecked, Option.some.injEq] at heq
          exact Or.inr ⟨heq.symm, hdiffers⟩)
      refine ⟨last.1, ?_, ?_⟩
      · simp [hnext, hlast]
      · rw [Set.union_assoc] at hlastLeast
        convert hlastLeast using 3
        ext other
        simp only [Set.mem_ofPred_eq, Option.some.injEq, Set.mem_union]
        tauto

theorem hullBundlePlanes_eq (hvalid : ValidChoice indexes hull special) (rank : ℕ)
    (hrank : rank < R.bundles.length) :
    choiceLevels R hull special 0 R.bundles[rank] + 1 = hullBundlePlanes hull rank special := by
  rw [choiceLevels_bundle hrank hull (hranks.bundles_length ▸ hvalid.special_lt), hullBundlePlanes]
  split
  · rfl
  · split <;> rfl

theorem bundlePlanesForChoice_eq (hvalid : ValidRegular indexes choice) (rank : ℕ)
    (hrank : rank < R.bundles.length) :
    regularLevels R choice R.bundles[rank] + 1 = bundlePlanesForChoice choice rank := by
  rw [regularLevels, choiceLevels_bundle hrank choice.hull
    (hranks.bundles_length ▸ hvalid.special_lt), bundlePlanesForChoice]
  split
  · rfl
  · change (if rank < choice.hull.bundlePrefixLen then 2 else 0) + 1 =
      if rank < choice.hull.bundlePrefixLen then 3 else 1
    split <;> rfl

theorem ValidChoice.levels_of_notMem (hvalid : ValidChoice indexes hull special) (level : ℕ) :
    ∀ i ∉ R.bundles, choiceLevels R hull special level i = R.stepLevels hull.unitCount i :=
  fun _ hi => choiceLevels_of_notMem hi (hranks.bundles_length ▸ hvalid.special_lt) level

theorem hullChoiceLexIsGreater_eq (hcandidate : ValidChoice indexes candidate special)
    (hcurrent : ValidChoice indexes current special) :
    ∃ answer, hullChoiceLexIsGreater indexes candidate current special = .ok answer ∧
      (answer = true ↔ toLex (choiceLevels R current special 0) <
        toLex (choiceLevels R candidate special 0)) := by
  obtain ⟨units, hunits, hunitsFirst, hmore⟩ := prefixDifference_eq hranks
    hcandidate.unitCount_le hcurrent.unitCount_le (hcandidate.levels_of_notMem hranks 0)
    (hcurrent.levels_of_notMem hranks 0)
  obtain ⟨bundles, hbundles, hleast⟩ := firstHullBundleDifference_eq hranks hcandidate hcurrent
  obtain ⟨hbundlesFirst, hplanes⟩ := isFirstDifference_of_isLeastRanked hranks
    (hullBundlePlanes_eq hranks hcandidate) (hullBundlePlanes_eq hranks hcurrent) hleast
  exact ⟨_, by rw [hullChoiceLexIsGreater, hunits, hbundles]; rfl,
    firstDifferencePrefersCandidate_iff hunitsFirst hmore hbundlesFirst hplanes⟩

theorem regularChoiceLexIsGreater_eq {candidate current : RegularChoice}
    (hcandidate : ValidRegular indexes candidate) (hcurrent : ValidRegular indexes current) :
    ∃ answer, regularChoiceLexIsGreater indexes candidate current = .ok answer ∧
      (answer = true ↔ toLex (regularLevels R current) < toLex (regularLevels R candidate)) := by
  obtain ⟨units, hunits, hunitsFirst, hmore⟩ := prefixDifference_eq hranks
    hcandidate.unitCount_le hcurrent.unitCount_le (hcandidate.levels_of_notMem hranks 1)
    (hcurrent.levels_of_notMem hranks 1)
  obtain ⟨bundles, hbundles, hleast⟩ := firstRegularBundleDifference_eq hranks hcandidate hcurrent
  obtain ⟨hbundlesFirst, hplanes⟩ := isFirstDifference_of_isLeastRanked hranks
    (bundlePlanesForChoice_eq hranks hcandidate) (bundlePlanesForChoice_eq hranks hcurrent) hleast
  exact ⟨_, by rw [regularChoiceLexIsGreater, hunits, hbundles]; rfl,
    firstDifferencePrefersCandidate_iff hunitsFirst hmore hbundlesFirst hplanes⟩

end

/-- The two comparisons share their shape: gain first, then upgrades, then the first difference. -/
theorem compareChoices_eq {candidateSum currentSum : ExactDistortion}
    {candidateUpgrades currentUpgrades : ℕ}
    (hcandidate : candidateSum.toNat = p.value x) (hcurrent : currentSum.toNat = p.value y)
    (hupgrades : p.weight x + currentUpgrades = p.weight y + candidateUpgrades)
    {lexIsGreater : Outcome PhysicalAllocError Bool}
    (hlex : ∃ answer, lexIsGreater = .ok answer ∧ (answer = true ↔ toLex y < toLex x)) :
    ∃ answer,
      (match candidateSum.cmp currentSum with
        | .gt => return true
        | .lt => return false
        | .eq =>
          if candidateUpgrades ≠ currentUpgrades then
            return decide (candidateUpgrades < currentUpgrades)
          else
            lexIsGreater) = Outcome.ok answer ∧ (answer = true ↔ p.key y < p.key x) := by
  rw [ExactDistortion.cmp_eq, hcandidate, hcurrent, Problem.key_lt_iff]
  rcases lt_trichotomy (p.value x) (p.value y) with hlt | heq | hgt
  · refine ⟨false, by rw [Nat.compare_eq_lt.mpr hlt]; rfl, ?_⟩
    simp only [Bool.false_eq_true, false_iff]
    omega
  · rw [Nat.compare_eq_eq.mpr heq]
    by_cases hne : candidateUpgrades ≠ currentUpgrades
    · refine ⟨decide (candidateUpgrades < currentUpgrades), if_pos hne, ?_⟩
      rw [decide_eq_true_iff]
      omega
    · obtain ⟨answer, hanswer, hiff⟩ := hlex
      refine ⟨answer, by simp only [if_neg hne, hanswer], hiff.trans ?_⟩
      have hweight : p.weight x = p.weight y := by omega
      simp [heq, hweight]
  · refine ⟨true, by rw [Nat.compare_eq_gt.mpr hgt]; rfl, ?_⟩
    exact iff_of_true rfl (Or.inl hgt)

theorem hullChoiceIsBetter_eq (hranks : Ranks indexes R floor) (profile : SaltV2Profile)
    (hcandidate : ValidChoice indexes candidate special)
    (hcurrent : ValidChoice indexes current special)
    (hupgrades : p.weight (choiceLevels R candidate special 0) + current.upgrades =
      p.weight (choiceLevels R current special 0) + candidate.upgrades) :
    ∃ answer, hullChoiceIsBetter indexes profile candidate current special = .ok answer ∧
      (answer = true ↔ p.key (choiceLevels R current special 0) <
        p.key (choiceLevels R candidate special 0)) := by
  obtain ⟨candidateSum, hcandidateSum, hcandidateValue⟩ := hullReduction_eq hranks profile hcandidate
  obtain ⟨currentSum, hcurrentSum, hcurrentValue⟩ := hullReduction_eq hranks profile hcurrent
  rw [hullChoiceIsBetter, hcandidateSum, hcurrentSum]
  exact compareChoices_eq hcandidateValue hcurrentValue hupgrades
    (hullChoiceLexIsGreater_eq hranks hcandidate hcurrent)

/-- A regular choice whose recorded upgrades are the weight of the levels it names. -/
structure CountedChoice (indexes : RegularIndexes U B) (R : Ranking p) (choice : RegularChoice) :
    Prop where
  valid : ValidRegular indexes choice
  weight_eq : p.weight (regularLevels R choice) =
    choice.hull.upgrades + choice.exceptionalBundleRank.isSome.toNat

theorem regularChoiceIsBetter_eq (hranks : Ranks indexes R floor) (profile : SaltV2Profile)
    {candidate current : RegularChoice} (hcandidate : CountedChoice indexes R candidate)
    (hcurrent : CountedChoice indexes R current) :
    ∃ answer, regularChoiceIsBetter indexes profile candidate current = .ok answer ∧
      (answer = true ↔ p.key (regularLevels R current) < p.key (regularLevels R candidate)) := by
  have hcandidateWeight := hcandidate.weight_eq
  have hcurrentWeight := hcurrent.weight_eq
  obtain ⟨candidateSum, hcandidateSum, hcandidateValue⟩ :=
    regularReduction_eq hranks profile hcandidate.valid
  obtain ⟨currentSum, hcurrentSum, hcurrentValue⟩ :=
    regularReduction_eq hranks profile hcurrent.valid
  rw [regularChoiceIsBetter, hcandidateSum, hcurrentSum]
  exact compareChoices_eq hcandidateValue hcurrentValue (by omega)
    (regularChoiceLexIsGreater_eq hranks hcandidate.valid hcurrent.valid)

end Comparison

end Tritium.Allocator
