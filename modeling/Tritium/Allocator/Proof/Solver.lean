import Tritium.Allocator.Proof.Choices

/-!
# The solver finds the optimum

The solver never writes a plane vector out. It keeps the best hull for every bundle count from below
and, with one bundle more, from above; setting a bundle aside leaves the order of either list as it
was, so the best hull without a bundle is one comparison away. `bestRegularChoice_isGreatest` collects
this: the choice returned names the greatest feasible levels.
-/

namespace Tritium.Allocator

open List
open Knapsack

variable {special : Option ℕ} {rank bundles maximum : ℕ} {replacement : Bool}
  {current : RegularChoice} {seen : RegularChoice → Prop}

variable {U B : Type} [RankedUnitUpgrade U] [RankedBundledUpgrade B]
  {indexes : RegularIndexes U B} {p : Problem ℕ} {R : Ranking p} {floor : ℕ → ℕ}
  {candidate : RegularChoice} {hull : HullChoice}

/-! ### Levels of the enumerated choices -/

theorem weight_choiceLevels (hranks : Ranks indexes R floor)
    (hvalid : ValidChoice indexes hull special) (level : ℕ) :
    p.weight (choiceLevels R hull special level) +
        (special.elim 0 fun rank => if rank < hull.bundlePrefixLen then 2 else 0) =
      hull.unitCount + 2 * hull.bundlePrefixLen + special.elim 0 fun _ => level := by
  have hhull := R.weight_hullLevels (hranks.steps_length ▸ hvalid.unitCount_le)
    (hranks.bundles_length ▸ hvalid.prefix_le)
  cases special with
  | none => simpa [choiceLevels] using hhull
  | some rank =>
    have hrank : rank < R.bundles.length := hranks.bundles_length ▸ hvalid.special_lt rank rfl
    have hupdate := Problem.weight_update
      (s := R.hullLevels hull.unitCount hull.bundlePrefixLen)
      (R.mem_support_of_bundle _ (getElem_mem hrank)) level
    rw [R.hullLevels_bundle hrank, hhull] at hupdate
    rw [choiceLevels, getD_eq_getElem _ _ hrank]
    exact hupdate

theorem choiceLevels_le_top (hranks : Ranks indexes R floor)
    (hvalid : ValidChoice indexes hull special) (i : ℕ) :
    choiceLevels R hull special 1 i ≤ p.top i := by
  have htop := R.hullLevels_le_top (hranks.steps_length ▸ hvalid.unitCount_le)
    hull.bundlePrefixLen
  cases special with
  | none => exact htop i
  | some rank =>
    have hrank : rank < R.bundles.length := hranks.bundles_length ▸ hvalid.special_lt rank rfl
    rw [choiceLevels, getD_eq_getElem _ _ hrank]
    rcases eq_or_ne i R.bundles[rank] with rfl | hne
    · rw [Function.update_self, R.top_of_bundle _ (getElem_mem hrank)]
      decide
    · rw [Function.update_of_ne hne]
      exact htop i

/-- Setting a bundle aside in two hulls that treat it alike keeps their order. -/
theorem key_setAside_le {first second : HullChoice} (hrank : rank < R.bundles.length)
    (hsame : rank < first.bundlePrefixLen ↔ rank < second.bundlePrefixLen) (level : ℕ)
    (hle : p.key (choiceLevels R first none 0) ≤ p.key (choiceLevels R second none 0)) :
    p.key (choiceLevels R first (some rank) level) ≤
      p.key (choiceLevels R second (some rank) level) := by
  simp only [choiceLevels, getD_eq_getElem _ _ hrank]
  refine Problem.key_update_le (R.mem_support_of_bundle _ (getElem_mem hrank)) ?_ level hle
  rw [R.hullLevels_bundle hrank, R.hullLevels_bundle hrank]
  exact if_congr hsame rfl rfl

theorem key_raise_le {first second : HullChoice} (hrank : rank < R.bundles.length) (level : ℕ)
    (hle : p.key (choiceLevels R first (some rank) 0) ≤
      p.key (choiceLevels R second (some rank) 0)) :
    p.key (choiceLevels R first (some rank) level) ≤
      p.key (choiceLevels R second (some rank) level) := by
  have hraise := Problem.key_update_le (R.mem_support_of_bundle _ (getElem_mem hrank))
    (by simp only [choiceLevels, getD_eq_getElem _ _ hrank, Function.update_self]) level hle
  simpa only [choiceLevels, getD_eq_getElem _ _ hrank, Function.update_idem] using hraise

omit [RankedUnitUpgrade U] [RankedBundledUpgrade B] in
theorem validChoice_hullWithBundles (capacity : ℕ)
    (hleading : bundles + replacement.toNat ≤ indexes.bundles.length)
    (hspecial : ∀ rank ∈ special, rank < indexes.bundles.length) :
    ValidChoice indexes (hullWithBundles indexes capacity bundles replacement) special :=
  ⟨min_le_left _ _, hleading, hspecial⟩

section

variable (hranks : Ranks indexes R floor)

include hranks

/-- Without a bundle set aside, the weight of a hull is its upgrade count, and two more when it
holds one bundle more than it counts. -/
theorem weight_hullWithBundles {capacity : ℕ}
    (hleading : bundles + replacement.toNat ≤ indexes.bundles.length) :
    p.weight (choiceLevels R (hullWithBundles indexes capacity bundles replacement) none 0) =
      (hullWithBundles indexes capacity bundles replacement).upgrades + 2 * replacement.toNat := by
  have hweight := weight_choiceLevels hranks (validChoice_hullWithBundles capacity hleading
    (show ∀ rank ∈ (none : Option ℕ), rank < indexes.bundles.length by simp)) 0
  simp only [Option.elim_none, hullWithBundles, HullChoice.bundlePrefixLen,
    HullChoice.upgrades] at hweight ⊢
  omega

theorem retainBetterHullChoice_eq (profile : SaltV2Profile) {candidate current : HullChoice}
    (hcandidate : ValidChoice indexes candidate special)
    (hcurrent : ValidChoice indexes current special)
    (hupgrades : p.weight (choiceLevels R candidate special 0) + current.upgrades =
      p.weight (choiceLevels R current special 0) + candidate.upgrades) :
    ∃ kept, retainBetterHullChoice indexes profile (some current) candidate special =
        .ok (some kept) ∧ (kept = candidate ∨ kept = current) ∧
      p.key (choiceLevels R candidate special 0) ≤ p.key (choiceLevels R kept special 0) ∧
      p.key (choiceLevels R current special 0) ≤ p.key (choiceLevels R kept special 0) := by
  obtain ⟨answer, hanswer, hiff⟩ := hullChoiceIsBetter_eq hranks profile hcandidate hcurrent
    hupgrades
  refine ⟨if answer then candidate else current, ?_, ?_, ?_⟩
  · simp only [retainBetterHullChoice, hanswer, ok_bind, pure_eq_ok]
    cases answer <;> rfl
  · cases answer <;> simp
  · cases answer with
    | true => exact ⟨le_rfl, (hiff.mp rfl).le⟩
    | false => exact ⟨not_lt.mp fun hlt => Bool.false_ne_true (hiff.mpr hlt), le_rfl⟩

theorem retainBetterRegularChoice_eq (profile : SaltV2Profile)
    (hcandidate : CountedChoice indexes R candidate) (hcurrent : CountedChoice indexes R current) :
    ∃ kept, retainBetterRegularChoice indexes profile (some current) candidate =
        .ok (some kept) ∧ (kept = candidate ∨ kept = current) ∧
      p.key (regularLevels R candidate) ≤ p.key (regularLevels R kept) ∧
      p.key (regularLevels R current) ≤ p.key (regularLevels R kept) := by
  obtain ⟨answer, hanswer, hiff⟩ := regularChoiceIsBetter_eq hranks profile hcandidate hcurrent
  refine ⟨if answer then candidate else current, ?_, ?_, ?_⟩
  · simp only [retainBetterRegularChoice, hanswer, ok_bind, pure_eq_ok]
    cases answer <;> rfl
  · cases answer <;> simp
  · cases answer with
    | true => exact ⟨le_rfl, (hiff.mp rfl).le⟩
    | false => exact ⟨not_lt.mp fun hlt => Bool.false_ne_true (hiff.mpr hlt), le_rfl⟩

end

section Enumeration

variable (hranks : Ranks indexes R floor) (profile : SaltV2Profile) (capacity : ℕ)
  {replacementBest ordinaryBest : List ℕ} {choice : RegularChoice}

include hranks

/-- `counts[limit]` is the best bundle count among those allowed at `limit`. -/
def BestAt (indexes : RegularIndexes U B) (R : Ranking p) (capacity : ℕ) (replacement : Bool)
    (allowed : ℕ → Prop) (best : ℕ) : Prop :=
  allowed best ∧ ∀ other, allowed other →
    p.key (choiceLevels R (hullWithBundles indexes capacity other replacement) none 0) ≤
      p.key (choiceLevels R (hullWithBundles indexes capacity best replacement) none 0)

/-- One more bundle count competes with the best of the earlier ones. -/
theorem BestAt.retain {allowed : ℕ → Prop} {best candidate : ℕ}
    (hbest : BestAt indexes R capacity replacement allowed best)
    (hinside : best + replacement.toNat ≤ indexes.bundles.length)
    (hcandidate : candidate + replacement.toNat ≤ indexes.bundles.length) :
    ∃ kept, retainBetterHullChoice indexes profile
        (some (hullWithBundles indexes capacity best replacement))
        (hullWithBundles indexes capacity candidate replacement) none =
        .ok (some (hullWithBundles indexes capacity kept replacement)) ∧
      BestAt indexes R capacity replacement (fun count => count = candidate ∨ allowed count) kept := by
  have hnone : ∀ rank ∈ (none : Option ℕ), rank < indexes.bundles.length := by simp
  obtain ⟨kept, hkept, hor, hfirst, hsecond⟩ := retainBetterHullChoice_eq hranks profile
    (validChoice_hullWithBundles capacity hcandidate hnone)
    (validChoice_hullWithBundles capacity hinside hnone) (by
      rw [weight_hullWithBundles hranks hcandidate, weight_hullWithBundles hranks hinside]
      omega)
  have hgreatest : ∀ other, other = candidate ∨ allowed other →
      p.key (choiceLevels R (hullWithBundles indexes capacity other replacement) none 0) ≤
        p.key (choiceLevels R kept none 0) := by
    rintro other (rfl | hother)
    · exact hfirst
    · exact (hbest.2 other hother).trans hsecond
  rcases hor with rfl | rfl
  · exact ⟨candidate, hkept, .inl rfl, hgreatest⟩
  · exact ⟨best, hkept, .inr hbest.1, hgreatest⟩

def BestBelow (indexes : RegularIndexes U B) (R : Ranking p) (capacity maximum : ℕ)
    (counts : List ℕ) : Prop :=
  ∀ limit ≤ maximum, ∃ kept, counts[limit]? = some kept ∧
    BestAt indexes R capacity false (· ≤ limit) kept

def BestAbove (indexes : RegularIndexes U B) (R : Ranking p) (capacity maximum : ℕ)
    (counts : List ℕ) : Prop :=
  ∀ limit ≤ maximum, ∃ kept, counts[limit]? = some kept ∧
    BestAt indexes R capacity true (fun count => limit ≤ count ∧ count ≤ maximum) kept

theorem foldlM_ordinaryPrefixBest (count : ℕ) (hcount : count ≤ indexes.bundles.length) :
    ∃ best counts,
      (range (count + 1)).foldlM
        (fun (state : Option HullChoice × List Nat) selectedBundles => do
          let (prefixBest, counts) := state
          let prefixBest ← retainBetterHullChoice indexes profile prefixBest
            (hullWithBundles indexes capacity selectedBundles false) none
          let current ← expect prefixBest
          return (prefixBest, counts ++ [current.bundleCount]))
        (none, []) = (.ok (some (hullWithBundles indexes capacity best false), counts) :
          Outcome PhysicalAllocError (Option HullChoice × List Nat)) ∧
      counts.length = count + 1 ∧ counts[count]? = some best ∧
      BestBelow indexes R capacity count counts := by
  induction count with
  | zero =>
    refine ⟨0, [0], rfl, rfl, rfl, fun limit hlimit => ?_⟩
    obtain rfl : limit = 0 := by omega
    refine ⟨0, rfl, le_rfl, fun other hother => ?_⟩
    obtain rfl : other = 0 := by omega
    exact le_rfl
  | succ count ih =>
    obtain ⟨best, counts, hfold, hlength, hlast, hall⟩ := ih (by omega)
    obtain ⟨current, hcurrent, hbest⟩ := hall count le_rfl
    obtain rfl : best = current := Option.some.inj (hlast.symm.trans hcurrent)
    have hbestLe : best ≤ count := hbest.1
    obtain ⟨kept, hkept, hkeptBest⟩ := hbest.retain hranks profile capacity
      (show best + 0 ≤ _ by omega) (show count + 1 + 0 ≤ _ from hcount)
    have hallowed : (fun other => other = count + 1 ∨ other ≤ count) = (· ≤ count + 1) := by
      ext
      omega
    refine ⟨kept, counts ++ [kept], ?_, by simp [hlength], ?_, fun limit hlimit => ?_⟩
    · rw [range_succ, foldlM_append, hfold, ok_bind, foldlM_cons]
      dsimp only
      rw [hkept]
      rfl
    · rw [getElem?_append_right (by omega), hlength, Nat.sub_self]
      rfl
    · rcases lt_or_eq_of_le hlimit with _ | rfl
      · obtain ⟨earlier, hearlier, hearlierBest⟩ := hall limit (by omega)
        refine ⟨earlier, ?_, hearlierBest⟩
        rw [getElem?_append_left (by omega), hearlier]
      · refine ⟨kept, ?_, hallowed ▸ hkeptBest⟩
        rw [getElem?_append_right (by omega), hlength, Nat.sub_self]
        rfl

theorem ordinaryPrefixBest_eq (hmaximum : maximum ≤ indexes.bundles.length) :
    ∃ counts, ordinaryPrefixBest indexes profile capacity maximum = .ok counts ∧
      BestBelow indexes R capacity maximum counts := by
  obtain ⟨best, counts, hfold, _, _, hall⟩ := foldlM_ordinaryPrefixBest hranks profile capacity
    maximum hmaximum
  refine ⟨counts, ?_, hall⟩
  rw [ordinaryPrefixBest, hfold]
  rfl

/-- Working down from `maximum`, the counts at or above `low` being settled. -/
theorem foldlM_replacementSuffixBest
    (hmaximum : maximum + 1 ≤ indexes.bundles.length) (low : ℕ) (hlow : low ≤ maximum + 1)
    (best : Option HullChoice) (counts : List ℕ) (hlength : counts.length = maximum + 1)
    (hbest : (low = maximum + 1 ∧ best = none) ∨ ∃ kept, counts[low]? = some kept ∧
      best = some (hullWithBundles indexes capacity kept true))
    (hsettled : ∀ limit, low ≤ limit → limit ≤ maximum → ∃ kept, counts[limit]? = some kept ∧
      BestAt indexes R capacity true (fun count => limit ≤ count ∧ count ≤ maximum) kept) :
    ∃ final filled,
      (range low).reverse.foldlM
        (fun (state : Option HullChoice × List Nat) selectedBundles => do
          let (suffixBest, counts) := state
          let suffixBest ← retainBetterHullChoice indexes profile suffixBest
            (hullWithBundles indexes capacity selectedBundles true) none
          let current ← expect suffixBest
          let counts ← setIndex counts selectedBundles current.bundleCount
          return (suffixBest, counts))
        (best, counts) =
        (.ok (final, filled) : Outcome PhysicalAllocError (Option HullChoice × List Nat)) ∧
      BestAbove indexes R capacity maximum filled := by
  induction low generalizing best counts with
  | zero => exact ⟨best, counts, rfl, fun limit hlimit => hsettled limit (Nat.zero_le _) hlimit⟩
  | succ low ih =>
    obtain ⟨kept, hkept, hkeptBest⟩ : ∃ kept,
        retainBetterHullChoice indexes profile best
          (hullWithBundles indexes capacity low true) none =
          .ok (some (hullWithBundles indexes capacity kept true)) ∧
        BestAt indexes R capacity true (fun count => low ≤ count ∧ count ≤ maximum) kept := by
      rcases hbest with ⟨_, rfl⟩ | ⟨current, hcurrent, rfl⟩
      · refine ⟨low, rfl, ⟨le_rfl, by omega⟩, fun other hother => ?_⟩
        obtain rfl : other = low := by omega
        exact le_rfl
      · have hlowMax : low + 1 ≤ maximum := by
          have := (List.getElem?_eq_some_iff.mp hcurrent).1
          omega
        obtain ⟨settled, hsettledGet, hcurrentBest⟩ := hsettled (low + 1) le_rfl hlowMax
        obtain rfl : current = settled := Option.some.inj (hcurrent.symm.trans hsettledGet)
        have hinside := hcurrentBest.1.2
        obtain ⟨kept, hretained, hkeptBest⟩ := hcurrentBest.retain hranks profile capacity
          (show current + 1 ≤ _ by omega) (show low + 1 ≤ _ by omega)
        have hallowed : (fun count => count = low ∨ low + 1 ≤ count ∧ count ≤ maximum) =
            fun count => low ≤ count ∧ count ≤ maximum := by
          ext
          omega
        exact ⟨kept, hretained, hallowed ▸ hkeptBest⟩
    have hget : ∀ limit, (counts.set low kept)[limit]? =
        if low = limit then some kept else counts[limit]? := by
      intro limit
      rw [getElem?_set]
      refine if_congr Iff.rfl ?_ rfl
      rw [if_pos (by omega)]
    obtain ⟨final, filled, hfold, hall⟩ := ih (by omega)
      (some (hullWithBundles indexes capacity kept true)) (counts.set low kept)
      (by rw [length_set, hlength]) (Or.inr ⟨kept, by rw [hget, if_pos rfl], rfl⟩)
      (fun limit hlimit hle => by
        rw [hget]
        rcases lt_or_eq_of_le hlimit with hlt | rfl
        · rw [if_neg (by omega)]
          exact hsettled limit hlt hle
        · exact ⟨kept, if_pos rfl, hkeptBest⟩)
    refine ⟨final, filled, ?_, hall⟩
    rw [range_succ, reverse_append, reverse_singleton, singleton_append, foldlM_cons]
    dsimp only
    rw [hkept, ok_bind, expect_some, ok_bind, setIndex_of_lt (by omega)]
    exact hfold

theorem replacementSuffixBest_eq (hmaximum : maximum + 1 ≤ indexes.bundles.length) :
    ∃ counts, replacementSuffixBest indexes profile capacity maximum = .ok counts ∧
      BestAbove indexes R capacity maximum counts := by
  obtain ⟨final, counts, hfold, hall⟩ := foldlM_replacementSuffixBest hranks profile capacity
    hmaximum (maximum + 1) le_rfl none (replicate (maximum + 1) 0) length_replicate
    (Or.inl ⟨rfl, rfl⟩) (fun limit hlow hhigh => by omega)
  refine ⟨counts, ?_, hall⟩
  rw [replacementSuffixBest, hfold]
  rfl

/-! ### Setting one bundle aside -/

/-- A hull next to an exceptional bundle: it stops before that bundle, or takes one bundle more. -/
structure BesideBundle (indexes : RegularIndexes U B) (capacity rank bundles : ℕ)
    (replacement : Bool) : Prop where
  beside : replacement = false ∧ bundles ≤ rank ∨ replacement = true ∧ rank < bundles
  prefix_le : bundles + replacement.toNat ≤ indexes.bundles.length
  fits : 2 * bundles ≤ capacity

section

variable (hrank : rank < indexes.bundles.length)

include hrank

section

variable (hbeside : BesideBundle indexes capacity rank bundles replacement)

include hbeside

omit [RankedUnitUpgrade U] [RankedBundledUpgrade B] hranks in
theorem BesideBundle.validChoice :
    ValidChoice indexes (hullWithBundles indexes capacity bundles replacement) (some rank) :=
  validChoice_hullWithBundles _ hbeside.prefix_le fun _ hother => Option.some.inj hother ▸ hrank

theorem BesideBundle.weight_eq (level : ℕ) :
    p.weight (choiceLevels R (hullWithBundles indexes capacity bundles replacement) (some rank)
      level) = (hullWithBundles indexes capacity bundles replacement).upgrades + level := by
  have hweight := weight_choiceLevels hranks (hbeside.validChoice capacity hrank) level
  have hleading : (hullWithBundles indexes capacity bundles replacement).bundlePrefixLen =
      bundles + replacement.toNat := rfl
  have hupgrades : (hullWithBundles indexes capacity bundles replacement).upgrades =
      bundles * 2 + (hullWithBundles indexes capacity bundles replacement).unitCount := rfl
  rw [Option.elim_some, Option.elim_some] at hweight
  rcases hbeside.beside with ⟨rfl, _⟩ | ⟨rfl, _⟩
  · rw [Bool.toNat_false] at hleading
    rw [if_neg (by omega)] at hweight
    omega
  · rw [Bool.toNat_true] at hleading
    rw [if_pos (by omega)] at hweight
    omega

end

theorem bestWithoutBundle_eq
    (hordinary : BestBelow indexes R capacity (min indexes.bundles.length (capacity / 2))
      ordinaryBest)
    (hreplacement : BestAbove indexes R capacity (min (indexes.bundles.length - 1) (capacity / 2))
      replacementBest) :
    ∃ bundles replacement,
      bestWithoutBundle indexes profile capacity (min indexes.bundles.length (capacity / 2))
        (min (indexes.bundles.length - 1) (capacity / 2)) ordinaryBest replacementBest rank =
        .ok (hullWithBundles indexes capacity bundles replacement) ∧
      BesideBundle indexes capacity rank bundles replacement ∧
      ∀ other otherReplacement, BesideBundle indexes capacity rank other otherReplacement →
        p.key (choiceLevels R (hullWithBundles indexes capacity other otherReplacement)
            (some rank) 1) ≤
          p.key (choiceLevels R (hullWithBundles indexes capacity bundles replacement)
            (some rank) 1) := by
  have hrank' : rank < R.bundles.length := hranks.bundles_length ▸ hrank
  obtain ⟨ordinary, hordinaryGet, _, hordinaryBest⟩ := hordinary
    (min rank (min indexes.bundles.length (capacity / 2))) (min_le_right _ _)
  have hordinaryBeside : BesideBundle indexes capacity rank ordinary false :=
    ⟨Or.inl ⟨rfl, by omega⟩, by simp only [Bool.toNat_false]; omega, by omega⟩
  have hordinaryWins : ∀ other, BesideBundle indexes capacity rank other false →
      p.key (choiceLevels R (hullWithBundles indexes capacity other false) (some rank) 1) ≤
        p.key (choiceLevels R (hullWithBundles indexes capacity ordinary false) (some rank) 1) := by
    intro other hother
    have hle : other ≤ rank := by simpa using hother.beside
    have hfits := hother.fits
    refine key_setAside_le hrank' ?_ 1 (hordinaryBest other (by omega))
    simp only [hullWithBundles, HullChoice.bundlePrefixLen, Bool.toNat_false]
    omega
  simp only [bestWithoutBundle]
  rw [Outcome.index, hordinaryGet, expect_some, ok_bind]
  by_cases hlt : rank < min (indexes.bundles.length - 1) (capacity / 2)
  · rw [if_pos hlt]
    obtain ⟨replaced, hreplacedGet, _, hreplacedBest⟩ := hreplacement (rank + 1) hlt
    have hreplacedBeside : BesideBundle indexes capacity rank replaced true :=
      ⟨Or.inr ⟨rfl, by omega⟩, by simp only [Bool.toNat_true]; omega, by omega⟩
    have hreplacedWins : ∀ other, BesideBundle indexes capacity rank other true →
        p.key (choiceLevels R (hullWithBundles indexes capacity other true) (some rank) 1) ≤
          p.key (choiceLevels R (hullWithBundles indexes capacity replaced true)
            (some rank) 1) := by
      intro other hother
      have hgt : rank < other := by simpa using hother.beside
      have hleading := hother.prefix_le
      have hfits := hother.fits
      simp only [Bool.toNat_true] at hleading
      refine key_setAside_le hrank' ?_ 1 (hreplacedBest other (by omega))
      simp only [hullWithBundles, HullChoice.bundlePrefixLen, Bool.toNat_true]
      omega
    obtain ⟨kept, hkept, hor, hfirst, hsecond⟩ := retainBetterHullChoice_eq hranks profile
      (hreplacedBeside.validChoice capacity hrank) (hordinaryBeside.validChoice capacity hrank) (by
        rw [hreplacedBeside.weight_eq hranks capacity hrank,
          hordinaryBeside.weight_eq hranks capacity hrank]
        omega)
    have hreplacedLe := key_raise_le hrank' 1 hfirst
    have hordinaryKept := key_raise_le hrank' 1 hsecond
    have hwins : ∀ other otherReplacement,
        BesideBundle indexes capacity rank other otherReplacement →
        p.key (choiceLevels R (hullWithBundles indexes capacity other otherReplacement)
          (some rank) 1) ≤ p.key (choiceLevels R kept (some rank) 1) := by
      intro other otherReplacement hother
      cases otherReplacement with
      | false => exact (hordinaryWins other hother).trans hordinaryKept
      | true => exact (hreplacedWins other hother).trans hreplacedLe
    have hresult : (do
        let replacementBundles ← Outcome.index replacementBest (rank + 1)
        let best ← retainBetterHullChoice indexes profile
          (some (hullWithBundles indexes capacity ordinary false))
          (hullWithBundles indexes capacity replacementBundles true) (some rank)
        expect best) = .ok kept := by
      rw [Outcome.index, hreplacedGet, expect_some, ok_bind, hkept, ok_bind, expect_some]
    rcases hor with rfl | rfl
    · exact ⟨replaced, true, hresult, hreplacedBeside, hwins⟩
    · exact ⟨ordinary, false, hresult, hordinaryBeside, hwins⟩
  · rw [if_neg hlt]
    refine ⟨ordinary, false, rfl, hordinaryBeside, fun other otherReplacement hother => ?_⟩
    cases otherReplacement with
    | false => exact hordinaryWins other hother
    | true =>
      have hleading := hother.prefix_le
      have hfits := hother.fits
      have hgt : rank < other := by simpa using hother.beside
      simp only [Bool.toNat_true] at hleading
      omega

end

inductive Enumerated (indexes : RegularIndexes U B) (capacity : ℕ) : RegularChoice → Prop
  | ordinary (bundles : ℕ) (hbundles : bundles ≤ indexes.bundles.length)
      (hfits : 2 * bundles ≤ capacity) :
      Enumerated indexes capacity ⟨hullWithBundles indexes capacity bundles false, none⟩
  | exceptional (rank : ℕ) (hrank : rank < indexes.bundles.length) (bundles : ℕ)
      (replacement : Bool) (hcapacity : 0 < capacity)
      (hbeside : BesideBundle indexes (capacity - 1) rank bundles replacement) :
      Enumerated indexes capacity
        ⟨hullWithBundles indexes (capacity - 1) bundles replacement, some rank⟩

theorem Enumerated.counted (hchoice : Enumerated indexes capacity choice) :
    CountedChoice indexes R choice := by
  cases hchoice with
  | ordinary bundles hbundles hfits =>
    have hleading : bundles + false.toNat ≤ indexes.bundles.length := hbundles
    exact ⟨validChoice_hullWithBundles _ hleading (by simp), weight_hullWithBundles hranks hleading⟩
  | exceptional rank hrank bundles replacement hcapacity hbeside =>
    exact ⟨hbeside.validChoice _ hrank, hbeside.weight_eq hranks _ hrank 1⟩

theorem Enumerated.feasible (hchoice : Enumerated indexes capacity choice) :
    p.Feasible capacity (regularLevels R choice) := by
  have hcounted := hchoice.counted hranks
  refine ⟨choiceLevels_le_top hranks hcounted.valid, ?_⟩
  rw [hcounted.weight_eq]
  cases hchoice with
  | ordinary bundles hbundles hfits =>
    simp only [HullChoice.upgrades, hullWithBundles, Option.isSome_none, Bool.toNat_false]
    omega
  | exceptional rank hrank bundles replacement hcapacity hbeside =>
    have hfits := hbeside.fits
    simp only [HullChoice.upgrades, hullWithBundles, Option.isSome_some, Bool.toNat_true]
    omega

structure BestOf (indexes : RegularIndexes U B) (R : Ranking p) (capacity : ℕ)
    (seen : RegularChoice → Prop) (best : RegularChoice) : Prop where
  enumerated : Enumerated indexes capacity best
  key_le : ∀ choice, seen choice → p.key (regularLevels R choice) ≤ p.key (regularLevels R best)

theorem retain_bestOf (hcurrent : BestOf indexes R capacity seen current)
    (hcandidate : Enumerated indexes capacity candidate) :
    ∃ kept, retainBetterRegularChoice indexes profile (some current) candidate = .ok (some kept) ∧
      BestOf indexes R capacity seen kept ∧
      p.key (regularLevels R candidate) ≤ p.key (regularLevels R kept) := by
  obtain ⟨kept, hkept, hor, hfirst, hsecond⟩ := retainBetterRegularChoice_eq hranks profile
    (hcandidate.counted hranks) (hcurrent.enumerated.counted hranks)
  refine ⟨kept, hkept, ⟨?_, fun choice hchoice => (hcurrent.key_le choice hchoice).trans hsecond⟩,
    hfirst⟩
  rcases hor with rfl | rfl
  · exact hcandidate
  · exact hcurrent.enumerated

theorem bestOrdinaryChoice_eq :
    ∃ best, bestOrdinaryChoice indexes profile capacity = .ok (some best) ∧
      BestOf indexes R capacity (fun choice => ∃ bundles ≤ indexes.bundles.length,
        2 * bundles ≤ capacity ∧
          choice = ⟨hullWithBundles indexes capacity bundles false, none⟩) best := by
  have hfold : ∀ count ≤ min indexes.bundles.length (capacity / 2), ∃ best,
      (range (count + 1)).foldlM
        (fun best selectedBundles =>
          retainBetterRegularChoice indexes profile best
            { hull := hullWithBundles indexes capacity selectedBundles false
              exceptionalBundleRank := none })
        none = .ok (some best) ∧ BestOf indexes R capacity (fun choice => ∃ bundles ≤ count,
        choice = ⟨hullWithBundles indexes capacity bundles false, none⟩) best := by
    intro count
    induction count with
    | zero =>
      refine fun _ => ⟨_, rfl, .ordinary 0 (Nat.zero_le _) (Nat.zero_le _), ?_⟩
      rintro _ ⟨bundles, hle, rfl⟩
      obtain rfl : bundles = 0 := by omega
      exact le_rfl
    | succ count ih =>
      intro hcount
      obtain ⟨current, hcurrent, hbest⟩ := ih (by omega)
      obtain ⟨kept, hkept, hkeptBest, hlast⟩ := retain_bestOf hranks profile capacity hbest
        (.ordinary (count + 1) (by omega) (by omega))
      refine ⟨kept, ?_, hkeptBest.enumerated, ?_⟩
      · rw [range_succ, foldlM_append, hcurrent, ok_bind, foldlM_cons, hkept]
        rfl
      · rintro _ ⟨bundles, hle, rfl⟩
        rcases lt_or_eq_of_le hle with _ | rfl
        · exact hkeptBest.key_le _ ⟨bundles, by omega, rfl⟩
        · exact hlast
  obtain ⟨best, hbest, henumerated, hkey⟩ := hfold _ le_rfl
  refine ⟨best, hbest, henumerated, ?_⟩
  rintro _ ⟨bundles, _, _, rfl⟩
  exact hkey _ ⟨bundles, by omega, rfl⟩

/-- The exceptional choices over the bundles from `first` on that gain something. -/
def ExceptionalFrom (indexes : RegularIndexes U B) (capacity first : ℕ) (choice : RegularChoice) :
    Prop :=
  ∃ rank, first ≤ rank ∧ ∃ hrank : rank < indexes.bundles.length,
    (firstPlaneReduction indexes.bundles[rank]).isZero = false ∧
    ∃ bundles replacement, BesideBundle indexes (capacity - 1) rank bundles replacement ∧
      choice = ⟨hullWithBundles indexes (capacity - 1) bundles replacement, some rank⟩

theorem foldlM_exceptional (hcapacity : 0 < capacity)
    (hordinary : BestBelow indexes R (capacity - 1)
      (min indexes.bundles.length ((capacity - 1) / 2)) ordinaryBest)
    (hreplacement : BestAbove indexes R (capacity - 1)
      (min (indexes.bundles.length - 1) ((capacity - 1) / 2)) replacementBest) (rest : List B)
    (first : ℕ) (hrest : indexes.bundles.drop first = rest)
    (hcurrent : BestOf indexes R capacity seen current) :
    ∃ best, (rest.zipIdx first).foldlM
        (fun best (entry : B × Nat) =>
          let (bundle, excludedRank) := entry
          if (firstPlaneReduction bundle).isZero then
            (Outcome.ok best : Outcome PhysicalAllocError (Option RegularChoice))
          else do
            let hull ← bestWithoutBundle indexes profile (capacity - 1)
              (min indexes.bundles.length ((capacity - 1) / 2))
              (min (indexes.bundles.length - 1) ((capacity - 1) / 2)) ordinaryBest replacementBest
              excludedRank
            retainBetterRegularChoice indexes profile best
              { hull, exceptionalBundleRank := some excludedRank })
        (some current) = .ok (some best) ∧ BestOf indexes R capacity
        (fun choice => seen choice ∨ ExceptionalFrom indexes capacity first choice) best := by
  induction rest generalizing first seen current with
  | nil =>
    refine ⟨current, rfl, hcurrent.enumerated, ?_⟩
    rintro choice (hseen | ⟨rank, hle, hrank, _⟩)
    · exact hcurrent.key_le choice hseen
    · rw [drop_eq_nil_iff] at hrest
      omega
  | cons bundle rest ih =>
    have hfirst : first < indexes.bundles.length := by
      by_contra hnot
      rw [drop_of_length_le (by omega)] at hrest
      cases hrest
    rw [drop_eq_getElem_cons hfirst, cons.injEq] at hrest
    obtain ⟨hbundle, htail⟩ := hrest
    rw [zipIdx_cons, foldlM_cons]
    dsimp only
    by_cases hzero : (firstPlaneReduction bundle).isZero = true
    · rw [if_pos hzero]
      obtain ⟨best, hbest, henumerated, hkey⟩ := ih (first + 1) htail hcurrent
      refine ⟨best, hbest, henumerated, ?_⟩
      rintro choice (hseen | ⟨rank, hle, hrank, hpositive, hform⟩)
      · exact hkey choice (Or.inl hseen)
      · rcases lt_or_eq_of_le hle with hlt | rfl
        · exact hkey choice (Or.inr ⟨rank, hlt, hrank, hpositive, hform⟩)
        · rw [hbundle, hzero] at hpositive
          cases hpositive
    · rw [if_neg hzero]
      obtain ⟨bundles, replacement, hhull, hbeside, hwins⟩ := bestWithoutBundle_eq hranks profile
        (capacity - 1) hfirst hordinary hreplacement
      obtain ⟨kept, hkept, hkeptBest, hlast⟩ := retain_bestOf hranks profile capacity hcurrent
        (.exceptional first hfirst bundles replacement hcapacity hbeside)
      rw [hhull, ok_bind, hkept]
      have hnext : BestOf indexes R capacity (fun choice => seen choice ∨ choice = kept) kept := by
        refine ⟨hkeptBest.enumerated, ?_⟩
        rintro choice (hseen | rfl)
        · exact hkeptBest.key_le choice hseen
        · exact le_rfl
      obtain ⟨best, hbest, henumerated, hkey⟩ := ih (first + 1) htail hnext
      refine ⟨best, hbest, henumerated, ?_⟩
      rintro choice (hseen | ⟨rank, hle, hrank, hpositive, other, otherReplacement, hother, rfl⟩)
      · exact hkey choice (Or.inl (Or.inl hseen))
      · rcases lt_or_eq_of_le hle with hlt | rfl
        · exact hkey _ (Or.inr ⟨rank, hlt, hrank, hpositive, other, otherReplacement, hother, rfl⟩)
        · exact ((hwins other otherReplacement hother).trans hlast).trans
            (hkey kept (Or.inl (Or.inr rfl)))

theorem bestExceptionalChoice_eq (hcapacity : 0 < capacity) (hbundles : indexes.bundles ≠ [])
    (hcurrent : BestOf indexes R capacity seen current) :
    ∃ best, bestExceptionalChoice indexes profile capacity (some current) = .ok (some best) ∧
      BestOf indexes R capacity
        (fun choice => seen choice ∨ ExceptionalFrom indexes capacity 0 choice) best := by
  have hlength : 0 < indexes.bundles.length := length_pos_iff.mpr hbundles
  have hbelow := hranks.bundles_below.length_lt
  have hmax : usizeMax + 1 = 2 ^ 64 := by decide
  obtain ⟨ordinaryBest, hordinaryBest, hordinary⟩ := ordinaryPrefixBest_eq hranks profile
    (capacity - 1) (min_le_left indexes.bundles.length ((capacity - 1) / 2))
  obtain ⟨replacementBest, hreplacementBest, hreplacement⟩ := replacementSuffixBest_eq hranks
    profile (capacity - 1)
    (show min (indexes.bundles.length - 1) ((capacity - 1) / 2) + 1 ≤ _ by omega)
  obtain ⟨best, hfold, hbest⟩ := foldlM_exceptional hranks profile capacity hcapacity hordinary
    hreplacement indexes.bundles 0 rfl hcurrent
  refine ⟨best, ?_, hbest⟩
  have hreserve : ∀ maximum ≤ indexes.bundles.length,
      checkedAddUsize maximum 1 = some (maximum + 1) := fun maximum hle => by
    rw [checkedAddUsize, if_pos (by omega)]
  simp only [bestExceptionalChoice]
  rw [hreserve _ (min_le_left _ _), hordinaryBest, hreserve _ (by omega), hreplacementBest]
  exact hfold

/-- **The solver is exact.** The choice it returns names the greatest feasible levels. -/
theorem bestRegularChoice_isGreatest :
    ∃ choice, bestRegularChoice indexes profile capacity = .ok choice ∧
      CountedChoice indexes R choice ∧ p.IsGreatest capacity (regularLevels R choice) := by
  obtain ⟨ordinary, hordinary, hordinaryBest⟩ := bestOrdinaryChoice_eq hranks profile capacity
  obtain ⟨best, hbest, henumerated, hkey⟩ : ∃ best,
      bestRegularChoice indexes profile capacity = .ok best ∧
      BestOf indexes R capacity (fun choice =>
        (∃ bundles ≤ indexes.bundles.length, 2 * bundles ≤ capacity ∧
          choice = ⟨hullWithBundles indexes capacity bundles false, none⟩) ∨
        0 < capacity ∧ ExceptionalFrom indexes capacity 0 choice) best := by
    rw [bestRegularChoice, hordinary, ok_bind]
    by_cases hexceptional : 0 < capacity ∧ indexes.bundles ≠ []
    · obtain ⟨best, hbest, henumerated, hkey⟩ := bestExceptionalChoice_eq hranks profile capacity
        hexceptional.1 hexceptional.2 hordinaryBest
      refine ⟨best, by simp only [if_pos hexceptional, hbest]; rfl, henumerated, ?_⟩
      rintro choice (hseen | ⟨_, hseen⟩)
      · exact hkey choice (Or.inl hseen)
      · exact hkey choice (Or.inr hseen)
    · refine ⟨ordinary, by simp only [if_neg hexceptional]; rfl, hordinaryBest.enumerated, ?_⟩
      rintro choice (hseen | ⟨hcapacity, rank, _, hrank, _⟩)
      · exact hordinaryBest.key_le choice hseen
      · refine absurd ⟨hcapacity, fun hnil => ?_⟩ hexceptional
        rw [hnil] at hrank
        exact absurd hrank (Nat.not_lt_zero _)
  refine ⟨best, hbest, henumerated.counted hranks, ?_⟩
  obtain ⟨s, hs⟩ := p.exists_isGreatest capacity
  have hlength := hranks.bundles_length
  have hsteps := hranks.steps_length
  have hle : p.key s ≤ p.key (regularLevels R best) := by
    rcases Ranking.IsGreatest.exists_choice R hs with
      ⟨taken, htaken, hfits, rfl⟩ |
      ⟨taken, htaken, rank, hrank, whole, hpositive, hbeside, hfits, rfl⟩
    · have hseen := hkey _ (Or.inl ⟨taken, hlength ▸ htaken, hfits, rfl⟩)
      rw [hsteps, mul_comm 2 taken]
      exact hseen
    · have hrank' : rank < indexes.bundles.length := hlength ▸ hrank
      have hgroup : R.bundles[rank] = group indexes.bundles[rank] := by
        simp only [hranks.bundles_eq, getElem_map]
      have hnonzero : (firstPlaneReduction indexes.bundles[rank]).isZero = false := by
        rw [Bool.eq_false_iff, Ne, ExactReduction.isZero_eq_true_iff,
          hranks.first_gain _ (getElem_mem hrank'), ← hgroup]
        omega
      have hleading : ∃ replacement, taken = whole + replacement.toNat ∧
          BesideBundle indexes (capacity - 1) rank whole replacement := by
        rcases hbeside with ⟨rfl, hle⟩ | ⟨rfl, hlt⟩
        · exact ⟨false, rfl, Or.inl ⟨rfl, hle⟩, hlength ▸ htaken, by omega⟩
        · exact ⟨true, rfl, Or.inr ⟨rfl, hlt⟩, hlength ▸ htaken, by omega⟩
      obtain ⟨replacement, rfl, hhull⟩ := hleading
      have hseen := hkey _ (Or.inr ⟨by omega, rank, Nat.zero_le _, hrank', hnonzero, whole,
        replacement, hhull, rfl⟩)
      rw [regularLevels, choiceLevels, getD_eq_getElem _ _ hrank] at hseen
      rw [hsteps, mul_comm 2 whole]
      exact hseen
  have heq := Problem.key_injective
    (hle.antisymm (hs.key_le _ (henumerated.feasible hranks capacity)))
  rwa [heq] at hs

end Enumeration

end Tritium.Allocator
