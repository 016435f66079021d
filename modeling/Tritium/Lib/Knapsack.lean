import Mathlib.Algebra.GroupWithZero.Nat
import Mathlib.Algebra.Order.BigOperators.Group.Finset
import Mathlib.Data.Pi.Interval
import Mathlib.Data.Set.Finite.Lemmas
import Mathlib.Data.Prod.Lex
import Mathlib.Order.Interval.Finset.Nat
import Mathlib.Order.PiLex

/-!
# Choosing levels of independent chains under one capacity

Each chain `i` is raised to a level `s i`, one unit of capacity a step, and yields `gain i (s i)`.
Wanted is the greatest total gain, then the least total level, then the lexicographically greatest
choice.

When the gains of a chain are concave its steps can be ranked on their own. A chain of two steps
whose second step gains more than its first is a *bundle*: it is taken whole, and at most one bundle
stops half way. `IsGreatest.exists_choice` is the consequence: the optimum takes a prefix of the
ranked steps, a prefix of the ranked bundles, and at most one bundle at its first step.
-/

namespace Tritium.Knapsack

open List
open Function (update update_of_ne update_self)

variable {ι : Type} [LinearOrder ι]

structure Problem (ι : Type) where
  support : Finset ι
  gain : ι → ℕ → ℕ
  top : ι → ℕ
  gain_zero : ∀ i, gain i 0 = 0
  top_of_notMem : ∀ i, i ∉ support → top i = 0

namespace Problem

variable (p : Problem ι)

def value (s : ι → ℕ) : ℕ := ∑ i ∈ p.support, p.gain i (s i)

def weight (s : ι → ℕ) : ℕ := ∑ i ∈ p.support, s i

structure Feasible (capacity : ℕ) (s : ι → ℕ) : Prop where
  le_top : ∀ i, s i ≤ p.top i
  weight_le : p.weight s ≤ capacity

variable {p} {s : ι → ℕ} {i j : ι} {capacity : ℕ}

theorem sum_update (f : ι → ℕ → ℕ) (hi : i ∈ p.support) (level : ℕ) :
    ∑ k ∈ p.support, f k (update s i level k) + f i (s i) =
      ∑ k ∈ p.support, f k (s k) + f i level := by
  simp only [Function.apply_update fun k => f k, Finset.sum_update_of_mem hi,
    ← Finset.add_sum_erase _ _ hi, Finset.sdiff_singleton_eq_erase]
  omega

theorem value_update (hi : i ∈ p.support) (level : ℕ) :
    p.value (update s i level) + p.gain i (s i) = p.value s + p.gain i level :=
  sum_update p.gain hi level

theorem weight_update (hi : i ∈ p.support) (level : ℕ) :
    p.weight (update s i level) + s i = p.weight s + level :=
  sum_update (fun _ level => level) hi level

theorem Feasible.mem_support (hs : p.Feasible capacity s) (hpos : 0 < s i) : i ∈ p.support := by
  by_contra hi
  have hle := hs.le_top i
  rw [p.top_of_notMem i hi] at hle
  omega

theorem feasible_finite (p : Problem ι) (capacity : ℕ) : {s | p.Feasible capacity s}.Finite := by
  refine Set.Finite.of_injOn (f := fun s => Finset.restrict p.support s)
    (t := Set.Iic (Finset.restrict p.support p.top)) (fun s hs i => hs.le_top i) ?_
    (Set.finite_Iic _)
  intro s hs t ht heq
  funext i
  by_cases hi : i ∈ p.support
  · exact congrFun heq ⟨i, hi⟩
  · have hsi := hs.le_top i
    have hti := ht.le_top i
    rw [p.top_of_notMem i hi] at hsi hti
    omega

/-- Two choices are compared at the first chain they differ in. -/
theorem lex_lt_iff_of_first {t : ι → ℕ}
    (hbelow : ∀ k < i, s k = t k) (hne : s i ≠ t i) : toLex s < toLex t ↔ s i < t i := by
  constructor
  · intro hlt
    by_contra hge
    have hgt : toLex t < toLex s :=
      ⟨i, fun k hk => (hbelow k hk).symm, lt_of_le_of_ne (not_lt.mp hge) hne.symm⟩
    exact absurd hlt hgt.asymm
  · exact fun hlt => ⟨i, hbelow, hlt⟩

theorem toLex_lt_update {t : ι → ℕ} (heq : s i = t i) (level : ℕ) (hlt : toLex s < toLex t) :
    toLex (update s i level) < toLex (update t i level) := by
  obtain ⟨j, hbelow, hj⟩ := hlt
  have hne : j ≠ i := by
    rintro rfl
    exact hj.ne heq
  refine ⟨j, fun k hk => ?_, ?_⟩
  · change update s i level k = update t i level k
    rcases eq_or_ne k i with rfl | hki
    · rw [update_self, update_self]
    · rw [update_of_ne hki, update_of_ne hki]
      exact hbelow k hk
  · change update s i level j < update t i level j
    rwa [update_of_ne hne, update_of_ne hne]

/-- The order of preference, as one linear order. -/
def key [WellFoundedLT ι] (p : Problem ι) (s : ι → ℕ) : ℕ ×ₗ ℕᵒᵈ ×ₗ Lex (ι → ℕ) :=
  toLex (p.value s, toLex (OrderDual.toDual (p.weight s), toLex s))

variable [WellFoundedLT ι] {t : ι → ℕ}

theorem key_injective : Function.Injective p.key := by
  intro s t heq
  simp only [key, toLex_inj, Prod.mk.injEq] at heq
  exact heq.2.2

theorem key_le_iff :
    p.key s ≤ p.key t ↔ p.value s < p.value t ∨ p.value s = p.value t ∧
      (p.weight t < p.weight s ∨ p.weight t = p.weight s ∧ toLex s ≤ toLex t) := by
  simp only [key, Prod.Lex.toLex_le_toLex, OrderDual.toDual_lt_toDual, OrderDual.toDual_inj]
  tauto

theorem key_lt_iff :
    p.key s < p.key t ↔ p.value s < p.value t ∨ p.value s = p.value t ∧
      (p.weight t < p.weight s ∨ p.weight t = p.weight s ∧ toLex s < toLex t) := by
  simp only [key, Prod.Lex.toLex_lt_toLex, OrderDual.toDual_lt_toDual, OrderDual.toDual_inj]
  tauto

/-- The preference between two choices does not depend on a chain they agree on. -/
theorem key_update_le (hi : i ∈ p.support) (heq : s i = t i) (level : ℕ)
    (hle : p.key s ≤ p.key t) : p.key (update s i level) ≤ p.key (update t i level) := by
  have hvalue := value_update (s := s) hi level
  have hvalue' := value_update (s := t) hi level
  have hweight := weight_update (s := s) hi level
  have hweight' := weight_update (s := t) hi level
  rw [heq] at hvalue hweight
  rw [key_le_iff] at hle ⊢
  rcases hle with hlt | ⟨_, hlt | ⟨_, hlex⟩⟩
  · omega
  · omega
  · refine Or.inr ⟨by omega, Or.inr ⟨by omega, ?_⟩⟩
    rcases hlex.lt_or_eq with hlt | hsame
    · exact (toLex_lt_update heq level hlt).le
    · rw [toLex_inj.mp hsame]

structure IsGreatest (p : Problem ι) (capacity : ℕ) (s : ι → ℕ) : Prop where
  feasible : p.Feasible capacity s
  key_le : ∀ t, p.Feasible capacity t → p.key t ≤ p.key s

theorem IsGreatest.unique (hs : p.IsGreatest capacity s) (ht : p.IsGreatest capacity t) : s = t :=
  key_injective ((ht.key_le s hs.feasible).antisymm (hs.key_le t ht.feasible))

theorem exists_isGreatest (p : Problem ι) (capacity : ℕ) : ∃ s, p.IsGreatest capacity s := by
  have hnonempty : {s | p.Feasible capacity s}.Nonempty :=
    ⟨fun _ => 0, fun _ => Nat.zero_le _, by simp [weight]⟩
  obtain ⟨s, hs, hmax⟩ := Set.exists_max_image _ p.key (p.feasible_finite capacity) hnonempty
  exact ⟨s, hs, hmax⟩

/-! ### Exchanges that cannot improve the optimum -/

theorem IsGreatest.of_capacity {other : ℕ} (hs : p.IsGreatest capacity s)
    (hsame : ∀ t, (∀ i, t i ≤ p.top i) → (p.weight t ≤ capacity ↔ p.weight t ≤ other)) :
    p.IsGreatest other s :=
  ⟨⟨hs.feasible.le_top, (hsame s hs.feasible.le_top).mp hs.feasible.weight_le⟩, fun t ht =>
    hs.key_le t ⟨ht.le_top, (hsame t ht.le_top).mpr ht.weight_le⟩⟩

theorem isGreatest_zero (p : Problem ι) : p.IsGreatest 0 fun _ => 0 := by
  refine ⟨⟨fun _ => Nat.zero_le _, by simp [weight]⟩, fun t ht => ?_⟩
  have hzero : t = fun _ => 0 := by
    funext i
    by_cases hi : i ∈ p.support
    · have hsum := Finset.sum_eq_zero_iff.mp (Nat.le_zero.mp ht.weight_le)
      exact hsum i hi
    · exact Nat.le_zero.mp (p.top_of_notMem i hi ▸ ht.le_top i)
  rw [hzero]

/-- Changing one chain while there is room for it. -/
theorem IsGreatest.adjust (hs : p.IsGreatest capacity s) (level : ℕ) (hi : i ∈ p.support)
    (hlevel : level ≤ p.top i) (hroom : p.weight s + level ≤ capacity + s i) :
    p.gain i level ≤ p.gain i (s i) ∧ (p.gain i level = p.gain i (s i) → s i ≤ level) := by
  have hvalue := value_update (s := s) hi level
  have hweight := weight_update (s := s) hi level
  have hfeasible : p.Feasible capacity (update s i level) := by
    refine ⟨fun k => ?_, by omega⟩
    rcases eq_or_ne k i with rfl | hk
    · rwa [update_self]
    · rw [update_of_ne hk]
      exact hs.feasible.le_top k
  have hle := key_le_iff.mp (hs.key_le _ hfeasible)
  omega

/-- Moving levels from one chain to another. -/
theorem IsGreatest.exchange (hs : p.IsGreatest capacity s) (low high : ℕ) (hi : i ∈ p.support)
    (hj : j ∈ p.support) (hne : i ≠ j) (hlow : low ≤ p.top i) (hhigh : high ≤ p.top j)
    (hsum : low + high = s i + s j) :
    p.gain i low + p.gain j high ≤ p.gain i (s i) + p.gain j (s j) ∧
      (p.gain i low + p.gain j high = p.gain i (s i) + p.gain j (s j) → s j < high → i < j) := by
  have hvalue := value_update (s := s) hi low
  have hweight := weight_update (s := s) hi low
  have hvalue' := value_update (s := update s i low) hj high
  have hweight' := weight_update (s := update s i low) hj high
  rw [update_of_ne hne.symm] at hvalue' hweight'
  have hweightLe := hs.feasible.weight_le
  have hfeasible : p.Feasible capacity (update (update s i low) j high) := by
    refine ⟨fun k => ?_, by omega⟩
    rcases eq_or_ne k j with rfl | hkj
    · rwa [update_self]
    rcases eq_or_ne k i with rfl | hki
    · rwa [update_of_ne hkj, update_self]
    · rw [update_of_ne hkj, update_of_ne hki]
      exact hs.feasible.le_top k
  have hle := key_le_iff.mp (hs.key_le _ hfeasible)
  refine ⟨by omega, fun hgain hlt => ?_⟩
  by_contra hij
  have hji : j < i := lt_of_le_of_ne (not_lt.mp hij) hne.symm
  have hlex : toLex s < toLex (update (update s i low) j high) := by
    refine ⟨j, fun k hk => ?_, ?_⟩
    · change s k = update (update s i low) j high k
      rw [update_of_ne hk.ne, update_of_ne (hk.trans hji).ne]
    · change s j < update (update s i low) j high j
      rwa [update_self]
  rcases hle with _ | ⟨_, _ | ⟨_, hlexLe⟩⟩
  · omega
  · omega
  · exact absurd hlex (not_lt.mpr hlexLe)

end Problem

/-- What the step to a level adds to the level below. -/
def Problem.stepGain (p : Problem ι) (step : ι × ℕ) : ℕ :=
  p.gain step.1 step.2 - p.gain step.1 (step.2 - 1)

/-- The place of a step in the ranking: greater gains first, then by chain and by level. -/
def Problem.stepKey (p : Problem ι) (step : ι × ℕ) : ℕᵒᵈ ×ₗ ι ×ₗ ℕ :=
  toLex (OrderDual.toDual (p.stepGain step), toLex step)

def Problem.bundleKey (p : Problem ι) (i : ι) : ℕᵒᵈ ×ₗ ι :=
  toLex (OrderDual.toDual (p.gain i 2), i)

/-- The chains split into concave ones, whose steps up to `chain i` gain something and are ranked
one by one, and bundles. -/
structure Ranking (p : Problem ι) where
  steps : List (ι × ℕ)
  bundles : List ι
  chain : ι → ℕ
  mem_steps : ∀ i k, (i, k) ∈ steps ↔ i ∉ bundles ∧ 1 ≤ k ∧ k ≤ chain i
  steps_sorted : steps.Pairwise fun x y => p.stepKey x < p.stepKey y
  bundles_sorted : bundles.Pairwise fun i j => p.bundleKey i < p.bundleKey j
  mem_support_of_bundle : ∀ i ∈ bundles, i ∈ p.support
  chain_le_top : ∀ i ∉ bundles, chain i ≤ p.top i
  gain_of_chain_le : ∀ i ∉ bundles, ∀ k, chain i ≤ k → k ≤ p.top i → p.gain i k = p.gain i (chain i)
  gain_lt : ∀ i ∉ bundles, ∀ k, k < chain i → p.gain i k < p.gain i (k + 1)
  gain_concave : ∀ i ∉ bundles, ∀ k, k + 2 ≤ chain i →
    p.gain i (k + 2) + p.gain i k ≤ 2 * p.gain i (k + 1)
  top_of_bundle : ∀ i ∈ bundles, p.top i = 2
  gain_of_bundle : ∀ i ∈ bundles, 2 * p.gain i 1 < p.gain i 2

section Prefixes

variable {α β : Type}

theorem mem_take_iff_lt [LinearOrder β] {f : α → β} {l : List α}
    (hsorted : l.Pairwise fun x y => f x < f y) {u : ℕ} (hu : u < l.length) {x : α} (hx : x ∈ l) :
    x ∈ l.take u ↔ f x < f l[u] := by
  rw [pairwise_iff_getElem] at hsorted
  constructor
  · intro hmem
    obtain ⟨r, hr, rfl⟩ := mem_take_iff_getElem.mp hmem
    exact hsorted r u (by omega) hu (by omega)
  · intro hlt
    obtain ⟨r, hr, rfl⟩ := getElem_of_mem hx
    rcases lt_trichotomy r u with _ | rfl | hur
    · exact mem_take_iff_getElem.mpr ⟨r, by omega, rfl⟩
    · exact absurd hlt (lt_irrefl _)
    · exact absurd (hsorted u r hu hr hur) hlt.asymm

/-- The shortest prefix that holds every element with a property. -/
theorem exists_shortest_prefix (l : List α) (P : α → Prop) :
    ∃ q ≤ l.length, (∀ r, ∀ hr : r < l.length, P l[r] → r < q) ∧
      (∀ hq : q - 1 < l.length, 0 < q → P l[q - 1]) := by
  classical
  have hall : ∃ q, ∀ r, ∀ hr : r < l.length, P l[r] → r < q := ⟨l.length, fun r hr _ => hr⟩
  refine ⟨Nat.find hall, Nat.find_min' hall fun r hr _ => hr, Nat.find_spec hall, ?_⟩
  intro _ hpos
  have hleast := Nat.find_min hall (Nat.sub_one_lt_of_lt hpos)
  push Not at hleast
  obtain ⟨r, hr, hP, hle⟩ := hleast
  have hlt := Nat.find_spec hall r hr hP
  obtain rfl : r = Nat.find hall - 1 := by omega
  exact hP

end Prefixes

namespace Ranking

variable {p : Problem ι} (R : Ranking p) {count k taken : ℕ} {i : ι}

theorem bundles_nodup : R.bundles.Nodup :=
  R.bundles_sorted.imp fun hlt heq => hlt.ne (by rw [heq])

theorem mem_support_of_step (hstep : (i, k) ∈ R.steps) : i ∈ p.support := by
  obtain ⟨hbundle, _, _⟩ := (R.mem_steps i k).mp hstep
  by_contra hsupport
  have htop := R.chain_le_top i hbundle
  rw [p.top_of_notMem i hsupport] at htop
  omega

theorem step_gain_antitone (hi : i ∉ R.bundles) {l : ℕ} (hk : 1 ≤ k) (hkl : k ≤ l)
    (hl : l ≤ R.chain i) : p.stepGain (i, l) ≤ p.stepGain (i, k) := by
  unfold Problem.stepGain
  induction l, hkl using Nat.le_induction with
  | base => exact le_rfl
  | succ l hkl ih =>
    have hconcave := R.gain_concave i hi (l - 1) (by omega)
    have hprevious := ih (by omega)
    rw [show l - 1 + 2 = l + 1 by omega, show l - 1 + 1 = l by omega] at hconcave
    simp only [Nat.add_sub_cancel] at hprevious ⊢
    omega

theorem stepKey_lt_iff (hi : i ∉ R.bundles) {l : ℕ} (hk : 1 ≤ k) (hkc : k ≤ R.chain i) (hl : 1 ≤ l)
    (hlc : l ≤ R.chain i) : p.stepKey (i, k) < p.stepKey (i, l) ↔ k < l := by
  have hforward : ∀ {a b : ℕ}, 1 ≤ a → a < b → b ≤ R.chain i →
      p.stepKey (i, a) < p.stepKey (i, b) := by
    intro a b ha hab hb
    have hgain := R.step_gain_antitone hi ha hab.le hb
    rw [Problem.stepKey, Problem.stepKey, Prod.Lex.toLex_lt_toLex]
    rcases hgain.lt_or_eq with hlt | heq
    · exact Or.inl hlt
    · exact Or.inr ⟨congrArg OrderDual.toDual heq.symm, Prod.Lex.toLex_lt_toLex.mpr (Or.inr ⟨rfl, hab⟩)⟩
  refine ⟨fun hlt => ?_, fun hlt => hforward hk hlt hlc⟩
  by_contra hnot
  rcases (not_lt.mp hnot).lt_or_eq with hlk | rfl
  · exact absurd (hforward hl hlk hkc) hlt.asymm
  · exact absurd hlt (lt_irrefl _)

/-- The first `count` steps of the ranking, each setting its chain to the level it reaches. -/
def stepLevels (count : ℕ) : ι → ℕ :=
  (R.steps.take count).foldl (fun s step => update s step.1 step.2) fun _ => 0

/-- On top of that, the first `taken` bundles. -/
def hullLevels (count taken : ℕ) : ι → ℕ :=
  (R.bundles.take taken).foldl (fun s i => update s i 2) (R.stepLevels count)

theorem stepLevels_succ (hcount : count < R.steps.length) :
    R.stepLevels (count + 1) = update (R.stepLevels count) R.steps[count].1 R.steps[count].2 := by
  rw [stepLevels, take_succ_eq_append_getElem hcount, foldl_append]
  rfl

theorem hullLevels_succ (htaken : taken < R.bundles.length) (count : ℕ) :
    R.hullLevels count (taken + 1) = update (R.hullLevels count taken) R.bundles[taken] 2 := by
  rw [hullLevels, take_succ_eq_append_getElem htaken, foldl_append]
  rfl

theorem stepLevels_of_mem_bundles (hi : i ∈ R.bundles) (count : ℕ) : R.stepLevels count i = 0 := by
  have hfold : ∀ (steps : List (ι × ℕ)) (s : ι → ℕ), (∀ step ∈ steps, step.1 ≠ i) →
      steps.foldl (fun s step => update s step.1 step.2) s i = s i := by
    intro steps
    induction steps with
    | nil => exact fun _ _ => rfl
    | cons step steps ih =>
      intro s hsteps
      rw [foldl_cons, ih _ fun other hother => hsteps other (mem_cons_of_mem _ hother),
        update_of_ne (hsteps step mem_cons_self).symm]
  refine hfold _ _ fun step hstep heq => ?_
  exact ((R.mem_steps step.1 step.2).mp (mem_of_mem_take hstep)).1 (heq ▸ hi)

/-- A step is in the prefix exactly when its chain has reached it. -/
theorem le_stepLevels_iff (hcount : count ≤ R.steps.length) (hi : i ∉ R.bundles) (hk : 1 ≤ k) :
    k ≤ R.stepLevels count i ↔ (i, k) ∈ R.steps.take count := by
  induction count with
  | zero =>
    simp only [stepLevels, take_zero, foldl_nil, not_mem_nil, iff_false]
    omega
  | succ count ih =>
    have hlt : count < R.steps.length := hcount
    rw [R.stepLevels_succ hlt, take_succ_eq_append_getElem hlt, mem_append, mem_singleton]
    by_cases hchain : i = R.steps[count].1
    · obtain ⟨_, hposition, hreach⟩ := (R.mem_steps R.steps[count].1 R.steps[count].2).mp
        (getElem_mem hlt)
      have hlast : R.steps[count] = (i, R.steps[count].2) := by rw [hchain]
      rw [← hchain] at hreach ⊢
      rw [update_self]
      by_cases hstep : (i, k) ∈ R.steps
      · obtain ⟨_, _, hkc⟩ := (R.mem_steps i k).mp hstep
        rw [mem_take_iff_lt R.steps_sorted hlt hstep, hlast,
          R.stepKey_lt_iff hi hk hkc hposition hreach, Prod.mk.injEq]
        simp only [true_and]
        omega
      · have hnot : ¬ k ≤ R.chain i := fun hkc => hstep ((R.mem_steps i k).mpr ⟨hi, hk, hkc⟩)
        refine iff_of_false (by omega) ?_
        rintro (hmem | heq)
        · exact hstep (mem_of_mem_take hmem)
        · exact hstep (heq ▸ getElem_mem hlt)
    · rw [update_of_ne hchain, ih hlt.le]
      refine (or_iff_left fun heq => hchain ?_).symm
      rw [← heq]

theorem stepLevels_le_chain (hcount : count ≤ R.steps.length) (hi : i ∉ R.bundles) :
    R.stepLevels count i ≤ R.chain i := by
  by_contra hlt
  have hmem := (R.le_stepLevels_iff hcount hi (k := R.stepLevels count i) (by omega)).mp le_rfl
  have hchain := ((R.mem_steps _ _).mp (mem_of_mem_take hmem)).2.2
  omega

/-- The next step continues its own chain. -/
theorem stepLevels_next (hcount : count < R.steps.length) :
    R.stepLevels count R.steps[count].1 + 1 = R.steps[count].2 := by
  obtain ⟨hi, hpos, hreach⟩ := (R.mem_steps R.steps[count].1 R.steps[count].2).mp
    (getElem_mem hcount)
  have hlevel : ∀ k, 1 ≤ k → (k ≤ R.stepLevels count R.steps[count].1 ↔ k < R.steps[count].2) := by
    intro k hk
    have hbound := R.stepLevels_le_chain hcount.le hi
    rw [R.le_stepLevels_iff hcount.le hi hk]
    by_cases hkc : k ≤ R.chain R.steps[count].1
    · rw [mem_take_iff_lt R.steps_sorted hcount ((R.mem_steps _ _).mpr ⟨hi, hk, hkc⟩)]
      exact R.stepKey_lt_iff hi hk hkc hpos hreach
    · rw [← R.le_stepLevels_iff hcount.le hi hk]
      omega
  have hself := hlevel R.steps[count].2 hpos
  have hbelow := hlevel (R.steps[count].2 - 1)
  omega

theorem stepLevels_eq_of_forall_ne {first second : ℕ} (hle : first ≤ second)
    (hsecond : second ≤ R.steps.length)
    (hne : ∀ r, first ≤ r → ∀ hr : r < R.steps.length, r < second → R.steps[r].1 ≠ i) :
    R.stepLevels second i = R.stepLevels first i := by
  induction second, hle using Nat.le_induction with
  | base => rfl
  | succ second hle ih =>
    rw [R.stepLevels_succ hsecond, update_of_ne (hne second hle hsecond (Nat.lt_succ_self _)).symm]
    exact ih (Nat.le_of_succ_le hsecond) fun r hr hlength hlt => hne r hr hlength (by omega)

theorem stepLevels_lt_of_step {first second r : ℕ} (hsecond : second ≤ R.steps.length)
    (hfirst : first ≤ r) (hr : r < second) (hlength : r < R.steps.length) :
    R.stepLevels first R.steps[r].1 < R.stepLevels second R.steps[r].1 := by
  obtain ⟨hi, hpos, _⟩ := (R.mem_steps R.steps[r].1 R.steps[r].2).mp (getElem_mem hlength)
  have hreached := (R.le_stepLevels_iff hsecond hi hpos).mpr
    (mem_take_iff_getElem.mpr ⟨r, by omega, rfl⟩)
  have hnot : ¬ R.steps[r].2 ≤ R.stepLevels first R.steps[r].1 := by
    rw [R.le_stepLevels_iff (by omega) hi hpos]
    intro hmem
    obtain ⟨other, _, heq⟩ := mem_take_iff_getElem.mp hmem
    have hlt := pairwise_iff_getElem.mp R.steps_sorted other r (by omega) hlength (by omega)
    rw [heq] at hlt
    exact lt_irrefl _ hlt
  omega

theorem weight_stepLevels (hcount : count ≤ R.steps.length) :
    p.weight (R.stepLevels count) = count := by
  induction count with
  | zero => simp [stepLevels, Problem.weight]
  | succ count ih =>
    have hsupport : R.steps[count].1 ∈ p.support :=
      R.mem_support_of_step (k := R.steps[count].2) (getElem_mem hcount)
    have hupdate := Problem.weight_update (s := R.stepLevels count) hsupport R.steps[count].2
    rw [← R.stepLevels_succ hcount] at hupdate
    have hnext := R.stepLevels_next hcount
    omega

theorem value_stepLevels (hcount : count ≤ R.steps.length) :
    p.value (R.stepLevels count) = ((R.steps.take count).map p.stepGain).sum := by
  induction count with
  | zero => simp [stepLevels, Problem.value, p.gain_zero]
  | succ count ih =>
    obtain ⟨hi, _, _⟩ := (R.mem_steps R.steps[count].1 R.steps[count].2).mp
      (getElem_mem hcount)
    have hsupport : R.steps[count].1 ∈ p.support :=
      R.mem_support_of_step (k := R.steps[count].2) (getElem_mem hcount)
    have hupdate := Problem.value_update (s := R.stepLevels count) hsupport R.steps[count].2
    have hnext := R.stepLevels_next hcount
    have hrise := R.gain_lt _ hi (R.stepLevels count R.steps[count].1) (by omega)
    rw [← R.stepLevels_succ hcount] at hupdate
    rw [take_succ_eq_append_getElem hcount, map_append, sum_append, map_cons,
      map_nil, sum_singleton, Problem.stepGain]
    rw [hnext] at hrise
    rw [show R.steps[count].2 - 1 = R.stepLevels count R.steps[count].1 by omega]
    omega

theorem hullLevels_apply (count taken : ℕ) (i : ι) :
    R.hullLevels count taken i = if i ∈ R.bundles.take taken then 2 else R.stepLevels count i := by
  unfold hullLevels
  generalize R.bundles.take taken = bundles
  generalize R.stepLevels count = s
  induction bundles generalizing s with
  | nil => simp
  | cons j bundles ih =>
    rw [foldl_cons, ih]
    by_cases hmem : i ∈ bundles
    · simp [hmem]
    · by_cases hij : i = j
      · simp [hij]
      · simp [hmem, hij, update_of_ne]

theorem hullLevels_of_notMem (hi : i ∉ R.bundles) (count taken : ℕ) :
    R.hullLevels count taken i = R.stepLevels count i := by
  rw [hullLevels_apply, if_neg fun hmem => hi (mem_of_mem_take hmem)]

theorem hullLevels_bundle {rank : ℕ} (hrank : rank < R.bundles.length) (count taken : ℕ) :
    R.hullLevels count taken R.bundles[rank] = if rank < taken then 2 else 0 := by
  rw [hullLevels_apply, R.stepLevels_of_mem_bundles (getElem_mem hrank)]
  refine if_congr ?_ rfl rfl
  rw [mem_take_iff_getElem]
  constructor
  · rintro ⟨other, _, heq⟩
    rw [R.bundles_nodup.getElem_inj_iff] at heq
    omega
  · exact fun hlt => ⟨rank, by omega, rfl⟩

section

variable (hcount : count ≤ R.steps.length)

include hcount

theorem weight_hullLevels (htaken : taken ≤ R.bundles.length) :
    p.weight (R.hullLevels count taken) = count + 2 * taken := by
  induction taken with
  | zero => simpa [hullLevels] using R.weight_stepLevels hcount
  | succ taken ih =>
    have hupdate := Problem.weight_update (s := R.hullLevels count taken)
      (R.mem_support_of_bundle _ (getElem_mem htaken)) 2
    rw [← R.hullLevels_succ htaken, R.hullLevels_bundle htaken, if_neg (lt_irrefl _)] at hupdate
    omega

theorem value_hullLevels (htaken : taken ≤ R.bundles.length) :
    p.value (R.hullLevels count taken) = ((R.steps.take count).map p.stepGain).sum +
      ((R.bundles.take taken).map fun i => p.gain i 2).sum := by
  induction taken with
  | zero => simpa [hullLevels] using R.value_stepLevels hcount
  | succ taken ih =>
    have hupdate := Problem.value_update (s := R.hullLevels count taken)
      (R.mem_support_of_bundle _ (getElem_mem htaken)) 2
    rw [← R.hullLevels_succ htaken, R.hullLevels_bundle htaken, if_neg (lt_irrefl _),
      p.gain_zero] at hupdate
    rw [take_succ_eq_append_getElem htaken, map_append, sum_append, map_cons,
      map_nil, sum_singleton]
    omega

theorem hullLevels_le_top (taken : ℕ) (i : ι) : R.hullLevels count taken i ≤ p.top i := by
  by_cases hi : i ∈ R.bundles
  · rw [hullLevels_apply, R.stepLevels_of_mem_bundles hi, R.top_of_bundle i hi]
    split <;> omega
  · rw [R.hullLevels_of_notMem hi]
    exact (R.stepLevels_le_chain hcount hi).trans (R.chain_le_top i hi)

end

/-! ### The shape of the optimum -/

variable [WellFoundedLT ι] {R} {capacity : ℕ} {s : ι → ℕ}

section

variable (hs : p.IsGreatest capacity s)

include hs

theorem level_le_chain (hi : i ∉ R.bundles) : s i ≤ R.chain i := by
  by_contra hlt
  have hsupport := hs.feasible.mem_support (i := i) (by omega)
  have hgain := R.gain_of_chain_le i hi (s i) (by omega) (hs.feasible.le_top i)
  have hweight := hs.feasible.weight_le
  have hadjust := (hs.adjust _ hsupport (R.chain_le_top i hi) (by omega)).2 hgain.symm
  omega

/-- A selected step outranks every step that is not. -/
theorem stepKey_lt_of_selected {j : ι} {l : ℕ} (hx : (i, k) ∈ R.steps) (hy : (j, l) ∈ R.steps)
    (hselected : k ≤ s i) (hunselected : s j < l) : p.stepKey (i, k) < p.stepKey (j, l) := by
  obtain ⟨hi, hk, hkc⟩ := (R.mem_steps i k).mp hx
  obtain ⟨hj, hl, hlc⟩ := (R.mem_steps j l).mp hy
  have hsi := level_le_chain hs hi
  by_cases hne : i = j
  · subst hne
    exact (R.stepKey_lt_iff hi hk hkc hl hlc).mpr (by omega)
  -- The last selected step of the one chain against the first free step of the other.
  have hlast : p.stepKey (i, k) ≤ p.stepKey (i, s i) := by
    rcases hselected.lt_or_eq with hlt | heq
    · exact ((R.stepKey_lt_iff hi hk hkc (by omega) hsi).mpr hlt).le
    · rw [← heq]
  have hfirst : p.stepKey (j, s j + 1) ≤ p.stepKey (j, l) := by
    rcases (Nat.succ_le_of_lt hunselected).lt_or_eq with hlt | heq
    · exact ((R.stepKey_lt_iff hj (by omega) (by omega) hl hlc).mpr hlt).le
    · rw [← heq]
  have htop := R.chain_le_top j hj
  have hexchange := hs.exchange (s i - 1) (s j + 1) (R.mem_support_of_step hx)
    (R.mem_support_of_step hy) hne ((Nat.sub_le _ _).trans (hs.feasible.le_top i)) (by omega)
    (by omega)
  have hriseJ := R.gain_lt j hj (s j) (by omega)
  have hmiddle : p.stepKey (i, s i) < p.stepKey (j, s j + 1) := by
    rw [Problem.stepKey, Problem.stepKey]
    simp only [Problem.stepGain, OrderDual.toDual_lt_toDual, Nat.add_sub_cancel,
      EmbeddingLike.apply_eq_iff_eq, Prod.Lex.toLex_lt_toLex]
    by_cases hgain : p.gain i (s i - 1) + p.gain j (s j + 1) = p.gain i (s i) + p.gain j (s j)
    · exact Or.inr ⟨by omega, Or.inl (hexchange.2 hgain (Nat.lt_succ_self _))⟩
    · omega
  exact hlast.trans_lt (hmiddle.trans_le hfirst)

/-- The selected steps are the first ones of the ranking. -/
theorem exists_stepLevels :
    ∃ count ≤ R.steps.length, (∀ i ∉ R.bundles, s i = R.stepLevels count i) ∧
      ∀ hlt : count < R.steps.length, s R.steps[count].1 < R.steps[count].2 := by
  obtain ⟨count, hcount, hbefore, hlast⟩ :=
    exists_shortest_prefix R.steps fun step => step.2 ≤ s step.1
  have hselected : ∀ r, ∀ hr : r < R.steps.length,
      (R.steps[r].2 ≤ s R.steps[r].1 ↔ r < count) := by
    intro r hr
    refine ⟨hbefore r hr, fun hlt => ?_⟩
    by_contra hnot
    have hkey := stepKey_lt_of_selected hs (getElem_mem (by omega : count - 1 < _))
      (getElem_mem hr) (hlast (by omega) (by omega)) (not_le.mp hnot)
    rcases lt_or_eq_of_le (Nat.le_sub_one_of_lt hlt) with hrc | rfl
    · exact absurd (pairwise_iff_getElem.mp R.steps_sorted r _ hr _ hrc) hkey.asymm
    · exact lt_irrefl _ hkey
  refine ⟨count, hcount, fun i hi => ?_, fun hlt => ?_⟩
  · have hmem : ∀ k, 1 ≤ k → k ≤ R.chain i → (k ≤ s i ↔ k ≤ R.stepLevels count i) := by
      intro k hk hkc
      obtain ⟨r, hr, heq⟩ := getElem_of_mem ((R.mem_steps i k).mpr ⟨hi, hk, hkc⟩)
      have hiff := hselected r hr
      rw [R.le_stepLevels_iff hcount hi hk, ← heq]
      rw [heq] at hiff
      rw [hiff, mem_take_iff_getElem]
      constructor
      · exact fun hlt => ⟨r, by omega, rfl⟩
      · rintro ⟨other, _, hsame⟩
        have hnodup : R.steps.Nodup := R.steps_sorted.imp fun hlt heq => hlt.ne (by rw [heq])
        rw [hnodup.getElem_inj_iff] at hsame
        omega
    have hsi := level_le_chain hs hi
    have hti := R.stepLevels_le_chain hcount hi
    have hforward := hmem (s i)
    have hbackward := hmem (R.stepLevels count i)
    omega
  · have := hselected count hlt
    omega

/-- Two bundles do not both stop half way: one of them gains by the other's step. -/
theorem exceptional_unique {j : ι} (hi : i ∈ R.bundles) (hj : j ∈ R.bundles) (hsi : s i = 1)
    (hsj : s j = 1) : i = j := by
  by_contra hne
  have hsupportI := R.mem_support_of_bundle i hi
  have hsupportJ := R.mem_support_of_bundle j hj
  have hfirst := (hs.exchange 0 2 hsupportI hsupportJ hne (Nat.zero_le _)
    (R.top_of_bundle j hj).ge (by omega)).1
  have hsecond := (hs.exchange 0 2 hsupportJ hsupportI (Ne.symm hne) (Nat.zero_le _)
    (R.top_of_bundle i hi).ge (by omega)).1
  have hgainI := R.gain_of_bundle i hi
  have hgainJ := R.gain_of_bundle j hj
  rw [hsi, hsj] at hfirst hsecond
  omega

theorem exceptional_gain_pos (hi : i ∈ R.bundles) (hsi : s i = 1) : 0 < p.gain i 1 := by
  by_contra hzero
  have hadjust := (hs.adjust 0 (R.mem_support_of_bundle i hi) (Nat.zero_le _)
    (hs.feasible.weight_le.trans (Nat.le_add_right _ _))).2 (by rw [p.gain_zero, hsi]; omega)
  omega

/-- A whole bundle outranks every bundle that is not taken. -/
theorem bundleKey_lt_of_taken {j : ι} (hi : i ∈ R.bundles) (hj : j ∈ R.bundles) (hsi : s i = 2)
    (hsj : s j = 0) : p.bundleKey i < p.bundleKey j := by
  have hne : i ≠ j := by
    rintro rfl
    omega
  have hexchange := hs.exchange 0 2 (R.mem_support_of_bundle i hi)
    (R.mem_support_of_bundle j hj) hne (Nat.zero_le _) (R.top_of_bundle j hj).ge (by omega)
  rw [p.gain_zero, hsi, hsj, p.gain_zero] at hexchange
  rw [Problem.bundleKey, Problem.bundleKey, Prod.Lex.toLex_lt_toLex]
  simp only [OrderDual.toDual_lt_toDual, OrderDual.toDual_inj]
  by_cases hgain : p.gain j 2 = p.gain i 2
  · exact Or.inr ⟨hgain.symm, hexchange.2 (by omega) (by omega)⟩
  · omega

/-- Whole bundles come before untaken ones, so between them lies at most the exceptional one. -/
theorem exists_bundle_prefix : ∃ taken ≤ R.bundles.length,
      (∀ r, ∀ hr : r < R.bundles.length, s R.bundles[r] ≠ 1 →
        s R.bundles[r] = if r < taken then 2 else 0) ∧
      ∀ hlast : taken - 1 < R.bundles.length, 0 < taken → s R.bundles[taken - 1] = 2 := by
  obtain ⟨taken, htaken, hbefore, hlast⟩ := exists_shortest_prefix R.bundles fun i => s i = 2
  refine ⟨taken, htaken, fun r hr hne => ?_, hlast⟩
  have hle := hs.feasible.le_top R.bundles[r]
  rw [R.top_of_bundle _ (getElem_mem hr)] at hle
  by_cases hlt : r < taken
  · rw [if_pos hlt]
    by_contra hnot
    have hzero : s R.bundles[r] = 0 := by omega
    have hkey := bundleKey_lt_of_taken hs (getElem_mem (by omega : taken - 1 < _))
      (getElem_mem hr) (hlast (by omega) (by omega)) hzero
    rcases lt_or_eq_of_le (Nat.le_sub_one_of_lt hlt) with hrt | rfl
    · exact absurd (pairwise_iff_getElem.mp R.bundles_sorted r _ hr _ hrt) hkey.asymm
    · exact lt_irrefl _ hkey
  · rw [if_neg hlt]
    have hnot : s R.bundles[r] ≠ 2 := fun htwo => hlt (hbefore r hr htwo)
    omega

/-- While a step is left, there is no capacity left. -/
theorem capacity_le_weight (hstep : (i, k) ∈ R.steps) (hunselected : s i < k) :
    capacity ≤ p.weight s := by
  obtain ⟨hi, _, _⟩ := (R.mem_steps i k).mp hstep
  by_contra hlt
  have hrise := R.gain_lt i hi (s i) (by omega)
  have htop := R.chain_le_top i hi
  have hadjust := hs.adjust (s i + 1) (R.mem_support_of_step hstep) (by omega) (by omega)
  omega

end

/-- **The optimum is a hull with at most one exceptional bundle.** The steps fill the capacity the
bundles leave; a hull that reaches past the exceptional bundle takes one more of the others. -/
theorem IsGreatest.exists_choice (R : Ranking p) (hs : p.IsGreatest capacity s) :
    (∃ taken ≤ R.bundles.length, 2 * taken ≤ capacity ∧
      s = R.hullLevels (min R.steps.length (capacity - 2 * taken)) taken) ∨
    ∃ taken ≤ R.bundles.length, ∃ rank, ∃ hrank : rank < R.bundles.length, ∃ whole,
      0 < p.gain R.bundles[rank] 1 ∧
      (taken = whole ∧ whole ≤ rank ∨ taken = whole + 1 ∧ rank < whole) ∧ 2 * whole + 1 ≤ capacity ∧
      s = update
        (R.hullLevels (min R.steps.length (capacity - 1 - 2 * whole)) taken)
        R.bundles[rank] 1 := by
  obtain ⟨count, hcount, hsteps, hfree⟩ := exists_stepLevels (R := R) hs
  obtain ⟨taken, htaken, hbundles, hlast⟩ := exists_bundle_prefix (R := R) hs
  have hweightLe := hs.feasible.weight_le
  have hfill : count < R.steps.length → capacity ≤ p.weight s := fun hlt =>
    capacity_le_weight hs (getElem_mem hlt) (hfree hlt)
  have hhull := R.weight_hullLevels hcount htaken
  have hregular : ∀ i, (i ∈ R.bundles → s i ≠ 1) → s i = R.hullLevels count taken i := by
    intro i hne
    by_cases hi : i ∈ R.bundles
    · obtain ⟨r, hr, rfl⟩ := getElem_of_mem hi
      rw [R.hullLevels_bundle hr, hbundles r hr (hne hi)]
    · rw [R.hullLevels_of_notMem hi, hsteps i hi]
  by_cases hexceptional : ∃ rank, ∃ hrank : rank < R.bundles.length, s R.bundles[rank] = 1
  · obtain ⟨rank, hrank, hone⟩ := hexceptional
    have hs' : s = update (R.hullLevels count taken) R.bundles[rank] 1 := by
      funext i
      rcases eq_or_ne i R.bundles[rank] with rfl | hother
      · rw [update_self, hone]
      · rw [update_of_ne hother]
        exact hregular i fun hi hsi =>
          hother (exceptional_unique hs hi (getElem_mem hrank) hsi hone)
    have hrankTaken : rank + 1 ≠ taken := by
      rintro rfl
      have htwo : s R.bundles[rank] = 2 := hlast hrank (Nat.succ_pos rank)
      omega
    have hweight := Problem.weight_update (s := R.hullLevels count taken)
      (R.mem_support_of_bundle _ (getElem_mem hrank)) 1
    rw [← hs', R.hullLevels_bundle hrank] at hweight
    refine Or.inr ⟨taken, htaken, rank, hrank, if rank < taken then taken - 1 else taken,
      exceptional_gain_pos hs (getElem_mem hrank) hone, ?_⟩
    by_cases hlt : rank < taken
    · rw [if_pos hlt] at hweight ⊢
      refine ⟨Or.inr ⟨by omega, by omega⟩, by omega, ?_⟩
      rw [show min R.steps.length (capacity - 1 - 2 * (taken - 1)) = count by omega]
      exact hs'
    · rw [if_neg hlt] at hweight ⊢
      refine ⟨Or.inl ⟨rfl, by omega⟩, by omega, ?_⟩
      rw [show min R.steps.length (capacity - 1 - 2 * taken) = count by omega]
      exact hs'
  · have hs' : s = R.hullLevels count taken := by
      refine funext fun i => hregular i fun hi hone => hexceptional ?_
      obtain ⟨r, hr, rfl⟩ := getElem_of_mem hi
      exact ⟨r, hr, hone⟩
    have hweight : p.weight s = count + 2 * taken := by rw [hs', hhull]
    refine Or.inl ⟨taken, htaken, by omega, ?_⟩
    rw [show min R.steps.length (capacity - 2 * taken) = count by omega]
    exact hs'

end Ranking

end Tritium.Knapsack
