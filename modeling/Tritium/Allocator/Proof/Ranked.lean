import Tritium.Allocator.Proof.ExactDistortion
import Tritium.Allocator.Ranked
import Tritium.Lib.RangeMin
import Mathlib.Data.Prod.Lex
import Mathlib.Algebra.Order.BigOperators.Group.List

/-!
# Prefix sums and first groups

The two indexes answer what a scan of the ranked upgrades would: the exact sum of a prefix, and the
least group of a range together with its rank.
-/

namespace Tritium.Allocator

open List

variable {start stop : Nat} {tree : List RankedGroup} {index : LexGroupIndex}

variable {α : Type} [RankedUpgrade α] {upgrades : List α} (profile : SaltV2Profile)

def reductionSum (upgrades : List α) : Nat :=
  (upgrades.map fun upgrade => (reduction upgrade).toNat).sum

theorem reductionSum_cons (upgrade : α) (upgrades : List α) :
    reductionSum (upgrade :: upgrades) = (reduction upgrade).toNat + reductionSum upgrades :=
  rfl

theorem reductionSum_append (first second : List α) :
    reductionSum (first ++ second) = reductionSum first + reductionSum second := by
  rw [reductionSum, map_append, sum_append]
  rfl

theorem reductionSum_take_le (upgrades : List α) (count : Nat) :
    reductionSum (upgrades.take count) ≤ reductionSum upgrades := by
  have hsplit := reductionSum_append (upgrades.take count) (upgrades.drop count)
  rw [take_append_drop] at hsplit
  omega

theorem reduction_le_reductionSum {upgrade : α} (hmem : upgrade ∈ upgrades) :
    (reduction upgrade).toNat ≤ reductionSum upgrades :=
  single_le_sum (fun _ _ => Nat.zero_le _) _ (mem_map_of_mem hmem)

theorem checkedReductionAdd_eq (left right : ExactDistortion) (profile : SaltV2Profile)
    (hlt : left.toNat + right.toNat < ExactDistortion.capacity) :
    ∃ sum, checkedReductionAdd left right profile = .ok sum ∧
      sum.toNat = left.toNat + right.toNat := by
  obtain ⟨sum, hsum⟩ := ExactDistortion.exists_checkedAdd hlt
  refine ⟨sum, ?_, ExactDistortion.checkedAdd_eq_some_iff.mp hsum⟩
  rw [checkedReductionAdd, hsum, okOr_some]

theorem addReductions_eq (total : ExactDistortion) (upgrades : List α)
    (hlt : total.toNat + reductionSum upgrades < ExactDistortion.capacity) :
    ∃ sum, addReductions profile total upgrades = .ok sum ∧
      sum.toNat = total.toNat + reductionSum upgrades := by
  induction upgrades generalizing total with
  | nil => exact ⟨total, rfl, rfl⟩
  | cons upgrade upgrades ih =>
    rw [reductionSum_cons] at hlt ⊢
    obtain ⟨next, hnext, hvalue⟩ := checkedReductionAdd_eq total
      (reduction upgrade).exact profile (by
        rw [ExactReduction.exact_toNat]
        omega)
    rw [ExactReduction.exact_toNat] at hvalue
    obtain ⟨sum, hsum, _⟩ := ih next (by omega)
    refine ⟨sum, ?_, by omega⟩
    rw [addReductions, foldlM_cons, hnext]
    exact hsum

namespace ExactPrefixIndex

theorem checkpointsFrom_eq (position : Nat) (total : ExactDistortion) (upgrades : List α)
    (hlt : total.toNat + reductionSum upgrades < ExactDistortion.capacity) :
    ∃ checkpoints, checkpointsFrom profile position total upgrades = .ok checkpoints ∧
      ∀ block count, position + count = exactPrefixBlock * (position / exactPrefixBlock + 1 + block) →
        count ≤ upgrades.length → ∃ checkpoint, checkpoints[block]? = some checkpoint ∧
          checkpoint.toNat = total.toNat + reductionSum (upgrades.take count) := by
  have hblock : exactPrefixBlock = 64 := rfl
  induction upgrades generalizing position total with
  | nil =>
    refine ⟨[], rfl, fun block count hposition hcount => ?_⟩
    rw [length_nil] at hcount
    rw [hblock] at hposition
    omega
  | cons upgrade upgrades ih =>
    rw [reductionSum_cons] at hlt
    obtain ⟨next, hnext, hvalue⟩ := checkedReductionAdd_eq total
      (reduction upgrade).exact profile (by
        rw [ExactReduction.exact_toNat]
        omega)
    rw [ExactReduction.exact_toNat] at hvalue
    obtain ⟨checkpoints, hcheckpoints, hspec⟩ := ih (position + 1) next (by omega)
    have hrest : ∀ block count, position + (count + 1) =
        exactPrefixBlock * ((position + 1) / exactPrefixBlock + 1 + block) →
        count + 1 ≤ (upgrade :: upgrades).length →
        ∃ checkpoint, checkpoints[block]? = some checkpoint ∧
          checkpoint.toNat = total.toNat + reductionSum ((upgrade :: upgrades).take (count + 1)) := by
      intro block count hposition hcount
      obtain ⟨checkpoint, hget, _⟩ := hspec block count (by omega)
        (Nat.le_of_succ_le_succ hcount)
      refine ⟨checkpoint, hget, ?_⟩
      rw [take_succ_cons, reductionSum_cons]
      omega
    by_cases hboundary : (position + 1) % exactPrefixBlock = 0
    · refine ⟨next :: checkpoints, ?_, fun block count hposition hcount => ?_⟩
      · rw [checkpointsFrom, hnext, ok_bind, hcheckpoints, ok_bind, if_pos hboundary, pure_eq_ok]
      · rw [hblock] at hposition hboundary
        cases block with
        | zero =>
          obtain rfl : count = 1 := by omega
          exact ⟨next, rfl, hvalue⟩
        | succ block =>
          obtain ⟨earlier, rfl⟩ : ∃ earlier, count = earlier + 1 := ⟨count - 1, by omega⟩
          exact hrest block earlier (by rw [hblock]; omega) hcount
    · refine ⟨checkpoints, ?_, fun block count hposition hcount => ?_⟩
      · rw [checkpointsFrom, hnext, ok_bind, hcheckpoints, ok_bind, if_neg hboundary, pure_eq_ok]
      · rw [hblock] at hposition hboundary
        obtain ⟨earlier, rfl⟩ : ∃ earlier, count = earlier + 1 := ⟨count - 1, by omega⟩
        exact hrest block earlier (by rw [hblock]; omega) hcount

/-- The index sums every prefix exactly. -/
def Sums (self : ExactPrefixIndex) (upgrades : List α) : Prop :=
  ∀ profile count, count ≤ upgrades.length → ∃ sum, self.sum upgrades count profile = .ok sum ∧
      sum.toNat = reductionSum (upgrades.take count)

theorem new_eq (hlength : upgrades.length < 2 ^ 62)
    (hlt : reductionSum upgrades < ExactDistortion.capacity) :
    ∃ index, new upgrades profile = .ok index ∧ index.Sums upgrades := by
  have hblock : exactPrefixBlock = 64 := rfl
  have hceil : upgrades.length ⌈/⌉ exactPrefixBlock = (upgrades.length + 63) / 64 := rfl
  have hzero := ExactDistortion.zero_toNat
  obtain ⟨checkpoints, hcheckpoints, hspec⟩ := checkpointsFrom_eq profile 0
    ExactDistortion.zero upgrades (by omega)
  have hreserve : checkedAddUsize (upgrades.length ⌈/⌉ exactPrefixBlock) 1 =
      some (upgrades.length ⌈/⌉ exactPrefixBlock + 1) := by
    rw [checkedAddUsize, if_pos (by rw [hceil]; omega)]
  refine ⟨⟨ExactDistortion.zero :: checkpoints, upgrades.length⟩, ?_, ?_⟩
  · rw [new, hreserve, okOr_bind, hcheckpoints, ok_bind, pure_eq_ok]
  intro profile count hcount
  have hcheckpoint : ∃ checkpoint,
      (ExactDistortion.zero :: checkpoints)[count / exactPrefixBlock]? = some checkpoint ∧
        checkpoint.toNat =
          reductionSum (upgrades.take (count / exactPrefixBlock * exactPrefixBlock)) := by
    rcases hdiv : count / exactPrefixBlock with _ | block
    · exact ⟨_, rfl, by rw [hzero]; rfl⟩
    · obtain ⟨checkpoint, hget, hsum⟩ := hspec block ((block + 1) * exactPrefixBlock)
        (by rw [hblock] at hdiv ⊢; omega) (by rw [hblock] at hdiv ⊢; omega)
      exact ⟨checkpoint, hget, by omega⟩
  obtain ⟨checkpoint, hget, _⟩ := hcheckpoint
  have hsplit : reductionSum (upgrades.take count) =
      reductionSum (upgrades.take (count / exactPrefixBlock * exactPrefixBlock)) +
        reductionSum ((upgrades.take count).drop (count / exactPrefixBlock * exactPrefixBlock)) := by
    have happend := take_append_drop (count / exactPrefixBlock * exactPrefixBlock)
      (upgrades.take count)
    rw [take_take, min_eq_left (Nat.div_mul_le_self count exactPrefixBlock)] at happend
    rw [← reductionSum_append, happend]
  have hbound := reductionSum_take_le upgrades count
  obtain ⟨sum, hadd, _⟩ := addReductions_eq profile checkpoint
    ((upgrades.take count).drop (count / exactPrefixBlock * exactPrefixBlock)) (by omega)
  refine ⟨sum, ?_, by omega⟩
  simp only [ExactPrefixIndex.sum]
  rw [Outcome.index, hget, slice_of_le (Nat.div_mul_le_self _ _) hcount]
  exact hadd

end ExactPrefixIndex

def RankedGroup.key (ranked : RankedGroup) : ℕ ×ₗ ℕ := toLex (ranked.group, ranked.rank)

theorem RankedGroup.key_injective : Function.Injective RankedGroup.key := by
  rintro ⟨group, rank⟩ ⟨group', rank'⟩ heq
  simpa [key] using heq

instance : LinearOrder RankedGroup := LinearOrder.lift' RankedGroup.key RankedGroup.key_injective

theorem RankedGroup.le_iff {left right : RankedGroup} :
    left ≤ right ↔ left.group < right.group ∨ left.group = right.group ∧ left.rank ≤ right.rank :=
  Prod.Lex.toLex_le_toLex

theorem RankedGroup.min_eq (left right : RankedGroup) : left.min right = Min.min left right := by
  exact if_congr RankedGroup.le_iff.symm rfl rfl

def rankedEntry (upgrades : List α) (rank : Nat) : RankedGroup :=
  ⟨(upgrades[rank]?).elim 0 group, rank⟩

theorem rankedGroup_eq {rank : Nat} (hrank : rank < upgrades.length) :
    rankedGroup upgrades rank = .ok (rankedEntry upgrades rank) := by
  rw [rankedGroup, index_of_lt hrank, rankedEntry, getElem?_eq_getElem hrank]
  rfl

theorem minRankedGroup_eq (hstop : stop ≤ upgrades.length) :
    minRankedGroup upgrades start stop =
      .ok (foldMin (rankedEntry upgrades) start stop .none) := by
  unfold minRankedGroup foldMin
  have hranks : ∀ rank ∈ range' start (stop - start), rank < upgrades.length := by
    intro rank hrank
    rw [mem_range'_1] at hrank
    omega
  generalize range' start (stop - start) = ranks at hranks
  generalize RankedGroup.none = best
  induction ranks generalizing best with
  | nil => rfl
  | cons rank ranks ih =>
    rw [foldlM_cons, rankedGroup_eq (hranks rank mem_cons_self), ok_bind, RankedGroup.min_eq]
    exact ih (fun other hother => hranks other (mem_cons_of_mem _ hother)) _

namespace LexGroupIndex

def slot (tree : List RankedGroup) (node : Nat) : RankedGroup := tree.getD node RankedGroup.none

theorem index_eq_slot {node : Nat} (hnode : node < tree.length) :
    (Outcome.index tree node : Outcome PhysicalAllocError RankedGroup) = .ok (slot tree node) := by
  rw [index_of_lt hnode, slot, getD_eq_getElem?_getD, getElem?_eq_getElem hnode]
  rfl

theorem slot_set {node : Nat} (hnode : node < tree.length) (value : RankedGroup) (other : Nat) :
    slot (tree.set node value) other = if other = node then value else slot tree other := by
  simp only [slot, getD_eq_getElem?_getD, getElem?_set]
  rcases eq_or_ne node other with rfl | hne
  · simp [hnode]
  · rw [if_neg hne, if_neg hne.symm]

theorem fillLeaves_eq (upgrades : List α) (leaves blocks : Nat) (tree : List RankedGroup)
    (htree : leaves + blocks ≤ tree.length) :
    ∃ filled, fillLeaves upgrades leaves tree blocks = .ok filled ∧ filled.length = tree.length ∧
      ∀ block < blocks, slot filled (leaves + block) =
        foldMin (rankedEntry upgrades) (block * lexIndexBlock)
          (min (block * lexIndexBlock + lexIndexBlock) upgrades.length) .none := by
  induction blocks with
  | zero => exact ⟨tree, rfl, rfl, by simp⟩
  | succ blocks ih =>
    obtain ⟨filled, hfilled, hlength, hslots⟩ := ih (by omega)
    refine ⟨filled.set (leaves + blocks) (foldMin (rankedEntry upgrades) (blocks * lexIndexBlock)
        (min (blocks * lexIndexBlock + lexIndexBlock) upgrades.length) .none), ?_,
      by rw [length_set, hlength], fun block hblock => ?_⟩
    · rw [fillLeaves, range_succ, foldlM_append]
      rw [fillLeaves] at hfilled
      rw [hfilled, ok_bind, foldlM_cons]
      dsimp only
      rw [minRankedGroup_eq (min_le_right _ _), ok_bind, setIndex_of_lt (by omega)]
      rfl
    · rw [slot_set (by omega)]
      split
      · rw [show block = blocks by omega]
      · exact hslots block (by omega)

/-- Inner nodes from `low` on hold the minimum of their two children. -/
def NodesFrom (tree : List RankedGroup) (leaves low : Nat) : Prop :=
  ∀ node, low ≤ node → node < leaves →
    slot tree node = min (slot tree (2 * node)) (slot tree (2 * node + 1))

theorem foldlM_fillNodes {leaves : Nat} (count : Nat) (tree : List RankedGroup)
    (htree : tree.length = leaves * 2) (hcount : count < leaves)
    (hnodes : NodesFrom tree leaves (count + 1)) :
    ∃ filled, (range' 1 count).reverse.foldlM
        (fun tree node => do
          let left ← Outcome.index tree (node * 2)
          let right ← Outcome.index tree (node * 2 + 1)
          setIndex tree node (left.min right)) tree =
        (.ok filled : Outcome PhysicalAllocError (List RankedGroup)) ∧
      filled.length = leaves * 2 ∧ NodesFrom filled leaves 1 ∧
      ∀ node, leaves ≤ node → slot filled node = slot tree node := by
  induction count generalizing tree with
  | zero => exact ⟨tree, rfl, htree, hnodes, fun _ _ => rfl⟩
  | succ count ih =>
    have hnode : count + 1 < tree.length := by omega
    have hset := slot_set hnode (min (slot tree ((count + 1) * 2)) (slot tree ((count + 1) * 2 + 1)))
    generalize hvalue : min (slot tree ((count + 1) * 2)) (slot tree ((count + 1) * 2 + 1)) =
      value at hset
    obtain ⟨filled, hfilled, hlength, hall, hleaves⟩ := ih
      (tree.set (count + 1) value) (by rw [length_set, htree]) (by omega) (by
        intro node hlow hhigh
        rw [hset, hset, hset, if_neg (by omega : 2 * node ≠ count + 1),
          if_neg (by omega : 2 * node + 1 ≠ count + 1)]
        rcases Nat.eq_or_lt_of_le hlow with rfl | _
        · rw [if_pos rfl, ← hvalue, mul_comm 2]
        · rw [if_neg (by omega)]
          exact hnodes node (by omega) hhigh)
    refine ⟨filled, ?_, hlength, hall, fun node hle => ?_⟩
    · rw [range'_1_concat, reverse_append, reverse_singleton,
        singleton_append, foldlM_cons, add_comm 1 count,
        index_eq_slot (by omega), ok_bind, index_eq_slot (by omega), ok_bind,
        RankedGroup.min_eq, hvalue, setIndex_of_lt hnode]
      exact hfilled
    · rw [hleaves node hle, hset, if_neg (by omega)]

structure Indexes (index : LexGroupIndex) (upgrades : List α) : Prop where
  tree_length : index.tree.length = index.leaves * 2
  leaves_pos : 0 < index.leaves
  blocks_le : upgrades.length ≤ index.leaves * lexIndexBlock
  leaf_eq : ∀ block, (block + 1) * lexIndexBlock ≤ upgrades.length →
    slot index.tree (index.leaves + block) =
      foldMin (rankedEntry upgrades) (lexIndexBlock * block) (lexIndexBlock * (block + 1))
        .none
  nodes : NodesFrom index.tree index.leaves 1

theorem checkedNextPowerOfTwo_eq (value : Nat) (hvalue : value < 2 ^ 60) :
    ∃ leaves, checkedNextPowerOfTwo value = some leaves ∧ value ≤ leaves ∧ 0 < leaves ∧
      leaves < 2 ^ 62 := by
  unfold checkedNextPowerOfTwo
  by_cases hsmall : value ≤ 1
  · exact ⟨1, by rw [if_pos hsmall], hsmall, by decide, by decide⟩
  · have hlog : Nat.log2 (value - 1) < 60 := (Nat.log2_lt (by omega)).mpr (by omega)
    have hpower : value - 1 < 2 ^ (Nat.log2 (value - 1) + 1) := Nat.lt_log2_self
    refine ⟨_, by rw [if_neg hsmall, if_pos (by omega)], by omega, Nat.two_pow_pos _, ?_⟩
    exact Nat.pow_lt_pow_right (by decide) (by omega)

theorem new_eq (hlength : upgrades.length < 2 ^ 63) :
    ∃ index, new upgrades profile = .ok index ∧ index.Indexes upgrades := by
  have hwidth : lexIndexBlock = 64 := rfl
  have hceil : upgrades.length ⌈/⌉ lexIndexBlock = (upgrades.length + 63) / 64 := rfl
  obtain ⟨leaves, hleaves, _, hpos, _⟩ := checkedNextPowerOfTwo_eq
    (max (upgrades.length ⌈/⌉ lexIndexBlock) 1) (by omega)
  have hslots : checkedMulUsize leaves 2 = some (leaves * 2) := by
    rw [checkedMulUsize, if_pos (by omega)]
  obtain ⟨filled, hfilled, hfilledLength, hfilledSlots⟩ := fillLeaves_eq upgrades leaves
    (upgrades.length ⌈/⌉ lexIndexBlock) (replicate (leaves * 2) RankedGroup.none)
    (by rw [length_replicate]; omega)
  rw [length_replicate] at hfilledLength
  obtain ⟨tree, htree, htreeLength, hnodes, hkept⟩ := foldlM_fillNodes (leaves - 1) filled
    hfilledLength (by omega) (fun node hlow hhigh => by omega)
  refine ⟨⟨tree, leaves, upgrades.length⟩, ?_, htreeLength, hpos, ?_, fun block hblock => ?_, hnodes⟩
  · simp only [new]
    rw [hleaves, okOr_bind, hslots, okOr_bind, hfilled, ok_bind, fillNodes, htree]
    rfl
  · change upgrades.length ≤ leaves * 64
    omega
  · rw [hwidth] at hblock
    have hleaf := hfilledSlots block (by omega)
    rw [hkept _ (Nat.le_add_right _ _), hleaf, hwidth]
    congr 1
    · omega
    · omega

theorem scanHead_eq (fuel : Nat) (best : RankedGroup) (hfuel : stop - start ≤ fuel)
    (hstart : start ≤ stop) (hstop : stop ≤ upgrades.length) (hbest : best ≤ RankedGroup.none) :
    ∃ start' best', scanHead upgrades fuel start stop best = .ok (start', best') ∧
      start' ≤ stop ∧ (start' = stop ∨ start' % lexIndexBlock = 0) ∧ best' ≤ RankedGroup.none ∧
      foldMin (rankedEntry upgrades) start' stop best' =
        foldMin (rankedEntry upgrades) start stop best := by
  induction fuel generalizing start best with
  | zero =>
    exact ⟨start, best, rfl, hstart, Or.inl (by omega), hbest, rfl⟩
  | succ fuel ih =>
    rw [scanHead]
    by_cases hscan : start < stop ∧ start % lexIndexBlock ≠ 0
    · rw [if_pos hscan, rankedGroup_eq (by omega), ok_bind, RankedGroup.min_eq,
        foldMin.shift_start start hscan.1]
      exact ih _ (by omega) (by omega) ((min_le_left _ _).trans hbest)
    · rw [if_neg hscan]
      exact ⟨start, best, rfl, hstart, by omega, hbest, rfl⟩

theorem scanTail_eq (fuel start stop : Nat) (best : RankedGroup) (hfuel : stop - start ≤ fuel)
    (hstart : start ≤ stop) (hstop : stop ≤ upgrades.length) (hbest : best ≤ RankedGroup.none) :
    ∃ stop' best', scanTail upgrades fuel start stop best = .ok (stop', best') ∧
      start ≤ stop' ∧ stop' ≤ stop ∧ (start = stop' ∨ stop' % lexIndexBlock = 0) ∧
      best' ≤ RankedGroup.none ∧ foldMin (rankedEntry upgrades) start stop' best' =
        foldMin (rankedEntry upgrades) start stop best := by
  induction fuel generalizing stop best with
  | zero =>
    exact ⟨stop, best, rfl, hstart, le_rfl, Or.inl (by omega), hbest, rfl⟩
  | succ fuel ih =>
    rw [scanTail]
    by_cases hscan : start < stop ∧ stop % lexIndexBlock ≠ 0
    · rw [if_pos hscan, rankedGroup_eq (by omega), ok_bind, RankedGroup.min_eq,
        foldMin.shift_stop hscan.1]
      obtain ⟨stop', best', hscanned, hlow, _, hrest⟩ := ih (stop - 1) _ (by omega)
        (by omega) (by omega) ((min_le_left _ _).trans hbest)
      exact ⟨stop', best', hscanned, hlow, by omega, hrest⟩
    · rw [if_neg hscan]
      exact ⟨stop, best, rfl, hstart, le_rfl, by omega, hbest, rfl⟩

theorem climb_eq {leaves : Nat} (htree : tree.length = leaves * 2)
    (hnodes : NodesFrom tree leaves 1) (fuel left right : Nat) (best : RankedGroup)
    (hfuel : right ≤ fuel) (hleft : 1 ≤ left) (hright : right ≤ leaves * 2) :
    climb tree fuel left right best = .ok (foldMin (slot tree) left right best) := by
  induction fuel generalizing left right best with
  | zero =>
    rw [foldMin.of_le (by omega)]
    rfl
  | succ fuel ih =>
    rw [climb]
    by_cases hlt : left < right
    · rw [if_pos hlt]
      -- Both ends are moved to even nodes first, which have the same parents' minimum.
      have hhalve : ∀ {low high : Nat} (best : RankedGroup), low % 2 = 0 → high % 2 = 0 →
          2 ≤ low → high ≤ right →
          climb tree fuel (low / 2) (high / 2) best = .ok (foldMin (slot tree) low high best) := by
        intro low high best hlow hhigh htwo hle
        rw [ih _ _ best (by omega) (by omega) (by omega),
          foldMin.pairs fun node hnode hbound => hnodes node (by omega) (by omega),
          show 2 * (low / 2) = low by omega, show 2 * (high / 2) = high by omega]
      by_cases hleftOdd : left % 2 ≠ 0
      · rw [if_pos hleftOdd, index_eq_slot (by omega), ok_bind, ok_bind,
          foldMin.shift_start left hlt, RankedGroup.min_eq]
        by_cases hrightOdd : right % 2 ≠ 0
        · simp only [if_pos hrightOdd]
          rw [index_eq_slot (by omega), ok_bind, foldMin.shift_stop (by omega), RankedGroup.min_eq]
          exact hhalve _ (by omega) (by omega) (by omega) (by omega)
        · simp only [if_neg hrightOdd]
          exact hhalve _ (by omega) (by omega) (by omega) le_rfl
      · rw [if_neg hleftOdd, ok_bind]
        by_cases hrightOdd : right % 2 ≠ 0
        · simp only [if_pos hrightOdd]
          rw [index_eq_slot (by omega), ok_bind, foldMin.shift_stop (by omega), RankedGroup.min_eq]
          exact hhalve _ (by omega) (by omega) (by omega) (by omega)
        · simp only [if_neg hrightOdd]
          exact hhalve _ (by omega) (by omega) (by omega) le_rfl
    · rw [if_neg hlt, foldMin.of_le (by omega)]

/-- The tree answers what a scan of the range would. -/
theorem rangeMin_eq (hindex : index.Indexes upgrades) (hstart : start ≤ stop)
    (hstop : stop ≤ upgrades.length) :
    index.rangeMin upgrades start stop =
      .ok (if foldMin (rankedEntry upgrades) start stop .none ≠ RankedGroup.none then
        some (foldMin (rankedEntry upgrades) start stop .none) else none) := by
  have hwidth : lexIndexBlock = 64 := rfl
  rw [rangeMin]
  by_cases hempty : start = stop
  · rw [if_pos hempty, foldMin.of_le (by omega), if_neg (not_not.mpr rfl)]
  rw [if_neg hempty]
  obtain ⟨low, lowBest, hlow, hlowStop, hlowBlock, hlowBest, hlowFold⟩ := scanHead_eq
    (stop - start) RankedGroup.none le_rfl hstart hstop le_rfl
  obtain ⟨high, highBest, hhigh, _, _, hhighBlock, hhighBest, hhighFold⟩ :=
    scanTail_eq (stop - low) low stop lowBest le_rfl hlowStop hstop hlowBest
  rw [hlow, ok_bind]
  dsimp only
  rw [hhigh, ok_bind, ← hlowFold, ← hhighFold]
  by_cases hlt : low < high
  · have hblocks := hindex.blocks_le
    have hpos := hindex.leaves_pos
    have hclimb := climb_eq hindex.tree_length hindex.nodes (index.leaves + high / lexIndexBlock)
      (index.leaves + low / lexIndexBlock) (index.leaves + high / lexIndexBlock) highBest le_rfl
      (by rw [hwidth]; omega) (by rw [hwidth] at *; omega)
    rw [foldMin.translate, foldMin.blocks_of_bound hhighBest fun block hblock hbound =>
      hindex.leaf_eq block (by rw [hwidth] at *; omega)] at hclimb
    rw [hwidth] at hlowBlock hhighBlock hclimb
    rw [show 64 * (low / 64) = low by omega, show 64 * (high / 64) = high by omega] at hclimb
    simp only [if_pos hlt, hwidth]
    rw [hclimb]
    rfl
  · simp only [if_neg hlt]
    rw [foldMin.of_le (by omega)]
    rfl

end LexGroupIndex

/-! ### The least group of a set of ranks -/

/-- The least entry of a set of ranks, or nothing when the set is empty. -/
def IsLeastRanked (upgrades : List α) (ranks : Set ℕ) : Option RankedGroup → Prop
  | none => ranks = ∅
  | some best => best.rank ∈ ranks ∧ best = rankedEntry upgrades best.rank ∧
      ∀ rank ∈ ranks, best ≤ rankedEntry upgrades rank

/-- Ranks and groups that no sentinel of the code is mistaken for. -/
structure BelowSentinel (upgrades : List α) : Prop where
  length_lt : upgrades.length < usizeMax
  group_le : ∀ upgrade ∈ upgrades, group upgrade ≤ usizeMax

section Least

variable {first second : Set ℕ} {best : Option RankedGroup}

theorem IsLeastRanked.eq_none_iff (hbest : IsLeastRanked upgrades first best) :
    best = none ↔ first = ∅ := by
  cases best with
  | none => exact iff_of_true rfl hbest
  | some best => exact iff_of_false (by simp) (Set.nonempty_of_mem hbest.1).ne_empty

theorem IsLeastRanked.singleton (rank : ℕ) :
    IsLeastRanked upgrades {rank} (some (rankedEntry upgrades rank)) :=
  ⟨rfl, rfl, fun other hother => by rw [Set.mem_singleton_iff.mp hother]⟩

theorem IsLeastRanked.minOptionalRanked {candidate : RankedGroup}
    (hbest : IsLeastRanked upgrades first best)
    (hcandidate : IsLeastRanked upgrades second (some candidate)) :
    IsLeastRanked upgrades (first ∪ second) (minOptionalRanked best candidate) := by
  cases best with
  | none =>
    rw [show first = ∅ from hbest, Set.empty_union]
    exact hcandidate
  | some best =>
    obtain ⟨hmem, hentry, hleast⟩ := hbest
    obtain ⟨hmem', hentry', hleast'⟩ := hcandidate
    rw [Allocator.minOptionalRanked, RankedGroup.min_eq]
    have hmin : ∀ rank ∈ first ∪ second, min best candidate ≤ rankedEntry upgrades rank := by
      rintro rank (hrank | hrank)
      · exact (min_le_left _ _).trans (hleast rank hrank)
      · exact (min_le_right _ _).trans (hleast' rank hrank)
    rcases min_choice best candidate with heq | heq <;> rw [heq] at hmin ⊢
    · exact ⟨Or.inl hmem, hentry, hmin⟩
    · exact ⟨Or.inr hmem', hentry', hmin⟩

theorem IsLeastRanked.minFound {found : Option RankedGroup}
    (hbest : IsLeastRanked upgrades first best) (hfound : IsLeastRanked upgrades second found) :
    IsLeastRanked upgrades (first ∪ second) (minFound best found) := by
  cases found with
  | none =>
    rw [show second = ∅ from hfound, Set.union_empty]
    exact hbest
  | some candidate => exact hbest.minOptionalRanked hfound

variable (hbelow : BelowSentinel upgrades)

include hbelow

theorem BelowSentinel.rankedEntry_lt {rank : ℕ} (hrank : rank < upgrades.length) :
    rankedEntry upgrades rank < RankedGroup.none := by
  rw [← not_le, RankedGroup.le_iff, rankedEntry, getElem?_eq_getElem hrank]
  have hgroup := hbelow.group_le _ (getElem_mem hrank)
  have hlength := hbelow.length_lt
  simp only [RankedGroup.none, Option.elim_some]
  omega

section

variable (hindex : index.Indexes upgrades)

include hindex

theorem LexGroupIndex.rangeMin_isLeast (start stop : ℕ) (hstart : start ≤ stop)
    (hstop : stop ≤ upgrades.length) :
    ∃ found, index.rangeMin upgrades start stop = .ok found ∧
      IsLeastRanked upgrades (Set.Ico start stop) found := by
  refine ⟨_, rangeMin_eq hindex hstart hstop, ?_⟩
  rcases @foldMin.eq_best_or_mem _ _ (rankedEntry upgrades) start stop .none with
    hnone | ⟨rank, hlow, hhigh, heq⟩
  · rw [if_neg (not_not.mpr hnone)]
    refine Set.eq_empty_of_forall_notMem fun rank hrank => ?_
    have hle : foldMin (rankedEntry upgrades) start stop .none ≤
        rankedEntry upgrades rank := foldMin.le_of_mem hrank.1 hrank.2
    rw [hnone] at hle
    exact absurd (hbelow.rankedEntry_lt (hrank.2.trans_le hstop)) (not_lt.mpr hle)
  · have hlt := hbelow.rankedEntry_lt (hhigh.trans_le hstop)
    rw [if_pos (by rw [heq]; exact hlt.ne)]
    refine ⟨?_, ?_, fun other hother => foldMin.le_of_mem hother.1 hother.2⟩
    · rw [heq]
      exact ⟨hlow, hhigh⟩
    · rw [heq]
      rfl

/-- One excluded rank cuts the range in two. -/
theorem rangeMinExcluding_step (state : Option RankedGroup × ℕ) {stop : ℕ}
    (hstop : stop ≤ upgrades.length) (hbest : IsLeastRanked upgrades first state.1) (rank : ℕ) :
    ∃ next : Option RankedGroup × ℕ,
      (if rank < state.2 ∨ stop ≤ rank then .ok state
        else do
          let found ← index.rangeMin upgrades state.2 rank
          return (minFound state.1 found, rank + 1)) =
        (.ok next : Outcome PhysicalAllocError (Option RankedGroup × ℕ)) ∧
      (next.2 = if rank < state.2 ∨ stop ≤ rank then state.2 else rank + 1) ∧
      IsLeastRanked upgrades (first ∪ {other | state.2 ≤ other ∧ other < next.2 ∧ other ≠ rank})
        next.1 := by
  by_cases hskip : rank < state.2 ∨ stop ≤ rank
  · refine ⟨state, by rw [if_pos hskip], by rw [if_pos hskip], ?_⟩
    have hempty : {other | state.2 ≤ other ∧ other < state.2 ∧ other ≠ rank} = ∅ :=
      Set.eq_empty_of_forall_notMem fun other hother => absurd hother.1 (not_le.mpr hother.2.1)
    rwa [hempty, Set.union_empty]
  · obtain ⟨found, hfound, hleast⟩ := LexGroupIndex.rangeMin_isLeast hbelow hindex state.2 rank
      (by omega) (by omega)
    refine ⟨(minFound state.1 found, rank + 1), by rw [if_neg hskip, hfound]; rfl,
      by rw [if_neg hskip], ?_⟩
    have hranks : {other | state.2 ≤ other ∧ other < rank + 1 ∧ other ≠ rank} =
        Set.Ico state.2 rank := by
      ext other
      simp only [Set.mem_ofPred_eq, Set.mem_Ico]
      omega
    rw [hranks]
    exact hbest.minFound hleast

theorem rangeMinExcluding_isLeast {start stop : ℕ} (hstart : start ≤ stop)
    (hstop : stop ≤ upgrades.length) (excluded : Option ℕ × Option ℕ) :
    ∃ found, rangeMinExcluding index upgrades start stop excluded = .ok found ∧
      IsLeastRanked upgrades {rank | start ≤ rank ∧ rank < stop ∧ excluded.1 ≠ some rank ∧
        excluded.2 ≠ some rank} found := by
  have hlength := hbelow.length_lt
  have hexcluded : ∀ (entry : Option ℕ) (rank : ℕ), rank < usizeMax →
      (entry = some rank ↔ entry.getD usizeMax = rank) := by
    rintro (_ | other) rank hrank
    · simp only [reduceCtorEq, Option.getD_none, false_iff]
      omega
    · simp
  unfold rangeMinExcluding
  generalize hfirst : excluded.1.getD usizeMax = first
  generalize hsecond : excluded.2.getD usizeMax = second
  have hnone : IsLeastRanked upgrades ∅ none := rfl
  obtain ⟨⟨best₁, cursor₁⟩, hstep₁, hcursor₁, hleast₁⟩ := rangeMinExcluding_step hbelow hindex
    (none, start) hstop hnone (min first second)
  obtain ⟨⟨best₂, cursor₂⟩, hstep₂, hcursor₂, hleast₂⟩ := rangeMinExcluding_step hbelow hindex
    (best₁, cursor₁) hstop hleast₁ (max first second)
  have hcursorLe : cursor₂ ≤ stop := by
    split at hcursor₁ <;> split at hcursor₂ <;> omega
  obtain ⟨found, hfound, hleast⟩ := LexGroupIndex.rangeMin_isLeast hbelow hindex cursor₂ stop
    hcursorLe hstop
  refine ⟨minFound best₂ found, ?_, ?_⟩
  · simp only [foldlM_cons, foldlM_nil]
    rw [hstep₁, ok_bind, hstep₂, ok_bind, pure_eq_ok, ok_bind, hfound]
    rfl
  · convert hleast₂.minFound hleast using 1
    ext rank
    simp only [Set.mem_ofPred_eq, Set.mem_union, Set.mem_empty_iff_false, false_or, Set.mem_Ico]
    by_cases hrank : rank < stop
    · rw [Ne, hexcluded _ rank (by omega), Ne, hexcluded _ rank (by omega)]
      split at hcursor₁ <;> split at hcursor₂ <;> omega
    · split at hcursor₁ <;> split at hcursor₂ <;> omega

end

end Least

/-- **Blocked range minimum.** Every slice of upgrades gets an index. For any range of ranks it
answers with the least pair of group and rank, and with none exactly when the range is empty; two
optional excluded ranks are left out of the range. -/
theorem lexGroupIndex_answers (upgrades : List α) (hlength : upgrades.length < 2 ^ 63)
    (hgroups : ∀ upgrade ∈ upgrades, group upgrade ≤ usizeMax) :
    ∃ index, LexGroupIndex.new upgrades profile = .ok index ∧
      ∀ start stop, start ≤ stop → stop ≤ upgrades.length →
        (∃ found, index.rangeMin upgrades start stop = .ok found ∧
          (found = none ↔ start = stop) ∧ IsLeastRanked upgrades (Set.Ico start stop) found) ∧
        ∀ excluded : Option ℕ × Option ℕ,
          ∃ found, rangeMinExcluding index upgrades start stop excluded = .ok found ∧
            IsLeastRanked upgrades {rank | start ≤ rank ∧ rank < stop ∧
              excluded.1 ≠ some rank ∧ excluded.2 ≠ some rank} found := by
  have hbelow : BelowSentinel upgrades := ⟨hlength.trans (by decide), hgroups⟩
  obtain ⟨index, hnew, hindex⟩ := LexGroupIndex.new_eq profile hlength
  refine ⟨index, hnew, fun start stop hstart hstop => ⟨?_, fun excluded => ?_⟩⟩
  · obtain ⟨found, hfound, hleast⟩ := LexGroupIndex.rangeMin_isLeast hbelow hindex _ _ hstart hstop
    refine ⟨found, hfound, ?_, hleast⟩
    rw [hleast.eq_none_iff, Set.Ico_eq_empty_iff]
    omega
  · exact rangeMinExcluding_isLeast hbelow hindex hstart hstop excluded

/-- The range covers a block and parts of two others. -/
theorem lexGroupIndex_answers_threeBlocks :
    letI : RankedUpgrade ℕ := ⟨id, fun _ => ⟨0, 0, rfl, rfl, rfl, rfl, le_rfl⟩⟩
    ∃ index, LexGroupIndex.new (range 150) .compactV1 = .ok index ∧
      ∃ found, rangeMinExcluding index (range 150) 10 140 (some 10, none) = .ok found ∧
        IsLeastRanked (range 150) {rank | 10 ≤ rank ∧ rank < 140 ∧ some 10 ≠ some rank ∧
          none ≠ some rank} found := by
  let : RankedUpgrade ℕ := ⟨id, fun _ => ⟨0, 0, rfl, rfl, rfl, rfl, le_rfl⟩⟩
  obtain ⟨index, hnew, hanswers⟩ := lexGroupIndex_answers .compactV1 (range 150) (by simp)
    fun upgrade hupgrade => (mem_range.mp hupgrade).le.trans (by decide)
  exact ⟨index, hnew, (hanswers 10 140 (by decide) (by simp)).2 (some 10, none)⟩

end Tritium.Allocator
