import Tritium.Allocator.Pareto
import Tritium.Allocator.Proof.Ledger
import Mathlib.Data.List.ReduceOption

/-!
# The bounded program is exact

Pruning keeps, for every state, one that beats it: no more bytes, no more distortion, and a greater
plane vector when all three tie. A state that is beaten stays beaten however the remaining groups are
filled in, so after each group the frontier still covers every feasible vector.
-/

namespace Tritium.Allocator

open List

/-- Both byte counters, the serialized one first. -/
def ExactState.bytesKey (state : ExactState) : ℕ ×ₗ ℕ :=
  toLex (state.bytes.serialized.toNat, state.bytes.resident.toNat)

structure Beats (other state : ExactState) : Prop where
  serialized_le : other.bytes.serialized.toNat ≤ state.bytes.serialized.toNat
  resident_le : other.bytes.resident.toNat ≤ state.bytes.resident.toNat
  distortion_le : other.distortion.toNat ≤ state.distortion.toNat
  planeCounts_le : other.bytes.serialized.toNat = state.bytes.serialized.toNat →
    other.bytes.resident.toNat = state.bytes.resident.toNat →
    other.distortion.toNat = state.distortion.toNat → state.planeCounts ≤ other.planeCounts

theorem Beats.refl (state : ExactState) : Beats state state :=
  ⟨le_rfl, le_rfl, le_rfl, fun _ _ _ => le_rfl⟩

theorem Beats.trans {first second third : ExactState} (hfirst : Beats first second)
    (hsecond : Beats second third) : Beats first third := by
  have h1 := hfirst.serialized_le
  have h2 := hsecond.serialized_le
  have h3 := hfirst.resident_le
  have h4 := hsecond.resident_le
  have h5 := hfirst.distortion_le
  have h6 := hsecond.distortion_le
  refine ⟨by omega, by omega, by omega, fun hserialized hresident hdistortion => ?_⟩
  exact le_trans (hsecond.planeCounts_le (by omega) (by omega) (by omega))
    (hfirst.planeCounts_le (by omega) (by omega) (by omega))

theorem ExactState.bytesKey_eq_iff {left right : ExactState} :
    left.bytesKey = right.bytesKey ↔ left.bytes = right.bytes := by
  rcases left with ⟨⟨leftSerialized, leftResident⟩, _, _⟩
  rcases right with ⟨⟨rightSerialized, rightResident⟩, _, _⟩
  simp [bytesKey, UInt64.toNat_inj]

instance : Std.TransCmp ExactDistortion.cmp where
  eq_swap := by
    intro left right
    rw [ExactDistortion.cmp_eq, ExactDistortion.cmp_eq]
    exact Std.OrientedCmp.eq_swap
  isLE_trans := by
    intro first second third
    simp only [ExactDistortion.cmp_eq]
    exact Std.TransCmp.isLE_trans

instance : Std.TransCmp fun left right : ExactState => left.distortion.cmp right.distortion :=
  transCmp_comap ExactDistortion.cmp ExactState.distortion

instance : Std.TransCmp fun left right : ExactState =>
    List.compareLex compare right.planeCounts left.planeCounts :=
  @Std.TransCmp.opposite _ _ (transCmp_comap (List.compareLex compare) ExactState.planeCounts)

instance : Std.TransCmp comparePruneOrder :=
  inferInstanceAs (Std.TransCmp (compareLex (compareLex (compareLex
    (compareOn fun state : ExactState => state.bytes.serialized)
    (compareOn fun state : ExactState => state.bytes.resident))
    (fun left right => left.distortion.cmp right.distortion))
    (fun left right => List.compareLex compare right.planeCounts left.planeCounts)))

instance : Std.TransCmp compareFinalOrder :=
  inferInstanceAs (Std.TransCmp (compareLex (compareLex (compareLex
    (fun left right : ExactState => left.distortion.cmp right.distortion)
    (compareOn fun state : ExactState => state.bytes.serialized))
    (compareOn fun state : ExactState => state.bytes.resident))
    (fun left right => List.compareLex compare right.planeCounts left.planeCounts)))

theorem bytesKey_le_of_comparePruneOrder {left right : ExactState}
    (hle : (comparePruneOrder left right).isLE) : left.bytesKey ≤ right.bytesKey := by
  simp only [comparePruneOrder, Ordering.isLE_then_iff_and] at hle
  obtain ⟨⟨⟨hserialized, hresident⟩, _⟩, _⟩ := hle
  rw [Limbs.compare_limb, Nat.isLE_compare] at hserialized
  rw [Limbs.compare_limb, Limbs.compare_limb, Nat.compare_eq_lt, Nat.isLE_compare] at hresident
  rw [ExactState.bytesKey, ExactState.bytesKey, Prod.Lex.toLex_le_toLex]
  omega

/-- One pass of the loop keeps the states strictly ordered by bytes, the last one first, and never
loses a state without keeping one that beats it. -/
theorem dedupPush_spec {deduplicated : List ExactState} {state : ExactState}
    (hsorted : deduplicated.Pairwise fun later earlier => earlier.bytesKey < later.bytesKey)
    (hafter : ∀ earlier ∈ deduplicated, earlier.bytesKey ≤ state.bytesKey) :
    (dedupPush deduplicated state).Pairwise
        (fun later earlier => earlier.bytesKey < later.bytesKey) ∧
      (∀ kept ∈ dedupPush deduplicated state, kept ∈ state :: deduplicated) ∧
      ∀ other ∈ state :: deduplicated, ∃ kept ∈ dedupPush deduplicated state,
        Beats kept other := by
  cases deduplicated with
  | nil => exact ⟨by simp [dedupPush], by simp [dedupPush], by simpa [dedupPush] using Beats.refl _⟩
  | cons previous rest =>
    obtain ⟨hprevious, hrest⟩ := pairwise_cons.mp hsorted
    have hkeep : ∀ kept : ExactState, kept.bytesKey = previous.bytesKey →
        (kept :: rest).Pairwise fun later earlier => earlier.bytesKey < later.bytesKey :=
      fun kept hkept => pairwise_cons.mpr ⟨fun earlier hearlier =>
        hkept ▸ hprevious earlier hearlier, hrest⟩
    by_cases hbytes : previous.bytes = state.bytes
    · have hkey : state.bytesKey = previous.bytesKey :=
        ExactState.bytesKey_eq_iff.mpr hbytes.symm
      simp only [dedupPush, if_pos hbytes, ExactDistortion.cmp_eq]
      split
      · rename_i hreplace
        refine ⟨hkeep state hkey, by simp; tauto, ?_⟩
        have hbeats : Beats state previous := by
          refine ⟨by rw [hbytes], by rw [hbytes], ?_, fun _ _ hdistortion => ?_⟩
          · rcases hreplace with hlt | ⟨heq, _⟩
            · exact (Nat.compare_eq_lt.mp hlt).le
            · rw [heq]
          · rcases hreplace with hlt | ⟨_, hgt⟩
            · exact absurd hdistortion (Nat.compare_eq_lt.mp hlt).ne
            · exact (compareLex_isLE_iff _ _).mp (isLE_of_eq_gt _ hgt)
        intro other hother
        rcases mem_cons.mp hother with rfl | hother
        · exact ⟨_, mem_cons_self, Beats.refl _⟩
        rcases mem_cons.mp hother with rfl | hother
        · exact ⟨_, mem_cons_self, hbeats⟩
        · exact ⟨_, mem_cons_of_mem _ hother, Beats.refl _⟩
      · rename_i hkept
        refine ⟨hsorted, fun kept hkept => mem_cons_of_mem _ hkept, ?_⟩
        rw [not_or, not_and, Nat.compare_eq_lt, not_lt] at hkept
        have hbeats : Beats previous state := by
          refine ⟨by rw [hbytes], by rw [hbytes], hkept.1, fun _ _ hdistortion => ?_⟩
          have hne := hkept.2 (ExactDistortion.toNat_injective hdistortion.symm)
          exact (compareLex_isLE_iff _ _).mp (Ordering.isLE_iff_ne_gt.mpr hne)
        intro other hother
        rcases mem_cons.mp hother with rfl | hother
        · exact ⟨_, mem_cons_self, hbeats⟩
        · exact ⟨_, hother, Beats.refl _⟩
    · simp only [dedupPush, if_neg hbytes]
      have hlt : previous.bytesKey < state.bytesKey :=
        lt_of_le_of_ne (hafter previous mem_cons_self)
          fun heq => hbytes (ExactState.bytesKey_eq_iff.mp heq)
      refine ⟨pairwise_cons.mpr ⟨fun earlier hearlier => ?_, hsorted⟩, fun _ hkept => hkept,
        fun other hother => ⟨other, hother, Beats.refl other⟩⟩
      rcases mem_cons.mp hearlier with rfl | hearlier
      · exact hlt
      · exact (hprevious earlier hearlier).trans hlt

theorem foldl_dedupPush_spec {states deduplicated : List ExactState}
    (hstates : states.Pairwise fun left right => left.bytesKey ≤ right.bytesKey)
    (hsorted : deduplicated.Pairwise fun later earlier => earlier.bytesKey < later.bytesKey)
    (hafter : ∀ earlier ∈ deduplicated, ∀ state ∈ states, earlier.bytesKey ≤ state.bytesKey) :
    (states.foldl dedupPush deduplicated).Pairwise
        (fun later earlier => earlier.bytesKey < later.bytesKey) ∧
      (∀ kept ∈ states.foldl dedupPush deduplicated, kept ∈ deduplicated ++ states) ∧
      ∀ other ∈ deduplicated ++ states, ∃ kept ∈ states.foldl dedupPush deduplicated,
        Beats kept other := by
  induction states generalizing deduplicated with
  | nil => exact ⟨hsorted, by simp, by simpa using fun other hother => ⟨other, hother, .refl _⟩⟩
  | cons state states ih =>
    obtain ⟨hstate, hstates⟩ := pairwise_cons.mp hstates
    obtain ⟨hpushSorted, hpushMem, hpushBeats⟩ := dedupPush_spec hsorted
      fun earlier hearlier => hafter earlier hearlier state mem_cons_self
    have hpushAfter : ∀ earlier ∈ dedupPush deduplicated state, ∀ later ∈ states,
        earlier.bytesKey ≤ later.bytesKey := by
      intro earlier hearlier later hlater
      rcases mem_cons.mp (hpushMem earlier hearlier) with rfl | hmem
      · exact hstate later hlater
      · exact hafter earlier hmem later (mem_cons_of_mem _ hlater)
    obtain ⟨hfoldSorted, hfoldMem, hfoldBeats⟩ := ih hstates hpushSorted hpushAfter
    refine ⟨hfoldSorted, fun kept hkept => ?_, fun other hother => ?_⟩
    · rcases mem_append.mp (hfoldMem kept hkept) with hmem | hmem
      · have := hpushMem kept hmem
        simp only [mem_cons, mem_append] at this ⊢
        tauto
      · simp [hmem]
    · have hsplit : other ∈ state :: deduplicated ∨ other ∈ states := by
        simp only [mem_cons, mem_append] at hother ⊢
        tauto
      rcases hsplit with hmem | hmem
      · obtain ⟨pushed, hpushed, hbeats⟩ := hpushBeats other hmem
        obtain ⟨kept, hkept, hkeptBeats⟩ := hfoldBeats pushed (mem_append_left _ hpushed)
        exact ⟨kept, hkept, hkeptBeats.trans hbeats⟩
      · exact hfoldBeats other (mem_append_right _ hmem)

theorem dominates_eq_true_iff {other candidate : ExactState} :
    dominates other candidate = true ↔
      other.bytes.serialized.toNat ≤ candidate.bytes.serialized.toNat ∧
        other.bytes.resident.toNat ≤ candidate.bytes.resident.toNat ∧
        other.distortion.toNat ≤ candidate.distortion.toNat := by
  simp only [dominates, Bool.and_eq_true, decide_eq_true_iff, UInt64.le_iff_toNat_le,
    ExactDistortion.cmp_eq, ne_eq, Nat.compare_eq_gt, not_lt, and_assoc]

/-- Of two different states of a strictly ordered list, one has other bytes than the other, so a
state is dropped only for one that costs strictly less. -/
theorem exists_dominator_of_dropped {states : List ExactState} {state : ExactState} {index : Nat}
    (hsorted : states.Pairwise fun earlier later => earlier.bytesKey < later.bytesKey)
    (hindex : (state, index) ∈ states.zipIdx)
    (hdropped : (states.zipIdx.any fun other =>
      decide (other.2 ≠ index) && dominates other.1 state) = true) :
    ∃ other ∈ states, Beats other state ∧
      other.bytes.serialized.toNat + other.bytes.resident.toNat <
        state.bytes.serialized.toNat + state.bytes.resident.toNat := by
  obtain ⟨⟨other, otherIndex⟩, hother, hdominates⟩ := any_eq_true.mp hdropped
  simp only [Bool.and_eq_true, decide_eq_true_iff, dominates_eq_true_iff] at hdominates
  obtain ⟨hne, hserialized, hresident, hdistortion⟩ := hdominates
  simp only [List.mem_zipIdx_iff_getElem?] at hindex hother
  obtain ⟨hindexLt, hindexEq⟩ := List.getElem?_eq_some_iff.mp hindex
  obtain ⟨hotherLt, hotherEq⟩ := List.getElem?_eq_some_iff.mp hother
  have hkey : other.bytesKey ≠ state.bytesKey := by
    rw [← hindexEq, ← hotherEq]
    rcases Nat.lt_or_gt_of_ne hne with hlt | hgt
    · exact (pairwise_iff_getElem.mp hsorted _ _ hotherLt hindexLt hlt).ne
    · exact (pairwise_iff_getElem.mp hsorted _ _ hindexLt hotherLt hgt).ne'
  have hbytes : ¬ (other.bytes.serialized.toNat = state.bytes.serialized.toNat ∧
      other.bytes.resident.toNat = state.bytes.resident.toNat) := by
    rintro ⟨hserializedEq, hresidentEq⟩
    exact hkey (by rw [ExactState.bytesKey, ExactState.bytesKey, hserializedEq, hresidentEq])
  refine ⟨other, mem_of_getElem? hother, ⟨hserialized, hresident, hdistortion,
    fun hserializedEq hresidentEq _ => absurd ⟨hserializedEq, hresidentEq⟩ hbytes⟩, ?_⟩
  omega

/-- Every state dropped by pruning is beaten by one that is kept. -/
theorem paretoPrune_spec (states : List ExactState) :
    (∀ kept ∈ paretoPrune states, kept ∈ states) ∧
      ∀ state ∈ states, ∃ kept ∈ paretoPrune states, Beats kept state := by
  have horder := (sortBy_pairwise comparePruneOrder states).imp bytesKey_le_of_comparePruneOrder
  have hperm := sortBy_perm comparePruneOrder states
  obtain ⟨hsorted, hmem, hbeats⟩ := foldl_dedupPush_spec horder List.Pairwise.nil (by simp)
  unfold paretoPrune
  have hreverse : ∀ state, state ∈ (sortBy comparePruneOrder states).foldl dedupPush [] ↔
      state ∈ ((sortBy comparePruneOrder states).foldl dedupPush []).reverse :=
    fun _ => mem_reverse.symm
  simp only [nil_append, hperm.mem_iff, hreverse] at hmem hbeats
  rw [← pairwise_reverse] at hsorted
  generalize ((sortBy comparePruneOrder states).foldl dedupPush []).reverse = deduplicated at *
  have hkept : ∀ cost, ∀ state ∈ deduplicated,
      state.bytes.serialized.toNat + state.bytes.resident.toNat ≤ cost →
      ∃ kept ∈ (deduplicated.zipIdx.filter fun entry => !deduplicated.zipIdx.any fun other =>
        decide (other.2 ≠ entry.2) && dominates other.1 entry.1).map Prod.fst,
        Beats kept state := by
    intro cost
    induction cost using Nat.strong_induction_on with
    | _ cost ih =>
      intro state hstate hcost
      obtain ⟨index, hlt, heq⟩ := getElem_of_mem hstate
      have hindex : (state, index) ∈ deduplicated.zipIdx := by
        rw [mem_zipIdx_iff_getElem?, getElem?_eq_getElem hlt, heq]
      by_cases hdropped : (deduplicated.zipIdx.any fun other =>
          decide (other.2 ≠ index) && dominates other.1 state) = true
      · obtain ⟨other, hother, hotherBeats, _⟩ :=
          exists_dominator_of_dropped hsorted hindex hdropped
        obtain ⟨kept, hkept, hkeptBeats⟩ := ih _ (by omega) other hother le_rfl
        exact ⟨kept, hkept, hkeptBeats.trans hotherBeats⟩
      · refine ⟨state, mem_map.mpr ⟨(state, index), mem_filter.mpr ⟨hindex, ?_⟩, rfl⟩,
          Beats.refl state⟩
        rw [Bool.not_eq_true] at hdropped
        rw [hdropped]
        rfl
  refine ⟨fun kept hmemKept => ?_, fun state hstate => ?_⟩
  · obtain ⟨⟨state, index⟩, hentry, rfl⟩ := mem_map.mp hmemKept
    have hindex := (mem_filter.mp hentry).1
    rw [mem_zipIdx_iff_getElem?] at hindex
    exact hmem state (mem_of_getElem? hindex)
  · obtain ⟨other, hother, hotherBeats⟩ := hbeats state hstate
    obtain ⟨kept, hmemKept, hkeptBeats⟩ := hkept _ other hother le_rfl
    exact ⟨kept, hmemKept, hkeptBeats.trans hotherBeats⟩

/-- The running totals of a state are those of its plane vector. -/
structure StateLedger (groups : List GroupCandidates) (metadata : ByteDelta)
    (state : ExactState) : Prop where
  serialized_eq : state.bytes.serialized.toNat =
    totalBytes PhysicalBytes.serialized groups metadata state.planeCounts
  resident_eq : state.bytes.resident.toNat =
    totalBytes PhysicalBytes.resident groups metadata state.planeCounts
  distortion_eq : state.distortion.toNat = totalDistortion groups state.planeCounts

variable {before after : List GroupCandidates}

theorem totalBytes_raise (domain : PhysicalBytes → UInt64) (group : GroupCandidates)
    {first : List Nat} (hlength : before.length = first.length) (metadata : ByteDelta)
    (rest : List Nat) (planes : Nat) :
    totalBytes domain (before ++ group :: after) metadata (first ++ planes :: rest) =
      totalBytes domain before metadata first + groupBytes domain group planes +
        (zipWith (groupBytes domain) after rest).sum := by
  rw [totalBytes_append domain hlength, zipWith_cons_cons, sum_cons, add_assoc]

theorem totalDistortion_raise (group : GroupCandidates) {first : List Nat}
    (hlength : before.length = first.length) (rest : List Nat) (planes : Nat) :
    totalDistortion (before ++ group :: after) (first ++ planes :: rest) =
      totalDistortion before first + groupDistortion group planes + totalDistortion after rest := by
  rw [totalDistortion_append hlength, totalDistortion, totalDistortion, zipWith_cons_cons,
    sum_cons, totalDistortion, add_assoc]

section Expansion

variable {groups before after : List GroupCandidates} {group : GroupCandidates}
  {limit : ProfileBudget} {profile : SaltV2Profile} {floor planes : Nat} {first rest : List Nat}
  {state : ExactState}

/-- A choice is dropped exactly when its plane vector does not fit. -/
theorem expandChoice_spec (hgroups : groups = before ++ group :: after)
    (hgroup : ValidGroup group) (hlength : before.length = first.length)
    (hcounts : state.planeCounts = first ++ floor :: rest)
    (hstate : StateLedger groups limit.metadata state) (hfloor : 1 ≤ floor)
    (hle : floor ≤ planes) (hplanes : planes ≤ saltV2Planes) {result : Option ExactState}
    (hresult : expandChoice limit profile before.length group floor state planes = .ok result) :
    (result = none →
        ¬ (totalBytes PhysicalBytes.serialized groups limit.metadata (first ++ planes :: rest) ≤
            limit.maximum.serialized.toNat ∧
          totalBytes PhysicalBytes.resident groups limit.metadata (first ++ planes :: rest) ≤
            limit.maximum.resident.toNat)) ∧
      ∀ next, result = some next → next.planeCounts = first ++ planes :: rest ∧
        StateLedger groups limit.metadata next ∧ next.bytes.fitsWithin limit.maximum = true := by
  obtain ⟨bundle, hbundle, hafterBundle⟩ := bind_eq_ok hresult
  obtain ⟨delta, hdelta, hafterDelta⟩ := bind_eq_ok hafterBundle
  rw [okOr_eq_ok_iff.mp hdelta] at hbundle
  obtain ⟨_, _⟩ := bundleBytes_spec hle hbundle
  have hserialized := hstate.serialized_eq
  have hresident := hstate.resident_eq
  have hdistortion := hstate.distortion_eq
  rw [hcounts, hgroups, totalBytes_raise _ _ hlength] at hserialized hresident
  rw [hcounts, hgroups, totalDistortion_raise _ hlength] at hdistortion
  have hmaximumSerialized := limit.maximum.serialized.toNat_lt
  have hmaximumResident := limit.maximum.resident.toNat_lt
  simp only [hgroups, totalBytes_raise _ _ hlength]
  rcases hbytes : state.bytes.checkedAdd delta with _ | bytes
  · rw [hbytes, pure_eq_ok, ok.injEq] at hafterDelta
    refine ⟨fun _ hfits => ?_, by simp [← hafterDelta]⟩
    exact PhysicalBytes.checkedAdd_ne_none (by omega) (by omega) hbytes
  · rw [hbytes] at hafterDelta
    obtain ⟨_, _⟩ := PhysicalBytes.checkedAdd_eq_some_iff.mp hbytes
    by_cases hfits : bytes.fitsWithin limit.maximum = true
    · simp only [hfits, Bool.not_true, Bool.false_eq_true, ↓reduceIte] at hafterDelta
      obtain ⟨floorValue, hfloorValue, hafterFloor⟩ := bind_eq_ok hafterDelta
      obtain ⟨floorExact, hfloorExact, hafterExact⟩ := bind_eq_ok hafterFloor
      obtain ⟨planesValue, hplanesValue, hafterPlanes⟩ := bind_eq_ok hafterExact
      obtain ⟨distortion, hsum, hafterSum⟩ := bind_eq_ok hafterPlanes
      obtain ⟨planeCounts, hset, hnext⟩ := bind_pure_eq_ok hafterSum
      refine ⟨by simp [← hnext], fun next hsome => ?_⟩
      rw [← hnext, Option.some.injEq] at hsome
      rw [hcounts, setIndex_of_lt (by simp [hlength]), ok.injEq,
        set_append_right _ _ hlength.ge, hlength, Nat.sub_self, set_cons_zero] at hset
      obtain ⟨floorUnits, hfloorUnits, _, hfloorEq⟩ := hgroup.distortionAt_eq hfloor
        (hle.trans hplanes)
      obtain ⟨planesUnits, hplanesUnits, _, hplanesEq⟩ := hgroup.distortionAt_eq
        (hfloor.trans hle) hplanes
      rw [hfloorUnits, ok.injEq] at hfloorValue
      rw [hplanesUnits, ok.injEq] at hplanesValue
      obtain ⟨withoutGroup, hwithout, hwith⟩ := Option.bind_eq_some_iff.mp
        (okOr_eq_ok_iff.mp hsum)
      have hfloorNat := (ExactDistortion.fromF64_eq_some_iff.mp (okOr_eq_ok_iff.mp hfloorExact)).2
      have hwithoutNat := ExactDistortion.checkedSub_eq_some_iff.mp hwithout
      have hwithNat := (ExactDistortion.checkedAddF64_eq_some_iff.mp hwith).2
      rw [← hsome]
      refine ⟨hset.symm, ⟨?_, ?_, ?_⟩, hfits⟩
      · change bytes.serialized.toNat = totalBytes _ _ _ planeCounts
        rw [← hset, totalBytes_raise _ _ hlength]
        omega
      · change bytes.resident.toNat = totalBytes _ _ _ planeCounts
        rw [← hset, totalBytes_raise _ _ hlength]
        omega
      · change distortion.toNat = totalDistortion _ planeCounts
        rw [← hset, totalDistortion_raise _ hlength, ← hplanesEq, hplanesValue]
        rw [← hfloorEq, hfloorValue] at hdistortion
        omega
    · simp only [hfits, Bool.not_false, ↓reduceIte, pure_eq_ok, ok.injEq] at hafterDelta
      refine ⟨fun _ hle => hfits (PhysicalBytes.fitsWithin_eq_true_iff.mpr ?_),
        by simp [← hafterDelta]⟩
      omega

end Expansion

/-! ### The frontier after each group -/

abbrev WithinFloors : List Nat → List Nat → Prop :=
  Forall₂ fun floor planes => floor ≤ planes ∧ planes ≤ saltV2Planes

/-- After the groups of `doneFloors`, every state carries its own ledger, and every feasible vector
is matched by a state that does at least as well under the same choices for the other groups. -/
structure FrontierInvariant (groups : List GroupCandidates) (floors : List Nat)
    (limit : ProfileBudget) (doneFloors restFloors : List Nat) (frontier : List ExactState) :
    Prop where
  sound : ∀ state ∈ frontier, ∃ chosen, state.planeCounts = chosen ++ restFloors ∧
    WithinFloors doneFloors chosen ∧ StateLedger groups limit.metadata state ∧
    state.bytes.fitsWithin limit.maximum = true
  complete : ∀ first second, first.length = doneFloors.length →
    Feasible groups floors limit (first ++ second) →
    ∃ state ∈ frontier, ∃ chosen, state.planeCounts = chosen ++ restFloors ∧
      Feasible groups floors limit (chosen ++ second) ∧ chosen.length = doneFloors.length ∧
      Preferred groups limit.metadata (chosen ++ second) (first ++ second)

section Frontier

variable {groups before after : List GroupCandidates}
  {floors doneFloors restFloors second first : List Nat} {limit : ProfileBudget}
  {profile : SaltV2Profile} {frontier : List ExactState}

theorem Feasible.split (hfloors : floors = doneFloors ++ restFloors)
    (hlength : first.length = doneFloors.length)
    (hfeasible : Feasible groups floors limit (first ++ second)) :
    WithinFloors doneFloors first ∧ WithinFloors restFloors second := by
  have htake := forall₂_take_append _ _ _ hfeasible.bounds
  have hdrop := forall₂_drop_append _ _ _ hfeasible.bounds
  rw [hfloors, hlength, take_left] at htake
  rw [hfloors, hlength, drop_left] at hdrop
  exact ⟨htake, hdrop⟩

/-- A beaten state stays beaten whatever the other groups choose. -/
theorem Beats.extend {other state : ExactState} {chosen : List Nat} (hbeats : Beats other state)
    (hgroups : groups = before ++ after) (hfloors : floors = doneFloors ++ restFloors)
    (hbefore : before.length = doneFloors.length) (hstate : StateLedger groups limit.metadata state)
    (hother : StateLedger groups limit.metadata other)
    (hcounts : state.planeCounts = first ++ restFloors)
    (hotherCounts : other.planeCounts = chosen ++ restFloors)
    (hlength : first.length = doneFloors.length) (hchosen : WithinFloors doneFloors chosen)
    (hfeasible : Feasible groups floors limit (first ++ second)) :
    Feasible groups floors limit (chosen ++ second) ∧
      Preferred groups limit.metadata (chosen ++ second) (first ++ second) := by
  have hsecond := (hfeasible.split hfloors hlength).2
  have hfirstLength : before.length = first.length := by omega
  have hchosenLength : before.length = chosen.length := hbefore.trans hchosen.length_eq
  have hserialized := hbeats.serialized_le
  have hresident := hbeats.resident_le
  have hdistortion := hbeats.distortion_le
  have htie := hbeats.planeCounts_le
  rw [hstate.serialized_eq, hother.serialized_eq] at hserialized htie
  rw [hstate.resident_eq, hother.resident_eq] at hresident htie
  rw [hstate.distortion_eq, hother.distortion_eq] at hdistortion htie
  have hserializedLe := hfeasible.serialized_le
  have hresidentLe := hfeasible.resident_le
  rw [preferred_iff]
  simp only [hcounts, hotherCounts, hgroups, totalBytes_append _ hfirstLength,
    totalBytes_append _ hchosenLength, totalDistortion_append hfirstLength,
    totalDistortion_append hchosenLength, Nat.add_right_cancel_iff, Nat.add_lt_add_iff_right,
    append_le_append_iff (hfirstLength.symm.trans hchosenLength)]
    at hserialized hresident hdistortion htie hserializedLe hresidentLe ⊢
  refine ⟨⟨?_, ?_, ?_⟩, ?_⟩
  · rw [hfloors]
    exact rel_append hchosen hsecond
  · rw [totalBytes_append _ hchosenLength]
    omega
  · rw [totalBytes_append _ hchosenLength]
    omega
  · by_cases hall : totalDistortion before chosen = totalDistortion before first ∧
        totalBytes PhysicalBytes.serialized before limit.metadata chosen =
          totalBytes PhysicalBytes.serialized before limit.metadata first ∧
        totalBytes PhysicalBytes.resident before limit.metadata chosen =
          totalBytes PhysicalBytes.resident before limit.metadata first
    · tauto
    · omega

theorem FrontierInvariant.prune
    (hinvariant : FrontierInvariant groups floors limit doneFloors restFloors frontier)
    (hgroups : groups = before ++ after) (hfloors : floors = doneFloors ++ restFloors)
    (hbefore : before.length = doneFloors.length) :
    FrontierInvariant groups floors limit doneFloors restFloors (paretoPrune frontier) := by
  obtain ⟨hsubset, hbeaten⟩ := paretoPrune_spec frontier
  refine ⟨fun state hstate => hinvariant.sound state (hsubset state hstate), ?_⟩
  intro first second hlength hfeasible
  obtain ⟨state, hstate, covered, hcounts, hcovered, hcoveredLength, hpreferred⟩ :=
    hinvariant.complete first second hlength hfeasible
  obtain ⟨kept, hkept, hbeats⟩ := hbeaten state hstate
  obtain ⟨chosen, hkeptCounts, hchosen, hkeptLedger, _⟩ := hinvariant.sound kept
    (hsubset kept hkept)
  obtain ⟨_, _, _, hledger, _⟩ := hinvariant.sound state hstate
  obtain ⟨hkeptFeasible, hkeptPreferred⟩ := hbeats.extend hgroups hfloors hbefore hledger
    hkeptLedger hcounts hkeptCounts hcoveredLength hchosen hcovered
  exact ⟨kept, hkept, chosen, hkeptCounts, hkeptFeasible, hchosen.length_eq.symm,
    hkeptPreferred.trans hpreferred⟩

theorem FrontierInvariant.skip
    (hinvariant : FrontierInvariant groups floors limit doneFloors (saltV2Planes :: restFloors)
      frontier) (hfloors : floors = doneFloors ++ saltV2Planes :: restFloors) :
    FrontierInvariant groups floors limit (doneFloors ++ [saltV2Planes]) restFloors frontier := by
  refine ⟨fun state hstate => ?_, fun first second hlength hfeasible => ?_⟩
  · obtain ⟨chosen, hcounts, hchosen, hledger⟩ := hinvariant.sound state hstate
    refine ⟨chosen ++ [saltV2Planes], by simpa using hcounts, ?_, hledger⟩
    exact rel_append hchosen (.cons ⟨le_rfl, le_rfl⟩ .nil)
  · obtain rfl | ⟨earlier, planes, rfl⟩ := eq_nil_or_concat' first
    · simp at hlength
    have hearlier : earlier.length = doneFloors.length := by simpa using hlength
    rw [append_assoc] at hfeasible ⊢
    have hplanes := (hfeasible.split hfloors hearlier).2
    obtain ⟨hbounds, _⟩ := forall₂_cons.mp hplanes
    have heq : planes = saltV2Planes := by omega
    obtain ⟨state, hstate, chosen, hcounts, hchosen, hchosenLength, hpreferred⟩ :=
      hinvariant.complete earlier _ hearlier hfeasible
    refine ⟨state, hstate, chosen ++ [saltV2Planes], by simpa using hcounts, ?_, ?_, ?_⟩
    · rw [append_assoc, ← heq]
      exact hchosen
    · simpa using hchosenLength
    · rw [append_assoc, ← heq]
      exact hpreferred

theorem FrontierInvariant.expand {group : GroupCandidates} {floor : Nat} {next : List ExactState}
    (hinvariant : FrontierInvariant groups floors limit doneFloors (floor :: restFloors) frontier)
    (hgroups : groups = before ++ group :: after)
    (hfloors : floors = doneFloors ++ floor :: restFloors)
    (hbefore : before.length = doneFloors.length) (hgroup : ValidGroup group) (hfloor : 1 ≤ floor)
    (hfloorLe : floor ≤ saltV2Planes)
    (hnext : expandFrontier limit profile before.length group floor frontier = .ok next) :
    FrontierInvariant groups floors limit (doneFloors ++ [floor]) restFloors next := by
  obtain ⟨results, hresults, hreduce⟩ := bind_pure_eq_ok hnext
  obtain ⟨hcalled, hreturned⟩ := mapM_eq_ok hresults
  have hmem : ∀ state, state ∈ next ↔ some state ∈ results := by
    intro state
    rw [← hreduce, reduceOption_mem_iff]
  refine ⟨fun state hstate => ?_, fun first second hlength hfeasible => ?_⟩
  · obtain ⟨⟨parent, planes⟩, hentry, hresult⟩ := hreturned _ ((hmem state).mp hstate)
    simp only [mem_flatMap, mem_map, Prod.mk.injEq, mem_range'_1] at hentry
    obtain ⟨_, hparent, _, ⟨hlow, hhigh⟩, hparentEq, hplanesEq⟩ := hentry
    rw [hparentEq] at hparent
    rw [hplanesEq] at hlow hhigh
    obtain ⟨chosen, hcounts, hchosen, hledger, _⟩ := hinvariant.sound parent hparent
    have hplanes : planes ≤ saltV2Planes := by omega
    obtain ⟨hstateCounts, hstateLedger, hfits⟩ := (expandChoice_spec hgroups hgroup
      (hbefore.trans hchosen.length_eq) hcounts hledger hfloor hlow hplanes hresult).2 state rfl
    refine ⟨chosen ++ [planes], by simpa using hstateCounts, ?_, hstateLedger, hfits⟩
    exact rel_append hchosen (.cons ⟨hlow, hplanes⟩ .nil)
  · obtain rfl | ⟨earlier, planes, rfl⟩ := eq_nil_or_concat' first
    · simp at hlength
    have hearlier : earlier.length = doneFloors.length := by simpa using hlength
    rw [append_assoc, singleton_append] at hfeasible ⊢
    obtain ⟨parent, hparent, chosen, hcounts, hchosenFeasible, hchosenLength, hpreferred⟩ :=
      hinvariant.complete earlier _ hearlier hfeasible
    obtain ⟨_, _, _, hledger, _⟩ := hinvariant.sound parent hparent
    obtain ⟨⟨hlow, hplanes⟩, hsecond⟩ := forall₂_cons.mp
      (hchosenFeasible.split hfloors hchosenLength).2
    obtain ⟨result, hresultMem, hresult⟩ := hcalled (parent, planes) (by
      simp only [mem_flatMap, mem_map, Prod.mk.injEq, mem_range'_1]
      exact ⟨parent, hparent, planes, ⟨hlow, by omega⟩, rfl, rfl⟩)
    have hlengthChosen : before.length = chosen.length := by omega
    obtain ⟨hdropped, hkept⟩ := expandChoice_spec hgroups hgroup hlengthChosen hcounts hledger
      hfloor hlow hplanes hresult
    -- The floors of the remaining groups cost no more than their choices do.
    have hfits : totalBytes PhysicalBytes.serialized groups limit.metadata
          (chosen ++ planes :: restFloors) ≤ limit.maximum.serialized.toNat ∧
        totalBytes PhysicalBytes.resident groups limit.metadata
          (chosen ++ planes :: restFloors) ≤ limit.maximum.resident.toNat := by
      have hserialized := hchosenFeasible.serialized_le
      have hresident := hchosenFeasible.resident_le
      have hserializedRest := sum_zipWith_groupBytes_le PhysicalBytes.serialized hsecond after
      have hresidentRest := sum_zipWith_groupBytes_le PhysicalBytes.resident hsecond after
      simp only [hgroups, totalBytes_raise _ _ hlengthChosen]
        at hserialized hresident ⊢
      omega
    rcases result with _ | state
    · exact absurd hfits (hdropped rfl)
    · obtain ⟨hstateCounts, _⟩ := hkept state rfl
      refine ⟨state, (hmem state).mpr hresultMem, chosen ++ [planes], by simpa using hstateCounts,
        ?_, by simp [hchosenLength], ?_⟩
      · rw [append_assoc]
        exact hchosenFeasible
      · rw [append_assoc]
        exact hpreferred

theorem FrontierInvariant.advance {minimum : PhysicalBytes} {final : List ExactState}
    (hvalid : ∀ group ∈ groups, ValidGroup group)
    (hbounds : ∀ floor ∈ floors, 1 ≤ floor ∧ floor ≤ saltV2Planes)
    (hgroups : groups = before ++ after) (hfloors : floors = doneFloors ++ restFloors)
    (hbefore : before.length = doneFloors.length) (hafter : after.length = restFloors.length)
    (hinvariant : FrontierInvariant groups floors limit doneFloors restFloors frontier)
    (hfinal : advanceFrontier limit profile minimum before.length after restFloors frontier =
      .ok final) : FrontierInvariant groups floors limit floors [] final := by
  induction after generalizing before doneFloors restFloors frontier with
  | nil =>
    have hnil : restFloors = [] := eq_nil_of_length_eq_zero hafter.symm
    subst hnil
    rw [advanceFrontier, ok.injEq] at hfinal
    rw [append_nil] at hfloors
    rwa [hfinal, ← hfloors] at hinvariant
  | cons group after ih =>
    cases restFloors with
    | nil => simp at hafter
    | cons floor restFloors =>
      have hgroups' : groups = (before ++ [group]) ++ after := by simpa using hgroups
      have hfloors' : floors = (doneFloors ++ [floor]) ++ restFloors := by simpa using hfloors
      have hbefore' : (before ++ [group]).length = (doneFloors ++ [floor]).length := by
        simp [hbefore]
      have hafter' : after.length = restFloors.length := Nat.succ.inj hafter
      rw [advanceFrontier] at hfinal
      by_cases htop : floor = saltV2Planes
      · subst htop
        exact ih hgroups' hfloors' hbefore' hafter' (hinvariant.skip hfloors)
          (by simpa using hfinal)
      · rw [if_neg htop] at hfinal
        obtain ⟨expanded, _, hcapped⟩ := bind_eq_ok hfinal
        split at hcapped
        · cases hcapped
        obtain ⟨next, hnext, hcontinue⟩ := bind_eq_ok hcapped
        split at hcontinue
        · cases hcontinue
        obtain ⟨hfloor, hfloorLe⟩ := hbounds floor (by simp [hfloors])
        have hexpanded := hinvariant.expand hgroups hfloors hbefore
          (hvalid group (by simp [hgroups])) hfloor hfloorLe hnext
        exact ih hgroups' hfloors' hbefore' hafter'
          (hexpanded.prune hgroups' hfloors' hbefore') (by simpa using hcontinue)

end Frontier

theorem preferred_of_compareFinalOrder {groups : List GroupCandidates} {metadata : ByteDelta}
    {best state : ExactState} (hbest : StateLedger groups metadata best)
    (hstate : StateLedger groups metadata state) (hle : (compareFinalOrder best state).isLE) :
    Preferred groups metadata best.planeCounts state.planeCounts := by
  rw [preferred_iff, ← hbest.serialized_eq, ← hbest.resident_eq, ← hbest.distortion_eq,
    ← hstate.serialized_eq, ← hstate.resident_eq, ← hstate.distortion_eq]
  simp only [compareFinalOrder, Ordering.isLE_then_iff_and, Ordering.then_eq_lt,
    ExactDistortion.cmp_eq, Limbs.compare_limb, Nat.compare_eq_lt, Nat.compare_eq_eq,
    Nat.isLE_compare, compareLex_isLE_iff] at hle
  obtain ⟨⟨⟨hdistortion, hserialized⟩, hresident⟩, hcounts⟩ := hle
  rcases hdistortion.lt_or_eq with hlt | hdistortion
  · exact Or.inl hlt
  refine Or.inr ⟨hdistortion, ?_⟩
  rcases (hserialized.resolve_left hdistortion.not_lt).lt_or_eq with hlt | hserialized
  · exact Or.inl hlt
  refine Or.inr ⟨hserialized, ?_⟩
  rcases (hresident.resolve_left (by omega)).lt_or_eq with hlt | hresident
  · exact Or.inl hlt
  · exact Or.inr ⟨hresident, hcounts.resolve_left (by omega)⟩

/-- **The bounded program is exact.** Whatever it returns is the optimum of all feasible plane
vectors. -/
theorem boundedExactPlaneCounts_isOptimal {groups : List GroupCandidates} {floors : List Nat}
    {limit : ProfileBudget} {profile : SaltV2Profile} {planeCounts : List Nat}
    (hvalid : validateGroups groups = .ok ()) (hfloors : IsFloorVector groups floors)
    (hfits : Feasible groups floors limit floors)
    (hreturned : boundedExactPlaneCounts groups floors limit profile = .ok planeCounts) :
    IsOptimal groups floors limit planeCounts := by
  obtain ⟨_, hgroups⟩ := validateGroups_spec hvalid
  have hplanes : Forall₂ (fun group planes =>
      ValidGroup group ∧ 1 ≤ planes ∧ planes ≤ saltV2Planes) groups floors :=
    forall₂_iff_zip.mpr ⟨hfloors.length_eq.symm, fun hmem =>
      ⟨hgroups _ (of_mem_zip hmem).1, hfloors.bounds _ (of_mem_zip hmem).2⟩⟩
  obtain ⟨bytes, hbytes, hserialized, hresident⟩ := minimumBytesForPrefix_eq
    (hplanes.imp fun group planes h => h.1.length_eq ▸ h.2.2)
    (hfits.serialized_le.trans_lt limit.maximum.serialized.toNat_lt)
    (hfits.resident_le.trans_lt limit.maximum.resident.toNat_lt) profile
  rw [boundedExactPlaneCounts, hbytes, ok_bind] at hreturned
  obtain ⟨total?, htotal?, hafterTotal⟩ := bind_eq_ok hreturned
  obtain ⟨distortion, htotal, hafterDistortion⟩ := bind_eq_ok hafterTotal
  obtain ⟨frontier, hfrontier, hafterFrontier⟩ := bind_eq_ok hafterDistortion
  obtain ⟨best, hbest, hreturn⟩ := bind_pure_eq_ok hafterFrontier
  rw [okOr_eq_ok_iff.mp htotal] at htotal?
  have hdistortion := exactTotalDistortionFrom_spec hplanes htotal?
  rw [ExactDistortion.zero_toNat, zero_add] at hdistortion
  have hstart : FrontierInvariant groups floors limit [] floors
      [{ bytes, distortion, planeCounts := floors }] := by
    refine ⟨fun state hstate => ?_, fun first second hlength hfeasible => ?_⟩
    · rw [mem_singleton] at hstate
      subst hstate
      refine ⟨[], rfl, .nil, ⟨hserialized, hresident, hdistortion⟩,
        PhysicalBytes.fitsWithin_eq_true_iff.mpr ?_⟩
      rw [hserialized, hresident]
      exact ⟨hfits.serialized_le, hfits.resident_le⟩
    · obtain rfl : first = [] := eq_nil_of_length_eq_zero hlength
      exact ⟨_, mem_singleton_self _, [], rfl, hfeasible, rfl, .refl _ _ _⟩
  have hfinal := hstart.advance hgroups hfloors.bounds (nil_append groups).symm rfl rfl
    hfloors.length_eq.symm hfrontier
  obtain ⟨hmem, hleast⟩ := minBy_spec compareFinalOrder (okOr_eq_ok_iff.mp hbest)
  obtain ⟨chosen, hcounts, hchosen, hledger, hwithin⟩ := hfinal.sound best hmem
  rw [append_nil] at hcounts
  rw [PhysicalBytes.fitsWithin_eq_true_iff, hledger.serialized_eq, hledger.resident_eq]
    at hwithin
  rw [← hreturn]
  refine ⟨⟨hcounts ▸ hchosen, hwithin.1, hwithin.2⟩, fun other hother => ?_⟩
  obtain ⟨state, hstate, matched, hmatched, _, _, hpreferred⟩ :=
    hfinal.complete other [] hother.bounds.length_eq.symm (by rwa [append_nil])
  obtain ⟨_, _, _, hstateLedger, _⟩ := hfinal.sound state hstate
  rw [← hmatched, append_nil] at hpreferred
  exact (preferred_of_compareFinalOrder hledger hstateLedger (hleast state hstate)).trans hpreferred

def unequalGroups : List GroupCandidates :=
  [⟨[⟨1, ⟨⟨2, 3⟩, none⟩, ⟨0x4010000000000000⟩⟩, ⟨2, ⟨⟨2, 2⟩, none⟩, ⟨0x4008000000000000⟩⟩,
      ⟨3, ⟨⟨1, 2⟩, none⟩, ⟨0⟩⟩]⟩,
    ⟨[⟨1, ⟨⟨2, 3⟩, none⟩, ⟨0x4010000000000000⟩⟩, ⟨2, ⟨⟨3, 2⟩, none⟩, ⟨0x4000000000000000⟩⟩,
      ⟨3, ⟨⟨1, 1⟩, none⟩, ⟨0x3ff0000000000000⟩⟩]⟩]

def unequalBudget : ProfileBudget := ⟨⟨8, 20⟩, ⟨⟨1, 1⟩, none⟩⟩

/-- Distortions 4, 3, 0 against 4, 2, 1: three serialized bytes above the floors buy the first
group its third plane. -/
theorem boundedExactPlaneCounts_isOptimal_unequalGroups :
    boundedExactPlaneCounts unequalGroups [1, 1] unequalBudget .compactV1 = .ok [3, 1] ∧
      IsOptimal unequalGroups [1, 1] unequalBudget [3, 1] := by
  have hreturned : boundedExactPlaneCounts unequalGroups [1, 1] unequalBudget .compactV1 =
      .ok [3, 1] := by decide +kernel
  have hbounds : WithinFloors [1, 1] [1, 1] := .cons (by decide) (.cons (by decide) .nil)
  exact ⟨hreturned, boundedExactPlaneCounts_isOptimal (by decide +kernel) ⟨rfl, by decide⟩
    ⟨hbounds, by decide +kernel, by decide +kernel⟩ hreturned⟩

end Tritium.Allocator
