import Tritium.Allocator.Objective
import Tritium.Allocator.Proof.ExactDistortion

/-!
# The byte and distortion ledgers

What the checks of the inputs and the running totals of the code amount to, in the numbers the
objective is stated in.
-/

namespace Tritium.Allocator

open List

variable {groups before after : List GroupCandidates} {planeCounts first second : List Nat}
  {metadata : ByteDelta} {candidates : List PlaneCandidate} {delta left : PhysicalBytes}
  (domain : PhysicalBytes → UInt64)

structure ValidGroup (group : GroupCandidates) : Prop where
  length_eq : group.candidates.length = saltV2Planes
  isNonneg : ∀ candidate ∈ group.candidates, candidate.distortion.IsNonneg
  antitone : group.candidates.Pairwise fun left right =>
    right.distortion.units ≤ left.distortion.units

theorem validateCandidates_spec {group expected : Nat} {previous : Option F64}
    (hvalid : validateCandidates group expected previous candidates = .ok ())
    (hprevious : ∀ distortion ∈ previous, distortion.IsNonneg) :
    (∀ candidate ∈ candidates, candidate.distortion.IsNonneg) ∧
      (∀ distortion ∈ previous, ∀ candidate ∈ candidates,
        candidate.distortion.units ≤ distortion.units) ∧
      candidates.Pairwise fun left right => right.distortion.units ≤ left.distortion.units := by
  induction candidates generalizing expected previous with
  | nil => simp
  | cons candidate rest ih =>
    unfold validateCandidates at hvalid
    split at hvalid
    · cases hvalid
    split at hvalid
    · cases hvalid
    split at hvalid
    · cases hvalid
    rename_i hfinite hmonotone
    have hnonneg : candidate.distortion.IsNonneg := by
      simpa [F64.IsNonneg] using hfinite
    have hle : ∀ distortion ∈ previous, candidate.distortion.units ≤ distortion.units := by
      intro distortion hdistortion
      subst hdistortion
      by_contra hlt
      apply hmonotone
      exact (F64.lt_eq_true_iff (hprevious _ rfl) hnonneg).mpr (by omega)
    obtain ⟨hrestNonneg, hrestLe, hrestPairwise⟩ := ih hvalid fun distortion hdistortion => by
      rw [Option.mem_some] at hdistortion
      exact hdistortion ▸ hnonneg
    have hhead := hrestLe candidate.distortion rfl
    refine ⟨forall_mem_cons.mpr ⟨hnonneg, hrestNonneg⟩, fun distortion hdistortion => ?_,
      pairwise_cons.mpr ⟨hhead, hrestPairwise⟩⟩
    refine forall_mem_cons.mpr ⟨hle distortion hdistortion, fun other hother => ?_⟩
    exact (hhead other hother).trans (hle distortion hdistortion)

theorem validateGroupsFrom_spec {index : Nat}
    (hvalid : validateGroupsFrom index groups = .ok ()) : ∀ group ∈ groups, ValidGroup group := by
  induction groups generalizing index with
  | nil => simp
  | cons group groups ih =>
    unfold validateGroupsFrom at hvalid
    split at hvalid
    · cases hvalid
    rename_i hlength
    obtain ⟨_, hcandidates, hrest⟩ := bind_eq_ok hvalid
    obtain ⟨hnonneg, _, hpairwise⟩ := validateCandidates_spec hcandidates (by simp)
    exact forall_mem_cons.mpr ⟨⟨not_not.mp hlength, hnonneg, hpairwise⟩, ih hrest⟩

theorem validateGroups_spec (hvalid : validateGroups groups = .ok ()) :
    groups ≠ [] ∧ ∀ group ∈ groups, ValidGroup group := by
  unfold validateGroups at hvalid
  split at hvalid
  · cases hvalid
  · rename_i hempty
    exact ⟨by simpa using hempty, validateGroupsFrom_spec hvalid⟩

namespace ValidGroup

variable {group : GroupCandidates} (hgroup : ValidGroup group)

include hgroup

theorem exists_getElem? {planes : Nat} (hpos : 1 ≤ planes) (hle : planes ≤ saltV2Planes) :
    ∃ candidate ∈ group.candidates, group.candidates[planes - 1]? = some candidate := by
  have hlt : planes - 1 < group.candidates.length := by
    rw [hgroup.length_eq]
    omega
  exact ⟨_, getElem_mem hlt, getElem?_eq_getElem hlt⟩

theorem distortionAt_eq {planes : Nat} (hpos : 1 ≤ planes) (hle : planes ≤ saltV2Planes) :
    ∃ distortion : F64, distortionAt group planes = .ok distortion ∧ distortion.IsNonneg ∧
      distortion.units = groupDistortion group planes := by
  obtain ⟨candidate, hmem, hget⟩ := hgroup.exists_getElem? hpos hle
  refine ⟨candidate.distortion, ?_, hgroup.isNonneg candidate hmem, ?_⟩
  · rw [distortionAt, Outcome.sub_of_le hpos, Outcome.ok_bind, Outcome.index, hget]
    rfl
  · rw [groupDistortion, hget]
    rfl

theorem groupDistortion_antitone {low high : Nat} (hpos : 1 ≤ low) (hlow : low ≤ high)
    (hhigh : high ≤ saltV2Planes) : groupDistortion group high ≤ groupDistortion group low := by
  have hlength := hgroup.length_eq
  unfold groupDistortion
  rw [getElem?_eq_getElem (by omega), getElem?_eq_getElem (by omega)]
  rcases Nat.eq_or_lt_of_le hlow with rfl | _
  · exact le_rfl
  · exact pairwise_iff_getElem.mp hgroup.antitone _ _ _ _ (by omega)

theorem groupDistortion_lt (planes : Nat) : groupDistortion group planes < 2 ^ F64.valueBits := by
  unfold groupDistortion
  rcases hget : group.candidates[planes - 1]? with _ | candidate
  · simp
  · exact F64.units_lt_of_isFinite (hgroup.isNonneg candidate (mem_of_getElem? hget)).1

end ValidGroup

theorem PhysicalBytes.checkedAdd_eq_some_iff {right sum : PhysicalBytes} :
    left.checkedAdd right = some sum ↔
      sum.serialized.toNat = left.serialized.toNat + right.serialized.toNat ∧
        sum.resident.toNat = left.resident.toNat + right.resident.toNat := by
  have hserialized := sum.serialized.toNat_lt
  have hresident := sum.resident.toNat_lt
  simp only [checkedAdd, Option.ite_none_right_eq_some, Option.some.injEq]
  constructor
  · rintro ⟨hserializedLt, hresidentLt, rfl⟩
    rw [UInt64.toNat_add, UInt64.toNat_add, Nat.mod_eq_of_lt hserializedLt,
      Nat.mod_eq_of_lt hresidentLt]
    exact ⟨rfl, rfl⟩
  · rintro ⟨hserializedSum, hresidentSum⟩
    refine ⟨by omega, by omega, ?_⟩
    cases sum with
    | mk serialized resident =>
      rw [PhysicalBytes.mk.injEq, ← UInt64.toNat_inj, ← UInt64.toNat_inj, UInt64.toNat_add,
        UInt64.toNat_add, Nat.mod_eq_of_lt (by omega), Nat.mod_eq_of_lt (by omega)]
      exact ⟨hserializedSum.symm, hresidentSum.symm⟩

theorem PhysicalBytes.checkedAdd_ne_none {right : PhysicalBytes}
    (hserialized : left.serialized.toNat + right.serialized.toNat < 2 ^ 64)
    (hresident : left.resident.toNat + right.resident.toNat < 2 ^ 64) :
    left.checkedAdd right ≠ none := by
  rw [checkedAdd, if_pos hserialized, if_pos hresident]
  simp

theorem PhysicalBytes.fitsWithin_eq_true_iff {bytes maximum : PhysicalBytes} :
    bytes.fitsWithin maximum = true ↔ bytes.serialized.toNat ≤ maximum.serialized.toNat ∧
      bytes.resident.toNat ≤ maximum.resident.toNat := by
  rw [fitsWithin, Bool.and_eq_true, decide_eq_true_iff, decide_eq_true_iff, UInt64.le_iff_toNat_le,
    UInt64.le_iff_toNat_le]

theorem WideBytes.foldl_add (deltas : List PhysicalBytes) (total : WideBytes)
    (hserialized : total.serialized ≤ u128Max) (hresident : total.resident ≤ u128Max) :
    deltas.foldl add total =
      ⟨min (total.serialized + (deltas.map fun delta => delta.serialized.toNat).sum) u128Max,
        min (total.resident + (deltas.map fun delta => delta.resident.toNat).sum) u128Max⟩ := by
  induction deltas generalizing total with
  | nil => simp [hserialized, hresident]
  | cons delta deltas ih =>
    rw [foldl_cons, ih _ (min_le_right _ _) (min_le_right _ _)]
    simp only [add, map_cons, sum_cons, WideBytes.mk.injEq]
    omega

section

variable (hplanes : Forall₂ (fun (group : GroupCandidates) planes => planes ≤ group.candidates.length)
  groups planeCounts)

include hplanes

theorem sumBytesFrom_eq (total : WideBytes) (hserialized : total.serialized ≤ WideBytes.u128Max)
    (hresident : total.resident ≤ WideBytes.u128Max) :
    sumBytesFrom .effective total groups planeCounts = .ok ⟨min (total.serialized +
          (zipWith (groupBytes PhysicalBytes.serialized) groups planeCounts).sum) WideBytes.u128Max,
        min (total.resident + (zipWith (groupBytes PhysicalBytes.resident) groups planeCounts).sum)
          WideBytes.u128Max⟩ := by
  induction hplanes generalizing total with
  | nil => simp [sumBytesFrom, hserialized, hresident]
  | @cons group planes groups planeCounts hplanes _ ih =>
    have hfold := WideBytes.foldl_add
      ((group.candidates.take planes).map fun candidate => candidate.byteDelta.effective) total
      hserialized hresident
    rw [foldl_map] at hfold
    rw [sumBytesFrom, if_pos hplanes]
    simp only [ByteMode.bytes]
    rw [hfold, ih _ (min_le_right _ _) (min_le_right _ _)]
    simp only [map_map, Function.comp_def, zipWith_cons_cons, sum_cons,
      groupBytes, ok.injEq, WideBytes.mk.injEq]
    omega

/-- The ledger of a plane vector whose bytes `u64` counters can hold. -/
theorem minimumBytesForPrefix_eq
    (hserialized : totalBytes PhysicalBytes.serialized groups metadata planeCounts < 2 ^ 64)
    (hresident : totalBytes PhysicalBytes.resident groups metadata planeCounts < 2 ^ 64)
    (profile : SaltV2Profile) :
    ∃ bytes : PhysicalBytes,
      minimumBytesForPrefix groups planeCounts metadata profile = .ok bytes ∧
        bytes.serialized.toNat = totalBytes PhysicalBytes.serialized groups metadata planeCounts ∧
        bytes.resident.toNat = totalBytes PhysicalBytes.resident groups metadata planeCounts := by
  have hmax : 2 ^ 64 ≤ WideBytes.u128Max := by decide
  have hmetadataSerialized := metadata.effective.serialized.toNat_lt
  have hmetadataResident := metadata.effective.resident.toNat_lt
  have hsum := sumBytesFrom_eq hplanes
    ⟨metadata.effective.serialized.toNat, metadata.effective.resident.toNat⟩
    (hmetadataSerialized.le.trans hmax) (hmetadataResident.le.trans hmax)
  have hstart : (WideBytes.mk 0 0).add metadata.effective =
      ⟨metadata.effective.serialized.toNat, metadata.effective.resident.toNat⟩ := by
    simp only [WideBytes.add, WideBytes.mk.injEq]
    omega
  unfold totalBytes at hserialized hresident ⊢
  simp only [min_eq_left (hserialized.le.trans hmax), min_eq_left (hresident.le.trans hmax)] at hsum
  refine ⟨⟨UInt64.ofNat _, UInt64.ofNat _⟩, ?_, UInt64.toNat_ofNat_of_lt' hserialized,
    UInt64.toNat_ofNat_of_lt' hresident⟩
  rw [minimumBytesForPrefix, sumBytes, ByteMode.bytes, hstart, hsum, ok_bind,
    WideBytes.toPhysical, if_pos hserialized, if_pos hresident, okOr_some]

end

theorem foldl_checkedAdd_eq_some {start : PhysicalBytes}
    (hdelta : candidates.foldl (fun total candidate => total.bind fun total =>
      total.checkedAdd candidate.byteDelta.effective) (some start) = some delta) :
    delta.serialized.toNat = start.serialized.toNat + (candidates.map fun candidate =>
        candidate.byteDelta.effective.serialized.toNat).sum ∧
      delta.resident.toNat = start.resident.toNat + (candidates.map fun candidate =>
        candidate.byteDelta.effective.resident.toNat).sum := by
  induction candidates generalizing start with
  | nil => simp_all
  | cons candidate candidates ih =>
    rw [foldl_cons, Option.bind_some] at hdelta
    rcases hnext : start.checkedAdd candidate.byteDelta.effective with _ | next
    · rw [hnext] at hdelta
      rw [foldl_fixed' fun _ => rfl] at hdelta
      cases hdelta
    · rw [hnext] at hdelta
      obtain ⟨_, _⟩ := ih hdelta
      obtain ⟨_, _⟩ := PhysicalBytes.checkedAdd_eq_some_iff.mp hnext
      simp only [map_cons, sum_cons]
      omega

theorem bundleBytes_spec {group : GroupCandidates} {low high : Nat} (hlow : low ≤ high)
    (hdelta : bundleBytes group low high .effective = .ok (some delta)) :
    groupBytes PhysicalBytes.serialized group high =
        groupBytes PhysicalBytes.serialized group low + delta.serialized.toNat ∧
      groupBytes PhysicalBytes.resident group high =
        groupBytes PhysicalBytes.resident group low + delta.resident.toNat := by
  obtain ⟨candidates, hslice, hfold⟩ := bind_eq_ok hdelta
  rw [slice] at hslice
  split at hslice
  · rw [ok.injEq] at hslice
    rw [pure_eq_ok, ok.injEq] at hfold
    obtain ⟨hserialized, hresident⟩ := foldl_checkedAdd_eq_some hfold
    have hsplit : group.candidates.take high = group.candidates.take low ++ candidates := by
      have happend := take_append_drop low (group.candidates.take high)
      rw [take_take, min_eq_left hlow, hslice] at happend
      exact happend.symm
    simp only [groupBytes, hsplit, map_append, sum_append, hserialized, hresident]
    simp [PhysicalBytes.zero]
  · cases hslice

theorem groupBytes_mono (group : GroupCandidates) :
    Monotone (groupBytes domain group) := by
  intro low high hle
  unfold groupBytes
  rw [← take_append_drop low (group.candidates.take high), take_take, min_eq_left hle,
    map_append, sum_append]
  omega

theorem sum_zipWith_groupBytes_le (domain : PhysicalBytes → UInt64) {floors : List Nat}
    (hle : Forall₂ (fun floor planes => floor ≤ planes ∧ planes ≤ saltV2Planes) floors
      planeCounts) (groups : List GroupCandidates) :
    (zipWith (groupBytes domain) groups floors).sum ≤
      (zipWith (groupBytes domain) groups planeCounts).sum := by
  induction hle generalizing groups with
  | nil => rfl
  | cons hhead _ ih =>
    cases groups with
    | nil => rfl
    | cons group groups =>
      exact add_le_add (groupBytes_mono domain group hhead.1) (ih groups)

theorem totalBytes_append (hlength : before.length = first.length) (metadata : ByteDelta) :
    totalBytes domain (before ++ after) metadata (first ++ second) =
      totalBytes domain before metadata first + (zipWith (groupBytes domain) after second).sum := by
  rw [totalBytes, totalBytes, zipWith_append hlength, sum_append, add_assoc]

theorem totalDistortion_append (hlength : before.length = first.length) :
    totalDistortion (before ++ after) (first ++ second) =
      totalDistortion before first + totalDistortion after second := by
  rw [totalDistortion, zipWith_append hlength, sum_append]
  rfl

theorem exactTotalDistortionFrom_spec (hplanes : Forall₂ (fun group planes =>
      ValidGroup group ∧ 1 ≤ planes ∧ planes ≤ saltV2Planes) groups planeCounts)
    {start total : ExactDistortion}
    (htotal : exactTotalDistortionFrom start groups planeCounts = .ok (some total)) :
    total.toNat = start.toNat + totalDistortion groups planeCounts := by
  induction hplanes generalizing start with
  | nil =>
    simp only [exactTotalDistortionFrom, ok.injEq, Option.some.injEq] at htotal
    rw [htotal]
    rfl
  | cons hhead _ ih =>
    obtain ⟨hgroup, hpos, hle⟩ := hhead
    obtain ⟨distortion, hdistortion, _, hunits⟩ := hgroup.distortionAt_eq hpos hle
    rw [exactTotalDistortionFrom, hdistortion, ok_bind] at htotal
    rcases hnext : start.checkedAddF64 distortion with _ | next
    · simp [hnext] at htotal
    · rw [hnext] at htotal
      have hsum := (ExactDistortion.checkedAddF64_eq_some_iff.mp hnext).2
      rw [ih htotal, hsum, hunits, totalDistortion, totalDistortion, zipWith_cons_cons,
        sum_cons, add_assoc]

theorem Preferred.refl (groups : List GroupCandidates) (metadata : ByteDelta)
    (planeCounts : List Nat) : Preferred groups metadata planeCounts planeCounts :=
  Or.inr ⟨rfl, le_rfl⟩

theorem Preferred.trans {third : List Nat} (hfirst : Preferred groups metadata first second)
    (hsecond : Preferred groups metadata second third) : Preferred groups metadata first third := by
  rcases hfirst with hlt | ⟨heq, hle⟩
  · rcases hsecond with hlt' | ⟨heq', _⟩
    · exact Or.inl (hlt.trans hlt')
    · exact Or.inl (heq' ▸ hlt)
  · rcases hsecond with hlt' | ⟨heq', hle'⟩
    · exact Or.inl (heq ▸ hlt')
    · exact Or.inr ⟨heq.trans heq', le_trans hle' hle⟩

theorem preferred_iff {other : List Nat} :
    Preferred groups metadata planeCounts other ↔
      totalDistortion groups planeCounts < totalDistortion groups other ∨
      totalDistortion groups planeCounts = totalDistortion groups other ∧
        (totalBytes PhysicalBytes.serialized groups metadata planeCounts <
            totalBytes PhysicalBytes.serialized groups metadata other ∨
          totalBytes PhysicalBytes.serialized groups metadata planeCounts =
              totalBytes PhysicalBytes.serialized groups metadata other ∧
            (totalBytes PhysicalBytes.resident groups metadata planeCounts <
                totalBytes PhysicalBytes.resident groups metadata other ∨
              totalBytes PhysicalBytes.resident groups metadata planeCounts =
                  totalBytes PhysicalBytes.resident groups metadata other ∧
                other ≤ planeCounts)) := by
  simp only [Preferred, objective, Prod.Lex.toLex_lt_toLex, toLex_inj, Prod.mk.injEq]
  tauto

end Tritium.Allocator
