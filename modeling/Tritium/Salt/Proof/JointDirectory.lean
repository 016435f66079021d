import Tritium.Salt.JointBundle
import Mathlib.Algebra.BigOperators.Ring.List
import Mathlib.Algebra.Order.BigOperators.Group.List

/-!
# What the reader of a joint bundle has admitted

The facts hold of every reader that `newStrict` returns, whatever its source answers. A tensor's
scales are stored raw, two bytes for each block of each plane of each row, so the rows of a tensor
that has weights are paid for in the file; a tensor without weights pays for nothing.
-/

namespace Tritium.Salt

open List
open Stateful

def JointTensorInfo.payload (info : JointTensorInfo) : ℕ := info.scaleBytes + info.streamBytes

/-- What is known of an entry by itself. -/
structure JointTensorInfo.Fits (planes : ℕ) (info : JointTensorInfo) : Prop where
  rows_lt : info.rows < 2 ^ 32
  k_lt : info.k < 2 ^ 32
  scaleBytes_eq : info.scaleBytes = info.rows * numBlocks info.k * (planes * 2)

structure JointSaltBundleReader.Admitted (fileLen : ℕ) (reader : JointSaltBundleReader) :
    Prop where
  planes : 1 ≤ reader.planes ∧ reader.planes ≤ maxJointPlanes
  rotationGroup : reader.rotationGroup ≠ some 0
  names : (reader.entries.map JointTensorInfo.name).Nodup
  fits : ∀ info ∈ reader.entries, info.Fits reader.planes
  payloads : (reader.entries.map JointTensorInfo.payload).sum ≤ fileLen

section Reads

variable {σ ι : Type} (source : Seekable σ ι)

theorem readBuffer_ensures (count : ℕ) :
    Ensures (fun bytes => bytes.length = count) (readBuffer source count) :=
  (ensures_true _).bind fun _ _ => Ensures.pure (takeD_length ..)

theorem readUint_ensures (width : ℕ) :
    Ensures (fun value => value < 256 ^ width) (readUint source width) := by
  refine (readBuffer_ensures source width).bind fun bytes hbytes => Ensures.pure ?_
  rw [← hbytes]
  exact ofLeBytes_lt bytes

end Reads

section Directory

variable {ι : Type} {planes fileLen expected : ℕ} {entries : List JointTensorInfo}
  {info : JointTensorInfo}

theorem checkEntry_eq_ok_iff :
    checkEntry planes fileLen entries info = (.ok () : Outcome (JointBundleError ι) Unit) ↔
      (info.rows * numBlocks info.k < 2 ^ 64 ∧
        info.rows * numBlocks info.k * (planes * 2) < 2 ^ 64) ∧
      info.scaleBytes = info.rows * numBlocks info.k * (planes * 2) ∧
      (info.payloadOffset + info.scaleBytes < 2 ^ 64 ∧
        info.payloadOffset + info.scaleBytes + info.streamBytes < 2 ^ 64) ∧
      info.payloadOffset + info.scaleBytes + info.streamBytes ≤ fileLen ∧
      info.name ∉ entries.map JointTensorInfo.name := by
  have hfresh : ¬ (entries.any fun entry => entry.name = info.name) = true ↔
      info.name ∉ entries.map JointTensorInfo.name := by simp
  simp only [checkEntry, bind_eq_ok_iff, okOr_eq_ok_iff, Option.bind_eq_some_iff,
    checkedMul_eq_some_iff, checkedAdd_eq_some_iff, refuse_eq_ok_iff, not_not, not_lt, hfresh,
    pure_eq_ok, and_true, existsAndEq, true_and, and_assoc]

theorem checkPlacement_eq_ok {stop : ℕ}
    (hcheck : checkPlacement expected info = (.ok stop : Outcome (JointBundleError ι) ℕ)) :
    stop = expected + info.payload := by
  rw [checkPlacement] at hcheck
  obtain ⟨_, hcheck⟩ := refuse_eq_ok hcheck
  obtain ⟨payload, hpayload, hstop⟩ := bind_eq_ok hcheck
  obtain ⟨_, rfl⟩ := checkedAdd_eq_some_iff.mp (expect_eq_ok_iff.mp hpayload)
  exact (checkedAdd_eq_some_iff.mp (expect_eq_ok_iff.mp hstop)).2.symm

theorem foldlM_checkPlacement_eq_ok (entries : List JointTensorInfo) {stop : ℕ}
    (hcheck : entries.foldlM checkPlacement expected =
      (.ok stop : Outcome (JointBundleError ι) ℕ)) :
    stop = expected + (entries.map JointTensorInfo.payload).sum :=
  foldlM_eq_add_sum hcheck fun _ _ _ => checkPlacement_eq_ok

/-- Distinct names, and every entry fits by itself. -/
def Listed (planes : ℕ) (entries : List JointTensorInfo) : Prop :=
  (entries.map JointTensorInfo.name).Nodup ∧ ∀ info ∈ entries, info.Fits planes

theorem Listed.concat (hentries : Listed planes entries) (hinfo : info.Fits planes)
    (hname : info.name ∉ entries.map JointTensorInfo.name) : Listed planes (entries ++ [info]) := by
  obtain ⟨hnames, hfits⟩ := hentries
  refine ⟨?_, forall_mem_append.mpr ⟨hfits, forall_mem_singleton.mpr hinfo⟩⟩
  rw [map_append, nodup_append_comm]
  exact nodup_cons.mpr ⟨hname, hnames⟩

variable {σ : Type} (source : Seekable σ ι)

theorem readEntry_ensures {state : DirectoryState} (hstate : Listed planes state.entries) :
    Ensures (fun next => Listed planes next.entries) (readEntry source planes fileLen state) := by
  refine (ensures_true _).bind fun nameLen _ => (ensures_true _).bind fun pos _ =>
    Ensures.refuse fun _ => (ensures_true _).bind fun bytes _ => (ensures_true _).bind fun name _ =>
    (readUint_ensures source 4).bind fun rows hrows =>
    (readUint_ensures source 4).bind fun k hk => (ensures_true _).bind fun payloadOffset _ =>
    (ensures_true _).bind fun scaleBytes _ => (ensures_true _).bind fun streamBytes _ =>
    (Ensures.lift fun _ hcheck => checkEntry_eq_ok_iff.mp hcheck).bind fun _ hchecked =>
    Ensures.pure ?_
  obtain ⟨_, hscales, _, _, hname⟩ := hchecked
  exact hstate.concat ⟨hrows, hk, hscales⟩ hname

theorem readDirectory_ensures (count start : ℕ) :
    Ensures (fun entries => Listed planes entries ∧
        (entries.map JointTensorInfo.payload).sum ≤ fileLen)
      (readDirectory source planes fileLen count start) := by
  have hnone : Listed planes (DirectoryState.mk [] start).entries := ⟨nodup_nil, forall_mem_nil _⟩
  refine (@Ensures.timesM _ _ _ (fun _ state => Listed planes state.entries) _
    (fun _ _ hstate => readEntry_ensures source hstate) count 0 _ hnone).bind
    fun directory hlisted =>
    (Ensures.lift fun _ hstop => foldlM_checkPlacement_eq_ok _ hstop).bind fun stop hstop =>
    Ensures.refuse fun hend => Ensures.pure ⟨hlisted, ?_⟩
  omega

end Directory

section Reader

variable {σ ι : Type} {source : Seekable σ ι} {reader : JointSaltBundleReader} {fileLen : ℕ}
  {info : JointTensorInfo}

theorem newStrict_admitted {state middle after : σ}
    (hend : source.seekEnd state = (.ok fileLen, middle))
    (hreader : JointSaltBundleReader.newStrict source state = (.ok reader, after)) :
    reader.Admitted fileLen := by
  rw [JointSaltBundleReader.newStrict, bind_apply_ok (mapErr_apply_ok hend _)] at hreader
  refine Ensures.value ?_ hreader
  refine (ensures_true _).bind fun _ _ => (ensures_true _).bind fun magic _ =>
    Ensures.refuse fun _ => (ensures_true _).bind fun version _ => Ensures.refuse fun _ =>
    (ensures_true _).bind fun planes _ => Ensures.refuse fun hplanes =>
    (readUint_ensures source 2).bind fun rotation hrotation =>
    (ensures_true _).bind fun count _ => Ensures.refuse fun _ =>
    (ensures_true _).bind fun lengths _ => (ensures_true _).bind fun code _ =>
    (readDirectory_ensures source count _).bind fun entries hentries => Ensures.pure ?_
  obtain ⟨⟨hnames, hfits⟩, hpayloads⟩ := hentries
  obtain ⟨hsome, hfew⟩ := not_or.mp hplanes
  refine ⟨⟨Nat.pos_of_ne_zero hsome, not_lt.mp hfew⟩, ?_, hnames, hfits, hpayloads⟩
  by_cases hzero : rotation = 0
  · rw [if_neg (not_not.mpr hzero)]
    simp
  · rw [if_pos hzero]
    intro hgroup
    have hsmall : rotation < 2 ^ 16 := hrotation
    have hvalue := congrArg UInt16.toNat (Option.some.inj hgroup)
    rw [UInt16.toNat_ofNat', Nat.mod_eq_of_lt hsmall] at hvalue
    exact hzero hvalue

theorem le_numBlocks_mul (k : ℕ) : k ≤ numBlocks k * qkK := by
  rw [numBlocks, qkK]
  omega

/-- The scales pay for every weight, at 256 weights for two bytes. -/
theorem JointTensorInfo.Fits.weights_le {planes : ℕ} (hinfo : info.Fits planes)
    (hplanes : 1 ≤ planes) : info.rows * info.k ≤ 128 * info.scaleBytes := by
  rw [hinfo.scaleBytes_eq]
  calc info.rows * info.k
      ≤ info.rows * (numBlocks info.k * 256) := Nat.mul_le_mul_left _ (le_numBlocks_mul info.k)
    _ = 128 * (info.rows * numBlocks info.k * (1 * 2)) := by ring
    _ ≤ 128 * (info.rows * numBlocks info.k * (planes * 2)) := by gcongr

/-- The scales pay for every row that has weights. -/
theorem JointTensorInfo.Fits.rows_le {planes : ℕ} (hinfo : info.Fits planes) (hplanes : 1 ≤ planes)
    (hrows : info.k = 0 → info.rows = 0) : 2 * info.rows ≤ info.scaleBytes := by
  obtain hk | hk := Nat.eq_zero_or_pos info.k
  · rw [hrows hk]
    exact Nat.zero_le _
  · have hblocks : 1 ≤ numBlocks info.k := by
      rw [numBlocks, qkK]
      omega
    rw [hinfo.scaleBytes_eq]
    calc 2 * info.rows
        = info.rows * 1 * (1 * 2) := by ring
      _ ≤ info.rows * numBlocks info.k * (planes * 2) := by gcongr

def rowCount (entries : List JointTensorInfo) : ℕ := (entries.map JointTensorInfo.rows).sum

def weightCount (entries : List JointTensorInfo) : ℕ :=
  (entries.map fun info => info.rows * info.k).sum

def wideEntries (entries : List JointTensorInfo) : List JointTensorInfo :=
  entries.filter fun info => 0 < info.k

section

variable (hreader : reader.Admitted fileLen)

include hreader

theorem JointSaltBundleReader.Admitted.scales_le :
    (reader.entries.map JointTensorInfo.scaleBytes).sum ≤ fileLen :=
  (sum_le_sum fun _ _ => Nat.le_add_right _ _).trans hreader.payloads

theorem JointSaltBundleReader.Admitted.weightCount_le :
    weightCount reader.entries ≤ 128 * fileLen :=
  calc weightCount reader.entries
      ≤ (reader.entries.map fun info => 128 * info.scaleBytes).sum :=
        sum_le_sum fun info hinfo => (hreader.fits info hinfo).weights_le hreader.planes.1
    _ = 128 * (reader.entries.map JointTensorInfo.scaleBytes).sum := sum_map_mul_left ..
    _ ≤ 128 * fileLen := Nat.mul_le_mul_left _ hreader.scales_le

/-- The rows of any part of the directory, if its rows have weights. -/
theorem JointSaltBundleReader.Admitted.rowCount_le {part : List JointTensorInfo}
    (hpart : part <+ reader.entries) (hrows : ∀ info ∈ part, info.k = 0 → info.rows = 0) :
    2 * rowCount part ≤ fileLen :=
  calc 2 * rowCount part
      = (part.map fun info => 2 * info.rows).sum := (sum_map_mul_left ..).symm
    _ ≤ (part.map JointTensorInfo.scaleBytes).sum := by
        apply sum_le_sum
        intro info hinfo
        have hfits := hreader.fits info (hpart.subset hinfo)
        exact hfits.rows_le hreader.planes.1 (hrows info hinfo)
    _ ≤ (reader.entries.map JointTensorInfo.scaleBytes).sum :=
        (hpart.map _).sum_le_sum fun _ _ => Nat.zero_le _
    _ ≤ fileLen := hreader.scales_le

end

/-- **What a directory announces is bounded by the file, but for the rows of tensors without
weights.** The rows that have weights take at least two bytes each, and the weights are at most 128
for a byte. So all rows together stay below the length of a file in which no tensor has rows
without weights. -/
theorem directory_bounded {fileLen : ℕ} {state middle after : σ} {reader : JointSaltBundleReader}
    (hend : source.seekEnd state = (.ok fileLen, middle))
    (hreader : JointSaltBundleReader.newStrict source state = (.ok reader, after)) :
    2 * rowCount (wideEntries reader.entries) ≤ fileLen ∧
      weightCount reader.entries ≤ 128 * fileLen ∧
      ((∀ info ∈ reader.entries, info.k = 0 → info.rows = 0) →
        rowCount reader.entries ≤ fileLen) := by
  have hadmitted := newStrict_admitted hend hreader
  refine ⟨hadmitted.rowCount_le filter_sublist ?_, hadmitted.weightCount_le, fun hrows => ?_⟩
  · intro info hinfo hk
    have hwide := of_decide_eq_true (mem_filter.mp hinfo).2
    omega
  · have hall := hadmitted.rowCount_le (Sublist.refl _) hrows
    omega

end Reader

/-- A bundle with one plane, a code without words, and one tensor of which only the scales are
stored. -/
def oneTensorFile (rows k scaleBytes : ℕ) : List UInt8 :=
  saltJointBundleMagic ++ [1, 1, 0, 0, 1, 0, 0, 0] ++ [0, 0, 0] ++ [1, 0, 97] ++ leBytes 4 rows ++
    leBytes 4 k ++ leBytes 8 50 ++ leBytes 8 scaleBytes ++ leBytes 8 0 ++ replicate scaleBytes 0

/-- The strict reader admits the largest row count in a file of 50 bytes. -/
theorem emptyRowsFile_unbounded :
    ∃ reader after, JointSaltBundleReader.newStrict Seekable.cursor
        (oneTensorFile (2 ^ 32 - 1) 0 0, 0) = (.ok reader, after) ∧
      (oneTensorFile (2 ^ 32 - 1) 0 0).length = 50 ∧ ¬ rowCount reader.entries ≤ 50 ∧
      rowCount reader.entries = 2 ^ 32 - 1 := by
  refine ⟨_, _, rfl, ?_, ?_, ?_⟩
  · decide
  · decide
  · decide

/-- Three rows of one weight each have six bytes of scales. -/
theorem directory_bounded_threeRows :
    ∃ reader after, JointSaltBundleReader.newStrict Seekable.cursor (oneTensorFile 3 1 6, 0) =
        (.ok reader, after) ∧
      rowCount reader.entries = 3 ∧ rowCount reader.entries ≤ 56 ∧
      weightCount reader.entries ≤ 128 * 56 := by
  have hbounded := @directory_bounded _ _ Seekable.cursor 56 (oneTensorFile 3 1 6, 0) _ _ _ rfl rfl
  exact ⟨_, _, rfl, rfl, hbounded.2.2 (by decide), hbounded.2.1⟩

end Tritium.Salt
