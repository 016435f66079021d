import Tritium.Salt.Sparse
import Tritium.Salt.Proof.Tq2
import Mathlib.Data.List.Chain
import Mathlib.Data.List.Perm.Subperm

/-!
# Sparse planes come back

A plane is rebuilt from its nonzeros, and its nonzeros from the bytes they are stored in. Bytes that
the reader admits always hold a plane that can be rebuilt.
-/

namespace Tritium.Salt

open List

variable {k : ℕ} {entry : ℕ × ℤ} {plane : SparsePlane} {packed bytes : List UInt8}
  (trits : List Trit)

@[mk_iff]
structure SparsePlane.Valid (plane : SparsePlane) : Prop where
  k_lt : plane.k < signBit
  scales_length : plane.scales.length = numBlocks plane.k
  signs : plane.idx.length = plane.sign.length
  increasing : plane.idx.Pairwise (· < ·)
  entries : ∀ entry ∈ plane.idx.zip plane.sign, entry.1 < plane.k ∧ (entry.2 = -1 ∨ entry.2 = 1)

theorem increasing_iff (columns : List ℕ) :
    ¬ ((columns.zip columns.tail).any fun pair => pair.2 ≤ pair.1) = true ↔
      columns.Pairwise (· < ·) := by
  rw [← isChain_iff_pairwise]
  induction columns with
  | nil => simp
  | cons first columns ih =>
    cases columns with
    | nil => simp
    | cons second columns =>
      rw [isChain_cons_cons, ← ih]
      simp [zip]

theorem checkSignedColumn_eq_ok_iff :
    checkSignedColumn k entry = .ok () ↔ entry.1 < k ∧ (entry.2 = -1 ∨ entry.2 = 1) := by
  rw [checkSignedColumn, refuse_eq_ok_iff, refuse_eq_ok_iff, and_iff_left rfl,
    not_le, ← not_or, not_not]

theorem validateSparsePlane_eq_ok_iff {blocks : ℕ} :
    validateSparsePlane plane = .ok blocks ↔ plane.Valid ∧ numBlocks plane.k = blocks := by
  simp only [validateSparsePlane, refuse_eq_ok_iff, unit_bind_eq_ok_iff, forM_eq_ok_iff,
    checkSignedColumn_eq_ok_iff, increasing_iff, not_le, not_not, pure_eq_ok, ok.injEq,
    SparsePlane.valid_iff, and_assoc]

theorem SparsePlane.Valid.exists_sparseToTq20 (hplane : plane.Valid) :
    ∃ bytes, sparseToTq20 plane = .ok bytes := by
  have hplace : ∀ trits : List Trit, trits.length = plane.k → ∀ entry ∈ plane.idx.zip plane.sign,
      ∃ next : List Trit, placeSign plane.k trits entry = .ok next ∧ next.length = plane.k := by
    intro trits htrits entry hentry
    obtain ⟨hinside, hsign⟩ := hplane.entries entry hentry
    obtain ⟨trit, htrit⟩ : ∃ trit, Trit.fromI8 entry.2 = .ok trit := by
      obtain hsign | hsign := hsign
      · exact ⟨.neg, by rw [hsign]; rfl⟩
      · exact ⟨.pos, by rw [hsign]; rfl⟩
    rw [placeSign, if_neg (not_le.mpr hinside), htrit, ok_bind, setIndex_of_lt (by rwa [htrits])]
    exact ⟨_, rfl, by rw [length_set, htrits]⟩
  obtain ⟨trits, hfold, htrits⟩ := Outcome.exists_foldlM hplace length_replicate
  rw [sparseToTq20, validateSparsePlane_eq_ok_iff.mpr ⟨hplane, rfl⟩, hfold]
  apply exists_packTq20Row
  · rw [htrits, hplane.scales_length]
  · rw [htrits, length_replicate]

def nonzeros (trits : List Trit) : List (Trit × ℕ) :=
  trits.zipIdx.filter fun entry => entry.1.get ≠ 0

theorem nonzeros_concat (trit : Trit) :
    nonzeros (trits ++ [trit]) =
      nonzeros trits ++ if trit.get ≠ 0 then [(trit, trits.length)] else [] := by
  rw [nonzeros, zipIdx_append, nonzeros]
  by_cases hzero : trit.get = 0 <;> simp [hzero]

theorem nonzeros_columns :
    ((nonzeros trits).map Prod.snd).Pairwise (· < ·) ∧
      ∀ entry ∈ nonzeros trits, entry.2 < trits.length := by
  have hsublist : nonzeros trits <+ trits.zipIdx := filter_sublist
  have hcolumns := hsublist.map Prod.snd
  rw [zipIdx_map_snd] at hcolumns
  exact ⟨List.Pairwise.sublist hcolumns pairwise_lt_range', fun entry hentry =>
    (mem_zipIdx' (hsublist.subset hentry)).1⟩

/-- Placing the nonzeros rebuilds the trits, over zeros. -/
theorem foldlM_placeSign (hlength : trits.length ≤ k) :
    ((nonzeros trits).map fun entry => (entry.2, entry.1.get)).foldlM (placeSign k)
        (replicate k .zero) = .ok (trits ++ replicate (k - trits.length) .zero) := by
  induction trits using reverseRecOn with
  | nil => rfl
  | append_singleton trits trit ih =>
    rw [length_append, length_singleton] at hlength
    obtain ⟨room, hroom⟩ : ∃ room, k - trits.length = room + 1 := ⟨k - trits.length - 1, by omega⟩
    have hrest : k - (trits ++ [trit]).length = room := by
      rw [length_append, length_singleton]
      omega
    rw [nonzeros_concat, map_append, foldlM_append, ih (by omega), ok_bind, hroom,
      hrest, replicate_succ, append_assoc]
    by_cases hzero : trit.get = 0
    · have htrit : trit = .zero := by
        cases trit with
        | zero => rfl
        | neg => cases hzero
        | pos => cases hzero
      rw [htrit]
      rfl
    · have hinside : trits.length < (trits ++ Trit.zero :: replicate room .zero).length := by
        rw [length_append, length_cons]
        omega
      rw [if_pos hzero, map_singleton, foldlM_cons, placeSign,
        if_neg (by dsimp only; omega), Trit.fromI8_get, ok_bind,
        setIndex_of_lt hinside, set_append_right _ _ le_rfl, Nat.sub_self]
      rfl

/-! ### From dense to sparse and back -/

/-- The check of the last block is enough: no other block has trits behind the row. -/
theorem validateZeroPadding_eq_ok_iff {scaleSlots : ℕ} {trits : List Trit} {scales : List ℕ}
    (hunpack : unpackTq20Row packed k scaleSlots = .ok (trits, scales)) :
    validateZeroPadding packed k = .ok () ↔ ZeroPadded packed k := by
  obtain ⟨_, _, blocks, hcount, hblocks, _⟩ := unpackTq20Row_eq_ok hunpack
  have hwhole : ∀ index < numBlocks k, ¬ (index = numBlocks k - 1 ∧ k % qkK ≠ 0) →
      blockTrits k index = qkK := by
    rw [numBlocks, qkK]
    simp only [blockTrits, qkK]
    omega
  have hfullLength {bytes : List UInt8} {full : List Trit} {scale : ℕ}
      (hfull : unpackTq20Block bytes qkK = .ok (full, scale)) : full.length = qkK :=
    (packTq20Block_of_unpack hfull (@length_replicate _ tq20BlockBytes 0)).2.1
  rw [validateZeroPadding]
  split_ifs with hpartial
  · refine iff_of_true rfl fun index hindex bytes full scale _ hfull => ?_
    rw [hwhole index hindex (by omega), drop_of_length_le (hfullLength hfull).le]
    rfl
  have hlast : numBlocks k - 1 < numBlocks k ∧ k % qkK = blockTrits k (numBlocks k - 1) := by
    rw [blockTrits, numBlocks, qkK] at *
    omega
  obtain ⟨bytes, full, hbytes, hfull, _⟩ := hblocks (numBlocks k - 1) (hcount ▸ hlast.1)
  have hlength := hfullLength hfull
  have hpadding : full.drop (k % qkK) = replicate (qkK - k % qkK) .zero ↔
      ¬ (full.drop (k % qkK)).any (· ≠ .zero) = true := by
    rw [eq_replicate_iff, length_drop, hlength, any_eq_true]
    simp
  have hinside : k % qkK ≤ full.length :=
    (hlast.2.trans_le (blockTrits_le _ _)).trans_eq hlength.symm
  rw [sub_of_le (by omega), ok_bind]
  dsimp only
  rw [slice_eq_ok_iff.mpr hbytes, ok_bind, hfull, ok_bind]
  dsimp only
  rw [slice_of_le hinside le_rfl, ok_bind, take_length, refuse_eq_ok_iff, ← hpadding, pure_eq_ok, and_iff_left rfl]
  constructor
  · intro hzeros index hindex bytes' full' scale' hbytes' hfull'
    by_cases hshort : index = numBlocks k - 1
    · rw [hshort, hbytes, Option.some.injEq] at hbytes'
      rw [← hbytes', hfull, ok.injEq, Prod.mk.injEq] at hfull'
      rw [hshort, ← hlast.2, ← hfull'.1, hzeros]
    · rw [hwhole index hindex (by omega), drop_of_length_le (hfullLength hfull').le]
      rfl
  · intro hpadded
    rw [hlast.2]
    exact hpadded _ hlast.1 bytes full _ hbytes hfull

/-- **Sparse planes are exact.** The sparse form of a dense plane is valid and rebuilds the plane. -/
theorem sparseToTq20_of_sparseFrom (hsparse : sparseFromTq20 packed k = .ok plane) :
    plane.k = k ∧ plane.Valid ∧ (∀ scale ∈ plane.scales, scale < 2 ^ 16) ∧
      sparseToTq20 plane = .ok packed := by
  rw [sparseFromTq20] at hsparse
  obtain ⟨hk, hsparse⟩ := refuse_eq_ok hsparse
  obtain ⟨⟨trits, scales⟩, hunpack, hsparse⟩ := bind_eq_ok hsparse
  obtain ⟨_, hpadding, hresult⟩ := bind_eq_ok hsparse
  have hpadded := (validateZeroPadding_eq_ok_iff hunpack).mp hpadding
  obtain ⟨_, _, blocks, hcount, hblocks, _, hscales⟩ := unpackTq20Row_eq_ok hunpack
  obtain ⟨htrits, hpack⟩ := packTq20Row_of_unpack hunpack hpadded
    (@length_replicate _ (numBlocks k * tq20BlockBytes) 0)
  obtain ⟨hincreasing, hinside⟩ := nonzeros_columns trits
  rw [htrits] at hinside
  have hsmall : k < 2 ^ 31 := not_le.mp hk
  have hcolumns : (nonzeros trits).map (fun entry => entry.2 % 2 ^ 32) =
      (nonzeros trits).map Prod.snd := by
    apply map_congr_left
    intro entry hentry
    have hlt := hinside entry hentry
    omega
  have hplane : plane = ⟨k, scales, (nonzeros trits).map Prod.snd,
      (nonzeros trits).map fun entry => entry.1.get⟩ := by
    rw [← hcolumns]
    exact (ok.inj hresult).symm
  have hzip : ((nonzeros trits).map Prod.snd).zip
      ((nonzeros trits).map fun entry => entry.1.get) =
        (nonzeros trits).map fun entry => (entry.2, entry.1.get) := zip_map' ..
  have hvalid : plane.Valid := by
    rw [hplane]
    refine ⟨hsmall, ?_, ?_, hincreasing, ?_⟩
    · rw [hscales, length_map, hcount]
    · rw [length_map, length_map]
    · rw [hzip]
      intro entry hentry
      obtain ⟨nonzero, hnonzero, rfl⟩ := mem_map.mp hentry
      refine ⟨hinside nonzero hnonzero, ?_⟩
      have hne : nonzero.1.get ≠ 0 := of_decide_eq_true (mem_filter.mp hnonzero).2
      revert hne
      cases nonzero.1 with
      | neg => exact fun _ => .inl rfl
      | zero => exact fun hne => absurd rfl hne
      | pos => exact fun _ => .inr rfl
  refine ⟨by rw [hplane], hvalid, ?_, ?_⟩
  · rw [hplane, hscales]
    intro scale hscale
    obtain ⟨block, hblock, rfl⟩ := mem_map.mp hscale
    obtain ⟨position, hposition, rfl⟩ := getElem_of_mem hblock
    exact (hblocks position hposition).scale_lt
  rw [sparseToTq20, validateSparsePlane_eq_ok_iff.mpr ⟨hvalid, rfl⟩, hplane]
  rw [hzip, foldlM_placeSign trits htrits.le, htrits, Nat.sub_self, replicate_zero, append_nil]
  exact hpack

theorem choosePlaneRepr_eq_ok {φ : Type} {arithmetic : DensityArithmetic φ}
    {maxDensity : φ} {chosen : PlaneRepr}
    (hchosen : choosePlaneRepr arithmetic packed k maxDensity = .ok chosen) :
    chosen = .dense packed ∨
      ∃ sparse, chosen = .sparse sparse ∧ sparseFromTq20 packed k = .ok sparse := by
  rw [choosePlaneRepr] at hchosen
  split at hchosen
  · next sparse hsparse =>
      split_ifs at hchosen
      · exact .inr ⟨sparse, (ok.inj hchosen).symm, hsparse⟩
      · exact .inl (ok.inj hchosen).symm
  · exact .inl (ok.inj hchosen).symm
  · cases hchosen
  · cases hchosen

theorem checkColumn_eq_ok_iff {encoded : ℕ} {previous last : Option ℕ} :
    checkColumn k previous encoded = .ok last ↔
      entryColumn encoded < k ∧ (∀ column ∈ previous, column < entryColumn encoded) ∧
        some (entryColumn encoded) = last := by
  have hany : ¬ previous.any (fun column => entryColumn encoded ≤ column) = true ↔
      ∀ column ∈ previous, column < entryColumn encoded := by
    cases previous with
    | none => simp
    | some column => simp
  rw [checkColumn, refuse_eq_ok_iff, refuse_eq_ok_iff, hany, not_le, ok.injEq]

/-- The loop goes through when the columns lie inside the row and increase. -/
theorem exists_foldlM_checkColumn_iff (encoded : List ℕ) (previous : Option ℕ) :
    (∃ last, encoded.foldlM (checkColumn k) previous = .ok last) ↔
      (∀ entry ∈ encoded, entryColumn entry < k) ∧
        (previous.toList ++ encoded.map entryColumn).Pairwise (· < ·) := by
  induction encoded generalizing previous with
  | nil =>
    refine iff_of_true ⟨previous, rfl⟩ ⟨forall_mem_nil _, ?_⟩
    cases previous <;> simp
  | cons entry encoded ih =>
    have hstep : (∃ last, (entry :: encoded).foldlM (checkColumn k) previous = .ok last) ↔
        entryColumn entry < k ∧ (∀ column ∈ previous, column < entryColumn entry) ∧
          ∃ last, encoded.foldlM (checkColumn k) (some (entryColumn entry)) = .ok last := by
      constructor
      · rintro ⟨last, hloop⟩
        obtain ⟨next, hnext, hrest⟩ := foldlM_cons_eq_ok hloop
        obtain ⟨hinside, hprevious, rfl⟩ := checkColumn_eq_ok_iff.mp hnext
        exact ⟨hinside, hprevious, last, hrest⟩
      · rintro ⟨hinside, hprevious, last, hrest⟩
        refine ⟨last, ?_⟩
        rw [foldlM_cons, checkColumn_eq_ok_iff.mpr ⟨hinside, hprevious, rfl⟩, ok_bind, hrest]
    rw [hstep, ih, forall_mem_cons, ← isChain_iff_pairwise, ← isChain_iff_pairwise]
    cases previous with
    | none => simp [and_assoc]
    | some column => simp [and_assoc, and_left_comm]

theorem SparsePlaneRef.toOwned_valid {plane : SparsePlaneRef} (hk : plane.k < signBit)
    (hscales : plane.scales.length = numBlocks plane.k * 2)
    (hentries : ∃ last, plane.encodedEntries.foldlM (checkColumn plane.k) none = .ok last) :
    plane.toOwned.Valid := by
  obtain ⟨hinside, hincreasing⟩ := (exists_foldlM_checkColumn_iff _ _).mp hentries
  refine ⟨hk, ?_, ?_, hincreasing, ?_⟩
  · rw [SparsePlaneRef.toOwned]
    simp [asChunks_length, hscales]
  · simp [SparsePlaneRef.toOwned]
  · rw [SparsePlaneRef.toOwned]
    rw [zip_map']
    intro entry hentry
    obtain ⟨encoded, hencoded, rfl⟩ := mem_map.mp hentry
    refine ⟨hinside encoded hencoded, ?_⟩
    by_cases hsign : encoded / signBit % 2 ≠ 0
    · omega
    · omega

/-- An admitted view holds a valid plane, and is what the later unchecked reading finds. -/
theorem SparsePlaneRef.parse_eq_ok {plane : SparsePlaneRef}
    (hparse : SparsePlaneRef.parse bytes = .ok plane) :
    SparsePlaneRef.fromValidated bytes = .ok plane ∧ plane.toOwned.Valid := by
  simp only [SparsePlaneRef.parse, refuse_eq_ok_iff, bind_eq_ok_iff, okOr_eq_ok_iff,
    checkedMul_eq_some_iff, checkedAdd_eq_some_iff, slice_eq_ok_iff, not_le, pure_eq_ok,
    ok.injEq] at hparse
  obtain ⟨_, _, _, _, _, _, _, width, hwidth, hk, _, _, _, ⟨_, rfl⟩, _, _, _, ⟨_, rfl⟩, _, _, _,
    scales, hscales, entries, hentries, last, hlast, rfl⟩ := hparse
  constructor
  · simp only [SparsePlaneRef.fromValidated, bind_eq_ok_iff, slice_eq_ok_iff, pure_eq_ok, ok.injEq]
    exact ⟨width, hwidth, scales, hscales, entries, hentries, rfl⟩
  · apply SparsePlaneRef.toOwned_valid hk
    · simp [length_of_subslice hscales]
    · exact ⟨last, hlast⟩

/-- The number that stores a column and a sign. -/
def entryValue (entry : ℕ × ℤ) : ℕ := if entry.2 = 1 then entry.1 else entry.1 + signBit

theorem encodeEntry_eq (hk : k < signBit) (hentry : entry.1 < k ∧ (entry.2 = -1 ∨ entry.2 = 1)) :
    encodeEntry k entry = .ok (leBytes 4 (entryValue entry)) := by
  have hsmall : entry.1 < 2 ^ 31 := hentry.1.trans hk
  rw [encodeEntry, if_neg (not_le.mpr hentry.1), entryValue]
  obtain hsign | hsign := hentry.2
  · have hne : ¬ entry.2 = 1 := by omega
    have hor : entry.1 ||| signBit = entry.1 + signBit := by
      have hjoin := Nat.two_pow_add_eq_or_of_lt hsmall 1
      rw [Nat.or_comm, add_comm]
      exact hjoin.symm
    rw [if_neg hne, if_pos hsign, if_neg hne, hor]
  · rw [if_pos hsign, if_pos hsign]

theorem entryValue_decoded {encoded : ℕ} (hencoded : encoded < 2 ^ 32) :
    entryValue (entryColumn encoded, if encoded / signBit % 2 ≠ 0 then -1 else 1) = encoded := by
  have hbit : signBit = 2 ^ 31 := rfl
  rw [entryValue, entryColumn, hbit]
  split_ifs <;> omega

theorem entryValue_spec (hcolumn : entry.1 < signBit) (hsign : entry.2 = -1 ∨ entry.2 = 1) :
    entryValue entry < 256 ^ 4 ∧ entryColumn (entryValue entry) = entry.1 ∧
      (if entryValue entry / signBit % 2 ≠ 0 then -1 else 1) = entry.2 := by
  have hbit : signBit = 2 ^ 31 := rfl
  rw [entryValue, entryColumn, hbit]
  obtain hsign | hsign := hsign
  · rw [if_neg (by omega), hsign]
    refine ⟨by omega, by omega, if_pos (by omega)⟩
  · rw [if_pos hsign, hsign]
    refine ⟨by omega, by omega, if_neg (by omega)⟩

theorem length_le_of_increasing {columns : List ℕ}
    (hincreasing : columns.Pairwise (· < ·)) (hinside : ∀ column ∈ columns, column < k) :
    columns.length ≤ k := by
  have hnodup : columns.Nodup := hincreasing.imp fun hlt => Nat.ne_of_lt hlt
  have hsubset : columns ⊆ range k := fun column hcolumn =>
    mem_range.mpr (hinside column hcolumn)
  rw [← @length_range k]
  exact (subperm_of_subset hnodup hsubset).length_le

theorem SparsePlane.Valid.nnz_le (hplane : plane.Valid) : plane.idx.length ≤ plane.k := by
  apply length_le_of_increasing hplane.increasing
  intro column hcolumn
  have hfirst : (plane.idx.zip plane.sign).map Prod.fst = plane.idx := map_fst_zip hplane.signs.le
  rw [← hfirst] at hcolumn
  obtain ⟨entry, hentry, rfl⟩ := mem_map.mp hcolumn
  exact (hplane.entries entry hentry).1

def sparseBytes (k nnz : ℕ) (scales entries : List UInt8) : List UInt8 :=
  sparseMagic ++ [UInt8.ofNat sparseVersion] ++ [0] ++ leBytes 4 k ++ leBytes 4 nnz ++ scales ++
    entries

theorem parse_sparseBytes {nnz : ℕ} {scales entries : List UInt8} (hk : k < signBit)
    (hnnz : nnz < 2 ^ 32) (hscales : scales.length = numBlocks k * 2)
    (hentries : entries.length = nnz * 4)
    (hcolumns : ∃ last, (SparsePlaneRef.mk k scales entries).encodedEntries.foldlM
      (checkColumn k) none = .ok last) :
    SparsePlaneRef.parse (sparseBytes k nnz scales entries) = .ok ⟨k, scales, entries⟩ := by
  have hk31 : k < 2 ^ 31 := hk
  have hblocks : numBlocks k ≤ k := by
    rw [numBlocks, qkK]
    omega
  have hheader : sparseHeaderBytes = 14 := rfl
  generalize hbytes : sparseBytes k nnz scales entries = bytes
  have hlength : bytes.length = sparseHeaderBytes + numBlocks k * 2 + nnz * 4 := by
    rw [← hbytes, sparseBytes]
    simp only [length_append, leBytes_length, hscales, hentries]
    rfl
  have hmagicLength : sparseMagic.length = 4 := rfl
  have hfields := subslice_whole_iff.mpr hbytes
  rw [sparseBytes] at hfields
  simp only [append_assoc, subslice_append_iff_of_length, leBytes_length, hmagicLength,
    length_singleton, hscales, Nat.reduceAdd] at hfields
  obtain ⟨hmagic, hversion, _, hwidth, hcount, hscalesSlice, hentriesSlice⟩ := hfields
  obtain ⟨last, hlast⟩ := hcolumns
  have hkValue : ofLeBytes (leBytes 4 k) = k := ofLeBytes_leBytes 4 (by omega)
  have hnnzValue : ofLeBytes (leBytes 4 nnz) = nnz := ofLeBytes_leBytes 4 hnnz
  have hversionValue : (UInt8.ofNat sparseVersion).toNat = sparseVersion := rfl
  rw [SparsePlaneRef.parse, if_neg (by omega), slice_eq_ok_iff.mpr hmagic, ok_bind,
    if_neg (not_not.mpr rfl), index_of_subslice hversion, ok_bind,
    if_neg (not_not.mpr hversionValue), slice_eq_ok_iff.mpr hwidth, ok_bind]
  rw [hkValue, if_neg (not_le.mpr hk), slice_eq_ok_iff.mpr hcount, ok_bind, hnnzValue,
    checkedMul_of_lt (by omega), okOr_bind, checkedMul_of_lt (by omega),
    okOr_bind, checkedAdd_of_lt (by omega), okOr_bind, checkedAdd_of_lt (by omega), okOr_bind,
    if_neg (not_not.mpr hlength), hheader, slice_eq_ok_iff.mpr hscalesSlice, ok_bind,
    slice_eq_ok_iff.mpr hentriesSlice, ok_bind, hlast, ok_bind, pure_eq_ok]

def storedBytes (plane : SparsePlane) : List UInt8 :=
  sparseBytes plane.k plane.idx.length (plane.scales.flatMap (leBytes 2))
    (((plane.idx.zip plane.sign).map entryValue).flatMap (leBytes 4))

theorem packSparsePlane_eq (hplane : plane.Valid) :
    packSparsePlane plane = .ok (storedBytes plane) := by
  have hencode : (plane.idx.zip plane.sign).mapM (encodeEntry plane.k) =
      .ok ((plane.idx.zip plane.sign).map fun entry => leBytes 4 (entryValue entry)) :=
    mapM_of_forall_mem fun entry hentry =>
      encodeEntry_eq hplane.k_lt (hplane.entries entry hentry)
  rw [packSparsePlane, if_neg (not_le.mpr hplane.k_lt),
    validateSparsePlane_eq_ok_iff.mpr ⟨hplane, rfl⟩, ok_bind, hencode, storedBytes, flatMap_map]
  rfl

/-- **Stored planes come back.** What a valid plane is stored as is admitted and read as the plane. -/
theorem parse_packSparsePlane (hplane : plane.Valid)
    (hscales : ∀ scale ∈ plane.scales, scale < 2 ^ 16) (hpack : packSparsePlane plane = .ok bytes) :
    ∃ stored, SparsePlaneRef.parse bytes = .ok stored ∧ stored.k = plane.k ∧
      stored.toOwned = plane := by
  set entries := plane.idx.zip plane.sign
  rw [packSparsePlane_eq hplane, ok.injEq, storedBytes] at hpack
  have hspec : ∀ entry ∈ entries, entryValue entry < 256 ^ 4 ∧
      entryColumn (entryValue entry) = entry.1 ∧
        (if entryValue entry / signBit % 2 ≠ 0 then -1 else 1) = entry.2 := by
    intro entry hentry
    obtain ⟨hcolumn, hsign⟩ := hplane.entries entry hentry
    exact entryValue_spec (hcolumn.trans hplane.k_lt) hsign
  set stored := SparsePlaneRef.mk plane.k (plane.scales.flatMap (leBytes 2))
    ((entries.map entryValue).flatMap (leBytes 4)) with hstored
  have hencoded : stored.encodedEntries = entries.map entryValue := by
    apply map_ofLeBytes_asChunks (by decide)
    intro value hvalue
    obtain ⟨entry, hentry, rfl⟩ := mem_map.mp hvalue
    exact (hspec entry hentry).1
  have hcolumns : stored.encodedEntries.map entryColumn = plane.idx := by
    rw [hencoded, map_map]
    apply (map_congr_left fun entry hentry => (hspec entry hentry).2.1).trans
    exact map_fst_zip hplane.signs.le
  have hsigns : stored.encodedEntries.map
      (fun encoded => if encoded / signBit % 2 ≠ 0 then -1 else 1) = plane.sign := by
    rw [hencoded, map_map]
    apply (map_congr_left fun entry hentry => (hspec entry hentry).2.2).trans
    exact map_snd_zip hplane.signs.ge
  have howned : stored.toOwned = plane := by
    rw [SparsePlaneRef.toOwned, hcolumns, hsigns]
    rw [map_ofLeBytes_asChunks Nat.two_pos hscales]
  refine ⟨stored, ?_, rfl, howned⟩
  rw [← hpack]
  have hnnz := hplane.nnz_le
  have hk : plane.k < 2 ^ 31 := hplane.k_lt
  apply parse_sparseBytes hplane.k_lt (by omega)
  · simp [hplane.scales_length]
  · simp [length_flatMap_const _ fun value _ => leBytes_length 4 value, ← hplane.signs]
  · refine (exists_foldlM_checkColumn_iff _ _).mpr ⟨?_, ?_⟩
    · rw [hencoded]
      intro value hvalue
      obtain ⟨entry, hentry, rfl⟩ := mem_map.mp hvalue
      rw [(hspec entry hentry).2.1]
      exact (hplane.entries entry hentry).1
    · rw [hcolumns]
      exact hplane.increasing

/-- **Only canonical bytes are admitted.** Bytes with a zero pad that the reader admits are what the
plane in them is stored as. -/
theorem packSparsePlane_of_parse {stored : SparsePlaneRef}
    (hparse : SparsePlaneRef.parse bytes = .ok stored) (hpad : bytes[5]? = some 0) :
    packSparsePlane stored.toOwned = .ok bytes := by
  obtain ⟨_, hvalid⟩ := SparsePlaneRef.parse_eq_ok hparse
  rw [packSparsePlane_eq hvalid, ok.injEq]
  simp only [SparsePlaneRef.parse, refuse_eq_ok_iff, bind_eq_ok_iff, okOr_eq_ok_iff,
    checkedMul_eq_some_iff, checkedAdd_eq_some_iff, slice_eq_ok_iff, index_eq_ok_iff, not_not,
    pure_eq_ok, ok.injEq, existsAndEq, and_assoc, true_and] at hparse
  obtain ⟨_, hmagic, version, hversion, hone, width, hwidth, _, nnz, hnnz, _, _, _, _, hlength,
    scales, hscales, entries, hentries, _, _, rfl⟩ := hparse
  obtain rfl : version = UInt8.ofNat sparseVersion := UInt8.toNat_inj.mp hone
  have hscalesLength := length_of_subslice hscales
  have hentriesLength := length_of_subslice hentries
  rw [Nat.add_sub_cancel_left] at hscalesLength
  rw [hlength, Nat.add_sub_cancel_left] at hentriesLength
  set stored := SparsePlaneRef.mk (ofLeBytes width) scales entries
  have hcount : stored.toOwned.idx.length = ofLeBytes nnz := by
    rw [SparsePlaneRef.toOwned, SparsePlaneRef.encodedEntries]
    rw [length_map, length_map, asChunks_length, hentriesLength, Nat.mul_div_cancel _ four_pos]
  have hentriesBack : (stored.toOwned.idx.zip stored.toOwned.sign).map entryValue =
      (asChunks 4 entries).map ofLeBytes := by
    rw [SparsePlaneRef.toOwned, zip_map', map_map]
    apply (map_congr_left _).trans (map_id _)
    intro encoded hencoded
    obtain ⟨_, hchunk, rfl⟩ := mem_map.mp hencoded
    obtain ⟨index, _, rfl⟩ := mem_map.mp hchunk
    exact entryValue_decoded ((ofLeBytes_lt _).trans_le
      (Nat.pow_le_pow_right (by decide) (length_take_le ..)))
  have hscalesBack : stored.toOwned.scales.flatMap (leBytes 2) = scales :=
    flatMap_leBytes_asChunks two_pos _ hscalesLength
  rw [storedBytes, hcount, hscalesBack, hentriesBack,
    flatMap_leBytes_asChunks four_pos _ hentriesLength]
  apply subslice_whole_iff.mp
  simp only [sparseBytes, append_assoc, subslice_append_iff]
  exact ⟨_, hmagic, _, subslice_singleton hversion, _, subslice_singleton hpad, _,
    (leBytes_ofLeBytes (length_of_subslice hwidth)).symm ▸ hwidth, _,
    (leBytes_ofLeBytes (length_of_subslice hnnz)).symm ▸ hnnz, _, hscales, hentries⟩

end Tritium.Salt
