import Tritium.Salt.Row
import Tritium.Salt.Proof.Sparse

/-!
# SALT rows come back

The reader checks all planes of a row before it keeps any, so what it keeps can always be expanded,
and keeping fewer planes gives the first planes of the whole row.
-/

namespace Tritium.Salt

open List

variable {index version k planeBytes : ℕ} {row : SaltRow} {frame : ℕ × List UInt8}
  {bytes : List UInt8}
  {plane : List UInt8} {layout : SaltRowLayout}

/-! ### What the check of a row ensures -/

theorem validatePlaneTag_eq_ok {tag : ℕ} (htag : validatePlaneTag tag index = .ok ()) :
    tag = planeTagDense ∨ tag = planeTagSparse := by
  rw [validatePlaneTag] at htag
  split_ifs at htag with hdense hsparse
  · exact .inl hdense
  · exact .inr hsparse

theorem readHeader_eq_ok {planes : ℕ}
    (hheader : readHeader bytes = .ok (version, planes, k)) : planes < 2 ^ 8 := by
  rw [readHeader] at hheader
  obtain ⟨_, hheader⟩ := refuse_eq_ok hheader
  obtain ⟨magic, _, hheader⟩ := bind_eq_ok hheader
  obtain ⟨_, hheader⟩ := refuse_eq_ok hheader
  obtain ⟨versionByte, _, hheader⟩ := bind_eq_ok hheader
  obtain ⟨planesByte, _, hheader⟩ := bind_eq_ok hheader
  obtain ⟨width, _, hresult⟩ := bind_pure_eq_ok hheader
  obtain ⟨_, hrest⟩ := Prod.mk.inj hresult
  rw [← (Prod.mk.inj hrest).1]
  exact planesByte.toNat_lt

/-- The planes are counted in a byte, and their tags are tags. -/
theorem parseSaltRowLayout_eq_ok (hlayout : parseSaltRowLayout bytes = .ok layout) :
    layout.planes < 2 ^ 8 ∧ ∀ index < layout.planes, ∀ tag length,
      planeFrame bytes layout index = .ok (tag, length) →
        tag = planeTagDense ∨ tag = planeTagSparse := by
  rw [parseSaltRowLayout] at hlayout
  obtain ⟨⟨version, planes, k⟩, hheader, hlayout⟩ := bind_eq_ok hlayout
  obtain ⟨planeBytes, _, hlayout⟩ := bind_eq_ok hlayout
  obtain ⟨⟨payloadStart, encodedLen⟩, hspan, hlayout⟩ := bind_eq_ok hlayout
  obtain ⟨_, hresult⟩ := refuse_eq_ok hlayout
  obtain rfl := ok.inj hresult
  refine ⟨readHeader_eq_ok hheader, ?_⟩
  intro index hindex tag length hframe
  rw [planeFrame] at hframe
  by_cases hversion : version = saltVersion
  · rw [if_pos hversion] at hframe
    exact .inl (Prod.mk.inj (ok.inj hframe)).1.symm
  · rw [if_neg hversion] at hframe
    rw [payloadSpan, if_neg hversion] at hspan
    obtain ⟨_, hspan⟩ := require_eq_ok_iff.mp hspan
    obtain ⟨descriptorBytes, _, hspan⟩ := bind_eq_ok hspan
    obtain ⟨start, _, hspan⟩ := bind_eq_ok hspan
    obtain ⟨_, hspan⟩ := refuse_eq_ok hspan
    obtain ⟨payloadBytes, hloop, _⟩ := bind_eq_ok hspan
    obtain ⟨before, after, hstep⟩ :=
      Outcome.exists_step_of_foldlM hloop index (mem_range.mpr hindex)
    rw [addDescriptor, hframe, ok_bind] at hstep
    obtain ⟨_, htag, _⟩ := bind_eq_ok hstep
    exact validatePlaneTag_eq_ok htag

/-- A plane that was checked can be kept and expanded. -/
theorem retainPlane_of_checkPlane {row : PackedSaltRowRef} {offset next : ℕ}
    (htags : ∀ tag length, planeFrame row.bytes row.layout index = .ok (tag, length) →
      tag = planeTagDense ∨ tag = planeTagSparse)
    (hcheck : checkPlane row.bytes row.layout offset index = .ok next) :
    ∃ plane dense, expandPlaneRepr plane = .ok dense ∧
      ∀ planes, retainPlane row (planes, offset) index = .ok (planes ++ [plane], next) := by
  rw [checkPlane] at hcheck
  obtain ⟨⟨tag, length⟩, hframe, hcheck⟩ := bind_eq_ok hcheck
  obtain ⟨payload, hpayload, hcheck⟩ := bind_eq_ok hcheck
  obtain ⟨_, hchecked, rfl⟩ := bind_pure_eq_ok hcheck
  have hretain : ∀ plane, ownPlane tag payload = .ok plane →
      ∀ planes, retainPlane row (planes, offset) index = .ok (planes ++ [plane], offset + length) := by
    intro plane hplane planes
    rw [retainPlane, hframe, ok_bind]
    dsimp only
    rw [hpayload, ok_bind, hplane]
    rfl
  obtain rfl | rfl := htags tag length hframe
  · exact ⟨.dense payload, payload, rfl, hretain _ rfl⟩
  · obtain ⟨sparse, hsparse, _⟩ := bind_eq_ok hchecked
    obtain ⟨hvalidated, hvalid⟩ := SparsePlaneRef.parse_eq_ok hsparse
    obtain ⟨dense, hdense⟩ := hvalid.exists_sparseToTq20
    refine ⟨.sparse sparse.toOwned, dense, hdense, hretain _ ?_⟩
    rw [ownPlane, hvalidated]
    rfl

/-- The planes of a row that was checked, and the first of them. -/
theorem foldlM_retainPlane {row : PackedSaltRowRef}
    (htags : ∀ index < row.layout.planes, ∀ tag length,
      planeFrame row.bytes row.layout index = .ok (tag, length) →
        tag = planeTagDense ∨ tag = planeTagSparse) (count : ℕ) (hcount : count ≤ row.layout.planes)
    {stop : ℕ} (hcheck : (range count).foldlM (checkPlane row.bytes row.layout)
      row.layout.payloadStart = .ok stop) :
    ∃ planes dense, planes.length = count ∧ planes.mapM expandPlaneRepr = .ok dense ∧
      (range count).foldlM (retainPlane row) ([], row.layout.payloadStart) = .ok (planes, stop) ∧
      ∀ fewer ≤ count, ∃ offset,
        (range fewer).foldlM (retainPlane row) ([], row.layout.payloadStart) =
          .ok (planes.take fewer, offset) := by
  induction count generalizing stop with
  | zero =>
    obtain rfl := ok.inj hcheck
    refine ⟨[], [], rfl, rfl, rfl, fun fewer hfewer => ?_⟩
    obtain rfl := Nat.le_zero.mp hfewer
    exact ⟨_, rfl⟩
  | succ count ih =>
    rw [range_succ] at hcheck
    obtain ⟨middle, hmiddle, hlast⟩ := foldlM_concat_eq_ok hcheck
    obtain ⟨planes, dense, hlength, hdense, hall, hfewer⟩ := ih (by omega) hmiddle
    obtain ⟨plane, expanded, hexpanded, hretain⟩ :=
      retainPlane_of_checkPlane (htags count hcount) hlast
    have hfold : (range (count + 1)).foldlM (retainPlane row) ([], row.layout.payloadStart) =
        .ok (planes ++ [plane], stop) := by
      rw [range_succ, foldlM_append, hall, ok_bind, foldlM_cons, hretain]
      rfl
    refine ⟨planes ++ [plane], dense ++ [expanded], ?_, ?_, hfold, fun fewer hle => ?_⟩
    · simp [hlength]
    · simp [hdense, hexpanded]
    · obtain _ | heq := lt_or_eq_of_le hle
      · obtain ⟨offset, hoffset⟩ := hfewer fewer (by omega)
        refine ⟨offset, ?_⟩
        rw [hoffset, take_append_of_le_length (by omega)]
      · refine ⟨stop, ?_⟩
        rw [heq, hfold, take_of_length_le (by rw [length_append, length_singleton, hlength])]

/-- The first planes of a row, in the form they are stored in. -/
def PackedSaltRow.firstPlanes (maxPlanes : ℕ) (row : PackedSaltRow) : PackedSaltRow :=
  ⟨row.k, row.planes.take maxPlanes⟩

def SaltRow.firstPlanes (maxPlanes : ℕ) (row : SaltRow) : SaltRow :=
  ⟨row.k, row.planes.take maxPlanes⟩

theorem PackedSaltRow.intoDense_firstPlanes {row : PackedSaltRow} {dense : SaltRow}
    (hdense : row.intoDense = .ok dense) (maxPlanes : ℕ) :
    (row.firstPlanes maxPlanes).intoDense = .ok (dense.firstPlanes maxPlanes) := by
  rw [PackedSaltRow.intoDense] at hdense
  obtain ⟨planes, hplanes, rfl⟩ := bind_pure_eq_ok hdense
  have hfirst : (row.planes.take maxPlanes).mapM expandPlaneRepr = .ok (planes.take maxPlanes) :=
    mapM_eq_ok_iff.mpr (forall₂_take _ (mapM_eq_ok_iff.mp hplanes))
  rw [PackedSaltRow.intoDense, PackedSaltRow.firstPlanes, hfirst, ok_bind,
    pure_eq_ok, SaltRow.firstPlanes]

/-- A row that was checked is kept and expanded whole, and its first planes are kept as such. -/
theorem unpackPackedSaltRowPrefix_of_parse {row : PackedSaltRowRef}
    (hparse : PackedSaltRowRef.parse bytes = .ok row) :
    ∃ packed dense, PackedSaltRow.intoDense packed = .ok dense ∧ packed.planes.length < 2 ^ 8 ∧
      ∀ maxPlanes, unpackPackedSaltRowPrefix bytes maxPlanes =
        .ok (packed.firstPlanes maxPlanes) := by
  have hparsed := hparse
  rw [PackedSaltRowRef.parse] at hparse
  obtain ⟨layout, hlayout, hparse⟩ := bind_eq_ok hparse
  obtain ⟨_, hparse⟩ := refuse_eq_ok hparse
  obtain ⟨stop, hcheck, rfl⟩ := bind_pure_eq_ok hparse
  obtain ⟨hplanes, htags⟩ := parseSaltRowLayout_eq_ok hlayout
  obtain ⟨planes, dense, hlength, hdense, _, hfewer⟩ :=
    @foldlM_retainPlane ⟨bytes, layout⟩ htags _ le_rfl _ hcheck
  refine ⟨⟨layout.k, planes⟩, ⟨layout.k, dense⟩, ?_, hlength.trans_lt hplanes, fun maxPlanes => ?_⟩
  · rw [PackedSaltRow.intoDense, hdense, ok_bind, pure_eq_ok]
  · obtain ⟨offset, hoffset⟩ := hfewer (min layout.planes maxPlanes) (min_le_left _ _)
    have htake : planes.take (min layout.planes maxPlanes) = planes.take maxPlanes := by
      rw [← hlength, ← take_take]
      simp
    rw [unpackPackedSaltRowPrefix, hparsed, ok_bind]
    dsimp only
    rw [hoffset, ok_bind, pure_eq_ok, PackedSaltRow.firstPlanes, htake]

theorem firstPlanes_of_lt {row : PackedSaltRow} (hplanes : row.planes.length < 2 ^ 8) :
    row.firstPlanes (2 ^ 64 - 1) = row := by
  rw [PackedSaltRow.firstPlanes, take_of_length_le (by omega)]

/-- Reading the first planes of a row is reading the row and keeping its first planes. -/
theorem unpackPackedSaltRowPrefix_eq (bytes : List UInt8) (maxPlanes : ℕ) :
    unpackPackedSaltRowPrefix bytes maxPlanes =
      PackedSaltRow.firstPlanes maxPlanes <$> unpackPackedSaltRowPrefix bytes (2 ^ 64 - 1) := by
  cases hparse : PackedSaltRowRef.parse bytes with
  | ok row =>
    obtain ⟨packed, dense, _, hplanes, hunpack⟩ := unpackPackedSaltRowPrefix_of_parse hparse
    rw [hunpack, hunpack, firstPlanes_of_lt hplanes, map_ok]
  | _ =>
    rw [unpackPackedSaltRowPrefix, unpackPackedSaltRowPrefix, hparse]
    rfl

theorem exists_intoDense {maxPlanes : ℕ} {row : PackedSaltRow}
    (hunpack : unpackPackedSaltRowPrefix bytes maxPlanes = .ok row) :
    ∃ dense, row.intoDense = .ok dense := by
  have hrow := hunpack
  rw [unpackPackedSaltRowPrefix] at hrow
  obtain ⟨checked, hparse, _⟩ := bind_eq_ok hrow
  obtain ⟨packed, dense, hdense, _, hfirst⟩ := unpackPackedSaltRowPrefix_of_parse hparse
  obtain rfl := ok.inj ((hfirst maxPlanes).symm.trans hunpack)
  exact ⟨_, PackedSaltRow.intoDense_firstPlanes hdense maxPlanes⟩

/-- **Prefixes.** Reading the first planes of a row is reading the row and keeping its first planes,
whatever the bytes are. -/
theorem unpackSaltRowPrefix_eq (bytes : List UInt8) (maxPlanes : ℕ) :
    unpackSaltRowPrefix bytes maxPlanes =
      SaltRow.firstPlanes maxPlanes <$> unpackSaltRow bytes := by
  rw [unpackSaltRow, unpackSaltRowPrefix, unpackSaltRowPrefix, unpackPackedSaltRowPrefix_eq]
  cases hrow : unpackPackedSaltRowPrefix bytes (2 ^ 64 - 1) with
  | err error => rfl
  | panic => rfl
  | ok row =>
    obtain ⟨dense, hdense⟩ := exists_intoDense hrow
    rw [map_ok, ok_bind, ok_bind, hdense, PackedSaltRow.intoDense_firstPlanes hdense, map_ok]

/-! ### Frames

A plane is written as a frame: a tag and a payload.
-/

def Framed (k planeBytes index : ℕ) (frame : ℕ × List UInt8) (plane : List UInt8) : Prop :=
  (frame.1 = planeTagDense ∧ frame.2 = plane ∧ validateDensePlane plane planeBytes = .ok ()) ∨
    (frame.1 = planeTagSparse ∧ index ≠ 0 ∧ ∃ stored, SparsePlaneRef.parse frame.2 = .ok stored ∧
      stored.k = k ∧ sparseToTq20 stored.toOwned = .ok plane)

theorem Framed.check (hframed : Framed layout.k layout.planeBytes index frame plane) :
    checkPayload layout frame.1 frame.2 = .ok () ∧ validatePlaneTag frame.1 index = .ok () ∧
      ∃ kept, ownPlane frame.1 frame.2 = .ok kept ∧ expandPlaneRepr kept = .ok plane := by
  obtain ⟨htag, rfl, hdense⟩ | ⟨htag, hindex, stored, hparse, hk, hplane⟩ := hframed
  · rw [htag]
    exact ⟨hdense, rfl, .dense frame.2, rfl, rfl⟩
  · rw [htag]
    refine ⟨?_, ?_, .sparse stored.toOwned, ?_, hplane⟩
    · rw [checkPayload, if_neg (by decide), hparse, ok_bind, if_neg (not_not.mpr hk)]
    · rw [validatePlaneTag, if_neg (by decide), if_pos rfl, if_neg hindex]
    · rw [ownPlane, (SparsePlaneRef.parse_eq_ok hparse).1]
      rfl

section Frames

/-- The bytes of a row say where they end, and are read as the row. -/
structure Encodes (row : SaltRow) (bytes : List UInt8) : Prop where
  ends : ∀ rest, packedSaltRowLen (bytes ++ rest) = .ok bytes.length
  reads : unpackSaltRow bytes = .ok row

variable {front : List UInt8} {layout : SaltRowLayout} {frames : List (ℕ × List UInt8)}
  {planes : List (List UInt8)} (hbytes : bytes = front ++ frames.flatMap Prod.snd)
  (hfront : front.length = layout.payloadStart) (hlength : planes.length = frames.length)
  (hframes : ∀ (index : ℕ) (hindex : index < frames.length), planeFrame bytes layout index =
    .ok (frames[index].1, frames[index].2.length))
  (hframed : ∀ (index : ℕ) (hframe : index < frames.length) (hplane : index < planes.length),
    Framed layout.k layout.planeBytes index frames[index] planes[index])

include hbytes hfront hlength hframes hframed

/-- Payloads that lie one behind the other are checked and kept in order. -/
theorem foldlM_frames (count : ℕ) (hcount : count ≤ frames.length) :
    (range count).foldlM (checkPlane bytes layout) layout.payloadStart =
        .ok (layout.payloadStart + ((frames.take count).flatMap Prod.snd).length) ∧
      ∃ kept, (range count).foldlM (retainPlane ⟨bytes, layout⟩) ([], layout.payloadStart) =
          .ok (kept, layout.payloadStart + ((frames.take count).flatMap Prod.snd).length) ∧
        kept.mapM expandPlaneRepr = .ok (planes.take count) := by
  induction count with
  | zero => exact ⟨rfl, [], rfl, rfl⟩
  | succ count ih =>
    obtain ⟨hcheck, kept, hretain, hexpand⟩ := ih (by omega)
    have hinside : count < frames.length := hcount
    have hplane : count < planes.length := by rwa [hlength]
    obtain ⟨hchecked, _, plane, hown, hplaneEq⟩ := (hframed count hinside hplane).check
    have hpayload : (slice bytes
        (layout.payloadStart + ((frames.take count).flatMap Prod.snd).length)
        (layout.payloadStart + ((frames.take count).flatMap Prod.snd).length +
          frames[count].2.length) : Outcome FormatError _) = .ok frames[count].2 := by
      refine slice_eq_ok_iff.mpr (subslice_of_split (?_ : _ = (front ++
        (frames.take count).flatMap Prod.snd) ++ _ ++ (frames.drop (count + 1)).flatMap Prod.snd)
        ?_ rfl)
      · simp [hbytes, flatMap_split Prod.snd hinside]
      · rw [length_append, hfront]
    have htake := length_flatMap_take_succ Prod.snd hinside
    rw [range_succ, foldlM_append, foldlM_append, hcheck, hretain, htake, ← add_assoc]
    refine ⟨?_, kept ++ [plane], ?_, ?_⟩
    · rw [ok_bind, foldlM_cons, checkPlane, hframes count hinside, ok_bind]
      dsimp only
      rw [hpayload, ok_bind, hchecked]
      rfl
    · rw [ok_bind, foldlM_cons, retainPlane]
      dsimp only
      rw [hframes count hinside, ok_bind]
      rw [hpayload, ok_bind, hown]
      rfl
    · simp [hexpand, hplaneEq]

/-- A row whose layout is found, whatever follows, is read as the planes of its frames. -/
theorem encodes_of_layout
    (hlayout : ∀ rest, parseSaltRowLayout (bytes ++ rest) = .ok layout)
    (hencoded : layout.encodedLen = bytes.length) (hcount : layout.planes = frames.length) :
    Encodes ⟨layout.k, planes⟩ bytes := by
  refine ⟨fun rest => by rw [packedSaltRowLen, hlayout rest, ok_bind, pure_eq_ok, hencoded], ?_⟩
  obtain ⟨hcheck, kept, hretain, hexpand⟩ :=
    foldlM_frames hbytes hfront hlength hframes hframed frames.length le_rfl
  have hself := hlayout []
  rw [append_nil] at hself
  have hsmall := (parseSaltRowLayout_eq_ok hself).1
  rw [← hlength, take_length] at hexpand
  rw [← hcount] at hcheck hretain
  have hmin : min layout.planes (2 ^ 64 - 1) = layout.planes := by omega
  rw [unpackSaltRow, unpackSaltRowPrefix, unpackPackedSaltRowPrefix, PackedSaltRowRef.parse, hself,
    ok_bind, if_neg (not_not.mpr hencoded.symm), hcheck, ok_bind, pure_eq_ok, ok_bind]
  dsimp only
  rw [hmin, hretain]
  change PackedSaltRow.intoDense ⟨layout.k, kept⟩ = _
  rw [PackedSaltRow.intoDense, hexpand]
  rfl

end Frames

/-! ### Rows as they are written -/

theorem validateSaltRow_eq_ok_iff :
    validateSaltRow row = .ok planeBytes ↔ row.planes.length < 2 ^ 8 ∧ row.k < 2 ^ 32 ∧
      (∀ plane ∈ row.planes, validateDensePlane plane row.planeBytes = .ok ()) ∧
        row.planeBytes = planeBytes := by
  simp only [validateSaltRow, refuse_eq_ok_iff, unit_bind_eq_ok_iff, forM_eq_ok_iff, pure_eq_ok,
    ok.injEq, not_lt, Nat.le_sub_one_iff_lt, Nat.two_pow_pos]

theorem exists_unpackTrit {block : List UInt8} {position : ℕ}
    (hblock : block.length = tq20BlockBytes)
    (hlegal : ∀ byte ∈ block.take qsBytes, ¬ reservedCode byte = true)
    (hposition : position < qkK) : ∃ trit, unpackTrit block position = .ok trit := by
  change position < 256 at hposition
  have hqs : qsBytes ≤ block.length := hblock ▸ (by decide)
  have hsource : position / 128 * 32 + position % 32 < (block.take qsBytes).length := by
    rw [length_take_of_le hqs]
    change _ < 64
    omega
  obtain ⟨byte, hbyte, hlegal⟩ : ∃ byte,
      (block.take qsBytes)[position / 128 * 32 + position % 32]? = some byte ∧
        ¬ reservedCode byte = true :=
    ⟨_, getElem?_eq_getElem hsource, hlegal _ (getElem_mem hsource)⟩
  have hcode : byte.toNat >>> (2 * (position % 128 / 32)) &&& 3 ≠ 3 := fun hreserved =>
    hlegal (any_eq_true.mpr ⟨_, by simp only [mem_cons]; omega, decide_eq_true hreserved⟩)
  have hle := @Nat.and_le_right (byte.toNat >>> (2 * (position % 128 / 32))) 3
  rw [unpackTrit, slice_of_le (Nat.zero_le _) hqs, ok_bind, drop_zero, index_eq_ok_iff.mpr hbyte,
    ok_bind, Trit.fromI8]
  split_ifs
  iterate 3 exact ⟨_, rfl⟩
  omega

/-- A plane without a reserved code unpacks. -/
theorem exists_unpackTq20Row
    (hplane : validateDensePlane packed (numBlocks k * tq20BlockBytes) = .ok ()) :
    ∃ row, unpackTq20Row packed k (numBlocks k) = .ok row := by
  have hwidth : 0 < tq20BlockBytes := by decide
  rw [validateDensePlane, refuse_eq_ok_iff, refuse_eq_ok_iff, not_not] at hplane
  obtain ⟨hlength, hlegal, _⟩ := hplane
  simp only [any_eq_true, not_exists, not_and] at hlegal
  have hblocks : ∀ index ∈ range (numBlocks k), ∃ block,
      unpackRowBlock packed k index = .ok block := by
    intro index hindex
    have hroom := Nat.mul_le_mul_right tq20BlockBytes (mem_range.mp hindex)
    rw [Nat.succ_mul, ← hlength] at hroom
    have hstart := mul_le_of_lt_numBlocks (mem_range.mp hindex)
    set block := (packed.drop (index * tq20BlockBytes)).take tq20BlockBytes
    have hmem : block ∈ asChunks tq20BlockBytes packed := by
      refine mem_map_of_mem (mem_range.mpr ?_)
      rwa [hlength, Nat.mul_div_cancel _ hwidth, ← mem_range]
    have hblockLength : block.length = tq20BlockBytes := by
      rw [length_take, length_drop]
      omega
    obtain ⟨trits, htrits⟩ := exists_mapM fun position (hposition : position ∈ range qkK) =>
      exists_unpackTrit hblockLength (hlegal block hmem) (mem_range.mp hposition)
    rw [unpackRowBlock, slice_eq_ok_iff.mpr (subslice_of_add_le hroom), ok_bind, unpackTq20Block,
      if_neg (not_not.mpr hblockLength), if_neg (not_not.mpr rfl), htrits, ok_bind,
      sub_of_le (by omega)]
    exact ⟨_, rfl⟩
  obtain ⟨blocks, hblocks⟩ := exists_mapM hblocks
  rw [unpackTq20Row, checkRow_eq_ok_iff.mpr ⟨rfl, hlength⟩, hblocks]
  exact ⟨_, rfl⟩

/-- Without room for the signs a row is refused, be it as plain as a row of zeros. -/
theorem exists_refusedPlane (hk : signBit ≤ k) :
    ∃ packed, validateDensePlane packed (numBlocks k * tq20BlockBytes) = .ok () ∧
      ZeroPadded packed k ∧ sparseFromTq20 packed k = .err (.saltRowTooLong k) := by
  -- the code of a zero is 1
  set packed : List UInt8 := replicate (numBlocks k * tq20BlockBytes) 0x55
  have hzeros : unpackTq20Block (replicate tq20BlockBytes 0x55) qkK =
      .ok (replicate qkK .zero, 0x5555) := by decide +kernel
  refine ⟨packed, ?_, ?_, if_pos hk⟩
  · rw [validateDensePlane, if_neg (not_not.mpr length_replicate), if_neg]
    simp only [any_eq_true, not_exists, not_and]
    intro block hblock byte hbyte
    obtain ⟨index, _, rfl⟩ := mem_map.mp hblock
    rw [eq_of_mem_replicate (mem_of_mem_drop (mem_of_mem_take (mem_of_mem_take hbyte)))]
    decide
  · intro index hindex bytes full scale hbytes hfull
    have hlength := length_of_subslice hbytes
    rw [Nat.add_sub_cancel_left] at hlength
    obtain ⟨_, _, rfl⟩ := subslice_eq_some_iff.mp hbytes
    have hblock := eq_replicate_iff.mpr ⟨hlength, fun byte hbyte =>
      eq_of_mem_replicate (mem_of_mem_take (mem_of_mem_drop hbyte))⟩
    rw [hblock, hzeros, ok.injEq, Prod.mk.injEq] at hfull
    rw [← hfull.1, drop_replicate]

/-- **The codec of sparse planes.** A plane without reserved codes and with zeros behind the row
comes back from its sparse form if there is room for the signs; a sparse plane comes back from its
bytes; bytes that are admitted are the ones their plane is stored as; and the choice of a form
changes nothing. -/
theorem sparsePlane_codec {φ : Type} (arithmetic : DensityArithmetic φ) :
    (∀ packed k, k < signBit →
      validateDensePlane packed (numBlocks k * tq20BlockBytes) = .ok () → ZeroPadded packed k →
      ∃ plane, sparseFromTq20 packed k = .ok plane ∧ sparseToTq20 plane = .ok packed) ∧
    (∀ k, signBit ≤ k →
      ∃ packed, validateDensePlane packed (numBlocks k * tq20BlockBytes) = .ok () ∧
        ZeroPadded packed k ∧ sparseFromTq20 packed k = .err (.saltRowTooLong k)) ∧
    (∀ plane : SparsePlane, plane.Valid → (∀ scale ∈ plane.scales, scale < 2 ^ 16) →
      ∃ bytes, packSparsePlane plane = .ok bytes ∧ unpackSparsePlane bytes = .ok plane) ∧
    (∀ bytes stored, SparsePlaneRef.parse bytes = .ok stored → bytes[5]? = some 0 →
      packSparsePlane stored.toOwned = .ok bytes) ∧
    ∀ packed k maxDensity chosen, choosePlaneRepr arithmetic packed k maxDensity = .ok chosen →
      expandPlaneRepr chosen = .ok packed := by
  refine ⟨?_, fun k => exists_refusedPlane, ?_, fun bytes stored => packSparsePlane_of_parse, ?_⟩
  · intro packed k hk hplane hpadded
    obtain ⟨⟨trits, scales⟩, hunpack⟩ := exists_unpackTq20Row hplane
    have hsparse : ∃ plane, sparseFromTq20 packed k = .ok plane := by
      rw [sparseFromTq20, if_neg (not_le.mpr hk), hunpack, ok_bind]
      dsimp only
      rw [(validateZeroPadding_eq_ok_iff hunpack).mpr hpadded]
      exact ⟨_, rfl⟩
    obtain ⟨plane, hsparse⟩ := hsparse
    exact ⟨plane, hsparse, (sparseToTq20_of_sparseFrom hsparse).2.2.2⟩
  · intro plane hplane hscales
    obtain ⟨stored, hparse, _, howned⟩ :=
      parse_packSparsePlane hplane hscales (packSparsePlane_eq hplane)
    refine ⟨_, packSparsePlane_eq hplane, ?_⟩
    rw [unpackSparsePlane, hparse, ok_bind, howned, pure_eq_ok]
  · intro packed k maxDensity chosen hchosen
    obtain rfl | ⟨sparse, rfl, hsparse⟩ := choosePlaneRepr_eq_ok hchosen
    · rfl
    · exact (sparseToTq20_of_sparseFrom hsparse).2.2.2

/-- A row of three trits, the first of them positive. -/
def threeTrits : List UInt8 := 0x56 :: replicate 63 0x55 ++ [0x00, 0x3C]

theorem sparsePlane_codec_threeTrits :
    ∃ plane, sparseFromTq20 threeTrits 3 = .ok plane ∧ sparseToTq20 plane = .ok threeTrits := by
  let arithmetic : DensityArithmetic ℕ := ⟨0, 1, id, (· / ·), fun _ => true, Nat.ble, Nat.blt⟩
  have hlegal : validateDensePlane threeTrits (numBlocks 3 * tq20BlockBytes) = .ok () := by
    decide +kernel
  obtain ⟨⟨trits, scales⟩, hunpack⟩ := exists_unpackTq20Row hlegal
  have hpadded := (validateZeroPadding_eq_ok_iff hunpack).mp (by decide +kernel)
  exact (sparsePlane_codec arithmetic).1 threeTrits 3 (by decide) hlegal hpadded

theorem sparseFromTq20_long :
    ∃ packed, validateDensePlane packed (numBlocks signBit * tq20BlockBytes) = .ok () ∧
      ZeroPadded packed signBit ∧
      sparseFromTq20 packed signBit = .err (.saltRowTooLong signBit) :=
  exists_refusedPlane le_rfl

theorem validateDensePlane_length
    (hplane : validateDensePlane plane planeBytes = .ok ()) : plane.length = planeBytes := by
  rw [validateDensePlane] at hplane
  exact not_not.mp (refuse_eq_ok hplane).1

theorem saltHeader_length (version planes k : ℕ) :
    (saltHeader version planes k).length = saltHeaderBytes := by
  rfl

theorem readHeader_saltHeader {planes : ℕ} (hversion : version < 2 ^ 8)
    (hplanes : planes < 2 ^ 8) (hk : k < 2 ^ 32) (rest : List UInt8) :
    readHeader (saltHeader version planes k ++ rest) = .ok (version, planes, k) := by
  have hlength : ¬ (saltHeader version planes k ++ rest).length < saltHeaderBytes := by
    rw [length_append, saltHeader_length]
    omega
  have hmagicLength : saltMagic.length = 4 := rfl
  have hfields := subslice_whole_iff.mpr (rfl : saltHeader version planes k ++ rest = _)
  generalize hstop : (saltHeader version planes k ++ rest).length = stop at hfields
  nth_rewrite 2 [saltHeader] at hfields
  simp only [append_assoc, subslice_append_iff_of_length, leBytes_length, hmagicLength,
    length_singleton, Nat.reduceAdd] at hfields
  obtain ⟨hmagic, hversionByte, hplanesByte, hwidth, _⟩ := hfields
  rw [readHeader, if_neg hlength, slice_eq_ok_iff.mpr hmagic, ok_bind, if_neg (not_not.mpr rfl),
    index_of_subslice hversionByte, ok_bind, index_of_subslice hplanesByte, ok_bind,
    slice_eq_ok_iff.mpr hwidth, ok_bind, UInt8.toNat_ofNat', UInt8.toNat_ofNat',
    Nat.mod_eq_of_lt hversion, Nat.mod_eq_of_lt hplanes, ofLeBytes_leBytes 4 hk, pure_eq_ok]

theorem planeBytes_lt (hk : k < 2 ^ 32) : numBlocks k * tq20BlockBytes < 2 ^ 32 := by
  rw [numBlocks, tq20BlockBytes, qkK]
  omega

/-- What follows the row does not matter to its layout. -/
theorem parseSaltRowLayout_of_span {planes start stop : ℕ} {rest : List UInt8}
    (hversion : version < 2 ^ 8) (hplanes : planes < 2 ^ 8) (hk : k < 2 ^ 32)
    (hspan : payloadSpan (saltHeader version planes k ++ rest) version planes
      (numBlocks k * tq20BlockBytes) = .ok (start, stop))
    (hstop : stop ≤ (saltHeader version planes k ++ rest).length) :
    parseSaltRowLayout (saltHeader version planes k ++ rest) =
      .ok ⟨version, planes, k, numBlocks k * tq20BlockBytes, start, stop⟩ := by
  have hbytes := planeBytes_lt hk
  rw [parseSaltRowLayout, readHeader_saltHeader hversion hplanes hk, ok_bind]
  dsimp only
  rw [checkedMul_of_lt (by omega), okOr_bind, hspan, ok_bind]
  rw [if_neg (by omega), pure_eq_ok]

theorem packSaltRow_encodes
    (hpack : packSaltRow row = .ok bytes) : Encodes row bytes := by
  rw [packSaltRow] at hpack
  obtain ⟨planeBytes, hvalidate, hresult⟩ := bind_eq_ok hpack
  obtain ⟨hplanes, hk, hall, rfl⟩ := validateSaltRow_eq_ok_iff.mp hvalidate
  have hbytes := ok.inj hresult
  have hplaneBytes : row.planeBytes < 2 ^ 32 := planeBytes_lt hk
  have hlength : row.planes.flatten.length = row.planes.length * row.planeBytes := by
    rw [← flatMap_id]
    exact length_flatMap_const row.planes fun plane hplane =>
      validateDensePlane_length (hall plane hplane)
  have hpayload : row.planes.length * row.planeBytes < 2 ^ 8 * 2 ^ 32 :=
    Nat.mul_lt_mul'' hplanes hplaneBytes
  have hencoded : bytes.length = saltHeaderBytes + row.planes.length * row.planeBytes := by
    rw [← hbytes, length_append, saltHeader_length, hlength]
  have hlayout : ∀ rest, parseSaltRowLayout (bytes ++ rest) = .ok ⟨saltVersion, row.planes.length,
      row.k, row.planeBytes, saltHeaderBytes, bytes.length⟩ := by
    intro rest
    rw [← hbytes, append_assoc]
    apply parseSaltRowLayout_of_span (by decide) hplanes hk
    · rw [hbytes, hencoded]
      change (okOr (checkedMul 64 row.planes.length row.planeBytes) _ >>= _) = _
      rw [checkedMul_of_lt (by omega), okOr_bind, checkedAdd_of_lt
        (by rw [saltHeaderBytes]; omega), okOr_bind, pure_eq_ok]
    · simp
  have hframes : bytes = saltHeader saltVersion row.planes.length row.k ++
      (row.planes.map fun plane => (planeTagDense, plane)).flatMap Prod.snd := by
    rw [flatMap_map, ← hbytes, ← flatMap_id]
    rfl
  refine encodes_of_layout hframes (saltHeader_length _ _ _) (by rw [length_map]) ?_ ?_ hlayout rfl
    (by rw [length_map])
  · intro index hindex
    rw [length_map] at hindex
    rw [planeFrame, if_pos rfl, getElem_map,
      validateDensePlane_length (hall _ (getElem_mem hindex))]
  · intro index hframe hplane
    rw [getElem_map]
    exact .inl ⟨rfl, rfl, hall _ (getElem_mem hplane)⟩

def descriptor (frame : ℕ × List UInt8) : List UInt8 :=
  UInt8.ofNat frame.1 :: leBytes 4 frame.2.length

theorem descriptor_length (frame : ℕ × List UInt8) :
    (descriptor frame).length = planeDescriptorBytes := by
  rfl

theorem encodeDescriptor_eq_ok_iff :
    encodeDescriptor frame = .ok bytes ↔ frame.2.length < 2 ^ 32 ∧ bytes = descriptor frame := by
  simp only [encodeDescriptor, bind_eq_ok_iff, okOr_eq_ok_iff, tryInto_eq_some_iff, existsAndEq,
    pure_eq_ok, ok.injEq, and_assoc, true_and, @eq_comm _ bytes, descriptor]

theorem mapM_encodeDescriptor {frames : List (ℕ × List UInt8)} {descriptors : List (List UInt8)}
    (hdescriptors : frames.mapM encodeDescriptor = .ok descriptors) :
    (∀ frame ∈ frames, frame.2.length < 2 ^ 32) ∧
      descriptors.flatten = frames.flatMap descriptor := by
  induction mapM_eq_ok_iff.mp hdescriptors with
  | nil => exact ⟨forall_mem_nil _, rfl⟩
  | cons hframe hframes ih =>
    obtain ⟨hlength, rfl⟩ := encodeDescriptor_eq_ok_iff.mp hframe
    obtain ⟨hlengths, hflat⟩ := ih (mapM_eq_ok_iff.mpr hframes)
    refine ⟨forall_mem_cons.mpr ⟨hlength, hlengths⟩, ?_⟩
    simp [hflat]

theorem encodePlane_framed {φ : Type} {arithmetic : DensityArithmetic φ} {maxSparseDensity : φ}
    (hplane : validateDensePlane plane planeBytes = .ok ())
    (hframe : encodePlane arithmetic maxSparseDensity k planeBytes (plane, index) = .ok frame) :
    Framed k planeBytes index frame plane := by
  rw [encodePlane] at hframe
  split_ifs at hframe with hindex
  · rw [← ok.inj hframe]
    exact .inl ⟨rfl, rfl, hplane⟩
  obtain ⟨chosen, hchosen, hframe⟩ := bind_eq_ok hframe
  obtain rfl | ⟨sparse, rfl, hsparse⟩ := choosePlaneRepr_eq_ok hchosen
  · rw [← ok.inj hframe]
    exact .inl ⟨rfl, rfl, hplane⟩
  obtain ⟨bytes, hbytes, hframe⟩ := bind_eq_ok hframe
  obtain ⟨hk, hvalid, hscales, hdense⟩ := sparseToTq20_of_sparseFrom hsparse
  obtain ⟨stored, hparse, hstored, howned⟩ := parse_packSparsePlane hvalid hscales hbytes
  split_ifs at hframe with hsmaller
  · rw [← ok.inj hframe]
    refine .inr ⟨rfl, hindex, stored, hparse, hstored.trans hk, ?_⟩
    rw [howned, hdense]
  · rw [← ok.inj hframe]
    exact .inl ⟨rfl, rfl, hplane⟩

section Descriptors

variable {header rest : List UInt8} {frames : List (ℕ × List UInt8)}

theorem readPlaneDescriptor_descriptors (hheader : header.length = saltHeaderBytes)
    (htags : ∀ frame ∈ frames, frame.1 < 2 ^ 8) (hlengths : ∀ frame ∈ frames, frame.2.length < 2 ^ 32)
    (hindex : index < frames.length) :
    readPlaneDescriptor (header ++ frames.flatMap descriptor ++ rest) index =
      .ok (frames[index].1, frames[index].2.length) := by
  have hmem := getElem_mem hindex
  have hbefore : (header ++ (frames.take index).flatMap descriptor).length =
      saltHeaderBytes + index * planeDescriptorBytes := by
    rw [length_append, hheader,
      length_flatMap_const _ fun frame _ => descriptor_length frame, length_take_of_le hindex.le]
  have hsplit : header ++ frames.flatMap descriptor ++ rest =
      (header ++ (frames.take index).flatMap descriptor) ++ descriptor frames[index] ++
        ((frames.drop (index + 1)).flatMap descriptor ++ rest) := by
    simp [flatMap_split descriptor hindex]
  have hfields := subslice_of_split hsplit hbefore rfl
  have hdescriptor : descriptor frames[index] =
      [UInt8.ofNat frames[index].1] ++ leBytes 4 frames[index].2.length := rfl
  rw [descriptor_length, hdescriptor, subslice_append_iff_of_length, length_singleton] at hfields
  rw [readPlaneDescriptor, slice_eq_ok_iff.mpr hfields.2, ok_bind, index_of_subslice hfields.1,
    ok_bind, UInt8.toNat_ofNat', Nat.mod_eq_of_lt (htags _ hmem),
    ofLeBytes_leBytes 4 (hlengths _ hmem), pure_eq_ok]

theorem foldlM_addDescriptor
    (hread : ∀ (index : ℕ) (hindex : index < frames.length), readPlaneDescriptor bytes index =
      .ok (frames[index].1, frames[index].2.length))
    (htags : ∀ (index : ℕ) (hindex : index < frames.length),
      validatePlaneTag frames[index].1 index = .ok ())
    (htotal : (frames.flatMap Prod.snd).length < 2 ^ 64) (count : ℕ) (hcount : count ≤ frames.length) :
    (range count).foldlM (addDescriptor bytes) 0 =
      .ok ((frames.take count).flatMap Prod.snd).length := by
  induction count with
  | zero => rfl
  | succ count ih =>
    have hinside : count < frames.length := hcount
    have htake := length_flatMap_take_succ Prod.snd hinside
    have hsplit := congrArg length (flatMap_split Prod.snd hinside)
    rw [length_append, length_append] at hsplit
    rw [range_succ, foldlM_append, ih hinside.le, ok_bind, foldlM_cons,
      addDescriptor, hread count hinside, ok_bind]
    dsimp only
    rw [htags count hinside, htake, checkedAdd_of_lt (by omega)]
    rfl

end Descriptors

theorem Framed.tag_lt (hframed : Framed k planeBytes index frame plane) : frame.1 < 2 ^ 8 := by
  obtain ⟨htag, _⟩ | ⟨htag, _⟩ := hframed
  · rw [htag]
    decide
  · rw [htag]
    decide

theorem encodes_of_frames {frames : List (ℕ × List UInt8)}
    (hplanes : row.planes.length < 2 ^ 8) (hk : row.k < 2 ^ 32)
    (hcount : row.planes.length = frames.length)
    (hframed : ∀ (index : ℕ) (hframe : index < frames.length) (hplane : index < row.planes.length),
      Framed row.k row.planeBytes index frames[index] row.planes[index])
    (hlengths : ∀ frame ∈ frames, frame.2.length < 2 ^ 32)
    (hcapacity : saltHeaderBytes + frames.length * planeDescriptorBytes +
      (frames.flatMap Prod.snd).length < 2 ^ 64) :
    Encodes row (saltHeader saltProgressiveVersion frames.length row.k ++ frames.flatMap descriptor ++
      frames.flatMap Prod.snd) := by
  have htags : ∀ frame ∈ frames, frame.1 < 2 ^ 8 := by
    intro frame hframe
    obtain ⟨index, hindex, rfl⟩ := getElem_of_mem hframe
    exact (hframed index hindex (by omega)).tag_lt
  have hfront : (saltHeader saltProgressiveVersion frames.length row.k ++
      frames.flatMap descriptor).length =
        saltHeaderBytes + frames.length * planeDescriptorBytes := by
    rw [length_append, saltHeader_length,
      length_flatMap_const _ fun frame _ => descriptor_length frame]
  generalize hbytes : saltHeader saltProgressiveVersion frames.length row.k ++
    frames.flatMap descriptor ++ frames.flatMap Prod.snd = bytes
  have hencoded : bytes.length = saltHeaderBytes + frames.length * planeDescriptorBytes +
      (frames.flatMap Prod.snd).length := by
    rw [← hbytes, length_append, hfront]
  have hread : ∀ rest (index : ℕ) (hindex : index < frames.length),
      readPlaneDescriptor (bytes ++ rest) index =
        .ok (frames[index].1, frames[index].2.length) := by
    intro rest index hindex
    rw [← hbytes, append_assoc]
    exact readPlaneDescriptor_descriptors (saltHeader_length _ _ _) htags hlengths hindex
  have hlayout : ∀ rest, parseSaltRowLayout (bytes ++ rest) = .ok ⟨saltProgressiveVersion,
      frames.length, row.k, row.planeBytes, saltHeaderBytes + frames.length * planeDescriptorBytes,
      bytes.length⟩ := by
    intro rest
    have htotal := @foldlM_addDescriptor _ frames (hread rest)
      (fun index hindex => (@Framed.check _ _ _ ⟨saltProgressiveVersion, 0, row.k, row.planeBytes,
        0, 0⟩ (hframed index hindex (by omega))).2.1) (by omega) _ le_rfl
    rw [take_length] at htotal
    have hspan : payloadSpan (bytes ++ rest) saltProgressiveVersion frames.length row.planeBytes =
        .ok (saltHeaderBytes + frames.length * planeDescriptorBytes, bytes.length) := by
      rw [payloadSpan, if_neg (by decide), if_pos rfl, checkedMul_of_lt (by omega), okOr_bind,
        checkedAdd_of_lt (by omega), okOr_bind,
        if_neg (by rw [length_append]; omega), htotal, ok_bind,
        checkedAdd_of_lt (by omega), okOr_bind, hencoded, pure_eq_ok]
    have hsplit : bytes ++ rest = saltHeader saltProgressiveVersion frames.length row.k ++
        (frames.flatMap descriptor ++ (frames.flatMap Prod.snd ++ rest)) := by
      rw [← hbytes]
      simp only [append_assoc]
    rw [hsplit] at hspan ⊢
    apply parseSaltRowLayout_of_span (by decide) (by omega) hk hspan
    rw [← hsplit, length_append]
    omega
  have hreadSelf := hread []
  rw [append_nil] at hreadSelf
  refine encodes_of_layout hbytes.symm hfront hcount (fun index hindex => ?_) hframed hlayout rfl rfl
  rw [planeFrame, if_neg (by decide : ¬ saltProgressiveVersion = saltVersion),
    hreadSelf index hindex]

theorem packProgressiveSaltRow_encodes {φ : Type} {arithmetic : DensityArithmetic φ}
    {maxSparseDensity : φ}
    (hpack : packProgressiveSaltRow arithmetic maxSparseDensity row = .ok bytes) :
    Encodes row bytes := by
  rw [packProgressiveSaltRow] at hpack
  obtain ⟨_, hpack⟩ := refuse_eq_ok hpack
  obtain ⟨planeBytes, hvalidate, hpack⟩ := bind_eq_ok hpack
  obtain ⟨hplanes, hk, hall, rfl⟩ := validateSaltRow_eq_ok_iff.mp hvalidate
  obtain ⟨frames, hframes, hpack⟩ := bind_eq_ok hpack
  obtain ⟨descriptorBytes, hdescriptorBytes, hpack⟩ := bind_eq_ok hpack
  obtain ⟨payloadBytes, hpayloadBytes, hpack⟩ := bind_eq_ok hpack
  obtain ⟨capacity, hcapacity, hpack⟩ := bind_eq_ok hpack
  obtain ⟨descriptors, hdescriptors, hresult⟩ := bind_eq_ok hpack
  obtain ⟨_, rfl⟩ := checkedMul_eq_ok hdescriptorBytes
  obtain rfl := foldlM_eq_add_sum hpayloadBytes fun _ _ _ hnext =>
    (checkedAdd_eq_ok hnext).2.symm
  obtain ⟨sum, hsum, htotal⟩ := Option.bind_eq_some_iff.mp (okOr_eq_ok_iff.mp hcapacity)
  obtain ⟨_, rfl⟩ := checkedAdd_eq_some_iff.mp hsum
  obtain ⟨htotal, _⟩ := checkedAdd_eq_some_iff.mp htotal
  rw [zero_add, ← length_flatMap] at htotal
  obtain ⟨hlengths, hflat⟩ := mapM_encodeDescriptor hdescriptors
  obtain ⟨hcount, hget⟩ := forall₂_iff_get.mp (mapM_eq_ok_iff.mp hframes)
  rw [length_zipIdx] at hcount
  rw [← ok.inj hresult, hflat]
  apply encodes_of_frames hplanes hk hcount _ hlengths htotal
  intro index hframe hplane
  have hencode := hget index (by rw [length_zipIdx]; exact hplane) hframe
  rw [get_eq_getElem, getElem_zipIdx, zero_add] at hencode
  exact encodePlane_framed (hall _ (getElem_mem hplane)) hencode

/-- **Rows come back.** Both forms of a row are read as the row, and the first planes of any bytes can
be read when all of them can, and are the first planes then. -/
theorem saltRow_roundTrip_and_prefixes {φ : Type} (arithmetic : DensityArithmetic φ) :
    (∀ row bytes, packSaltRow row = .ok bytes → unpackSaltRow bytes = .ok row) ∧
    (∀ maxSparseDensity row bytes,
      packProgressiveSaltRow arithmetic maxSparseDensity row = .ok bytes →
        unpackSaltRow bytes = .ok row) ∧ ∀ bytes maxPlanes,
      ((∃ first, unpackSaltRowPrefix bytes maxPlanes = .ok first) ↔
        ∃ row, unpackSaltRow bytes = .ok row) ∧ ∀ row, unpackSaltRow bytes = .ok row →
        unpackSaltRowPrefix bytes maxPlanes = .ok ⟨row.k, row.planes.take maxPlanes⟩ := by
  refine ⟨fun row bytes hpack => (packSaltRow_encodes hpack).reads,
    fun maxSparseDensity row bytes hpack => (packProgressiveSaltRow_encodes hpack).reads,
    fun bytes maxPlanes => ⟨?_, ?_⟩⟩
  · rw [unpackSaltRowPrefix_eq]
    constructor
    · rintro ⟨first, hfirst⟩
      obtain ⟨row, hrow, _⟩ := bind_eq_ok hfirst
      exact ⟨row, hrow⟩
    · rintro ⟨row, hrow⟩
      rw [hrow]
      exact ⟨_, rfl⟩
  · intro row hrow
    rw [unpackSaltRowPrefix_eq, hrow, map_ok, SaltRow.firstPlanes]

def hundredths : DensityArithmetic ℕ where
  zero := 0
  one := 100
  ofUsize := fun value => value
  div := fun left right => left * 100 / right
  isFinite := fun _ => true
  le := fun left right => decide (left ≤ right)
  lt := fun left right => decide (left < right)

/-- A dense plane of zeros, and one with a single entry. -/
def sampleRow : SaltRow :=
  ⟨256, [replicate 64 0x55 ++ [1, 2], [0x56] ++ replicate 63 0x55 ++ [1, 2]]⟩

def sampleRowBytes : List UInt8 :=
  [0x54, 0x53, 0x4C, 0x54, 2, 2, 0, 1, 0, 0, 0, 66, 0, 0, 0, 1, 20, 0, 0, 0] ++
    (replicate 64 0x55 ++ [1, 2]) ++
    [0x54, 0x53, 0x53, 0x50, 1, 0, 0, 1, 0, 0, 1, 0, 0, 0, 1, 2, 0, 0, 0, 0]

theorem saltRow_roundTrip_and_prefixes_sample :
    packProgressiveSaltRow hundredths 50 sampleRow = .ok sampleRowBytes ∧
      unpackSaltRow sampleRowBytes = .ok sampleRow ∧ unpackSaltRowPrefix sampleRowBytes 1 =
        .ok ⟨256, [replicate 64 0x55 ++ [1, 2]]⟩ := by
  have hpack : packProgressiveSaltRow hundredths 50 sampleRow = .ok sampleRowBytes := by
    decide +kernel
  obtain ⟨_, hprogressive, hprefixes⟩ := saltRow_roundTrip_and_prefixes hundredths
  have hrow := hprogressive 50 sampleRow sampleRowBytes hpack
  exact ⟨hpack, hrow, (hprefixes sampleRowBytes 1).2 sampleRow hrow⟩

end Tritium.Salt
