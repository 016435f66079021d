import Tritium.Salt.Tq2
import Mathlib.Data.List.GetD

/-!
# TQ2_0 blocks and rows pack back

What unpacks is the packing of its trits and its scales. For a row this needs zeros behind its last
trit, since packing writes zeros there.
-/

namespace Tritium.Salt

open List

variable {trits : List Trit} {out packed : List UInt8} {k index scaleSlots position : ℕ}
  {block : List Trit × ℕ} {scales : List ℕ} {blocks : List (List Trit × ℕ)}

theorem Trit.fromI8_get (trit : Trit) : Trit.fromI8 trit.get = .ok trit := by
  cases trit <;> rfl

theorem Trit.get_of_fromI8 {value : ℤ} {trit : Trit} (htrit : Trit.fromI8 value = .ok trit) :
    trit.get = value := by
  rw [Trit.fromI8] at htrit
  split_ifs at htrit with hneg hzero hpos
  · rw [← ok.inj htrit, hneg]
    rfl
  · rw [← ok.inj htrit, hzero]
    rfl
  · rw [← ok.inj htrit, hpos]
    rfl

theorem join_places (byte : ℕ) (hbyte : byte < 256) :
    (range 4).foldl
      (fun q place => q ||| (((byte >>> (2 * place) &&& 3) &&& 3) <<< (2 * place))) 0 = byte := by
  have hall : ∀ byte : Fin 256, (range 4).foldl
      (fun q place => q ||| (((byte.val >>> (2 * place) &&& 3) &&& 3) <<< (2 * place))) 0 =
        byte.val := by
    decide +kernel
  exact hall ⟨byte, hbyte⟩

theorem unpackTrit_eq_ok {block : List UInt8} {trit : Trit}
    (htrit : unpackTrit block position = .ok trit) :
    ∃ byte, block[position / 128 * 32 + position % 32]? = some byte ∧
      trit.get + 1 = (byte.toNat >>> (2 * (position % 128 / 32)) &&& 3 : ℕ) := by
  rw [unpackTrit] at htrit
  obtain ⟨qs, hqs, hread⟩ := bind_eq_ok htrit
  obtain ⟨byte, hbyte, hvalue⟩ := bind_eq_ok hread
  obtain ⟨_, _, rfl⟩ := subslice_eq_some_iff.mp (slice_eq_ok_iff.mp hqs)
  refine ⟨byte, ?_, ?_⟩
  · have hget := index_eq_ok_iff.mp hbyte
    rw [drop_zero, getElem?_take] at hget
    split_ifs at hget
    exact hget
  · rw [Trit.get_of_fromI8 hvalue]
    omega

theorem packByte_eq {byte : UInt8}
    (htrits : ∀ place < 4, ∃ trit, trits[position / 32 * 128 + place * 32 + position % 32]? =
      some trit ∧ trit.get + 1 = (byte.toNat >>> (2 * place) &&& 3 : ℕ)) :
    packByte trits position = .ok byte := by
  have hfold : ∀ places : List ℕ, (∀ place ∈ places, place < 4) → ∀ q,
      places.foldlM (packPlace trits position) q = .ok (places.foldl
        (fun q place => q ||| (((byte.toNat >>> (2 * place) &&& 3) &&& 3) <<< (2 * place))) q) := by
    intro places
    induction places with
    | nil => exact fun _ q => rfl
    | cons place places ih =>
      intro hplaces q
      obtain ⟨hplace, hplaces⟩ := forall_mem_cons.mp hplaces
      obtain ⟨trit, hget, hvalue⟩ := htrits place hplace
      rw [foldlM_cons, packPlace, index_eq_ok_iff.mpr hget, ok_bind, hvalue,
        Int.toNat_natCast, pure_eq_ok, ok_bind, ih hplaces, foldl_cons]
  rw [packByte, hfold _ (fun place hplace => mem_range.mp hplace), ok_bind,
    join_places _ byte.toNat_lt, UInt8.ofNat_toNat, pure_eq_ok]

/-- **Blocks pack back.** A block that unpacks is the packing of its trits and its scale. -/
theorem packTq20Block_of_unpack {block : List UInt8} {slots : ℕ} {scale : ℕ}
    (hunpack : unpackTq20Block block slots = .ok (trits, scale))
    (hout : out.length = tq20BlockBytes) :
    block.length = tq20BlockBytes ∧ trits.length = qkK ∧ scale = ofLeBytes (block.drop qsBytes) ∧
      packTq20Block trits scale out = .ok block := by
  rw [unpackTq20Block] at hunpack
  obtain ⟨hblock, hunpack⟩ := refuse_eq_ok hunpack
  obtain ⟨-, hunpack⟩ := refuse_eq_ok hunpack
  obtain ⟨unpacked, hmap, hresult⟩ := bind_pure_eq_ok hunpack
  obtain ⟨rfl, hscale⟩ := Prod.mk.inj hresult
  have hblock := not_not.mp hblock
  have hscaleEq : scale = ofLeBytes (block.drop qsBytes) := by
    rw [← hscale, hblock]
    rfl
  have hpointwise := mapM_eq_ok_iff.mp hmap
  have hlength : unpacked.length = qkK := by
    rw [← hpointwise.length_eq, length_range]
  refine ⟨hblock, hlength, hscaleEq, ?_⟩
  have hqs : (range qsBytes).mapM (packByte unpacked) =
      .ok ((range qsBytes).map fun position => block.getD position 0) := by
    apply mapM_of_forall_mem
    intro position hposition
    have hposition : position < 64 := mem_range.mp hposition
    apply packByte_eq
    intro place hplace
    set source := position / 32 * 128 + place * 32 + position % 32 with hsource
    have hlt : source < qkK := by
      change source < 256
      omega
    have hfound := forall₂_iff_get.mp hpointwise
    have htrit := hfound.2 source (by rwa [length_range]) (by rwa [hlength])
    rw [get_eq_getElem, getElem_range, get_eq_getElem] at htrit
    obtain ⟨byte, hbyte, hvalue⟩ := unpackTrit_eq_ok htrit
    have hplaceEq : source % 128 / 32 = place := by omega
    have hbyteEq : source / 128 * 32 + source % 32 = position := by omega
    rw [hplaceEq] at hvalue
    rw [hbyteEq] at hbyte
    refine ⟨unpacked[source], getElem?_eq_getElem _, ?_⟩
    simp [hvalue, hbyte]
  have hfront : (range qsBytes).map (fun position => block.getD position 0) =
      block.take qsBytes := by
    apply ext_getElem
    · rw [length_map, length_take, hblock]
      rfl
    · intro position hleft hright
      rw [getElem_map, getElem_range, getElem_take, getD_eq_getElem]
  have hback : leBytes 2 (ofLeBytes (block.drop qsBytes)) = block.drop qsBytes := by
    apply leBytes_ofLeBytes
    rw [length_drop, hblock]
    rfl
  rw [packTq20Block, if_neg (not_not.mpr hlength), if_neg (not_not.mpr hout), hqs, ok_bind,
    hfront, hscaleEq, hback, pure_eq_ok, take_append_drop]

theorem exists_packTq20Block {scale : ℕ}
    (htrits : trits.length = qkK) (hout : out.length = tq20BlockBytes) :
    ∃ bytes, packTq20Block trits scale out = .ok bytes := by
  have hbyte : ∀ position ∈ range qsBytes, ∃ byte, packByte trits position = .ok byte := by
    intro position hposition
    have hposition : position < 64 := mem_range.mp hposition
    have hplace : ∀ q, True → ∀ place ∈ range 4,
        ∃ q', packPlace trits position q place = .ok q' ∧ True := by
      intro q _ place hplace
      have hinside : position / 32 * 128 + place * 32 + position % 32 < trits.length := by
        rw [mem_range] at hplace
        rw [htrits]
        change _ < 256
        omega
      simp [packPlace, index_of_lt hinside]
    obtain ⟨q, hq, _⟩ := @Outcome.exists_foldlM _ _ _ 0 _ _ _ hplace trivial
    rw [packByte, hq]
    exact ⟨_, rfl⟩
  obtain ⟨qs, hqs⟩ := exists_mapM hbyte
  refine ⟨qs ++ leBytes 2 scale, ?_⟩
  rw [packTq20Block, if_neg (not_not.mpr htrits), if_neg (not_not.mpr hout), hqs]
  rfl

theorem checkRow_eq_ok_iff {scales outLen blockBytes : ℕ} :
    checkRow k scales outLen blockBytes = .ok () ↔
      scales = numBlocks k ∧ outLen = numBlocks k * blockBytes := by
  rw [checkRow, refuse_eq_ok_iff, refuse_eq_ok_iff, not_not, not_not, and_iff_left rfl]

/-- The trits of a row in one of its blocks. -/
def blockTrits (k index : ℕ) : ℕ := min (index * qkK + qkK) k - index * qkK

theorem mul_le_of_lt_numBlocks (hindex : index < numBlocks k) : index * qkK < k := by
  rw [numBlocks, qkK] at *
  omega

theorem blockTrits_le (k index : ℕ) : blockTrits k index ≤ qkK := by
  rw [blockTrits]
  omega

theorem blockTrits_of_lt {last : ℕ} (hlast : last < numBlocks k) (hindex : index < last) :
    blockTrits k index = qkK := by
  have hle := mul_le_of_lt_numBlocks hlast
  rw [blockTrits, qkK] at *
  omega

/-- What one block of a row was unpacked to. -/
def RowBlock (packed : List UInt8) (k index : ℕ) (block : List Trit × ℕ) : Prop :=
  ∃ bytes full, subslice packed (index * tq20BlockBytes)
      (index * tq20BlockBytes + tq20BlockBytes) = some bytes ∧
    unpackTq20Block bytes qkK = .ok (full, block.2) ∧ block.1 = full.take (blockTrits k index)

theorem unpackRowBlock_eq_ok
    (hblock : unpackRowBlock packed k index = .ok block) : RowBlock packed k index block := by
  rw [unpackRowBlock] at hblock
  obtain ⟨bytes, hbytes, hblock⟩ := bind_eq_ok hblock
  obtain ⟨⟨full, scale⟩, hunpack, hblock⟩ := bind_eq_ok hblock
  obtain ⟨count, hcount, hresult⟩ := bind_eq_ok hblock
  obtain ⟨_, rfl⟩ := sub_eq_ok_iff.mp hcount
  obtain rfl := ok.inj hresult
  exact ⟨bytes, full, slice_eq_ok_iff.mp hbytes, hunpack, rfl⟩

theorem RowBlock.length_eq
    (hblock : RowBlock packed k index block) : block.1.length = blockTrits k index := by
  obtain ⟨bytes, full, _, hunpack, hfirst⟩ := hblock
  obtain ⟨_, hfull, _⟩ := packTq20Block_of_unpack hunpack
    (@length_replicate _ tq20BlockBytes 0)
  rw [hfirst, length_take, hfull, min_eq_left (blockTrits_le k index)]

theorem RowBlock.scale_lt (hblock : RowBlock packed k index block) : block.2 < 2 ^ 16 := by
  obtain ⟨bytes, full, _, hunpack, _⟩ := hblock
  obtain ⟨hbytes, _, hscale, _⟩ := packTq20Block_of_unpack hunpack
    (@length_replicate _ tq20BlockBytes 0)
  have hlt := ofLeBytes_lt (bytes.drop qsBytes)
  rw [length_drop, hbytes] at hlt
  rw [hscale]
  exact hlt

/-- The blocks of a row, and the trits and scales they hold together. -/
theorem unpackTq20Row_eq_ok (hunpack : unpackTq20Row packed k scaleSlots = .ok (trits, scales)) :
    scaleSlots = numBlocks k ∧ packed.length = numBlocks k * tq20BlockBytes ∧
      ∃ blocks : List (List Trit × ℕ), blocks.length = numBlocks k ∧
        (∀ (index : ℕ) (hindex : index < blocks.length), RowBlock packed k index blocks[index]) ∧
        trits = blocks.flatMap Prod.fst ∧ scales = blocks.map Prod.snd := by
  rw [unpackTq20Row] at hunpack
  obtain ⟨_, hcheck, hunpack⟩ := bind_eq_ok hunpack
  obtain ⟨rfl, hpacked⟩ := checkRow_eq_ok_iff.mp hcheck
  obtain ⟨blocks, hblocks, hresult⟩ := bind_pure_eq_ok hunpack
  obtain ⟨rfl, rfl⟩ := Prod.mk.inj hresult
  have hpointwise := mapM_eq_ok_iff.mp hblocks
  have hlength : blocks.length = numBlocks k := by
    rw [← hpointwise.length_eq, length_range]
  refine ⟨rfl, hpacked, blocks, hlength, fun index hindex => ?_, rfl, rfl⟩
  have hblock := (forall₂_iff_get.mp hpointwise).2 index
    (by rwa [length_range, ← hlength]) hindex
  rw [get_eq_getElem, getElem_range] at hblock
  exact unpackRowBlock_eq_ok hblock

section

variable (hcount : blocks.length = numBlocks k)
  (hblocks : ∀ (index : ℕ) (hindex : index < blocks.length), RowBlock packed k index blocks[index])

include hcount hblocks

theorem length_take_blocks (hindex : index < blocks.length) :
    ((blocks.take index).flatMap Prod.fst).length = index * qkK := by
  rw [@length_flatMap_const _ _ qkK, length_take, min_eq_left hindex.le]
  intro block hblock
  obtain ⟨position, hposition, rfl⟩ := getElem_of_mem hblock
  rw [length_take, lt_min_iff] at hposition
  rw [getElem_take, (hblocks position hposition.2).length_eq]
  exact blockTrits_of_lt (hcount ▸ hindex) hposition.1

theorem length_blocks : (blocks.flatMap Prod.fst).length = k := by
  cases hblocksEq : numBlocks k with
  | zero =>
    rw [hblocksEq, length_eq_zero_iff] at hcount
    rw [numBlocks, qkK] at hblocksEq
    rw [hcount, flatMap_nil, length_nil]
    omega
  | succ count =>
    have hlast : count < blocks.length := by omega
    have hsplit : blocks = blocks.take count ++ [blocks[count]] := by
      rw [← take_succ_eq_append_getElem hlast, take_of_length_le (by omega)]
    rw [hsplit, flatMap_append, length_append, length_take_blocks hcount hblocks hlast,
      flatMap_singleton, (hblocks count hlast).length_eq, blockTrits]
    rw [numBlocks, qkK] at hblocksEq
    rw [qkK]
    omega

end

theorem exists_packTq20Row (hscales : scales.length = numBlocks trits.length)
    (hout : out.length = numBlocks trits.length * tq20BlockBytes) :
    ∃ bytes, packTq20Row trits scales out = .ok bytes := by
  have hblocks : ∀ entry ∈ scales.zipIdx, ∃ bytes, packRowBlock trits out entry = .ok bytes := by
    rintro ⟨scale, index⟩ hentry
    have hindex : index < numBlocks trits.length := hscales ▸ (mem_zipIdx' hentry).1
    have hstart := mul_le_of_lt_numBlocks hindex
    have hplace : index * tq20BlockBytes + tq20BlockBytes ≤ out.length := by
      rw [hout, ← Nat.succ_mul]
      exact Nat.mul_le_mul_right _ hindex
    have hle : index * qkK ≤ min (index * qkK + qkK) trits.length := by omega
    rw [packRowBlock]
    rw [sub_of_le hle, slice_of_le hle (min_le_right _ _),
      slice_of_le (Nat.le_add_right _ _) hplace]
    apply exists_packTq20Block
    · rw [length_append, length_drop, length_take, length_replicate]
      omega
    · rw [length_drop, length_take]
      omega
  obtain ⟨blocks, hblocks⟩ := exists_mapM hblocks
  refine ⟨blocks.flatten, ?_⟩
  rw [packTq20Row, checkRow_eq_ok_iff.mpr ⟨hscales, hout⟩, hblocks]
  rfl

/-- The trits behind the end of the row are zeros. -/
def ZeroPadded (packed : List UInt8) (k : ℕ) : Prop :=
  ∀ index < numBlocks k, ∀ bytes full scale,
    subslice packed (index * tq20BlockBytes) (index * tq20BlockBytes + tq20BlockBytes) =
      some bytes → unpackTq20Block bytes qkK = .ok (full, scale) →
    full.drop (blockTrits k index) = replicate (qkK - blockTrits k index) .zero

/-- **Rows pack back.** A row that unpacks, with zeros behind its end, is the packing of its trits
and its scales. -/
theorem packTq20Row_of_unpack (hunpack : unpackTq20Row packed k scaleSlots = .ok (trits, scales))
    (hpadded : ZeroPadded packed k) (hout : out.length = numBlocks k * tq20BlockBytes) :
    trits.length = k ∧ packTq20Row trits scales out = .ok packed := by
  obtain ⟨_, hpacked, blocks, hcount, hblocks, rfl, rfl⟩ := unpackTq20Row_eq_ok hunpack
  have hwidth : 0 < tq20BlockBytes := by decide
  have hlength := length_blocks hcount hblocks
  have hchunks : (blocks.map Prod.snd).zipIdx.mapM
      (packRowBlock (blocks.flatMap Prod.fst) out) = .ok (asChunks tq20BlockBytes packed) := by
    rw [mapM_eq_ok_iff, forall₂_iff_get]
    refine ⟨?_, fun index hleft hright => ?_⟩
    · rw [length_zipIdx, length_map, asChunks_length, hpacked, Nat.mul_div_cancel _ hwidth, hcount]
    · rw [length_zipIdx, length_map] at hleft
      obtain ⟨bytes, full, hbytes, hfull, hfirst⟩ := hblocks index hleft
      have hindex : index < numBlocks k := hcount ▸ hleft
      have hzeros := hpadded index hindex bytes full _ hbytes hfull
      have hpart := subslice_flatMap Prod.fst hleft
      rw [length_take_blocks hcount hblocks hleft, (hblocks index hleft).length_eq] at hpart
      have hstart := mul_le_of_lt_numBlocks hindex
      have hstop : index * qkK + blockTrits k index = min (index * qkK + qkK) k := by
        rw [blockTrits]
        omega
      have hplace : index * tq20BlockBytes + tq20BlockBytes ≤ out.length := by
        rw [hout, ← Nat.succ_mul]
        exact Nat.mul_le_mul_right _ hindex
      have hjoined : blocks[index].1 ++ replicate (qkK - blockTrits k index) .zero = full := by
        rw [hfirst, ← hzeros, take_append_drop]
      obtain ⟨_, _, _, hpack⟩ := @packTq20Block_of_unpack _
        ((out.take (index * tq20BlockBytes + tq20BlockBytes)).drop (index * tq20BlockBytes)) _ _ _
        hfull (by rw [length_drop, length_take]; omega)
      have hchunk : (packed.drop (index * tq20BlockBytes)).take tq20BlockBytes = bytes := by
        rw [(subslice_eq_some_iff.mp hbytes).2.2, take_drop]
      rw [get_eq_getElem, get_eq_getElem, getElem_zipIdx, getElem_map,
        asChunks_getElem, hchunk, Nat.zero_add, packRowBlock]
      rw [hlength, ← hstop, sub_of_le (Nat.le_add_right _ _), ok_bind,
        slice_eq_ok_iff.mpr hpart, ok_bind, slice_of_le (Nat.le_add_right _ _) hplace,
        Nat.add_sub_cancel_left, hjoined]
      exact hpack
  refine ⟨hlength, ?_⟩
  rw [packTq20Row, checkRow_eq_ok_iff.mpr, ok_bind, hchunks, ok_bind,
    flatten_asChunks hwidth _ hpacked, pure_eq_ok]
  rw [hlength, length_map]
  exact ⟨hcount, hout⟩

end Tritium.Salt
