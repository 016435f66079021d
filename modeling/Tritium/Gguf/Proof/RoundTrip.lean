import Tritium.Gguf.Proof.Values
import Tritium.Lib.Collect
import Tritium.Lib.Packing

/-!
# Writing and reading a GGUF container

The writer accepts containers that the reader refuses: it has no bound on the length of a string,
the number of dimensions or the number of entries, and it does not multiply all dimensions of a
tensor. What it writes is read back where the container stays below the bounds of the reader.
-/

namespace Tritium.Gguf

open List Stateful
open Cbor (utf8)

variable {bytes out : List UInt8} {metadata : Metadata} {tensors : List TensorOut}
  {offsets : List ℕ} {start version dataSectionLen : ℕ} {raw : RawTensorInfo} {layout : GgufLayout}

theorem entries_reads {entries : List (String × GgufValue)} {front : List UInt8}
    {total total' : ℕ} (hpush : entries.foldlM pushEntry (front, total) = .ok (bytes, total'))
    (hfits : ∀ entry ∈ entries, TextFits entry.1 ∧ StringsFit entry.2) (metadata : Metadata) :
    ∃ piece, bytes = front ++ piece ∧
      Reads (timesM readEntry entries.length (metadata, total)) piece
        (entries.foldl (fun found entry => found.insert entry.1 entry.2) metadata, total') := by
  induction entries generalizing front total metadata with
  | nil =>
    cases hpush
    exact ⟨[], (append_nil _).symm, Reads.pure _⟩
  | cons entry entries ih =>
    obtain ⟨⟨hkey, hvalue⟩, hentries⟩ := forall_mem_cons.mp hfits
    rw [foldlM_cons, bind_eq_ok_iff] at hpush
    obtain ⟨_, hfirst, hrest⟩ := hpush
    obtain ⟨⟨payload, total₁⟩, hpayload, hmiddle⟩ := bind_eq_ok hfirst
    cases hmiddle
    obtain ⟨piece, rfl, hpiece⟩ := ih hrest hentries (metadata.insert entry.1 entry.2)
    refine ⟨ggufStringBytes entry.1 ++ (leBytes 4 (valueTypeTag entry.2) ++ payload) ++ piece,
      by simp only [append_assoc], Reads.bind ?_ hpiece⟩
    have htag := valueTypeTag_le entry.2
    exact (ggufString_reads hkey).bind ((unsigned_reads 4 (by omega)).bind
      ((value_reads maxMetadataDepth hpayload hvalue).map
        fun next => (metadata.insert entry.1 next.1, next.2)))

theorem foldl_insert_toList (metadata : Metadata) :
    metadata.toList.foldl (fun found entry => found.insert entry.1 entry.2) ∅ = metadata := by
  have hconsistent : Consistent Prod.fst Prod.snd metadata.toList := by
    rintro ⟨key, left⟩ hleft ⟨_, right⟩ hright rfl
    rw [Std.ExtTreeMap.mem_toList_iff_getElem?_eq_some] at hleft hright
    exact Option.some.inj (hleft.symm.trans hright)
  refine Std.ExtTreeMap.ext_getElem? fun key => Option.ext fun value => ?_
  refine (getElem?_collect_iff compare hconsistent).trans ?_
  simp [Std.ExtTreeMap.mem_toList_iff_getElem?_eq_some]

theorem dims_reads (dims done : List UInt64) :
    Reads (timesM readDims dims.length done)
      (dims.flatMap fun dimension => leBytes 8 dimension.toNat) (done ++ dims) := by
  induction dims generalizing done with
  | nil =>
    rw [append_nil]
    exact Reads.pure done
  | cons dimension dims ih =>
    have hrest := ih (done ++ [dimension])
    rw [append_assoc] at hrest
    refine Reads.bind ?_ hrest
    simpa [readDims] using (unsigned_reads 8 dimension.toNat_lt).map
      fun bits => done ++ [UInt64.ofNat bits]

/-- The reader accepts the name and the number of the dimensions. -/
def InfoFits (tensor : GgufTensorSpec) : Prop :=
  TextFits tensor.name ∧ tensor.dims.length ≤ maxDims

def rawInfo (entry : GgufTensorSpec × ℕ) : RawTensorInfo :=
  ⟨entry.1.name, entry.1.dims, entry.1.ggmlType, entry.2⟩

theorem tensorInfos_reads {entries : List (GgufTensorSpec × ℕ)}
    (hentries : ∀ entry ∈ entries, InfoFits entry.1 ∧ entry.2 < 2 ^ 64) (done : List RawTensorInfo) :
    Reads (timesM readTensorInfo entries.length done) (entries.flatMap tensorInfoBytes)
      (done ++ entries.map rawInfo) := by
  induction entries generalizing done with
  | nil =>
    rw [map_nil, append_nil]
    exact Reads.pure done
  | cons entry entries ih =>
    obtain ⟨⟨⟨hname, hdims⟩, hoffset⟩, hentries⟩ := forall_mem_cons.mp hentries
    have hrest := ih hentries (done ++ [rawInfo entry])
    rw [append_assoc] at hrest
    refine Reads.bind ?_ hrest
    rw [maxDims] at hdims
    rw [tensorInfoBytes, append_assoc, append_assoc, append_assoc]
    refine (ggufString_reads hname).bind ((unsigned_reads 4 (by omega)).bind ?_)
    rw [if_neg (by rw [maxDims]; omega)]
    refine (dims_reads entry.1.dims []).bind
      ((unsigned_reads 4 entry.1.ggmlType.toNat_lt).bind ?_)
    rw [UInt32.ofNat_toNat]
    exact (unsigned_reads 8 hoffset).map fun offset =>
      done ++ [⟨entry.1.name, entry.1.dims, entry.1.ggmlType, offset⟩]

theorem alignUp_eq_ok {position alignment result : ℕ} (hpos : 0 < alignment)
    (hresult : alignUp position alignment = .ok result) :
    result = Packing.alignUp alignment position := by
  rw [alignUp, if_neg hpos.ne', bind_eq_ok_iff] at hresult
  obtain ⟨bumped, hbumped, hresult⟩ := hresult
  obtain ⟨_, rfl⟩ := checkedAdd_eq_ok hbumped
  cases hresult
  rw [Packing.alignUp, mul_comm]
  exact Nat.sub_eq_of_eq_add (Nat.div_add_mod _ _).symm

theorem metadataAlignment_pos {alignment : ℕ}
    (halignment : metadataAlignment metadata = .ok alignment) : 0 < alignment := by
  rw [metadataAlignment] at halignment
  split at halignment
  · cases halignment
    decide
  · obtain ⟨⟨hne, _⟩, heq⟩ := require_eq_ok_iff.mp halignment
    cases heq
    omega
  · cases halignment

/-- The tensors stand one behind the other, from `start` up to `stop`. -/
def Placed (alignment : ℕ) : ℕ → List GgufTensorSpec → List ℕ → ℕ → Prop
  | start, [], offsets, stop => offsets = [] ∧ start = stop
  | start, tensor :: tensors, offsets, stop => ∃ rest nBytes,
      offsets = Packing.alignUp alignment start :: rest ∧
      tensorNBytes tensor.ggmlType tensor.dims = .ok nBytes ∧
      ((typeBlockLayout tensor.ggmlType).isSome → tensor.dataLen = nBytes) ∧
      Packing.alignUp alignment start + tensor.dataLen < 2 ^ 64 ∧
      Placed alignment (Packing.alignUp alignment start + tensor.dataLen) tensors rest stop

theorem placed_of_foldlM {alignment : ℕ} (hpos : 0 < alignment) {tensors : List GgufTensorSpec}
    {done : List ℕ} {stop : ℕ}
    (hplace : tensors.foldlM (placeTensor alignment) (done, start) = .ok (offsets, stop)) :
    ∃ rest, offsets = done ++ rest ∧ Placed alignment start tensors rest stop := by
  induction tensors generalizing done start with
  | nil =>
    cases hplace
    exact ⟨[], (append_nil _).symm, rfl, rfl⟩
  | cons tensor tensors ih =>
    rw [foldlM_cons, bind_eq_ok_iff] at hplace
    obtain ⟨_, hfirst, hrest⟩ := hplace
    rw [placeTensor, bind_eq_ok_iff] at hfirst
    obtain ⟨nBytes, hbytes, hfirst⟩ := hfirst
    rw [refuse_eq_ok_iff, bind_eq_ok_iff] at hfirst
    obtain ⟨hsized, offset, hoffset, hfirst⟩ := hfirst
    obtain ⟨_, hend, hfirst⟩ := bind_eq_ok hfirst
    obtain ⟨hlt, rfl⟩ := checkedAdd_eq_ok hend
    obtain rfl := alignUp_eq_ok hpos hoffset
    cases hfirst
    obtain ⟨rest, rfl, hplaced⟩ := ih hrest
    refine ⟨_, append_assoc _ _ _, rest, nBytes, rfl, hbytes, fun hsome => ?_, hlt, hplaced⟩
    by_contra hne
    exact hsized ⟨hsome, hne⟩

theorem Placed.bounds {alignment stop : ℕ} (hpos : 0 < alignment) {tensors : List GgufTensorSpec}
    (hplaced : Placed alignment start tensors offsets stop) :
    start ≤ stop ∧ offsets.length = tensors.length ∧ ∀ entry ∈ tensors.zip offsets,
      entry.2 < 2 ^ 64 ∧ alignment ∣ entry.2 ∧ entry.2 + entry.1.dataLen ≤ stop ∧
      ∃ nBytes, tensorNBytes entry.1.ggmlType entry.1.dims = .ok nBytes ∧
        ((typeBlockLayout entry.1.ggmlType).isSome → entry.1.dataLen = nBytes) := by
  induction tensors generalizing start offsets with
  | nil =>
    obtain ⟨rfl, rfl⟩ := hplaced
    simp
  | cons tensor tensors ih =>
    obtain ⟨rest, nBytes, rfl, hbytes, hsized, _, hplaced⟩ := hplaced
    obtain ⟨hstop, hlength, hentries⟩ := ih hplaced
    have hle := Packing.le_alignUp hpos start
    refine ⟨by omega, by rw [length_cons, length_cons, hlength], ?_⟩
    rw [zip_cons_cons, forall_mem_cons]
    exact ⟨⟨by omega, Packing.dvd_alignUp alignment start, hstop, nBytes, hbytes, hsized⟩, hentries⟩

theorem buildLayout_eq_ok {tensors : List GgufTensorSpec}
    (hlayout : buildLayout version metadata tensors = .ok layout) :
    (version = 2 ∨ version = 3) ∧ ∃ alignment stop table total,
      metadataAlignment metadata = .ok alignment ∧ Placed alignment 0 tensors layout.offsets stop ∧
      metadata.toList.foldlM pushEntry ([], 0) = .ok (table, total) ∧
      layout.header = ggufMagic ++ leBytes 4 version ++ leBytes 8 tensors.length ++
        leBytes 8 metadata.size ++ table ++ (tensors.zip layout.offsets).flatMap tensorInfoBytes ∧
      alignUp layout.header.length alignment = .ok layout.tensorDataOffset ∧
      layout.header.length ≤ layout.tensorDataOffset ∧ layout.tensorDataOffset + stop < 2 ^ 64 := by
  rw [buildLayout, refuse_eq_ok_iff] at hlayout
  obtain ⟨_, hlayout⟩ := hlayout
  simp only [bind_eq_ok_iff] at hlayout
  obtain ⟨alignment, halignment, ⟨offsets, stop⟩, hplace, ⟨table, total⟩, htable, _, hlength,
    offset, hoffset, _, hend, hlayout⟩ := hlayout
  obtain ⟨_, rfl⟩ := tryInto_eq_ok hlength
  obtain ⟨hlt, _⟩ := checkedAdd_eq_ok hend
  have hpos := metadataAlignment_pos halignment
  obtain ⟨_, rfl, hplaced⟩ := placed_of_foldlM hpos hplace
  cases hlayout
  refine ⟨by omega, alignment, stop, table, total, halignment, hplaced, htable, rfl, hoffset, ?_,
    hlt⟩
  rw [alignUp_eq_ok hpos hoffset]
  exact Packing.le_alignUp hpos _

theorem length_padTo {length : ℕ} (hle : out.length ≤ length) :
    (padTo out length).length = length + 0 := by
  rw [padTo, length_append, length_replicate]
  omega

/-- The payloads with the gaps between them, from a relative position on. -/
def payloadBytes (alignment start : ℕ) (tensors : List TensorOut) : List UInt8 :=
  Packing.region alignment start (tensors.map fun tensor => (tensor.name, tensor.data))

section Payloads

variable {alignment stop tensorDataOffset : ℕ} (hpos : 0 < alignment)

include hpos

section

variable (hplaced : Placed alignment start (tensors.map TensorOut.spec) offsets stop)

include hplaced

theorem foldlM_writePayload (hlt : tensorDataOffset + stop < 2 ^ 64)
    (hout : out.length = tensorDataOffset + start) :
    (tensors.zip offsets).foldlM (writePayload tensorDataOffset) out =
      .ok (out ++ payloadBytes alignment start tensors) := by
  induction tensors generalizing offsets start out with
  | nil =>
    simp [payloadBytes, Packing.region]
  | cons tensor tensors ih =>
    obtain ⟨rest, _, rfl, _, _, _, hplaced⟩ := hplaced
    have hstop := (hplaced.bounds hpos).1
    have hle := Packing.le_alignUp hpos start
    rw [zip_cons_cons, foldlM_cons, writePayload, checkedAdd_of_lt (by omega), okOr_bind,
      pure_eq_ok, ok_bind, ih hplaced, payloadBytes, payloadBytes, map_cons, Packing.region,
      padTo, hout, Nat.add_sub_add_left]
    · simp only [append_assoc, TensorOut.spec]
    · simp only [padTo, length_append, length_replicate, TensorOut.spec]
      omega

theorem payloads_located {before : List UInt8} (hbefore : before.length = tensorDataOffset + start)
    :
    (before ++ payloadBytes alignment start tensors).length = tensorDataOffset + stop ∧
    ∀ entry ∈ tensors.zip offsets,
      subslice (before ++ payloadBytes alignment start tensors) (tensorDataOffset + entry.2)
        (tensorDataOffset + entry.2 + entry.1.data.length) = some entry.1.data := by
  induction tensors generalizing offsets start before with
  | nil =>
    obtain ⟨rfl, rfl⟩ := hplaced
    rw [payloadBytes, map_nil, Packing.region, append_nil]
    exact ⟨hbefore, by simp⟩
  | cons tensor tensors ih =>
    obtain ⟨rest, _, rfl, _, _, _, hplaced⟩ := hplaced
    have hle := Packing.le_alignUp hpos start
    have hgap : (before ++ replicate (Packing.alignUp alignment start - start) 0).length =
        tensorDataOffset + Packing.alignUp alignment start := by
      rw [length_append, length_replicate]
      omega
    have hsplit : before ++ payloadBytes alignment start (tensor :: tensors) =
        before ++ replicate (Packing.alignUp alignment start - start) 0 ++ tensor.data ++
          payloadBytes alignment (Packing.alignUp alignment start + tensor.data.length)
            tensors := by
      simp [payloadBytes, Packing.region]
    obtain ⟨hlength, hrest⟩ := @ih rest _ hplaced (before ++
      replicate (Packing.alignUp alignment start - start) 0 ++ tensor.data)
      (by rw [length_append, hgap, add_assoc]; rfl)
    rw [hsplit, zip_cons_cons, forall_mem_cons]
    refine ⟨hlength, ?_, hrest⟩
    rw [← hgap]
    exact subslice_append _ _ _

end

end Payloads

/-- The container stays below the bounds of the reader. -/
structure Readable (metadata : Metadata) (tensors : List TensorOut) : Prop where
  metadata_count : metadata.size ≤ maxCount
  tensor_count : tensors.length ≤ maxCount
  entries : ∀ entry ∈ metadata.toList, TextFits entry.1 ∧ StringsFit entry.2
  infos : ∀ tensor ∈ tensors, InfoFits tensor.spec
  elements : ∀ tensor ∈ tensors, ∀ leading, leading <+: tensor.dims.map UInt64.toNat →
    leading.prod < 2 ^ 64

theorem foldlM_multiplyDimension_iff {dims : List UInt64} {product : ℕ} :
    dims.foldlM multiplyDimension 1 = some product ↔
      (∀ leading, leading <+: dims.map UInt64.toNat → leading.prod < 2 ^ 64) ∧
        (dims.map UInt64.toNat).prod = product := by
  have hmap : dims.foldlM multiplyDimension 1 = (dims.map UInt64.toNat).foldlM (checkedMul 64) 1 :=
    (foldlM_map (f := UInt64.toNat) (g := checkedMul 64)).symm
  simpa [hmap] using @foldlM_checkedMul_iff (dims.map UInt64.toNat) 1 product (by decide)

/-- The tables are read back, and the reader stops behind them. -/
theorem readTables_layout {alignment stop total : ℕ} {table : List UInt8}
    (hversion : version = 2 ∨ version = 3) (halignment : metadataAlignment metadata = .ok alignment)
    (hplaced : Placed alignment 0 (tensors.map TensorOut.spec) layout.offsets stop)
    (htable : metadata.toList.foldlM pushEntry ([], 0) = .ok (table, total))
    (hheader : layout.header = ggufMagic ++ leBytes 4 version ++
      leBytes 8 (tensors.map TensorOut.spec).length ++ leBytes 8 metadata.size ++ table ++
      ((tensors.map TensorOut.spec).zip layout.offsets).flatMap tensorInfoBytes)
    (hreadable : Readable metadata tensors) :
    Reads readTables layout.header (version, metadata, alignment,
      ((tensors.map TensorOut.spec).zip layout.offsets).map rawInfo) := by
  have hmetadata := hreadable.metadata_count
  have htensors := hreadable.tensor_count
  rw [maxCount] at hmetadata htensors
  obtain ⟨_, hoffsets, hentries⟩ := hplaced.bounds (metadataAlignment_pos halignment)
  obtain ⟨piece, rfl, hpiece⟩ := entries_reads htable hreadable.entries ∅
  rw [foldl_insert_toList, Std.ExtTreeMap.length_toList] at hpiece
  have hinfos := @tensorInfos_reads ((tensors.map TensorOut.spec).zip layout.offsets)
    (fun entry hentry => ⟨?_, (hentries entry hentry).1⟩) []
  · rw [length_zip, hoffsets, min_self] at hinfos
    rw [hheader, length_map]
    rw [length_map] at hinfos
    refine (take_reads ggufMagic).bind ?_
    refine (unsigned_reads 4 (by omega)).bind ?_
    rw [if_neg (by omega)]
    refine (unsigned_reads 8 (by omega)).bind ((unsigned_reads 8 (by omega)).bind ?_)
    rw [if_neg (by rw [maxCount]; omega)]
    refine hpiece.bind ?_
    dsimp only
    rw [halignment]
    exact hinfos.map fun tensors => (version, metadata, alignment, tensors)
  · obtain ⟨tensor, htensor, heq⟩ := mem_map.mp (of_mem_zip hentry).1
    rw [← heq]
    exact hreadable.infos tensor htensor

theorem sizeTensor_of_le {nBytes : ℕ}
    (helements : ∀ leading, leading <+: raw.dims.map UInt64.toNat → leading.prod < 2 ^ 64)
    (hbytes : tensorNBytes raw.ggmlType raw.dims = .ok nBytes)
    (hstop : raw.offset + nBytes ≤ dataSectionLen) (hlt : dataSectionLen < 2 ^ 64) :
    sizeTensor dataSectionLen raw = .ok ⟨raw, nBytes⟩ := by
  rw [sizeTensor, foldlM_multiplyDimension_iff.mpr ⟨helements, rfl⟩, okOr_bind, hbytes, ok_bind]
  by_cases hpositive : 0 < nBytes
  · rw [if_pos hpositive, checkedAdd_of_lt (by omega), okOr_bind, if_neg (by omega)]
    rfl
  · rw [if_neg hpositive, if_neg (by omega)]
    rfl

/-- The entry of a tensor in the table that the reader returns. -/
def infoOf (entry : TensorOut × ℕ) : TensorInfo where
  toRawTensorInfo := rawInfo (entry.1.spec, entry.2)
  nBytes := if (typeBlockLayout entry.1.ggmlType).isSome then entry.1.data.length else 0

theorem sizeTensor_rawInfo {tensor : TensorOut} {offset nBytes : ℕ}
    (hbytes : tensorNBytes tensor.ggmlType tensor.dims = .ok nBytes)
    (hsized : (typeBlockLayout tensor.ggmlType).isSome → tensor.data.length = nBytes)
    (helements : ∀ leading, leading <+: tensor.dims.map UInt64.toNat → leading.prod < 2 ^ 64)
    (hstop : offset + tensor.data.length ≤ dataSectionLen) (hlt : dataSectionLen < 2 ^ 64) :
    sizeTensor dataSectionLen (rawInfo (tensor.spec, offset)) = .ok (infoOf (tensor, offset)) := by
  rw [infoOf]
  by_cases hsome : (typeBlockLayout tensor.ggmlType).isSome
  · rw [if_pos hsome]
    rw [← hsized hsome] at hbytes
    exact sizeTensor_of_le helements hbytes hstop hlt
  · rw [if_neg hsome]
    have hunknown := Option.not_isSome_iff_eq_none.mp hsome
    have hzero : tensorNBytes tensor.ggmlType tensor.dims = .ok 0 := by
      rw [tensorNBytes, hunknown]
    exact sizeTensor_of_le helements hzero (by grind [rawInfo]) hlt

/-- The file holds the metadata, and the tensors with their payloads at aligned offsets. -/
def ReadsBack (version : ℕ) (metadata : Metadata) (tensors : List TensorOut) (bytes : List UInt8)
    (file : GgufFile) : Prop :=
  file.version = version ∧ file.metadata = metadata ∧
    Forall₂ (fun (info : TensorInfo) (tensor : TensorOut) =>
      info.name = tensor.name ∧ info.dims = tensor.dims ∧ info.ggmlType = tensor.ggmlType ∧
      (∀ alignment, metadataAlignment metadata = .ok alignment → alignment ∣ info.offset) ∧
      subslice bytes (file.tensorDataOffset + info.offset)
        (file.tensorDataOffset + info.offset + tensor.data.length) = some tensor.data)
      file.tensors tensors

theorem writeGguf_eq_ok (hwrite : writeGguf version metadata tensors = .ok bytes) :
    ∃ layout alignment, buildLayout version metadata (tensors.map TensorOut.spec) = .ok layout ∧
      metadataAlignment metadata = .ok alignment ∧
      bytes = padTo layout.header layout.tensorDataOffset ++ payloadBytes alignment 0 tensors := by
  obtain ⟨layout, hlayout, hpayloads⟩ := bind_eq_ok hwrite
  obtain ⟨_, alignment, stop, _, _, halignment, hplaced, _, _, _, hle, hlt⟩ :=
    buildLayout_eq_ok hlayout
  refine ⟨layout, alignment, hlayout, halignment, ?_⟩
  rw [foldlM_writePayload (metadataAlignment_pos halignment) hplaced hlt (length_padTo hle)]
    at hpayloads
  exact (ok.inj hpayloads).symm

theorem readGguf_of_reads {alignment tensorDataOffset : ℕ}
    {rawTensors : List RawTensorInfo} {infos : List TensorInfo} {header rest : List UInt8}
    (hreads : Reads readTables header (version, metadata, alignment, rawTensors))
    (hoffset : alignUp header.length alignment = .ok tensorDataOffset)
    (hsizes : rawTensors.mapM (sizeTensor ((header ++ rest).length - tensorDataOffset)) =
      .ok infos) :
    readGguf (header ++ rest) = .ok ⟨version, metadata, infos, tensorDataOffset⟩ := by
  rw [readGguf, hreads rest, ok_bind]
  dsimp only
  rw [show (header ++ rest).length - rest.length = header.length by rw [length_append]; omega,
    hoffset, ok_bind, hsizes]
  rfl

theorem readsBack_of_readable (hwrite : writeGguf version metadata tensors = .ok bytes)
    (hreadable : Readable metadata tensors) :
    ∃ file, readGguf bytes = .ok file ∧ ReadsBack version metadata tensors bytes file := by
  obtain ⟨layout, alignment, hlayout, halignment, rfl⟩ := writeGguf_eq_ok hwrite
  obtain ⟨hversion, _, stop, _, _, halignment', hplaced, htable, hheader, hoffset, hle, _⟩ :=
    buildLayout_eq_ok hlayout
  obtain rfl := ok.inj (halignment.symm.trans halignment')
  have hpos := metadataAlignment_pos halignment
  obtain ⟨_, hoffsets, hentries⟩ := hplaced.bounds hpos
  obtain ⟨hlength, hpayloads⟩ := payloads_located hpos hplaced (length_padTo hle)
  rw [length_map] at hoffsets
  have hzip : (tensors.map TensorOut.spec).zip layout.offsets =
      (tensors.zip layout.offsets).map fun entry => (entry.1.spec, entry.2) := zip_map_left ..
  rw [hzip, forall_mem_map] at hentries
  have htables := readTables_layout hversion halignment hplaced htable hheader hreadable
  rw [hzip, map_map] at htables
  refine ⟨⟨version, metadata, (tensors.zip layout.offsets).map infoOf, layout.tensorDataOffset⟩,
    ?_, rfl, rfl, ?_⟩
  · rw [padTo, append_assoc] at hlength ⊢
    refine readGguf_of_reads htables hoffset ?_
    rw [mapM_map, hlength, Nat.add_sub_cancel_left]
    refine mapM_of_forall_mem fun entry hentry => ?_
    obtain ⟨_, _, hstop, nBytes, hbytes, hsized⟩ := hentries entry hentry
    exact sizeTensor_rawInfo hbytes hsized (hreadable.elements _ (of_mem_zip hentry).1) hstop
      (by omega)
  · have hfst : (tensors.zip layout.offsets).map Prod.fst = tensors := map_fst_zip (by omega)
    refine Eq.subst (motive := Forall₂ _ _) hfst ?_
    rw [forall₂_map_left_iff, forall₂_map_right_iff, forall₂_same]
    intro entry hentry
    refine ⟨rfl, rfl, rfl, fun other hother => ?_, hpayloads entry hentry⟩
    obtain rfl := ok.inj (halignment.symm.trans hother)
    exact (hentries entry hentry).2.1

/-! ### What the reader accepts -/

theorem readEntry_ensures (turn : ℕ) {state : Metadata × ℕ} (hstate : state.1.size ≤ turn ∧
      ∀ entry ∈ state.1.toList, TextFits entry.1 ∧ StringsFit entry.2) :
    Ensures (fun next : Metadata × ℕ => next.1.size ≤ turn + 1 ∧
      ∀ entry ∈ next.1.toList, TextFits entry.1 ∧ StringsFit entry.2) (readEntry state) := by
  refine ggufString_ensures.bind fun key hkey => (ensures_true _).bind fun valueType _ =>
    (readValue_ensures _ _ _).bind fun next hvalue => Ensures.pure ⟨?_, ?_⟩
  · exact Std.ExtTreeMap.size_insert_le.trans (Nat.succ_le_succ hstate.1)
  · intro entry hentry
    rw [Std.ExtTreeMap.mem_toList_iff_getElem?_eq_some, Std.ExtTreeMap.getElem?_insert] at hentry
    split_ifs at hentry with hsame
    · rw [← Std.LawfulEqCmp.eq_of_compare hsame, ← Option.some.inj hentry]
      exact ⟨hkey, hvalue⟩
    · exact hstate.2 entry (Std.ExtTreeMap.mem_toList_iff_getElem?_eq_some.mpr hentry)

theorem readTensorInfo_ensures (turn : ℕ) {tensors : List RawTensorInfo}
    (htensors : tensors.length = turn ∧
      ∀ raw ∈ tensors, TextFits raw.name ∧ raw.dims.length ≤ maxDims) :
    Ensures (fun next : List RawTensorInfo => next.length = turn + 1 ∧
      ∀ raw ∈ next, TextFits raw.name ∧ raw.dims.length ≤ maxDims) (readTensorInfo tensors) := by
  refine ggufString_ensures.bind fun name hname => (ensures_true _).bind fun nDims _ =>
    Ensures.refuse fun hdims => ?_
  have hstep : ∀ (turn : ℕ) (dims : List UInt64), dims.length = turn →
      Ensures (fun next : List UInt64 => next.length = turn + 1) (readDims dims) :=
    fun turn dims hlength => (ensures_true _).bind fun bits _ =>
      Ensures.pure (by rw [length_append, hlength, length_singleton])
  refine (@Ensures.timesM _ _ _ (fun turn dims => dims.length = turn) _ hstep nDims 0 [] rfl).bind
    fun dims hlength => (ensures_true _).bind fun ggmlType _ => (ensures_true _).bind
    fun offset _ => Ensures.pure ?_
  have hle : dims.length ≤ maxDims := by omega
  rw [length_append, htensors.1, forall_mem_append, forall_mem_singleton]
  exact ⟨rfl, htensors.2, hname, hle⟩

theorem readTables_ensures :
    Ensures (fun tables : ℕ × Metadata × ℕ × List RawTensorInfo =>
      (tables.2.1.size ≤ maxCount ∧
        ∀ entry ∈ tables.2.1.toList, TextFits entry.1 ∧ StringsFit entry.2) ∧
      tables.2.2.2.length ≤ maxCount ∧
        ∀ raw ∈ tables.2.2.2, TextFits raw.name ∧ raw.dims.length ≤ maxDims) readTables := by
  refine (ensures_true _).bind fun magic _ => Ensures.refuse fun _ => (ensures_true _).bind
    fun version _ => Ensures.refuse fun _ => (ensures_true _).bind fun tensorCount _ =>
    (ensures_true _).bind fun metadataKvCount _ => Ensures.refuse fun hcounts => ?_
  refine (@Ensures.timesM _ _ _ (fun turn state => state.1.size ≤ turn ∧
    ∀ entry ∈ state.1.toList, TextFits entry.1 ∧ StringsFit entry.2) _
    (fun turn _ => readEntry_ensures turn) metadataKvCount 0 (∅, 0) (by simp)).bind
    fun state hmetadata => (ensures_true _).bind fun alignment _ => ?_
  refine (@Ensures.timesM _ _ _ (fun turn tensors => tensors.length = turn ∧
    ∀ raw ∈ tensors, TextFits raw.name ∧ raw.dims.length ≤ maxDims) _
    (fun turn _ => readTensorInfo_ensures turn) tensorCount 0 [] (by simp)).bind
    fun tensors htensors => Ensures.pure ?_
  have hmetadataSize : state.1.size ≤ maxCount := by omega
  have htensorsLength : tensors.length ≤ maxCount := by omega
  exact ⟨⟨hmetadataSize, hmetadata.2⟩, htensorsLength, htensors.2⟩

theorem sizeTensor_eq_ok {info : TensorInfo} (hinfo : sizeTensor dataSectionLen raw = .ok info) :
    info.toRawTensorInfo = raw ∧
      ∀ leading, leading <+: raw.dims.map UInt64.toNat → leading.prod < 2 ^ 64 := by
  obtain ⟨product, hproduct, hinfo⟩ := bind_eq_ok hinfo
  obtain ⟨nBytes, _, hinfo⟩ := bind_eq_ok hinfo
  refine ⟨?_, (foldlM_multiplyDimension_iff.mp (okOr_eq_ok_iff.mp hproduct)).1⟩
  split_ifs at hinfo
  · obtain ⟨stop, _, hinfo⟩ := bind_eq_ok hinfo
    cases (refuse_eq_ok hinfo).2
    rfl
  · cases hinfo
    rfl

theorem readable_of_readsBack {file : GgufFile} (hread : readGguf bytes = .ok file)
    (hback : ReadsBack version metadata tensors bytes file) : Readable metadata tensors := by
  obtain ⟨_, rfl, htensors⟩ := hback
  rw [readGguf, bind_eq_ok_iff] at hread
  obtain ⟨⟨_, _, alignment, rawTensors⟩, htables, hread⟩ := hread
  obtain ⟨offset, _, hread⟩ := bind_eq_ok hread
  obtain ⟨infos, hinfos, hfile⟩ := bind_eq_ok hread
  cases hfile
  obtain ⟨⟨hcount, hentries⟩, htensorCount, hraws⟩ :=
    readTables_ensures.value (Prod.ext htables rfl)
  have hsizes := mapM_eq_ok_iff.mp hinfos
  have hfound : ∀ tensor ∈ tensors, (TextFits tensor.name ∧ tensor.dims.length ≤ maxDims) ∧
      ∀ leading, leading <+: tensor.dims.map UInt64.toNat → leading.prod < 2 ^ 64 := by
    intro tensor htensor
    obtain ⟨⟨index, hindex⟩, rfl⟩ := mem_iff_get.mp htensor
    have hinfo : index < infos.length := htensors.length_eq ▸ hindex
    have hraw : index < rawTensors.length := hsizes.length_eq ▸ hinfo
    obtain ⟨hname, hdims, _⟩ := htensors.get hinfo hindex
    obtain ⟨heq, helements⟩ := sizeTensor_eq_ok (hsizes.get hraw hinfo)
    rw [← hname, ← hdims, heq]
    exact ⟨hraws _ (get_mem rawTensors ⟨index, hraw⟩), helements⟩
  have hlength := hsizes.length_eq.trans htensors.length_eq
  exact ⟨hcount, hlength ▸ htensorCount, hentries, fun tensor htensor => (hfound tensor htensor).1,
    fun tensor htensor => (hfound tensor htensor).2⟩

/-- **What the writer writes is read back** where the container stays below the bounds of the
reader, and only there. -/
theorem readGguf_writeGguf_iff (version : ℕ) (metadata : Metadata) (tensors : List TensorOut)
    (bytes : List UInt8) (hwrite : writeGguf version metadata tensors = .ok bytes) :
    (∃ file, readGguf bytes = .ok file ∧ ReadsBack version metadata tensors bytes file) ↔
      Readable metadata tensors :=
  ⟨fun ⟨_, hread, hback⟩ => readable_of_readsBack hread hback, readsBack_of_readable hwrite⟩

def alignedMetadata : Metadata :=
  Std.ExtTreeMap.ofList [("general.alignment", GgufValue.u32 8), ("k", .array [.string "a"])]

def scalarTensor : TensorOut := ⟨"w", [1], 0, [1, 2, 3, 4]⟩

def alignedFile : List UInt8 :=
  padTo (ggufMagic ++ leBytes 4 3 ++ leBytes 8 1 ++ leBytes 8 2 ++
    ggufStringBytes "general.alignment" ++ leBytes 4 4 ++ leBytes 4 8 ++
    ggufStringBytes "k" ++ leBytes 4 9 ++ leBytes 4 8 ++ leBytes 8 1 ++ ggufStringBytes "a" ++
    tensorInfoBytes (scalarTensor.spec, 0)) 128 ++ scalarTensor.data

theorem alignedMetadata_readable : Readable alignedMetadata [scalarTensor] where
  metadata_count := by decide +kernel
  tensor_count := by decide
  entries := by
    have hlist : alignedMetadata.toList =
      [("general.alignment", GgufValue.u32 8), ("k", .array [.string "a"])] := rfl
    rw [hlist]
    simp only [forall_mem_cons, not_mem_nil, false_imp_iff, implies_true, and_true]
    refine ⟨⟨by decide +kernel, .scalar (by decide) (by decide)⟩, by decide +kernel, .array ?_⟩
    rw [forall_mem_singleton]
    exact .string (by decide +kernel)
  infos := by
    rw [forall_mem_singleton]
    exact ⟨by decide +kernel, by decide⟩
  elements := by
    rw [forall_mem_singleton]
    exact (foldlM_multiplyDimension_iff.mp (rfl : scalarTensor.dims.foldlM _ _ = some 1)).1

theorem readGguf_writeGguf_aligned :
    writeGguf 3 alignedMetadata [scalarTensor] = .ok alignedFile ∧
      ∃ file, readGguf alignedFile = .ok file ∧
        ReadsBack 3 alignedMetadata [scalarTensor] alignedFile file :=
  ⟨by decide +kernel, (readGguf_writeGguf_iff 3 alignedMetadata [scalarTensor] alignedFile
    (by decide +kernel)).mpr alignedMetadata_readable⟩

def manyDims : TensorOut := ⟨"w", replicate 9 1, 0, [0, 0, 0, 0]⟩

def manyDimsFile : List UInt8 :=
  padTo (ggufMagic ++ leBytes 4 3 ++ leBytes 8 1 ++ leBytes 8 0 ++
    tensorInfoBytes (manyDims.spec, 0)) 128 ++ manyDims.data

set_option maxRecDepth 8000 in
theorem readTables_manyDims : (readTables manyDimsFile).1 = .err .dimsOverflow := by
  rfl

/-- The writer accepts a ninth dimension, the reader does not. -/
theorem writeGguf_manyDims_unreadable :
    writeGguf 3 ∅ [manyDims] = .ok manyDimsFile ∧ readGguf manyDimsFile = .err .dimsOverflow := by
  refine ⟨by decide +kernel, ?_⟩
  rw [readGguf, readTables_manyDims]
  rfl

end Tritium.Gguf
