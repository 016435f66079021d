import Tritium.Salt.Proof.JointCode
import Tritium.Salt.Proof.JointDirectory
import Tritium.Salt.Proof.JointRows

/-!
# Joint bundles come back

A bundle is laid out as header, code lengths, directory and payloads. The reader parses the layout
piece by piece, and the payload of a tensor decodes and packs to the rows it was made from.
-/

namespace Tritium.Salt

open List
open Cbor (utf8 fromUtf8 fromUtf8_eq_some_iff)
open Stateful (Implements)
open Seekable (Parses Ready)

variable {offset fileLen : ℕ} {info : JointTensorInfo} {item : Item}
  {reader : JointSaltBundleReader} {scales : List UInt8} {lengths : List ℕ}

abbrev Item : Type := (Tensor × Extracted) × JointStream

def Item.payload (item : Item) : List UInt8 := item.1.2.scales ++ item.2.bits

def Item.infoAt (offset : ℕ) (item : Item) : JointTensorInfo :=
  ⟨item.1.1.1, item.1.1.2.length, widthOf item.1.1.2, offset, item.1.2.scales.length,
    item.2.bits.length⟩

def directoryFrom : ℕ → List Item → List JointTensorInfo
  | _, [] => []
  | offset, item :: items =>
    item.infoAt offset :: directoryFrom (offset + item.payload.length) items

def JointTensorInfo.bytes (info : JointTensorInfo) : List UInt8 :=
  leBytes 2 (utf8 info.name).length ++ utf8 info.name ++ leBytes 4 info.rows ++ leBytes 4 info.k ++
    leBytes 8 info.payloadOffset ++ leBytes 8 info.scaleBytes ++ leBytes 8 info.streamBytes

def JointTensorInfo.entrySize (info : JointTensorInfo) : ℕ := dirFixedBytes + (utf8 info.name).length

theorem JointTensorInfo.bytes_length (info : JointTensorInfo) :
    info.bytes.length = info.entrySize := by
  simp only [JointTensorInfo.bytes, JointTensorInfo.entrySize, length_append, leBytes_length,
    dirFixedBytes]
  omega

theorem directoryFrom_names (offset : ℕ) (items : List Item) :
    (directoryFrom offset items).map JointTensorInfo.name = items.map fun item => item.1.1.1 := by
  induction items generalizing offset with
  | nil => rfl
  | cons item items ih => rw [directoryFrom, map_cons, ih]; rfl

theorem directoryFrom_length (offset : ℕ) (items : List Item) :
    (directoryFrom offset items).length = items.length := by
  induction items generalizing offset with
  | nil => rfl
  | cons item items ih => rw [directoryFrom, length_cons, ih, length_cons]

/-- An entry points at the payload of its tensor. -/
theorem exists_of_mem_directoryFrom {items : List Item}
    (hinfo : info ∈ directoryFrom offset items) :
    ∃ before item after, items = before ++ item :: after ∧
      info = item.infoAt (offset + (before.flatMap Item.payload).length) := by
  induction items generalizing offset with
  | nil => cases hinfo
  | cons first items ih =>
    rw [directoryFrom, mem_cons] at hinfo
    obtain rfl | hrest := hinfo
    · exact ⟨[], first, items, rfl, rfl⟩
    · obtain ⟨before, item, after, rfl, rfl⟩ := ih hrest
      refine ⟨first :: before, item, after, rfl, ?_⟩
      rw [flatMap_cons, length_append, add_assoc]

theorem exists_mem_directoryFrom (offset : ℕ) {items : List Item} (hitem : item ∈ items) :
    ∃ before after, items = before ++ item :: after ∧
      item.infoAt (offset + (before.flatMap Item.payload).length) ∈ directoryFrom offset items := by
  induction items generalizing offset with
  | nil => cases hitem
  | cons first items ih =>
    obtain rfl | hrest := mem_cons.mp hitem
    · exact ⟨[], items, rfl, mem_cons_self⟩
    · obtain ⟨before, after, hsplit, hmem⟩ := ih (offset + first.payload.length) hrest
      refine ⟨first :: before, after, by rw [hsplit, cons_append], ?_⟩
      rw [flatMap_cons, length_append, ← add_assoc]
      exact mem_cons_of_mem _ hmem

/-- What the writer has made sure of for one tensor. -/
structure Item.Written (ι : Type) (planes : ℕ) (code : JointCode) (item : Item) : Prop where
  name_lt : (utf8 item.1.1.1).length < 2 ^ 16
  width : ∀ row ∈ item.1.1.2, row.k = widthOf item.1.1.2
  parts : ∃ parts, TensorParts ι planes item.1.1.2 parts ∧
    item.1.2 = ⟨parts.flatMap Prod.fst, parts.flatMap Prod.snd⟩
  coded : ∀ symbol ∈ item.1.2.symbols, code.Codes symbol
  spells : Spells code item.2.bits item.1.2.symbols

def bundleHeader (planes : ℕ) (rotationGroup : Option UInt16) (count : ℕ) : List UInt8 :=
  saltJointBundleMagic ++ [UInt8.ofNat saltJointBundleVersion] ++ [UInt8.ofNat planes] ++
    leBytes 2 (rotationGroup.getD 0).toNat ++ leBytes 4 count

def payloadStart (planes : ℕ) (items : List Item) : ℕ :=
  headerBytes + 3 ^ planes + (items.map fun item => dirFixedBytes + (utf8 item.1.1.1).length).sum

def bundleFront (planes : ℕ) (rotationGroup : Option UInt16) (code : JointCode)
    (items : List Item) : List UInt8 :=
  bundleHeader planes rotationGroup items.length ++ code.lengths.map UInt8.ofNat ++
    (directoryFrom (payloadStart planes items) items).flatMap JointTensorInfo.bytes

structure Layout (ι : Type) (tensors : List Tensor) (rotationGroup : Option UInt16)
    (bytes : List UInt8) (planes : ℕ) (code : JointCode) (items : List Item) : Prop where
  tensors_eq : items.map (fun item => item.1.1) = tensors
  count_le : items.length ≤ maxTensors
  code_eq : JointCode.fromLengths code.lengths planes = .ok code
  written : ∀ item ∈ items, item.Written ι planes code
  bytes_eq : bytes = bundleFront planes rotationGroup code items ++ items.flatMap Item.payload

section Writing

variable {ι : Type} {next : List UInt8 × ℕ} {out : List UInt8}

theorem writeEntry_eq_ok
    (hwrite : writeEntry (out, offset) item = (.ok next : Outcome (JointBundleError ι) _)) :
    next = (out ++ (item.infoAt offset).bytes, offset + item.payload.length) ∧
      (utf8 item.1.1.1).length < 2 ^ 16 ∧ ∀ row ∈ item.1.1.2, row.k = widthOf item.1.1.2 := by
  rw [writeEntry] at hwrite
  obtain ⟨nameLen, hname, hwrite⟩ := bind_eq_ok hwrite
  obtain ⟨hshort, rfl⟩ := tryInto_eq_ok hname
  obtain ⟨hwidth, hwrite⟩ := refuse_eq_ok hwrite
  obtain ⟨payload, hpayload, hwrite⟩ := bind_eq_ok hwrite
  obtain ⟨_, rfl⟩ := add_eq_ok_iff.mp hpayload
  obtain ⟨following, hfollowing, hresult⟩ := bind_eq_ok hwrite
  obtain ⟨_, rfl⟩ := add_eq_ok_iff.mp hfollowing
  refine ⟨?_, hshort, ?_⟩
  · rw [← ok.inj hresult, JointTensorInfo.bytes, Item.payload, length_append]
    simp only [Item.infoAt, append_assoc]
  · intro row hrow
    by_contra hne
    exact hwidth (any_eq_true.mpr ⟨row, hrow, decide_eq_true hne⟩)

theorem foldlM_writeEntry (items : List Item)
    (hwrite : items.foldlM writeEntry (out, offset) = (.ok next : Outcome (JointBundleError ι) _)) :
    next.1 = out ++ (directoryFrom offset items).flatMap JointTensorInfo.bytes ∧
      ∀ item ∈ items, (utf8 item.1.1.1).length < 2 ^ 16 ∧
        ∀ row ∈ item.1.1.2, row.k = widthOf item.1.1.2 := by
  induction items generalizing out offset with
  | nil =>
    obtain rfl := ok.inj hwrite
    exact ⟨(append_nil out).symm, forall_mem_nil _⟩
  | cons item items ih =>
    obtain ⟨middle, hfirst, hrest⟩ := foldlM_cons_eq_ok hwrite
    obtain ⟨rfl, hitem⟩ := writeEntry_eq_ok hfirst
    obtain ⟨hout, hitems⟩ := ih hrest
    refine ⟨?_, forall_mem_cons.mpr ⟨hitem, hitems⟩⟩
    simp [hout, directoryFrom]

theorem canonical_of_fromLengths {t : ℕ} {code : JointCode}
    (hcode : JointCode.fromLengths lengths t = .ok code) : code.Canonical := by
  obtain ⟨hlengths, rfl⟩ := fromLengths_eq_ok_iff.mp hcode
  exact canonicalCode_canonical hlengths

/-- What the writer returns is a bundle of its tensors. -/
theorem exists_layout {tensors : List Tensor} {rotationGroup : Option UInt16} {bytes : List UInt8}
    (hwrite : writeJointSaltBundle tensors rotationGroup =
      (.ok bytes : Outcome (JointBundleError ι) _)) :
    ∃ planes code items, Layout ι tensors rotationGroup bytes planes code items := by
  rw [writeJointSaltBundle] at hwrite
  obtain ⟨first, _, hwrite⟩ := bind_eq_ok hwrite
  obtain ⟨hcount, hwrite⟩ := refuse_eq_ok hwrite
  obtain ⟨exponent, hexponent, hwrite⟩ := bind_eq_ok hwrite
  obtain ⟨_, rfl⟩ := tryInto_eq_ok hexponent
  obtain ⟨size, hsize, hwrite⟩ := bind_eq_ok hwrite
  obtain ⟨_, rfl⟩ := tryInto_eq_some_iff.mp (expect_eq_ok_iff.mp hsize)
  obtain ⟨extracted, hextracted, hwrite⟩ := bind_eq_ok hwrite
  obtain ⟨freq, _, hwrite⟩ := bind_eq_ok hwrite
  obtain ⟨code, hbuild, hwrite⟩ := bind_eq_ok hwrite
  obtain ⟨streams, hstreams, hwrite⟩ := bind_eq_ok hwrite
  obtain ⟨dirBytes, hdirBytes, hwrite⟩ := bind_eq_ok hwrite
  obtain ⟨offset, hoffset, hwrite⟩ := bind_eq_ok hwrite
  obtain ⟨⟨out, stop⟩, hout, hresult⟩ := bind_eq_ok hwrite
  obtain ⟨_, rfl⟩ := add_eq_ok_iff.mp hoffset
  obtain rfl := foldlM_eq_add_sum hdirBytes fun _ _ _ hnext => (add_eq_ok_iff.mp hnext).2.symm
  have hcode := fromLengths_of_build (mapErr_eq_ok_iff.mp hbuild)
  have hextract := mapM_eq_ok_iff.mp hextracted
  have hencode := mapM_eq_ok_iff.mp hstreams
  have hlengths := hextract.length_eq
  have hlengthsStreams := hencode.length_eq
  set items := (tensors.zip extracted).zip streams with hitems
  have hcountItems : items.length = tensors.length := by
    rw [length_zip, length_zip]
    omega
  have htensors : items.map (fun item => item.1.1) = tensors := by
    have hfirst : items.map Prod.fst = tensors.zip extracted :=
      map_fst_zip (by rw [length_zip]; omega)
    calc items.map (fun item => item.1.1)
        = (items.map Prod.fst).map Prod.fst := by rw [map_map]; rfl
      _ = (tensors.zip extracted).map Prod.fst := by rw [hfirst]
      _ = tensors := map_fst_zip hlengths.le
  have hpayloads : (extracted.zip streams).flatMap (fun entry => entry.1.scales ++ entry.2.bits) =
      items.flatMap Item.payload := by
    have hzip : extracted.zip streams = items.map (Prod.map Prod.snd id) := by
      rw [← zip_map_left, map_snd_zip hlengths.ge]
    rw [hzip, flatMap_map]
    rfl
  have hsum : (tensors.map fun tensor => dirFixedBytes + (utf8 tensor.1).length).sum =
      (items.map fun item => dirFixedBytes + (utf8 item.1.1.1).length).sum := by
    rw [← htensors, map_map]
    rfl
  obtain ⟨hdirectory, hentries⟩ := foldlM_writeEntry items hout
  refine ⟨_, code, items, htensors, ?_, hcode, ?_, ?_⟩
  · rw [hcountItems]
    omega
  · intro item hitem
    obtain ⟨hname, hwidth⟩ := hentries item hitem
    obtain ⟨position, _, rfl⟩ := getElem_of_mem hitem
    have hextractAt := (forall₂_iff_get.mp hextract).2 position (by omega) (by omega)
    have hencodeAt := (forall₂_iff_get.mp hencode).2 position (by omega) (by omega)
    obtain ⟨parts, hparts, hextractEq⟩ := foldlM_extractRow _ 0 hextractAt
    obtain ⟨hcoded, hspells, _⟩ := encode_eq_ok (canonical_of_fromLengths hcode)
      (mapErr_eq_ok_iff.mp hencodeAt)
    have hitemEq : items[position] =
        ((tensors[position], extracted[position]), streams[position]) := by
      simp only [hitems, getElem_zip]
    rw [hitemEq] at hname hwidth ⊢
    exact ⟨hname, hwidth, ⟨parts, hparts, hextractEq⟩, hcoded, hspells⟩
  · dsimp only at hdirectory
    rw [← ok.inj hresult, hpayloads, hdirectory, bundleFront, bundleHeader, payloadStart,
      hcountItems, hsum, zero_add]

end Writing

section Parsing

variable {σ ι : Type} {source : Seekable σ ι} {content : List UInt8} {stands : ℕ → σ → Prop}
  {entries : List JointTensorInfo}

section

variable (hserves : source.Serves content stands)

include hserves

theorem readBuffer_parses (piece : List UInt8) :
    Parses content stands (readBuffer source piece.length) piece piece := by
  have hread := ((hserves.parses piece).mapErr JointBundleError.io).map
    fun bytes => bytes.takeD piece.length 0
  rw [takeD_eq_take _ le_rfl, take_length] at hread
  exact hread

theorem readUint_parses {width value : ℕ} (hvalue : value < 256 ^ width) :
    Parses content stands (readUint source width) (leBytes width value) value := by
  have hread := (readBuffer_parses hserves (leBytes width value)).map ofLeBytes
  rw [leBytes_length, ofLeBytes_leBytes width hvalue] at hread
  exact hread

/-- What the reader asks of an entry by itself. -/
structure JointTensorInfo.Enters (planes fileLen : ℕ) (info : JointTensorInfo) : Prop
    extends info.Fits planes where
  name_lt : (utf8 info.name).length < 2 ^ 16
  inside : info.payloadOffset + info.scaleBytes + info.streamBytes ≤ fileLen

theorem readEntry_parses {planes : ℕ} (hfileLen : fileLen < 2 ^ 64) (hplanes : 1 ≤ planes)
    (hinfo : info.Enters planes fileLen) (hname : info.name ∉ entries.map JointTensorInfo.name)
    {pos : ℕ} (hpos : pos + info.entrySize ≤ fileLen) :
    Parses content stands (readEntry source planes fileLen ⟨entries, pos⟩) info.bytes
      ⟨entries ++ [info], pos + info.entrySize⟩ := by
  have hinside := hinfo.inside
  have hscales := hinfo.scaleBytes_eq
  have hcheck : checkEntry planes fileLen entries info =
      (.ok () : Outcome (JointBundleError ι) Unit) := by
    have hblocks : info.rows * numBlocks info.k ≤ info.scaleBytes := by
      rw [hscales]
      exact Nat.le_mul_of_pos_right _ (by omega)
    exact checkEntry_eq_ok_iff.mpr
      ⟨⟨by omega, by omega⟩, hscales, ⟨by omega, by omega⟩, hinside, hname⟩
  have hbytes : info.bytes = leBytes 2 (utf8 info.name).length ++ (utf8 info.name ++
      (leBytes 4 info.rows ++ (leBytes 4 info.k ++ (leBytes 8 info.payloadOffset ++
        (leBytes 8 info.scaleBytes ++ (leBytes 8 info.streamBytes ++ [])))))) := by
    simp [JointTensorInfo.bytes]
  rw [hbytes]
  refine (readUint_parses hserves hinfo.name_lt).bind ?_
  rw [← JointTensorInfo.entrySize]
  dsimp only
  rw [add_of_lt (by omega), lift_ok_bind, if_neg (not_lt.mpr hpos)]
  refine (readBuffer_parses hserves _).bind ?_
  rw [fromUtf8_eq_some_iff.mpr rfl]
  refine (readUint_parses hserves hinfo.rows_lt).bind ?_
  refine (readUint_parses hserves hinfo.k_lt).bind ?_
  refine (readUint_parses hserves (by omega)).bind ?_
  refine (readUint_parses hserves (by omega)).bind ?_
  refine (readUint_parses hserves (by omega)).bind ?_
  rw [hcheck]
  exact Parses.lift _

theorem readDirectory_parses {planes : ℕ} (hfileLen : fileLen < 2 ^ 64) (hplanes : 1 ≤ planes)
    (hentries : ∀ info ∈ entries, info.Enters planes fileLen)
    (hnames : (entries.map JointTensorInfo.name).Nodup) {start : ℕ}
    (hroom : start + (entries.map JointTensorInfo.entrySize).sum ≤ fileLen)
    (hplaced : entries.foldlM checkPlacement (start + (entries.map JointTensorInfo.entrySize).sum) =
      (.ok fileLen : Outcome (JointBundleError ι) ℕ)) :
    Parses content stands (readDirectory source planes fileLen entries.length start)
      (entries.flatMap JointTensorInfo.bytes) entries := by
  have hstep : ∀ done info rest, done ++ info :: rest = entries →
      Parses content stands (readEntry source planes fileLen
          ⟨done, start + (done.map JointTensorInfo.entrySize).sum⟩) info.bytes
        ⟨done ++ [info], start + ((done ++ [info]).map JointTensorInfo.entrySize).sum⟩ := by
    intro done info rest hsplit
    rw [← hsplit, map_append] at hnames
    rw [← hsplit, map_append, map_cons, sum_append, sum_cons] at hroom
    rw [map_append, sum_append, ← add_assoc]
    apply readEntry_parses hserves hfileLen hplanes
    · apply hentries
      rw [← hsplit]
      simp
    · intro hmem
      exact (nodup_append.mp hnames).2.2 _ hmem _ mem_cons_self rfl
    · omega
  rw [← append_nil (entries.flatMap _)]
  refine (Parses.timesM (fun done => DirectoryState.mk done
    (start + (done.map JointTensorInfo.entrySize).sum)) hstep [] entries rfl).bind ?_
  rw [hplaced, lift_ok_bind, if_neg (not_not.mpr rfl)]
  exact Parses.lift _

end

theorem foldlM_checkPlacement_eq (items : List Item)
    (hbound : offset + (items.flatMap Item.payload).length < 2 ^ 64) :
    (directoryFrom offset items).foldlM checkPlacement offset =
      (.ok (offset + (items.flatMap Item.payload).length) : Outcome (JointBundleError ι) ℕ) := by
  induction items generalizing offset with
  | nil => rfl
  | cons item items ih =>
    have hpayload : (item.infoAt offset).scaleBytes + (item.infoAt offset).streamBytes =
        item.payload.length := by
      rw [Item.payload, length_append]
      rfl
    have hoffset : (item.infoAt offset).payloadOffset = offset := rfl
    rw [flatMap_cons, length_append, ← add_assoc] at hbound ⊢
    rw [directoryFrom, foldlM_cons, checkPlacement, if_neg (not_not.mpr hoffset),
      add_of_lt (by omega), ok_bind, hpayload, add_of_lt (by omega), ok_bind, ih hbound]

end Parsing

/-! ### What the format can record -/

structure Recordable (tensors : List Tensor) (rotationGroup : Option UInt16) : Prop where
  names : (tensors.map Prod.fst).Nodup
  rotationGroup_ne : rotationGroup ≠ some 0
  counts : ∀ tensor ∈ tensors, tensor.2.length < 2 ^ 32 ∧ widthOf tensor.2 < 2 ^ 32

section Reading

variable {ι : Type} {tensors : List Tensor} {rotationGroup : Option UInt16} {bytes : List UInt8}
  {planes : ℕ} {code : JointCode} {items : List Item}

section

variable (hitem : item.Written ι planes code)

include hitem

theorem Item.Written.scales_length : item.1.2.scales.length =
      item.1.1.2.length * numBlocks (widthOf item.1.1.2) * (planes * 2) := by
  obtain ⟨parts, hparts, hextracted⟩ := hitem.parts
  have hraw : ∀ part ∈ parts, part.2.length = numBlocks (widthOf item.1.1.2) * (planes * 2) := by
    intro part hpart
    obtain ⟨row, hmem, hrow⟩ := exists_mem_of_forall₂ hparts hpart
    rw [hrow.raw_length, hitem.width row hmem]
  rw [hextracted, length_flatMap_const parts hraw, hparts.length_eq, mul_assoc]

theorem Item.Written.symbols_length :
    item.1.2.symbols.length = item.1.1.2.length * widthOf item.1.1.2 := by
  obtain ⟨parts, hparts, hextracted⟩ := hitem.parts
  have hsymbols : ∀ part ∈ parts, part.1.length = widthOf item.1.1.2 := by
    intro part hpart
    obtain ⟨row, hmem, hrow⟩ := exists_mem_of_forall₂ hparts hpart
    rw [hrow.symbols_length, hitem.width row hmem]
  rw [hextracted, length_flatMap_const parts hsymbols, hparts.length_eq]

theorem Item.Written.decodeRows_eq (hcode : code.Canonical) (hreaderCode : reader.code = code)
    (hreaderPlanes : reader.planes = planes)
    (hcounts : item.1.1.2.length < 2 ^ 32 ∧ widthOf item.1.1.2 < 2 ^ 32)
    (hbound : item.2.bits.length * 8 + maxCodeLen < 2 ^ 64) (offset : ℕ) :
    reader.decodeRows (item.infoAt offset) item.1.2.scales item.2.bits =
      (.ok item.1.1.2 : Outcome (JointBundleError ι) _) := by
  have hcount := hitem.symbols_length
  have hfits : item.1.1.2.length * widthOf item.1.1.2 < 2 ^ 64 := by
    rw [(by decide : 2 ^ 64 = 2 ^ 32 * 2 ^ 32)]
    exact Nat.mul_lt_mul'' hcounts.1 hcounts.2
  have hdecode : decode code ⟨item.2.bits, [0], max item.1.2.symbols.length 1,
      item.1.2.symbols.length⟩ = .ok item.1.2.symbols := by
    have hsplit : [] ++ item.1.2.symbols ++ [] = item.1.2.symbols := by
      rw [nil_append, append_nil]
    exact decodeFrom_eq hcode hbound hsplit hitem.coded hitem.spells
  obtain ⟨parts, hparts, hextracted⟩ := hitem.parts
  have hpack := @foldlM_packRow planes _ _ ι (item.infoAt offset) hparts hitem.width
    item.1.1.2.length le_rfl
  rw [take_length] at hpack
  have hinfo : (item.infoAt offset).rows = item.1.1.2.length ∧
      (item.infoAt offset).k = widthOf item.1.1.2 := ⟨rfl, rfl⟩
  rw [JointSaltBundleReader.decodeRows, hreaderCode, hreaderPlanes, hinfo.1, hinfo.2,
    checkedMul_of_lt hfits, okOr_bind, ← hcount, hdecode, mapErr_ok, ok_bind, hextracted, hpack]
  rfl

end

theorem directoryFrom_entrySizes (offset : ℕ) (items : List Item) :
    (directoryFrom offset items).map JointTensorInfo.entrySize =
      items.map fun item => dirFixedBytes + (utf8 item.1.1.1).length := by
  have hnames := congrArg (map fun name => dirFixedBytes + (utf8 name).length)
    (directoryFrom_names offset items)
  rw [map_map, map_map] at hnames
  exact hnames

section

variable (hlayout : Layout ι tensors rotationGroup bytes planes code items)

include hlayout

theorem Layout.codeLengths : CodeLengths planes code.lengths :=
  (fromLengths_eq_ok_iff.mp hlayout.code_eq).1

theorem Layout.front_length :
    (bundleFront planes rotationGroup code items).length = payloadStart planes items := by
  have hheader : (bundleHeader planes rotationGroup items.length).length = headerBytes := by
    rfl
  rw [bundleFront, length_append, length_append, hheader, length_map,
    hlayout.codeLengths.length_eq, length_flatMap]
  simp only [JointTensorInfo.bytes_length]
  rw [directoryFrom_entrySizes, payloadStart]

theorem Layout.length_eq :
    bytes.length = payloadStart planes items + (items.flatMap Item.payload).length := by
  rw [hlayout.bytes_eq, length_append, hlayout.front_length]

theorem Layout.payload_split {before after : List Item} (hsplit : items = before ++ item :: after) :
    bytes = (bundleFront planes rotationGroup code items ++ before.flatMap Item.payload) ++
      (item.1.2.scales ++ (item.2.bits ++ after.flatMap Item.payload)) := by
  have hpayloads : items.flatMap Item.payload = before.flatMap Item.payload ++
      (item.1.2.scales ++ (item.2.bits ++ after.flatMap Item.payload)) := by
    simp [hsplit, Item.payload]
  simp [hlayout.bytes_eq, hpayloads]

theorem Layout.enters (hrecordable : Recordable tensors rotationGroup) :
    ∀ info ∈ directoryFrom (payloadStart planes items) items,
      info.Enters planes bytes.length := by
  intro info hinfo
  obtain ⟨before, item, after, hsplit, rfl⟩ := exists_of_mem_directoryFrom hinfo
  have hmem : item ∈ items := by
    rw [hsplit]
    simp
  have hwritten := hlayout.written item hmem
  have htensor : item.1.1 ∈ tensors := by
    rw [← hlayout.tensors_eq]
    exact mem_map_of_mem hmem
  obtain ⟨hrows, hwidth⟩ := hrecordable.counts _ htensor
  have hlength := congrArg length (hlayout.payload_split hsplit)
  rw [length_append, length_append, length_append, length_append, hlayout.front_length] at hlength
  refine ⟨⟨hrows, hwidth, hwritten.scales_length⟩, hwritten.name_lt, ?_⟩
  simp only [Item.infoAt]
  omega

end

theorem readRotation_eq (hrotation : rotationGroup ≠ some 0) :
    (if (rotationGroup.getD 0).toNat ≠ 0 then some (UInt16.ofNat (rotationGroup.getD 0).toNat)
      else none) = rotationGroup := by
  cases rotationGroup with
  | none => rfl
  | some group =>
    have hne : group.toNat ≠ 0 := by
      intro hzero
      exact hrotation (congrArg some (UInt16.toNat_inj.mp hzero))
    rw [Option.getD_some, if_pos hne, UInt16.ofNat_toNat]

theorem readLengths_eq (hlengths : CodeLengths planes lengths) :
    (lengths.map UInt8.ofNat).map UInt8.toNat = lengths := by
  rw [map_map]
  apply (map_congr_left _).trans (map_id lengths)
  intro length hlength
  have hshort : length ≤ 15 := (le_longest hlength).trans hlengths.le_max
  rw [Function.comp_apply, UInt8.toNat_ofNat', Nat.mod_eq_of_lt (by omega), id]

variable {σ : Type} {source : Seekable σ ι} {stands : ℕ → σ → Prop} {symbols : List ℕ}

section

variable (hserves : source.Serves bytes stands)
  (hlayout : Layout ι tensors rotationGroup bytes planes code items)
  (hrecordable : Recordable tensors rotationGroup)

include hserves hlayout hrecordable

/-- The reader admits a bundle whose tensors the format can record. -/
theorem Layout.newStrict_implements (hbound : bytes.length < 2 ^ 64) :
    Implements (Ready stands) (JointSaltBundleReader.newStrict source)
      (.ok ⟨planes, rotationGroup, code, directoryFrom (payloadStart planes items) items⟩) := by
  rintro state ⟨position, hstate⟩
  obtain ⟨middle, hend, hmiddle⟩ := hserves.seekEnd hstate
  obtain ⟨start, hstart, hfront⟩ := hserves.seekStart hmiddle (Nat.zero_le _)
  set entries := directoryFrom (payloadStart planes items) items with hentries
  have hlengths := hlayout.codeLengths
  have hplanes := hlengths.planes
  have hmax : maxJointPlanes = 9 := rfl
  have hrotation : (rotationGroup.getD 0).toNat < 256 ^ 2 := UInt16.toNat_lt _
  have hcount : items.length < 256 ^ 4 := hlayout.count_le.trans_lt (by decide)
  have hnames : (entries.map JointTensorInfo.name).Nodup := by
    have htensors := hrecordable.names
    rw [← hlayout.tensors_eq, map_map] at htensors
    rw [hentries, directoryFrom_names]
    exact htensors
  have hroom : headerBytes + 3 ^ planes + (entries.map JointTensorInfo.entrySize).sum =
      payloadStart planes items := by
    rw [hentries, directoryFrom_entrySizes, payloadStart]
  have hlength := hlayout.length_eq
  have hplaced : entries.foldlM checkPlacement (payloadStart planes items) =
      (.ok bytes.length : Outcome (JointBundleError ι) ℕ) := by
    rw [hlength] at hbound ⊢
    exact foldlM_checkPlacement_eq items hbound
  have hdirectory : Parses bytes stands (readDirectory source planes bytes.length entries.length
      (headerBytes + 3 ^ planes)) (entries.flatMap JointTensorInfo.bytes) entries := by
    have henters : ∀ info ∈ entries, _ := hlayout.enters hrecordable
    apply readDirectory_parses hserves hbound hplanes.1 henters hnames
    · omega
    · rw [hroom]
      exact hplaced
  rw [hentries, directoryFrom_length, ← hentries] at hdirectory
  have hcontent : bytes = [] ++ ((saltJointBundleMagic ++ (leBytes 1 saltJointBundleVersion ++
      (leBytes 1 planes ++ (leBytes 2 (rotationGroup.getD 0).toNat ++ (leBytes 4 items.length ++
        (code.lengths.map UInt8.ofNat ++ entries.flatMap JointTensorInfo.bytes)))))) ++
      items.flatMap Item.payload) := by
    rw [hlayout.bytes_eq]
    rfl
  rw [JointSaltBundleReader.newStrict, bind_apply_ok (mapErr_apply_ok hend _),
    bind_apply_ok (mapErr_apply_ok hstart _)]
  refine Parses.answer ?_ hcontent hfront
  refine (readBuffer_parses hserves saltJointBundleMagic).bind ?_
  refine (readUint_parses hserves (by decide)).bind ?_
  refine (readUint_parses hserves (by omega)).bind ?_
  rw [if_neg (by omega)]
  refine (readUint_parses hserves hrotation).bind ?_
  refine (readUint_parses hserves hcount).bind ?_
  rw [if_neg (not_lt.mpr hlayout.count_le), ← hlengths.length_eq,
    ← @length_map _ _ code.lengths UInt8.ofNat]
  refine (readBuffer_parses hserves _).bind ?_
  rw [readLengths_eq hlengths, hlayout.code_eq, readRotation_eq hrecordable.rotationGroup_ne,
    length_map, hlengths.length_eq]
  exact hdirectory.map _

/-- The rows of a tensor come back from a bundle whose tensors the format can record. -/
theorem Layout.readTensor_implements (hbound : bytes.length * 8 + maxCodeLen < 2 ^ 64)
    {tensor : Tensor} (htensor : tensor ∈ tensors) :
    Implements (Ready stands)
      (JointSaltBundleReader.readTensor source
        ⟨planes, rotationGroup, code, directoryFrom (payloadStart planes items) items⟩ tensor.1)
      (.ok tensor.2) := by
  have hcounts := hrecordable.counts tensor htensor
  have hnames := hrecordable.names
  rw [← hlayout.tensors_eq] at htensor hnames
  obtain ⟨item, hitem, rfl⟩ := mem_map.mp htensor
  obtain ⟨before, after, hsplit, hmem⟩ := exists_mem_directoryFrom (payloadStart planes items) hitem
  have hwritten := hlayout.written item hitem
  have hcontent := hlayout.payload_split hsplit
  have hlength := congrArg length hcontent
  simp only [length_append] at hlength
  have hfound : (directoryFrom (payloadStart planes items) items).find?
      (fun info => info.name = item.1.1.1) =
        some (item.infoAt (payloadStart planes items + (before.flatMap Item.payload).length)) := by
    apply find?_key_of_nodup JointTensorInfo.name _ hmem
    rw [directoryFrom_names]
    rwa [map_map] at hnames
  have hoffset : (item.infoAt
      (payloadStart planes items + (before.flatMap Item.payload).length)).payloadOffset =
        (bundleFront planes rotationGroup code items ++ before.flatMap Item.payload).length := by
    rw [length_append, hlayout.front_length]
    rfl
  rw [JointSaltBundleReader.readTensor, JointSaltBundleReader.tensorInfo, hfound,
    okOr_some, lift_ok_bind]
  rintro state ⟨position, hstate⟩
  have hinside : (item.infoAt
      (payloadStart planes items + (before.flatMap Item.payload).length)).payloadOffset ≤
        bytes.length := by
    rw [hoffset, length_append]
    omega
  obtain ⟨start, hstart, hfront⟩ := hserves.seekStart hstate hinside
  rw [bind_apply_ok (mapErr_apply_ok hstart _)]
  rw [hoffset] at hfront
  rw [← append_assoc item.1.2.scales] at hcontent
  refine Parses.answer ?_ hcontent hfront
  rw [← append_nil item.2.bits]
  refine (readBuffer_parses hserves item.1.2.scales).bind ?_
  refine (readBuffer_parses hserves item.2.bits).bind ?_
  rw [hwritten.decodeRows_eq (canonical_of_fromLengths hlayout.code_eq) rfl rfl hcounts (by omega)]
  exact Parses.lift _

end

/-! ### What the reader returns at all -/

theorem packRow_eq_ok {state next : List SaltRow × ℕ} {row : ℕ}
    (hpack : packRow info planes scales symbols state row =
      (.ok next : Outcome (JointBundleError ι) _)) :
    ∃ rowPlanes, next.1 = state.1 ++ [⟨info.k, rowPlanes⟩] := by
  rw [packRow] at hpack
  obtain ⟨part, _, hpack⟩ := bind_eq_ok hpack
  obtain ⟨digits, _, hpack⟩ := bind_eq_ok hpack
  obtain ⟨⟨rowPlanes, position⟩, _, hresult⟩ := bind_eq_ok hpack
  exact ⟨rowPlanes, by rw [← ok.inj hresult]⟩

theorem foldlM_packRow_shape (indices : List ℕ) {state next : List SaltRow × ℕ}
    (hstate : ∀ row ∈ state.1, row.k = info.k)
    (hpack : indices.foldlM (packRow info planes scales symbols) state =
      (.ok next : Outcome (JointBundleError ι) _)) :
    next.1.length = state.1.length + indices.length ∧ ∀ row ∈ next.1, row.k = info.k := by
  induction indices generalizing state with
  | nil =>
    obtain rfl := ok.inj hpack
    exact ⟨rfl, hstate⟩
  | cons index indices ih =>
    obtain ⟨middle, hfirst, hrest⟩ := foldlM_cons_eq_ok hpack
    obtain ⟨rowPlanes, hmiddle⟩ := packRow_eq_ok hfirst
    have hkept : ∀ row ∈ middle.1, row.k = info.k := by
      rw [hmiddle]
      exact forall_mem_append.mpr ⟨hstate, forall_mem_singleton.mpr rfl⟩
    obtain ⟨hlength, hrows⟩ := ih hkept hrest
    refine ⟨?_, hrows⟩
    rw [hlength, hmiddle, length_append, length_singleton, length_cons]
    omega

/-- A tensor that is returned has as many rows as its entry says, and of that width. -/
theorem decodeRows_shape {bits : List UInt8} {rows : List SaltRow}
    (hrows : reader.decodeRows info scales bits = (.ok rows : Outcome (JointBundleError ι) _)) :
    rows.length = info.rows ∧ ∀ row ∈ rows, row.k = info.k := by
  rw [JointSaltBundleReader.decodeRows] at hrows
  obtain ⟨count, _, hrows⟩ := bind_eq_ok hrows
  obtain ⟨symbols, _, hrows⟩ := bind_eq_ok hrows
  obtain ⟨⟨out, position⟩, hpack, rfl⟩ := bind_pure_eq_ok hrows
  obtain ⟨hlength, hwidth⟩ := foldlM_packRow_shape _
    (forall_mem_nil _) hpack
  rw [length_range, length_nil, zero_add] at hlength
  exact ⟨hlength, hwidth⟩

theorem readTensor_shape (hreader : reader.Admitted fileLen) (name : String) :
    Stateful.Ensures (fun rows => rows.length < 2 ^ 32 ∧ widthOf rows < 2 ^ 32)
      (JointSaltBundleReader.readTensor source reader name) := by
  refine (Stateful.Ensures.lift fun info hinfo => mem_of_find?_eq_some
    (okOr_eq_ok_iff.mp hinfo)).bind fun info hinfo =>
    (Stateful.ensures_true _).bind fun _ _ => (Stateful.ensures_true _).bind fun scales _ =>
    (Stateful.ensures_true _).bind fun bits _ => Stateful.Ensures.lift fun rows hrows => ?_
  have hfits := hreader.fits info hinfo
  obtain ⟨hlength, hwidth⟩ := decodeRows_shape hrows
  refine ⟨hlength.trans_lt hfits.rows_lt, ?_⟩
  cases rows with
  | nil => exact Nat.two_pow_pos 32
  | cons row rows => exact (hwidth row mem_cons_self).trans_lt hfits.k_lt

end Reading

/-- Opening the source and reading the tensors by name returns what was written. -/
def ReadsBack {σ ι : Type} (source : Seekable σ ι) (stands : ℕ → σ → Prop) (tensors : List Tensor)
    (rotationGroup : Option UInt16) : Prop :=
  ∃ reader, Implements (Ready stands) (JointSaltBundleReader.newStrict source) (.ok reader) ∧
    reader.rotationGroup = rotationGroup ∧
    (∀ tensor ∈ tensors, ∀ row ∈ tensor.2, row.planes.length = reader.planes) ∧
    reader.entries.map JointTensorInfo.name = tensors.map Prod.fst ∧
    ∀ tensor ∈ tensors, Implements (Ready stands)
      (JointSaltBundleReader.readTensor source reader tensor.1) (.ok tensor.2)

/-- **Joint bundles come back.** A bundle that was written reads back exactly when the format can
record it: distinct names, a rotation group that is not zero, and row counts and widths of 32
bits. The writer asks for none of the three. -/
theorem jointBundle_readsBack_iff {σ ι : Type} {tensors : List Tensor}
    {rotationGroup : Option UInt16} {bytes : List UInt8}
    (hwrite : writeJointSaltBundle tensors rotationGroup =
      (.ok bytes : Outcome (JointBundleError ι) _))
    (hbound : bytes.length * 8 + maxCodeLen < 2 ^ 64) {source : Seekable σ ι}
    {stands : ℕ → σ → Prop} (hserves : source.Serves bytes stands) {state : σ}
    (hstate : Ready stands state) :
    ReadsBack source stands tensors rotationGroup ↔ Recordable tensors rotationGroup := by
  constructor
  · rintro ⟨reader, hopen, hrotation, _, hnames, htensors⟩
    obtain ⟨position, hposition⟩ := hstate
    obtain ⟨middle, hend, _⟩ := hserves.seekEnd hposition
    obtain ⟨hanswer, hafter⟩ := hopen state ⟨position, hposition⟩
    have hadmitted := newStrict_admitted hend (Prod.ext hanswer rfl :
      JointSaltBundleReader.newStrict source state = (.ok reader, _))
    refine ⟨?_, ?_, ?_⟩
    · rw [← hnames]
      exact hadmitted.names
    · rw [← hrotation]
      exact hadmitted.rotationGroup
    · intro tensor htensor
      obtain ⟨hrows, _⟩ := htensors tensor htensor _ hafter
      exact (readTensor_shape hadmitted tensor.1).value (Prod.ext hrows rfl :
        JointSaltBundleReader.readTensor source reader tensor.1 _ = (.ok tensor.2, _))
  · intro hrecordable
    obtain ⟨planes, code, items, hlayout⟩ := exists_layout hwrite
    refine ⟨_, hlayout.newStrict_implements hserves hrecordable (by omega), rfl, ?_, ?_, ?_⟩
    · intro tensor htensor row hrow
      rw [← hlayout.tensors_eq] at htensor
      obtain ⟨item, hitem, rfl⟩ := mem_map.mp htensor
      obtain ⟨parts, hparts, _⟩ := (hlayout.written item hitem).parts
      exact hparts.planes_eq hrow
    · rw [directoryFrom_names, ← hlayout.tensors_eq, map_map]
      rfl
    · exact fun tensor htensor =>
        hlayout.readTensor_implements hserves hrecordable hbound htensor

/-- One weight in one plane: the trit 1 at scale 1. -/
def oneWeightRow : SaltRow := ⟨1, [0x56 :: replicate 63 0x55 ++ [0x00, 0x3C]]⟩

/-- The bundle of that row, under one name for each offset. -/
def oneWeightBundle (group : ℕ) (offsets : List ℕ) : List UInt8 :=
  saltJointBundleMagic ++ [1, 1] ++ leBytes 2 group ++ leBytes 4 offsets.length ++ [0, 0, 1] ++
    offsets.flatMap (fun offset => JointTensorInfo.bytes ⟨"a", 1, 1, offset, 2, 1⟩) ++
    offsets.flatMap fun _ => [0x00, 0x3C, 0x00]

/-- What is opened in memory has distinct names and no rotation group zero. -/
theorem cursor_admitted {bytes : List UInt8} {tensors : List Tensor} {rotationGroup : Option UInt16}
    (hback : ReadsBack Seekable.cursor (fun position state => state = (bytes, position)) tensors
      rotationGroup) : (tensors.map Prod.fst).Nodup ∧ rotationGroup ≠ some 0 := by
  obtain ⟨reader, hopen, hrotation, _, hnames, _⟩ := hback
  have hreader : JointSaltBundleReader.newStrict Seekable.cursor (bytes, 0) = (.ok reader, _) :=
    Prod.ext (hopen (bytes, 0) ⟨0, rfl⟩).1 rfl
  have hadmitted := newStrict_admitted rfl hreader
  rw [← hnames, ← hrotation]
  exact ⟨hadmitted.names, hadmitted.rotationGroup⟩

/-- The writer accepts a name twice, and the rotation group zero; neither comes back. -/
theorem jointBundle_not_readsBack :
    (writeJointSaltBundle [("a", [oneWeightRow]), ("a", [oneWeightRow])] none =
        (.ok (oneWeightBundle 0 [85, 88]) : Outcome (JointBundleError Unit) _) ∧
      ¬ ReadsBack Seekable.cursor
        (fun position state => state = (oneWeightBundle 0 [85, 88], position))
        [("a", [oneWeightRow]), ("a", [oneWeightRow])] none) ∧
    writeJointSaltBundle [("a", [oneWeightRow])] (some 0) =
        (.ok (oneWeightBundle 0 [50]) : Outcome (JointBundleError Unit) _) ∧
      ¬ ReadsBack Seekable.cursor
        (fun position state => state = (oneWeightBundle 0 [50], position))
        [("a", [oneWeightRow])] (some 0) := by
  refine ⟨⟨by decide +kernel, fun hback => ?_⟩, by decide +kernel, fun hback => ?_⟩
  · exact absurd (cursor_admitted hback).1 (by decide)
  · exact (cursor_admitted hback).2 rfl

theorem jointBundle_readsBack_iff_sample :
    writeJointSaltBundle [("a", [oneWeightRow])] (some 64) =
        (.ok (oneWeightBundle 64 [50]) : Outcome (JointBundleError Unit) _) ∧
      (ReadsBack Seekable.cursor (fun position state => state = (oneWeightBundle 64 [50], position))
          [("a", [oneWeightRow])] (some 64) ↔ Recordable [("a", [oneWeightRow])] (some 64)) := by
  have hwrite : writeJointSaltBundle [("a", [oneWeightRow])] (some 64) =
      (.ok (oneWeightBundle 64 [50]) : Outcome (JointBundleError Unit) _) := by decide +kernel
  exact ⟨hwrite, jointBundle_readsBack_iff hwrite (by decide) (Seekable.cursor_serves _) ⟨0, rfl⟩⟩

end Tritium.Salt
