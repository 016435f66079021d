import Tritium.Entropy.Proof.Layout

/-!
# The transport round trip

Every position of the written transport is a function of a chunk's index: its entry stands at a
multiple of the entry width behind the header, and its payload behind the payloads of the chunks
before it. Parsing and reading recover the chunks from these positions, and a range is the
concatenation of the parts of the chunks it meets.
-/

namespace Tritium.Entropy

open List

variable {index stop offset : ℕ} {α : Type} {bytes : List UInt8}

/-- The smallest of the three encodings is no longer than the chunk, and decodes to it. -/
theorem encodeChunk_eq (hbytes : bytes ≠ []) (hlimit : bytes.length ≤ 2 ^ 20) :
    ∃ codec payload, encodeChunk bytes = .ok (codec, payload) ∧
      payload.length ≤ bytes.length ∧ decodePayload codec payload bytes.length = .ok bytes := by
  obtain ⟨huffman, hhuffman, hhuffmanDecodes⟩ := decodeHuffman_encodeHuffman hbytes (by omega)
  obtain ⟨rans, hrans, hransDecodes⟩ := decodeRans_encodeRans hbytes (by omega)
  rw [encodeChunk, if_neg hbytes, hhuffman, ok_bind, hrans, ok_bind]
  by_cases hsmaller : huffman.length < bytes.length
  · rw [if_pos hsmaller]
    by_cases hsmallest : rans.length < huffman.length
    · exact ⟨.rans, rans, by rw [if_pos hsmallest]; rfl, by omega, hransDecodes⟩
    · exact ⟨.huffman, huffman, by rw [if_neg hsmallest]; rfl, hsmaller.le, hhuffmanDecodes⟩
  · rw [if_neg hsmaller]
    by_cases hsmallest : rans.length < bytes.length
    · exact ⟨.rans, rans, by rw [if_pos hsmallest]; rfl, hsmallest.le, hransDecodes⟩
    · exact ⟨.raw, bytes, by rw [if_neg hsmallest]; rfl, le_rfl, if_neg (not_not.mpr rfl)⟩

theorem chunkSize_bounds_of_valid {chunkSize : ℕ}
    (hvalid : validateChunkSize chunkSize = .ok ()) : 64 ≤ chunkSize ∧ chunkSize ≤ 2 ^ 20 := by
  obtain ⟨exponent, hlow, hhigh, rfl⟩ := validateChunkSize_eq_ok_iff.mp hvalid
  exact ⟨(Nat.pow_le_pow_right Nat.two_pos hlow : 2 ^ 6 ≤ _),
    Nat.pow_le_pow_right Nat.two_pos hhigh⟩

/-- What a transport is written from: the bytes, a valid chunk size, and an encoding for every
chunk. -/
structure Layout where
  bytes : List UInt8
  chunkSize : ℕ
  codec : ℕ → EntropyTransportChunkCodec
  payload : ℕ → List UInt8
  chunkSize_valid : validateChunkSize chunkSize = .ok ()
  count_lt : bytes.length ⌈/⌉ chunkSize < 2 ^ 32
  encoded : ∀ index < bytes.length ⌈/⌉ chunkSize,
    encodeChunk ((bytes.drop (index * chunkSize)).take chunkSize) = .ok (codec index, payload index)
  payload_le : ∀ index < bytes.length ⌈/⌉ chunkSize,
    (payload index).length ≤ ((bytes.drop (index * chunkSize)).take chunkSize).length
  decodes : ∀ index < bytes.length ⌈/⌉ chunkSize,
    decodePayload (codec index) (payload index)
        ((bytes.drop (index * chunkSize)).take chunkSize).length =
      .ok ((bytes.drop (index * chunkSize)).take chunkSize)

namespace Layout

variable (layout : Layout) (digest : List UInt8 → Digest)

def count : ℕ := layout.bytes.length ⌈/⌉ layout.chunkSize

def chunk (index : ℕ) : List UInt8 :=
  (layout.bytes.drop (index * layout.chunkSize)).take layout.chunkSize

def payloadStart : ℕ := headerBytes + layout.count * indexEntryBytes

def payloadSum (index : ℕ) : ℕ := ((range index).map fun i => (layout.payload i).length).sum

def info (digest : List UInt8 → Digest) (index : ℕ) : EntropyChunkInfo where
  logicalOffset := index * layout.chunkSize
  payloadOffset := layout.payloadStart + layout.payloadSum index
  logicalLen := (layout.chunk index).length
  payloadLen := (layout.payload index).length
  huffman := decide (layout.codec index = .huffman)
  digest := digest (layout.chunk index)

def entry (digest : List UInt8 → Digest) (index : ℕ) : List UInt8 :=
  entryFields (layout.info digest index) (layout.codec index)

def image (digest : List UInt8 → Digest) : List UInt8 :=
  headerFields layout.chunkSize layout.bytes.length layout.count (layout.count * indexEntryBytes) ++
    (range layout.count).flatMap (layout.entry digest) ++
    (range layout.count).flatMap layout.payload

theorem chunkSize_bounds : 64 ≤ layout.chunkSize ∧ layout.chunkSize ≤ 2 ^ 20 :=
  chunkSize_bounds_of_valid layout.chunkSize_valid

theorem chunkSize_pos : 0 < layout.chunkSize := by
  have hbounds := layout.chunkSize_bounds
  omega

theorem lt_count_iff : index < layout.count ↔ index * layout.chunkSize < layout.bytes.length := by
  rw [count, ← not_le, ← not_le, ceilDiv_le_iff_le_mul layout.chunkSize_pos, mul_comm]

theorem length_le : layout.bytes.length ≤ layout.count * layout.chunkSize := by
  have hirrefl : ¬layout.count < layout.count := lt_irrefl _
  rw [lt_count_iff] at hirrefl
  omega

theorem length_lt : layout.bytes.length < 2 ^ 52 := by
  have hcount : layout.count < 2 ^ 32 := layout.count_lt
  calc layout.bytes.length ≤ layout.count * layout.chunkSize := layout.length_le
    _ ≤ layout.count * 2 ^ 20 := Nat.mul_le_mul_left _ layout.chunkSize_bounds.2
    _ < 2 ^ 52 := by omega

theorem chunk_length (index : ℕ) :
    (layout.chunk index).length =
      min (layout.bytes.length - index * layout.chunkSize) layout.chunkSize := by
  rw [chunk, length_take, length_drop, min_comm]

theorem payloadSum_succ (index : ℕ) :
    layout.payloadSum (index + 1) = layout.payloadSum index + (layout.payload index).length := by
  rw [payloadSum, range_succ, map_append, sum_append, map_singleton, sum_singleton, payloadSum]

theorem payloadSum_le (hindex : index ≤ layout.count) :
    layout.payloadSum index ≤ min (index * layout.chunkSize) layout.bytes.length := by
  induction index with
  | zero => exact Nat.zero_le _
  | succ index ih =>
    have hle := layout.payload_le index hindex
    have hlength := layout.chunk_length index
    rw [chunk] at hlength
    rw [payloadSum_succ, Nat.succ_mul]
    omega

/-- Every block of a concatenation stands behind the blocks before it. -/
theorem exists_flatMap_range_eq (block : ℕ → List α) {count : ℕ} (hindex : index < count) :
    ∃ after, (range count).flatMap block = (range index).flatMap block ++ block index ++ after := by
  have hsplit := flatMap_split block (by rwa [length_range] : index < (range count).length)
  rw [take_range, min_eq_left hindex.le, getElem_range] at hsplit
  exact ⟨_, hsplit⟩

theorem index_length (count : ℕ) :
    ((range count).flatMap (layout.entry digest)).length = count * indexEntryBytes := by
  rw [length_flatMap_const (f := layout.entry digest) _ fun _ _ => entryFields_length _ _,
    length_range]

theorem image_length :
    (layout.image digest).length = layout.payloadStart + layout.payloadSum layout.count := by
  rw [image, length_append, length_append, headerFields_length, index_length,
    length_flatMap, payloadStart, payloadSum]

theorem payloadStart_lt : layout.payloadStart < 2 ^ 38 := by
  have hcount : layout.count < 2 ^ 32 := layout.count_lt
  have hheader : headerBytes = 36 := rfl
  have hentry : indexEntryBytes = 60 := rfl
  rw [payloadStart, hentry]
  omega

theorem image_length_lt : (layout.image digest).length < 2 ^ 53 := by
  have hsum := layout.payloadSum_le (le_refl layout.count)
  have hlength := layout.length_lt
  have hstart := layout.payloadStart_lt
  rw [image_length]
  omega

/-- The fields of every index entry fit their widths. -/
theorem entry_bounds (hindex : index < layout.count) :
    index * layout.chunkSize < 2 ^ 52 ∧ layout.payloadStart + layout.payloadSum index < 2 ^ 53 ∧
      (layout.chunk index).length ≤ 2 ^ 20 ∧ (layout.payload index).length ≤ 2 ^ 20 := by
  have hstart := layout.payloadStart_lt
  have hlength := layout.length_lt
  have hsum := layout.payloadSum_le hindex.le
  have hoffset := (layout.lt_count_iff).mp hindex
  have hsize := layout.chunkSize_bounds
  have hchunk := layout.chunk_length index
  have hpayload : (layout.payload index).length ≤ (layout.chunk index).length :=
    layout.payload_le index hindex
  omega

variable (digest : List UInt8 → Digest)

def writer (count : ℕ) : TransportWriter where
  infos := (range count).map (layout.info digest)
  codecs := (range count).map layout.codec
  encodedChunks := (range count).map layout.payload
  payloadLen := layout.payloadSum count

theorem add_writer (hindex : index < layout.count) :
    (layout.writer digest index).add digest layout.chunkSize layout.payloadStart
        (layout.chunk index, index) = .ok (layout.writer digest (index + 1)) := by
  have hbounds := layout.entry_bounds hindex
  have hencoded : encodeChunk (layout.chunk index) = .ok (layout.codec index, layout.payload index) :=
    layout.encoded index hindex
  rw [TransportWriter.add]
  dsimp only [writer]
  rw [hencoded, ok_bind]
  dsimp only
  rw [checkedAdd_of_lt (by omega), checkedAdd_of_lt (by omega), checkedMul_of_lt (by omega),
    tryInto_of_lt (by omega), tryInto_of_lt (by omega)]
  simp only [range_succ, map_append, map_singleton, payloadSum_succ]
  rfl

theorem write_eq :
    writeEntropyTransportWithChunkSize digest layout.bytes layout.chunkSize =
      .ok (layout.image digest) := by
  have hcount : layout.count < 2 ^ 32 := layout.count_lt
  have hstart : headerBytes + layout.count * indexEntryBytes < 2 ^ 38 := layout.payloadStart_lt
  have hlength := layout.length_lt
  have hsum := layout.payloadSum_le (le_refl layout.count)
  have hchunks : (chunks layout.bytes layout.chunkSize).zipIdx =
      (range layout.count).map fun index => (layout.chunk index, index) :=
    zipIdx_map_range layout.chunk layout.count
  rw [writeEntropyTransportWithChunkSize, layout.chunkSize_valid, ok_bind, ← count]
  dsimp only
  rw [checkedMul_of_lt (by omega), okOr_bind, checkedAdd_of_lt (by omega), okOr_bind, hchunks]
  have hfold : (range layout.count).foldlM (fun writer index =>
      writer.add digest layout.chunkSize layout.payloadStart (layout.chunk index, index))
      (layout.writer digest 0) = .ok (layout.writer digest layout.count) :=
    foldlM_range_eq (layout.writer digest) fun _ => layout.add_writer digest
  rw [payloadStart] at hfold
  change (foldlM _ (layout.writer digest 0) _ >>= _) = _
  rw [foldlM_map, hfold, ok_bind, add_of_lt (by
      change headerBytes + layout.count * indexEntryBytes + layout.payloadSum layout.count < 2 ^ 64
      omega), tryInto_of_lt (by omega), tryInto_of_lt hcount]
  dsimp only [writer]
  rw [zip_map', flatMap_map, flatten_eq_flatMap, flatMap_map]
  rfl

def metadata : TransportMetadata where
  logicalLen := layout.bytes.length
  chunkSize := layout.chunkSize
  chunks := (range layout.count).map (layout.info digest)
  codecs := (range layout.count).map layout.codec

def cursor (count : ℕ) : EntryCursor where
  chunks := (range count).map (layout.info digest)
  codecs := (range count).map layout.codec
  logicalCursor := min (count * layout.chunkSize) layout.bytes.length
  payloadCursor := layout.payloadStart + layout.payloadSum count

def header : TransportHeader where
  version := entropyTransportVersion
  chunkSize := layout.chunkSize
  logicalLen := layout.bytes.length
  chunkCount := layout.count
  indexOffset := headerBytes
  indexBytes := layout.count * indexEntryBytes

theorem info_fits (hindex : index < layout.count) :
    (layout.info digest index).Fits (layout.codec index) := by
  obtain ⟨hlogical, hpayload, hchunk, hlength⟩ := layout.entry_bounds hindex
  exact ⟨hlogical.trans (by decide), hpayload.trans (by decide), hchunk.trans_lt (by decide),
    hlength.trans_lt (by decide), rfl⟩

theorem payloadSum_mono {first second : ℕ} (hle : first ≤ second) :
    layout.payloadSum first ≤ layout.payloadSum second := by
  induction hle with
  | refl => exact le_rfl
  | step _ ih =>
    rw [payloadSum_succ]
    omega

theorem parseEntry_cursor (hindex : index < layout.count) :
    parseEntry (layout.image digest) (layout.image digest).length layout.header
        (layout.cursor digest index) index = .ok (layout.cursor digest (index + 1)) := by
  have hlength := layout.length_lt
  have hoffset := (layout.lt_count_iff).mp hindex
  have hchunk := layout.chunk_length index
  have himage := layout.image_length digest
  have himageLt := layout.image_length_lt digest
  have hmono := layout.payloadSum_mono (Nat.succ_le_of_lt hindex)
  have hcount : layout.count < 2 ^ 32 := layout.count_lt
  have hheader : headerBytes = 36 := rfl
  have hentry : indexEntryBytes = 60 := rfl
  rw [payloadSum_succ] at hmono
  obtain ⟨after, hafter⟩ := exists_flatMap_range_eq (layout.entry digest) hindex
  have hbytes : layout.image digest =
      (headerFields layout.chunkSize layout.bytes.length layout.count
          (layout.count * indexEntryBytes) ++ (range index).flatMap (layout.entry digest)) ++
        entryFields (layout.info digest index) (layout.codec index) ++
        (after ++ (range layout.count).flatMap layout.payload) := by
    rw [image, hafter, ← entry]
    simp only [append_assoc]
  have hbefore : (headerFields layout.chunkSize layout.bytes.length layout.count
      (layout.count * indexEntryBytes) ++ (range index).flatMap (layout.entry digest)).length =
      headerBytes + index * indexEntryBytes := by
    rw [length_append, headerFields_length, index_length]
  have hpayloadEnd : (layout.info digest index).payloadOffset +
      (layout.info digest index).payloadLen ≤ (layout.image digest).length := by
    change layout.payloadStart + layout.payloadSum index + (layout.payload index).length ≤ _
    omega
  have hlogicalCursor : (layout.cursor digest index).logicalCursor = index * layout.chunkSize :=
    min_eq_left hoffset.le
  rw [parseEntry_eq hbytes hbefore (by
      rw [hbefore, hentry]
      omega) (layout.info_fits digest hindex) rfl
    (min_le_right _ _) hlogicalCursor.symm (by rw [hlogicalCursor]; exact hchunk) rfl hpayloadEnd
    (by omega) (by
      change index * layout.chunkSize + (layout.chunk index).length < 2 ^ 64
      omega)]
  have hnextLogical : index * layout.chunkSize + (layout.chunk index).length =
      min ((index + 1) * layout.chunkSize) layout.bytes.length := by
    rw [Nat.succ_mul]
    omega
  rw [hlogicalCursor]
  simp only [cursor, range_succ, map_append, map_singleton, payloadSum_succ,
    ← hnextLogical, ← add_assoc]
  rfl

theorem parse_image :
    parseTransportMetadata (layout.image digest) (layout.image digest).length =
      .ok (layout.metadata digest) := by
  have hcount : layout.count < 2 ^ 32 := layout.count_lt
  have hlength := layout.length_lt
  have hstart := layout.payloadStart_lt
  have himage := layout.image_length digest
  have hindexBytes : layout.count * indexEntryBytes < 2 ^ 64 := by
    rw [payloadStart] at hstart
    omega
  have hheader : parseHeader (layout.image digest) = .ok layout.header := by
    exact parseHeader_eq layout.chunkSize_valid (by omega) hcount hindexBytes
  have hfold := foldlM_range_eq (layout.cursor digest) fun _ => layout.parseEntry_cursor digest
  have hdone : ¬((layout.cursor digest layout.count).logicalCursor ≠ layout.bytes.length ∨
      (layout.cursor digest layout.count).payloadCursor ≠ (layout.image digest).length) := by
    rw [not_or, not_not, not_not]
    exact ⟨min_eq_right layout.length_le, himage.symm⟩
  have hstartCursor : layout.cursor digest 0 =
      { chunks := [], codecs := [], logicalCursor := 0, payloadCursor := layout.payloadStart } := by
    rw [cursor, zero_mul]
    rfl
  have hcanonical : ¬(layout.header.indexOffset ≠ headerBytes ∨
      layout.header.indexBytes ≠ layout.header.chunkCount * indexEntryBytes) :=
    not_or.mpr ⟨not_not.mpr rfl, not_not.mpr rfl⟩
  have hchunks : ¬layout.header.chunkCount ≠
      layout.header.logicalLen ⌈/⌉ layout.header.chunkSize := not_not.mpr rfl
  have hcounted : layout.header.chunkCount * indexEntryBytes < 2 ^ 64 := hindexBytes
  rw [parseTransportMetadata, hheader, ok_bind, checkedMul_of_lt hcounted,
    okOr_bind, if_neg hcanonical, checkedAdd_of_lt (by
      change layout.payloadStart < 2 ^ 64
      omega), okOr_bind, if_neg (by
      change ¬(layout.image digest).length < layout.payloadStart
      omega), if_neg hchunks]
  rw [hstartCursor] at hfold
  change (foldlM (parseEntry _ _ layout.header) ⟨[], [], 0, layout.payloadStart⟩
    (range layout.count) >>= _) = _
  rw [hfold]
  exact if_neg hdone

def transport : EntropyTransport := { layout.metadata digest with bytes := layout.image digest }

theorem readEntropyTransport_image :
    readEntropyTransport (layout.image digest) = .ok (layout.transport digest) := by
  have himage := layout.image_length_lt digest
  rw [readEntropyTransport, tryInto_of_lt (by omega), okOr_bind, layout.parse_image digest]
  rfl

theorem readChunk_transport (hindex : index < layout.count) :
    (layout.transport digest).readChunk digest index = .ok (layout.chunk index) := by
  have hinfo : (layout.transport digest).chunkInfo index = .ok (layout.info digest index) := by
    rw [TransportMetadata.chunkInfo, okOr_eq_ok_iff]
    change ((range layout.count).map (layout.info digest))[index]? = _
    rw [getElem?_map, getElem?_range hindex, Option.map_some]
  have hcodec : (Outcome.index (layout.transport digest).codecs index :
      Outcome EntropyTransportError _) = .ok (layout.codec index) := by
    rw [index_eq_ok_iff]
    change ((range layout.count).map layout.codec)[index]? = _
    rw [getElem?_map, getElem?_range hindex, Option.map_some]
  obtain ⟨after, hafter⟩ := exists_flatMap_range_eq layout.payload hindex
  have hpayload : subslice (layout.transport digest).bytes (layout.info digest index).payloadOffset
      ((layout.info digest index).payloadOffset + (layout.info digest index).payloadLen) =
        some (layout.payload index) := by
    refine subslice_of_split (?_ : layout.image digest =
      (headerFields layout.chunkSize layout.bytes.length layout.count
          (layout.count * indexEntryBytes) ++ (range layout.count).flatMap (layout.entry digest) ++
        (range index).flatMap layout.payload) ++ layout.payload index ++ after) ?_ rfl
    · rw [image, hafter]
      simp only [append_assoc]
    · rw [length_append, length_append, index_length, length_flatMap]
      rfl
  have hend : (layout.info digest index).payloadOffset + (layout.info digest index).payloadLen <
      2 ^ 64 := by
    have hbounds := layout.entry_bounds hindex
    change layout.payloadStart + layout.payloadSum index + (layout.payload index).length < 2 ^ 64
    omega
  have hdecodes : decodePayload (layout.codec index) (layout.payload index)
      (layout.info digest index).logicalLen = .ok (layout.chunk index) :=
    layout.decodes index hindex
  have hdigest : ¬digest (layout.chunk index) ≠ (layout.info digest index).digest := not_not.mpr rfl
  rw [EntropyTransport.readChunk, hinfo, ok_bind, checkedAdd_of_lt hend, okOr_bind, hpayload,
    okOr_bind, hcodec, ok_bind, decodeChunk, hdecodes, ok_bind, if_neg hdigest, pure_eq_ok]

def piece (start stop : ℕ) : List UInt8 := (layout.bytes.take stop).drop start

theorem piece_append {start middle : ℕ} (hstart : start ≤ middle) (hmiddle : middle ≤ stop)
    (hstop : stop ≤ layout.bytes.length) :
    layout.piece start middle ++ layout.piece middle stop = layout.piece start stop := by
  have hsplit := congrArg (drop start) (take_append_drop middle (layout.bytes.take stop))
  rw [take_take, min_eq_left hmiddle, drop_append_of_le_length (by rw [length_take]; omega)] at hsplit
  exact hsplit

theorem chunkPart_eq (hoffset : offset < (index + 1) * layout.chunkSize)
    (hrange : offset ≤ stop) (hstop : stop ≤ layout.bytes.length)
    (hindex : index * layout.chunkSize < stop) :
    chunkPart layout.chunkSize offset stop index (layout.chunk index) =
      .ok (layout.piece (max offset (index * layout.chunkSize))
        (min stop ((index + 1) * layout.chunkSize))) := by
  have hchunk := layout.chunk_length index
  rw [Nat.succ_mul] at hoffset ⊢
  have hto : index * layout.chunkSize + min (min (stop - index * layout.chunkSize)
      (layout.chunk index).length) layout.chunkSize =
        min stop (index * layout.chunkSize + layout.chunkSize) := by omega
  have hfrom : index * layout.chunkSize + (offset - index * layout.chunkSize) =
      max offset (index * layout.chunkSize) := by omega
  have hchunkTake : ∀ count, (layout.bytes.drop (index * layout.chunkSize)).take
      (min count layout.chunkSize) = (layout.chunk index).take count := by
    intro count
    rw [chunk, take_take]
  rw [chunkPart, sub_of_le hindex.le, ok_bind,
    slice_of_le (by omega) (min_le_right _ _), piece, ← hto, ← hfrom, ← drop_drop,
    ← take_drop, hchunkTake]

/-- A chunk of the range appends the bytes up to its end. -/
theorem readPart_transport (hrange : offset ≤ stop) (hstop : stop ≤ layout.bytes.length)
    (hoffset : offset < (index + 1) * layout.chunkSize) (hindex : index * layout.chunkSize < stop) :
    (do
      let chunk ← (layout.transport digest).readChunk digest index
      let part ← id (chunkPart layout.chunkSize offset stop index chunk)
      pure (layout.piece offset (min stop (index * layout.chunkSize)) ++ part)) =
      (.ok (layout.piece offset (min stop ((index + 1) * layout.chunkSize))) :
        Outcome EntropyTransportError _) := by
  have hcount : index < layout.count := (layout.lt_count_iff).mpr (by omega)
  have hjoin : layout.piece offset (min stop (index * layout.chunkSize)) ++
      layout.piece (max offset (index * layout.chunkSize))
        (min stop ((index + 1) * layout.chunkSize)) =
      layout.piece offset (min stop ((index + 1) * layout.chunkSize)) := by
    have hnext : (index + 1) * layout.chunkSize = index * layout.chunkSize + layout.chunkSize :=
      Nat.succ_mul _ _
    rw [min_eq_right hindex.le]
    by_cases hbefore : offset ≤ index * layout.chunkSize
    · rw [max_eq_right hbefore, layout.piece_append hbefore (by omega) (by omega)]
    · rw [max_eq_left (by omega)]
      have hempty : layout.piece offset (index * layout.chunkSize) = [] := by
        rw [piece, drop_eq_nil_iff, length_take]
        omega
      rw [hempty, nil_append]
  rw [layout.readChunk_transport digest hcount, ok_bind, id_eq,
    layout.chunkPart_eq hoffset hrange hstop hindex, ok_bind, pure_eq_ok, hjoin]

theorem readRange_transport {len : ℕ} (hrange : offset + len ≤ layout.bytes.length) :
    (layout.transport digest).readRange digest offset len =
      .ok ((layout.bytes.drop offset).take len) := by
  have hlength := layout.length_lt
  have hsize := layout.chunkSize_pos
  rw [EntropyTransport.readRange, readRangeWith, checkedAdd_of_lt (by omega)]
  change (if layout.bytes.length < offset + len then _ else _) = _
  rw [if_neg (not_lt.mpr hrange)]
  by_cases hempty : len = 0
  · rw [hempty]
    rfl
  · rw [if_neg hempty]
    have hfirstMul := Nat.div_mul_le_self offset layout.chunkSize
    have hfirstEnd := Nat.lt_div_mul_add hsize (a := offset)
    have hlastMul := Nat.div_mul_le_self (offset + len - 1) layout.chunkSize
    have hlastEnd := Nat.lt_div_mul_add hsize (a := offset + len - 1)
    have hle : offset / layout.chunkSize ≤ (offset + len - 1) / layout.chunkSize :=
      Nat.div_le_div_right (by omega)
    change (range' (offset / layout.chunkSize) ((offset + len - 1) / layout.chunkSize + 1 -
      offset / layout.chunkSize)).foldlM _ [] = _
    generalize offset / layout.chunkSize = first at *
    generalize (offset + len - 1) / layout.chunkSize = last at *
    obtain ⟨more, rfl⟩ := Nat.exists_eq_add_of_le hle
    have hstart : layout.piece offset (min (offset + len) (first * layout.chunkSize)) = [] := by
      rw [piece, drop_eq_nil_iff, length_take]
      omega
    have hcovers : offset + len ≤ (first + (more + 1)) * layout.chunkSize := by
      rw [← add_assoc, Nat.succ_mul]
      omega
    rw [add_assoc, Nat.add_sub_cancel_left, take_drop, ← hstart]
    refine (foldlM_range'_eq (fun index => layout.piece offset
      (min (offset + len) (index * layout.chunkSize))) first (more + 1)
      fun index hlow hhigh => ?_).trans ?_
    · have hlowMul := Nat.mul_le_mul_right layout.chunkSize hlow
      have hhighMul := Nat.mul_le_mul_right layout.chunkSize
        (by omega : index ≤ first + more)
      exact layout.readPart_transport digest (Nat.le_add_right offset len) hrange
        (by rw [Nat.succ_mul]; omega) (by omega)
    · rw [min_eq_left hcovers]
      rfl

theorem readRange_transport_err {len : ℕ} (hrange : ¬offset + len ≤ layout.bytes.length) :
    (layout.transport digest).readRange digest offset len = .err .rangeOutOfRange := by
  rw [EntropyTransport.readRange, readRangeWith, checkedAdd]
  by_cases hfits : offset + len < 2 ^ 64
  · rw [if_pos hfits]
    exact if_pos (Nat.lt_of_not_le hrange)
  · rw [if_neg hfits]
    rfl

end Layout

/-- Every input has a layout, at every valid chunk size that gives at most `u32::MAX` chunks. -/
theorem exists_layout {chunkSize : ℕ} (hchunkSize : validateChunkSize chunkSize = .ok ())
    (hcount : bytes.length ⌈/⌉ chunkSize < 2 ^ 32) :
    ∃ layout : Layout, layout.bytes = bytes ∧ layout.chunkSize = chunkSize := by
  obtain ⟨hsize, hlimit⟩ := chunkSize_bounds_of_valid hchunkSize
  have hencode : ∀ index < bytes.length ⌈/⌉ chunkSize, ∃ codec payload,
      encodeChunk ((bytes.drop (index * chunkSize)).take chunkSize) = .ok (codec, payload) ∧
        payload.length ≤ ((bytes.drop (index * chunkSize)).take chunkSize).length ∧
        decodePayload codec payload ((bytes.drop (index * chunkSize)).take chunkSize).length =
          .ok ((bytes.drop (index * chunkSize)).take chunkSize) := by
    intro index hindex
    have hlt : index * chunkSize < bytes.length := by
      by_contra hle
      have hceil := (ceilDiv_le_iff_le_mul (by omega)).mpr
        (by rw [mul_comm]; exact Nat.le_of_not_lt hle : bytes.length ≤ chunkSize * index)
      omega
    have hlength : ((bytes.drop (index * chunkSize)).take chunkSize).length =
        min chunkSize (bytes.length - index * chunkSize) := by
      rw [length_take, length_drop]
    exact encodeChunk_eq (ne_nil_of_length_pos (by omega)) (hlength.le.trans (by omega))
  have : Nonempty EntropyTransportChunkCodec := ⟨.raw⟩
  choose! codec payload hencoded using hencode
  exact ⟨{
    bytes, chunkSize, codec, payload
    chunkSize_valid := hchunkSize
    count_lt := hcount
    encoded := fun index hindex => (hencoded index hindex).1
    payload_le := fun index hindex => (hencoded index hindex).2.1
    decodes := fun index hindex => (hencoded index hindex).2.2 }, rfl, rfl⟩

/-- **Transport round trip.** For every input, every power-of-two chunk size between 64 and `2 ^ 20`
that gives at most `u32::MAX` chunks, and every digest, the transport is written and opened. A range
inside the input reads the bytes of the input there, any other range is out of range, and reading
everything returns the input. -/
theorem writeEntropyTransport_roundTrip (digest : List UInt8 → Digest) (bytes : List UInt8)
    (exponent : ℕ) (hmin : 64 ≤ 2 ^ exponent) (hmax : 2 ^ exponent ≤ 2 ^ 20)
    (hcount : bytes.length ⌈/⌉ 2 ^ exponent ≤ 2 ^ 32 - 1) :
    ∃ written transport,
      writeEntropyTransportWithChunkSize digest bytes (2 ^ exponent) = .ok written ∧
        readEntropyTransport written = .ok transport ∧ (∀ offset len, offset + len ≤ bytes.length →
          transport.readRange digest offset len = .ok ((bytes.drop offset).take len)) ∧
        (∀ offset len, ¬offset + len ≤ bytes.length →
          transport.readRange digest offset len = .err .rangeOutOfRange) ∧
        transport.readAll digest = .ok bytes := by
  have hchunkSize : validateChunkSize (2 ^ exponent) = .ok () := by
    have hmin' : 2 ^ 6 ≤ 2 ^ exponent := hmin
    exact validateChunkSize_eq_ok_iff.mpr ⟨exponent, (Nat.pow_le_pow_iff_right (by decide)).mp hmin',
      (Nat.pow_le_pow_iff_right (by decide)).mp hmax, rfl⟩
  obtain ⟨layout, hbytes, hsize⟩ := exists_layout hchunkSize (Nat.lt_of_le_pred (by decide) hcount)
  rw [← hbytes, ← hsize]
  refine ⟨layout.image digest, layout.transport digest, layout.write_eq digest,
    layout.readEntropyTransport_image digest, ?_, ?_, ?_⟩
  · intro offset len hrange
    exact layout.readRange_transport digest hrange
  · intro offset len hrange
    exact layout.readRange_transport_err digest hrange
  · have hall := layout.readRange_transport digest (zero_add layout.bytes.length).le
    rwa [drop_zero, take_length] at hall

theorem writeEntropyTransport_roundTrip_twoChunks :
    ∃ written transport,
      writeEntropyTransportWithChunkSize (fun _ => ⟨replicate 32 0, rfl⟩)
          (replicate 100 7) (2 ^ 6) = .ok written ∧ readEntropyTransport written = .ok transport ∧
        (∀ offset len, offset + len ≤ (replicate 100 (7 : UInt8)).length →
          transport.readRange (fun _ => ⟨replicate 32 0, rfl⟩) offset len =
            .ok (((replicate 100 7).drop offset).take len)) ∧
        (∀ offset len, ¬offset + len ≤ (replicate 100 (7 : UInt8)).length →
          transport.readRange (fun _ => ⟨replicate 32 0, rfl⟩) offset len = .err .rangeOutOfRange) ∧
        transport.readAll (fun _ => ⟨replicate 32 0, rfl⟩) = .ok (replicate 100 7) :=
  writeEntropyTransport_roundTrip (fun _ => ⟨replicate 32 0, rfl⟩) (replicate 100 7) 6
    (by decide) (by decide) (by decide)

end Tritium.Entropy
