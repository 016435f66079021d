import Tritium.Entropy.Proof.Layout

/-!
# The seekable reader refines the reader in memory

Parsing reads no byte behind the index, so the parser makes the same of a transport and of its
header and index alone. Every payload the index names lies inside the source, so both readers see
the same payload, wherever the reads before have left the source.
-/

namespace Tritium.Entropy

open List

variable {offset sourceLen : ℕ} {header : TransportHeader}

variable {bytes : List UInt8} {bound : ℕ}

theorem subslice_take {start stop : ℕ} (hstop : stop ≤ bound) :
    subslice (bytes.take bound) start stop = subslice bytes start stop := by
  have hiff : stop ≤ (bytes.take bound).length ↔ stop ≤ bytes.length := by
    rw [length_take]
    omega
  simp only [subslice, hiff, take_take, min_eq_left hstop]

theorem readField_take {width : ℕ} (hoffset : offset + width ≤ bound) :
    readField width (bytes.take bound) offset = readField width bytes offset := by
  rw [readField, readField, checkedAdd]
  by_cases hsmall : offset + width < 2 ^ 64
  · rw [if_pos hsmall, okOr_bind, okOr_bind, subslice_take hoffset]
  · rw [if_neg hsmall]
    rfl

theorem readU32_take (hoffset : offset + 4 ≤ bound) :
    readU32 (bytes.take bound) offset = readU32 bytes offset := readField_take hoffset

theorem readU64_take (hoffset : offset + 8 ≤ bound) :
    readU64 (bytes.take bound) offset = readU64 bytes offset := readField_take hoffset

theorem index_take {position : ℕ} (hposition : position < bound) :
    (Outcome.index (bytes.take bound) position : Outcome EntropyTransportError UInt8) =
      Outcome.index bytes position := by
  rw [Outcome.index, Outcome.index, getElem?_take_of_lt hposition]

theorem parseHeader_take (hbound : headerBytes ≤ bound) :
    parseHeader (bytes.take bound) = parseHeader bytes := by
  have hheader : headerBytes = 36 := rfl
  have hlength : (bytes.take bound).length < headerBytes ↔ bytes.length < headerBytes := by
    rw [length_take]
    omega
  simp only [parseHeader, hlength, take_take, min_eq_left (by omega : 4 ≤ bound),
    index_take (by omega : 4 < bound), index_take (by omega : 5 < bound),
    index_take (by omega : 6 < bound), index_take (by omega : 7 < bound),
    readU64_take (by omega : 8 + 8 ≤ bound), readU32_take (by omega : 16 + 4 ≤ bound),
    readU64_take (by omega : 20 + 8 ≤ bound), readU64_take (by omega : 28 + 8 ≤ bound)]

theorem parseEntry_take {index : ℕ} (cursor : EntryCursor)
    (hbound : header.indexOffset + index * indexEntryBytes + indexEntryBytes ≤ bound) :
    parseEntry (bytes.take bound) sourceLen header cursor index =
      parseEntry bytes sourceLen header cursor index := by
  have hentry : indexEntryBytes = 60 := rfl
  rw [parseEntry, parseEntry]
  rw [readU64_take (by omega), readU64_take (by omega), readU32_take (by omega),
    readU32_take (by omega), getElem?_take_of_lt (by omega), subslice_take (by omega),
    subslice_take (by omega)]

/-! ### What an accepted transport satisfies -/

def declaredIndexBytes (bytes : List UInt8) : ℕ := ofLeBytes ((bytes.take headerBytes).drop 28)

theorem readU64_indexBytes (hlength : headerBytes ≤ bytes.length) :
    readU64 bytes 28 = .ok (declaredIndexBytes bytes) := by
  have hfield : subslice bytes 28 headerBytes = some ((bytes.take headerBytes).drop 28) :=
    subslice_eq_some_iff.mpr ⟨by decide, hlength, rfl⟩
  have hsum : checkedAdd 64 28 8 = some headerBytes := rfl
  rw [readU64, readField, hsum, okOr_bind, hfield, okOr_bind, declaredIndexBytes, pure_eq_ok]

theorem parseHeader_ok (hheader : parseHeader bytes = .ok header) :
    headerBytes ≤ bytes.length ∧ header.indexBytes = declaredIndexBytes bytes := by
  simp only [parseHeader, refuse_eq_ok_iff, bind_eq_ok_iff, pure_eq_ok, ok.injEq, not_or,
    not_lt] at hheader
  obtain ⟨⟨hlength, _⟩, _, _, _, _, _, _, _, _, _, _, _, _, _, _, _, _, _, _, _, indexBytes,
    hindexBytes, rfl⟩ := hheader
  rw [readU64_indexBytes hlength, ok.injEq] at hindexBytes
  exact ⟨hlength, hindexBytes.symm⟩

/-- Every payload the entries name ends inside the source. -/
def PayloadsWithin (sourceLen : ℕ) (chunks : List EntropyChunkInfo) : Prop :=
  ∀ info ∈ chunks, info.payloadOffset + info.payloadLen ≤ sourceLen

theorem parseEntry_payloadsWithin {index : ℕ}
    {cursor next : EntryCursor} (hnext : parseEntry bytes sourceLen header cursor index = .ok next)
    (hcursor : PayloadsWithin sourceLen cursor.chunks) : PayloadsWithin sourceLen next.chunks := by
  simp only [parseEntry, bind_eq_ok_iff, refuse_eq_ok_iff, pure_eq_ok, ok.injEq] at hnext
  obtain ⟨_, _, _, _, _, _, _, _, _, _, _, _, _, _, _, _, _, _, payloadEnd, hpayloadEnd, hwithin, _, _,
    _, _, rfl⟩ := hnext
  obtain ⟨_, hsum⟩ := checkedAdd_eq_ok hpayloadEnd
  intro info hinfo
  obtain hold | hnew := mem_append.mp hinfo
  · exact hcursor info hold
  · rw [mem_singleton.mp hnew]
    rw [hsum]
    omega

/-- An accepted transport has the index its header declares, and all payloads inside. -/
theorem parseTransportMetadata_ok {metadata : TransportMetadata}
    (hmetadata : parseTransportMetadata bytes sourceLen = .ok metadata) :
    headerBytes ≤ bytes.length ∧ headerBytes + declaredIndexBytes bytes ≤ bytes.length ∧
      PayloadsWithin sourceLen metadata.chunks := by
  rw [parseTransportMetadata] at hmetadata
  obtain ⟨_, hheader, hmetadata⟩ := bind_eq_ok hmetadata
  obtain ⟨hlength, hindexBytes⟩ := parseHeader_ok hheader
  obtain ⟨expected, _, hmetadata⟩ := bind_eq_ok hmetadata
  obtain ⟨hcanonical, hmetadata⟩ := refuse_eq_ok hmetadata
  obtain ⟨payloadStart, hpayloadStart, hmetadata⟩ := bind_eq_ok hmetadata
  obtain ⟨hshort, hmetadata⟩ := refuse_eq_ok hmetadata
  obtain ⟨_, hmetadata⟩ := refuse_eq_ok hmetadata
  obtain ⟨cursor, hcursor, hmetadata⟩ := bind_eq_ok hmetadata
  obtain ⟨_, hmetadata⟩ := refuse_eq_ok hmetadata
  rw [pure_eq_ok, ok.injEq] at hmetadata
  obtain ⟨_, hsum⟩ := checkedAdd_eq_ok hpayloadStart
  rw [not_or, not_not] at hcanonical
  refine ⟨hlength, ?_, ?_⟩
  · omega
  · rw [← hmetadata]
    refine Outcome.foldlM_kept (fun cursor hwithin index _ next hnext =>
      parseEntry_payloadsWithin hnext hwithin) ?_ hcursor
    exact forall_mem_nil _

/-- The header and the index alone are parsed like the whole transport. -/
theorem parseTransportMetadata_take
    (hindex : headerBytes + declaredIndexBytes bytes ≤ bytes.length) :
    parseTransportMetadata (bytes.take (headerBytes + declaredIndexBytes bytes)) sourceLen =
      parseTransportMetadata bytes sourceLen := by
  rw [parseTransportMetadata, parseHeader_take (Nat.le_add_right _ _)]
  apply bind_congr_ok
  intro header hheader
  obtain ⟨_, hindexBytes⟩ := parseHeader_ok hheader
  rw [← hindexBytes] at hindex ⊢
  apply bind_congr_ok
  intro expected hexpected
  obtain ⟨_, _⟩ := checkedMul_eq_ok hexpected
  by_cases hcanonical : header.indexOffset ≠ headerBytes ∨ header.indexBytes ≠ expected
  · rw [if_pos hcanonical, if_pos hcanonical]
  · rw [if_neg hcanonical, if_neg hcanonical]
    apply bind_congr_ok
    intro payloadStart hpayloadStart
    obtain ⟨_, _⟩ := checkedAdd_eq_ok hpayloadStart
    have hshort : ¬(bytes.take (headerBytes + header.indexBytes)).length < payloadStart := by
      rw [length_take]
      omega
    rw [if_neg hshort, if_neg (by omega : ¬bytes.length < payloadStart), Outcome.foldlM_congr_mem]
    intro cursor index hmem
    apply parseEntry_take
    have hindexLt := mem_range.mp hmem
    have hentries : (index + 1) * indexEntryBytes ≤ header.chunkCount * indexEntryBytes :=
      Nat.mul_le_mul_right _ hindexLt
    rw [Nat.succ_mul] at hentries
    omega

def IndexWithin (content : List UInt8) : Prop :=
  content.length < 2 ^ 64 ∧ headerBytes ≤ content.length ∧
    headerBytes + declaredIndexBytes content ≤ content.length

section Source

variable {source : Source}

theorem seekEnd_of_lt (hsmall : source.content.length < 2 ^ 64) :
    Source.seekEnd source =
      (.ok source.content.length, { source with position := source.content.length }) := by
  rw [Source.seekEnd, tryInto_of_lt hsmall, okOr_some]

theorem seekStart_eq (position : ℕ) :
    Source.seekStart position source = (.ok (), { source with position }) := rfl

theorem readExact_of_le {count : ℕ} (hcount : source.position + count ≤ source.content.length) :
    Source.readExact count source = (.ok ((source.content.drop source.position).take count),
      { source with position := source.position + count }) :=
  if_pos (Or.inr hcount)

theorem readSourceMetadata_header (hsmall : source.content.length < 2 ^ 64)
    (hlength : headerBytes ≤ source.content.length) :
    readSourceMetadata source = readSourceIndex source.content.length
      (source.content.take headerBytes) (declaredIndexBytes source.content)
      { source with position := headerBytes } := by
  have hheader : Source.readExact headerBytes { source with position := 0 } =
      (.ok (source.content.take headerBytes), { source with position := headerBytes }) := by
    rw [readExact_of_le (by rw [zero_add]; exact hlength), drop_zero, zero_add]
  have hindexBytes : readU64 (source.content.take headerBytes) 28 =
      .ok (declaredIndexBytes source.content) := by
    rw [readU64_take (by decide), readU64_indexBytes hlength]
  rw [readSourceMetadata, bind_apply_ok (seekEnd_of_lt hsmall),
    bind_apply_ok (seekStart_eq ..), bind_apply_ok hheader, hindexBytes, lift_ok_bind]

theorem readSourceMetadata_of_within (hwithin : IndexWithin source.content) :
    readSourceMetadata source = (parseTransportMetadata source.content source.content.length,
      { source with position := headerBytes + declaredIndexBytes source.content }) := by
  obtain ⟨hsmall, hlength, hindex⟩ := hwithin
  have hjoin : source.content.take headerBytes ++
      (source.content.drop headerBytes).take (declaredIndexBytes source.content) =
        source.content.take (headerBytes + declaredIndexBytes source.content) :=
    (take_add ..).symm
  rw [readSourceMetadata_header hsmall hlength, readSourceIndex, checkedAdd_of_lt (by omega),
    okOr_some, lift_ok_bind, if_neg (not_lt.mpr hindex),
    bind_apply_ok (readExact_of_le hindex), hjoin, parseTransportMetadata_take hindex]
  rfl

/-- A source without room for its header and index is refused, whatever the parser would say. -/
theorem readSourceMetadata_of_not_within (hwithin : ¬IndexWithin source.content) :
    ∃ error, (readSourceMetadata source).1 = .err error := by
  by_cases hsmall : source.content.length < 2 ^ 64
  · by_cases hlength : headerBytes ≤ source.content.length
    · have hindex : source.content.length < headerBytes + declaredIndexBytes source.content := by
        by_contra hle
        exact hwithin ⟨hsmall, hlength, Nat.le_of_not_lt hle⟩
      rw [readSourceMetadata_header hsmall hlength, readSourceIndex, checkedAdd]
      by_cases hfits : headerBytes + declaredIndexBytes source.content < 2 ^ 64
      · rw [if_pos hfits, okOr_some, lift_ok_bind, if_pos hindex]
        exact ⟨_, rfl⟩
      · rw [if_neg hfits]
        exact ⟨_, rfl⟩
    · have hheader : Source.readExact headerBytes { source with position := 0 } =
          (.err .truncated, { source with position := source.content.length }) := by
        apply if_neg
        rw [not_or]
        exact ⟨by decide, hlength⟩
      rw [readSourceMetadata, bind_apply_ok (seekEnd_of_lt hsmall),
        bind_apply_ok (seekStart_eq ..), bind_apply_err hheader]
      exact ⟨_, rfl⟩
  · have hseek : Source.seekEnd source =
        (.err .truncated, { source with position := source.content.length }) := by
      rw [Source.seekEnd, tryInto, if_neg hsmall, Outcome.okOr_none]
    rw [readSourceMetadata, bind_apply_err hseek]
    exact ⟨_, rfl⟩

end Source

theorem readEntropyTransport_eq_ok_iff {transport : EntropyTransport} :
    readEntropyTransport bytes = .ok transport ↔
      IndexWithin bytes ∧ parseTransportMetadata bytes bytes.length =
        .ok transport.toTransportMetadata ∧ transport.bytes = bytes := by
  simp only [readEntropyTransport, bind_eq_ok_iff, okOr_eq_ok_iff, tryInto_eq_some_iff, pure_eq_ok,
    ok.injEq]
  constructor
  · rintro ⟨_, ⟨hsmall, rfl⟩, metadata, hmetadata, rfl⟩
    obtain ⟨hlength, hindex, _⟩ := parseTransportMetadata_ok hmetadata
    exact ⟨⟨hsmall, hlength, hindex⟩, hmetadata, rfl⟩
  · rintro ⟨⟨hsmall, _, _⟩, hmetadata, rfl⟩
    exact ⟨_, ⟨hsmall, rfl⟩, _, hmetadata, rfl⟩

theorem readEntropyTransportSeekable_eq_ok_iff {source : Source}
    {transport : SeekableEntropyTransport} :
    readEntropyTransportSeekable source = .ok transport ↔
      IndexWithin source.content ∧ parseTransportMetadata source.content source.content.length =
        .ok transport.toTransportMetadata ∧ transport.source =
        { source with position := headerBytes + declaredIndexBytes source.content } := by
  rw [readEntropyTransportSeekable]
  by_cases hwithin : IndexWithin source.content
  · rw [readSourceMetadata_of_within hwithin]
    cases hmetadata : parseTransportMetadata source.content source.content.length with
    | ok metadata =>
      obtain ⟨_, _⟩ := transport
      simp [hwithin, eq_comm]
    | err error => simp
    | panic => simp
  · obtain ⟨error, herror⟩ := readSourceMetadata_of_not_within hwithin
    have hrefused : readSourceMetadata source =
        (.err error, (readSourceMetadata source).2) := Prod.ext herror rfl
    rw [hrefused]
    simp [hwithin]

def Source.Holds (content : List UInt8) (source : Source) : Prop := source.content = content

/-- The seekable reader serves the transport that the other reader holds in memory. -/
structure Serves (transport : EntropyTransport) (reader : SeekableEntropyTransport) : Prop where
  metadata : reader.toTransportMetadata = transport.toTransportMetadata
  content : Source.Holds transport.bytes reader.source

section Reading

open Stateful

theorem readRangeWith_implements {σ : Type} {invariant : σ → Prop}
    {readChunk : ℕ → Stateful σ EntropyTransportError (List UInt8)}
    {readChunk' : ℕ → Outcome EntropyTransportError (List UInt8)}
    (hchunk : ∀ index, Implements invariant (readChunk index) (readChunk' index))
    (logicalLen chunkSize offset len : ℕ) :
    Implements invariant
      (readRangeWith lift readChunk logicalLen chunkSize offset len)
      (readRangeWith id readChunk' logicalLen chunkSize offset len) := by
  apply Implements.bind (.lift _)
  intro stop _
  apply Implements.ite (.lift _)
  apply Implements.ite (.lift _)
  apply Implements.foldlM
  intro out index
  apply Implements.bind (hchunk index)
  intro chunk _
  apply Implements.bind (.lift _)
  intro part _
  exact Implements.pure _

variable {digest : List UInt8 → Digest} {transport : EntropyTransport}
  (hsmall : transport.bytes.length < 2 ^ 64)
  (hpayloads : PayloadsWithin transport.bytes.length transport.chunks)

include hsmall hpayloads

theorem readChunkPayload_implements (index : ℕ) :
    Implements (Source.Holds transport.bytes)
      (SeekableEntropyTransport.readChunkPayload digest transport.toTransportMetadata index)
      (transport.readChunk digest index) := by
  apply Implements.bind (.lift _)
  intro info hinfo source hsource
  have hmem : info ∈ transport.chunks := mem_of_getElem? (okOr_eq_ok_iff.mp hinfo)
  have hpayload := hpayloads info hmem
  have hread : Source.readExact info.payloadLen { source with position := info.payloadOffset } =
      (.ok ((transport.bytes.take (info.payloadOffset + info.payloadLen)).drop info.payloadOffset),
        { source with position := info.payloadOffset + info.payloadLen }) := by
    rw [Source.Holds] at hsource
    rw [← hsource] at hpayload ⊢
    rw [readExact_of_le hpayload, take_drop]
  have hslice : subslice transport.bytes info.payloadOffset (info.payloadOffset + info.payloadLen) =
      some ((transport.bytes.take (info.payloadOffset + info.payloadLen)).drop
        info.payloadOffset) :=
    subslice_eq_some_iff.mpr ⟨Nat.le_add_right _ _, hpayload, rfl⟩
  rw [bind_apply_ok (seekStart_eq ..), bind_apply_ok hread, checkedAdd_of_lt (by omega),
    okOr_bind, hslice]
  exact Implements.bind (.lift _) (fun codec _ => .lift _) _ hsource

theorem readChunk_implements (index : ℕ) :
    Implements (Serves transport) (SeekableEntropyTransport.readChunk digest index)
      (transport.readChunk digest index) := by
  intro reader hreader
  rw [SeekableEntropyTransport.readChunk, hreader.metadata]
  obtain ⟨hanswer, hcontent⟩ := readChunkPayload_implements hsmall hpayloads index
    reader.source hreader.content
  exact ⟨hanswer, hreader.metadata, hcontent⟩

theorem readRange_implements (offset len : ℕ) :
    Implements (Serves transport) (SeekableEntropyTransport.readRange digest offset len)
      (transport.readRange digest offset len) := by
  intro reader hreader
  have hlogicalLen : reader.logicalLen = transport.logicalLen :=
    congrArg TransportMetadata.logicalLen hreader.metadata
  have hchunkSize : reader.chunkSize = transport.chunkSize :=
    congrArg TransportMetadata.chunkSize hreader.metadata
  rw [SeekableEntropyTransport.readRange, hlogicalLen, hchunkSize]
  exact readRangeWith_implements (readChunk_implements hsmall hpayloads) _ _ offset len reader
    hreader

/-! ### Whole sessions -/

inductive ReadRequest where
  | chunk (index : ℕ)
  | range (offset len : ℕ)
deriving DecidableEq, Repr

def EntropyTransport.answer (digest : List UInt8 → Digest) (transport : EntropyTransport) :
    ReadRequest → Outcome EntropyTransportError (List UInt8)
  | .chunk index => transport.readChunk digest index
  | .range offset len => transport.readRange digest offset len

def SeekableEntropyTransport.answer (digest : List UInt8 → Digest) :
    ReadRequest → Stateful SeekableEntropyTransport EntropyTransportError (List UInt8)
  | .chunk index => SeekableEntropyTransport.readChunk digest index
  | .range offset len => SeekableEntropyTransport.readRange digest offset len

theorem answer_implements (request : ReadRequest) :
    Implements (Serves transport) (SeekableEntropyTransport.answer digest request)
      (transport.answer digest request) := by
  cases request with
  | chunk index => exact readChunk_implements hsmall hpayloads index
  | range offset len => exact readRange_implements hsmall hpayloads offset len

end Reading

/-- **The seekable reader refines the reader in memory.** Over every source, from any position, the
one opens exactly when the other accepts the content. Every session of reads then gets the same
answers from both, errors and reads after errors included. -/
theorem readEntropyTransportSeekable_agrees (digest : List UInt8 → Digest) (source : Source) :
    ((∃ reader, readEntropyTransportSeekable source = .ok reader) ↔
      ∃ transport, readEntropyTransport source.content = .ok transport) ∧
    ∀ reader transport, readEntropyTransportSeekable source = .ok reader →
      readEntropyTransport source.content = .ok transport →
      ∀ requests, Stateful.answers (SeekableEntropyTransport.answer digest) requests reader =
        requests.map (transport.answer digest) := by
  refine ⟨⟨?_, ?_⟩, ?_⟩
  · rintro ⟨reader, hreader⟩
    obtain ⟨hwithin, hmetadata, _⟩ := readEntropyTransportSeekable_eq_ok_iff.mp hreader
    exact ⟨{ reader.toTransportMetadata with bytes := source.content },
      readEntropyTransport_eq_ok_iff.mpr ⟨hwithin, hmetadata, rfl⟩⟩
  · rintro ⟨transport, htransport⟩
    obtain ⟨hwithin, hmetadata, _⟩ := readEntropyTransport_eq_ok_iff.mp htransport
    exact ⟨⟨transport.toTransportMetadata, _⟩,
      readEntropyTransportSeekable_eq_ok_iff.mpr ⟨hwithin, hmetadata, Eq.refl _⟩⟩
  · intro reader transport hreader htransport requests
    obtain ⟨_, hmetadata, hsource⟩ := readEntropyTransportSeekable_eq_ok_iff.mp hreader
    obtain ⟨⟨hsmall, _⟩, hmetadata', hbytes⟩ := readEntropyTransport_eq_ok_iff.mp htransport
    obtain ⟨_, _, hpayloads⟩ := parseTransportMetadata_ok hmetadata'
    rw [← hbytes] at hsmall hpayloads
    have hserves : Serves transport reader := by
      rw [hmetadata, ok.injEq] at hmetadata'
      refine ⟨hmetadata', ?_⟩
      rw [Source.Holds, hsource, hbytes]
    exact Stateful.Implements.answers (answer_implements hsmall hpayloads) requests hserves

/-- A transport of one stored chunk, opened from the middle of its source. -/
theorem readEntropyTransportSeekable_agrees_stored :
    let digest : List UInt8 → Digest := fun _ => ⟨replicate 32 9, rfl⟩
    let content : List UInt8 :=
      [0x54, 0x52, 0x4E, 0x53, 2, 0, 6, 0] ++ leBytes 8 2 ++ leBytes 4 1 ++ leBytes 8 36 ++
        leBytes 8 60 ++ leBytes 8 0 ++ leBytes 8 96 ++ leBytes 4 2 ++ leBytes 4 2 ++ [0, 0, 0, 0] ++
        replicate 32 9 ++ [5, 7]
    ∃ reader, readEntropyTransportSeekable ⟨content, 50⟩ = .ok reader ∧
      Stateful.answers (SeekableEntropyTransport.answer digest)
        [.range 1 1, .chunk 1, .chunk 0] reader =
        [.ok [7], .err (.chunkOutOfRange 1), .ok [5, 7]] := by
  intro digest content
  let transport : EntropyTransport :=
    { logicalLen := 2, chunkSize := 64, bytes := content, codecs := [.raw]
      chunks := [⟨0, 96, 2, 2, false, digest []⟩] }
  have htransport : readEntropyTransport content = .ok transport := by decide +kernel
  have hanswers : [.range 1 1, .chunk 1, .chunk 0].map (transport.answer digest) =
      [.ok [7], .err (.chunkOutOfRange 1), .ok [5, 7]] := by decide +kernel
  obtain ⟨hopens, hagrees⟩ := readEntropyTransportSeekable_agrees digest ⟨content, 50⟩
  obtain ⟨reader, hreader⟩ := hopens.mpr ⟨transport, htransport⟩
  exact ⟨reader, hreader, (hagrees reader transport hreader htransport _).trans hanswers⟩

end Tritium.Entropy
