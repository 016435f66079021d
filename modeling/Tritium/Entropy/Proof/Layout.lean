import Tritium.Entropy.Proof.Huffman
import Tritium.Entropy.Proof.Rans
import Tritium.Entropy.Transport

/-!
# The layout of a transport

Reading a field back from where it was written, for the header and for one index entry.
-/

namespace Tritium.Entropy

open List

variable {bytes after : List UInt8} {chunkSize : ℕ} (codec : EntropyTransportChunkCodec)

theorem readField_eq {width value offset stop : ℕ}
    (hfield : subslice bytes offset stop = some (leBytes width value))
    (hvalue : value < 256 ^ width) (hsmall : stop < 2 ^ 64) :
    readField width bytes offset = .ok value := by
  obtain rfl : offset + width = stop := by
    rw [← add_length_of_subslice hfield, leBytes_length]
  rw [readField, checkedAdd_of_lt hsmall, okOr_bind, hfield,
    okOr_bind, ofLeBytes_leBytes width hvalue, pure_eq_ok]

theorem trailingZeros_two_pow : ∀ exponent < 64, trailingZeros (2 ^ exponent) = exponent := by
  decide +kernel

theorem isPowerOfTwo_two_pow (exponent : ℕ) : isPowerOfTwo (2 ^ exponent) = true := by
  simp [isPowerOfTwo]

theorem validateChunkSize_eq_ok_iff :
    validateChunkSize chunkSize = .ok () ↔
      ∃ exponent, 6 ≤ exponent ∧ exponent ≤ 20 ∧ chunkSize = 2 ^ exponent := by
  have hmin : entropyTransportMinChunkBytes = 2 ^ 6 := rfl
  have hmax : entropyTransportMaxChunkBytes = 2 ^ 20 := rfl
  rw [validateChunkSize, hmin]
  constructor
  · intro hok
    split_ifs at hok with hinvalid
    rw [not_or, not_not, Bool.not_eq_false, isPowerOfTwo, decide_eq_true_eq] at hinvalid
    obtain ⟨⟨hlow, hhigh⟩, hpower⟩ := hinvalid
    rw [hpower] at hlow hhigh
    exact ⟨Nat.log2 chunkSize, (Nat.pow_le_pow_iff_right (by decide)).mp hlow,
      (Nat.pow_le_pow_iff_right (by decide)).mp hhigh, hpower⟩
  · rintro ⟨exponent, hlow, hhigh, rfl⟩
    rw [if_neg]
    rw [not_or, not_not, isPowerOfTwo_two_pow]
    exact ⟨⟨Nat.pow_le_pow_right (by decide) hlow, Nat.pow_le_pow_right (by decide) hhigh⟩,
      Bool.true_eq_false_eq_False⟩

theorem headerFields_length (chunkSize logicalLen chunkCount indexBytes : ℕ) :
    (headerFields chunkSize logicalLen chunkCount indexBytes).length = headerBytes := by
  rfl

theorem parseHeader_eq {logicalLen chunkCount indexBytes : ℕ}
    (hchunkSize : validateChunkSize chunkSize = .ok ()) (hlogicalLen : logicalLen < 2 ^ 64)
    (hchunkCount : chunkCount < 2 ^ 32) (hindexBytes : indexBytes < 2 ^ 64) :
    parseHeader (headerFields chunkSize logicalLen chunkCount indexBytes ++ after) = .ok {
        version := entropyTransportVersion
        chunkSize, logicalLen, chunkCount
        indexOffset := headerBytes
        indexBytes } := by
  obtain ⟨exponent, _, _, hpower⟩ := validateChunkSize_eq_ok_iff.mp hchunkSize
  have hzeros : trailingZeros chunkSize = exponent := by
    rw [hpower]
    exact trailingZeros_two_pow exponent (by omega)
  have hlog : (UInt8.ofNat exponent).toNat = exponent := by
    rw [UInt8.toNat_ofNat', Nat.mod_eq_of_lt (by omega)]
  have hshift : 1 <<< (UInt8.ofNat exponent).toNat = chunkSize := by
    rw [hlog, Nat.one_shiftLeft, hpower]
  have hsmall : ¬(64 : UInt8) ≤ UInt8.ofNat exponent := by
    rw [UInt8.le_iff_toNat_le, hlog]
    change ¬64 ≤ exponent
    omega
  have hmagicLength : entropyTransportMagic.length = 4 := rfl
  have hfields : subslice (headerFields chunkSize logicalLen chunkCount indexBytes ++ after) 0 36 =
      some (headerFields chunkSize logicalLen chunkCount indexBytes) :=
    @subslice_of_split _ _ _ _ _ [] _ rfl rfl (by rw [headerFields_length]; rfl)
  have hlength : ¬(headerFields chunkSize logicalLen chunkCount indexBytes ++ after).length <
      headerBytes := by
    rw [length_append]
    exact Nat.not_lt.mpr (Nat.le_add_right _ _)
  generalize headerFields chunkSize logicalLen chunkCount indexBytes ++ after = bytes at *
  have hbytes : [entropyTransportVersion, 0, UInt8.ofNat exponent, 0] =
      [entropyTransportVersion] ++ [0] ++ [UInt8.ofNat exponent] ++ [0] := rfl
  rw [headerFields, hzeros, hbytes] at hfields
  simp only [append_assoc, subslice_append_iff_of_length, leBytes_length, hmagicLength,
    length_cons, length_nil, Nat.reduceAdd] at hfields
  obtain ⟨hmagic, hversion, hflags, hlog2, hreserved, hlogical, hcount, hoffset, hindex⟩ := hfields
  have htake := (subslice_eq_some_iff.mp hmagic).2.2.symm
  rw [drop_zero] at htake
  rw [parseHeader, if_neg (not_or.mpr ⟨hlength, not_not.mpr htake⟩),
    index_of_subslice hversion, index_of_subslice hflags,
    index_of_subslice hlog2, index_of_subslice hreserved,
    readU64, readField_eq hlogical hlogicalLen (by decide), readU32,
    readField_eq hcount hchunkCount (by decide), readU64, readField_eq hoffset (by decide) (by decide),
    readU64, readField_eq hindex hindexBytes (by decide)]
  change (if 64 ≤ UInt8.ofNat exponent then _ else _) = _
  rw [if_neg hsmall, hshift, hchunkSize]
  rfl

theorem entryFields_length (info : EntropyChunkInfo) (codec : EntropyTransportChunkCodec) :
    (entryFields info codec).length = indexEntryBytes := by
  simp only [entryFields, length_append, leBytes_length, info.digest.length_eq]
  rfl

/-- What the index states of a chunk: its fields fit, and the flag is that of the codec. -/
structure EntropyChunkInfo.Fits (info : EntropyChunkInfo) (codec : EntropyTransportChunkCodec) :
    Prop where
  logicalOffset_lt : info.logicalOffset < 2 ^ 64
  payloadOffset_lt : info.payloadOffset < 2 ^ 64
  logicalLen_lt : info.logicalLen < 2 ^ 32
  payloadLen_lt : info.payloadLen < 2 ^ 32
  huffman_eq : info.huffman = decide (codec = .huffman)

theorem codecOfMode_modeByte :
    codecOfMode (modeByte codec) = .ok codec := by
  cases codec <;> rfl

theorem modeByte_known :
    ¬(modeRans < modeByte codec ∨ entropyTransportVersion = 1 ∧ modeByte codec = modeRans) := by
  cases codec <;> decide

theorem modeByte_eq_modeHuffman_iff :
    modeByte codec = modeHuffman ↔ codec = .huffman := by
  cases codec <;> decide

/-- An entry that continues the index is accepted and moves the cursors behind its chunk. -/
theorem parseEntry_eq {before : List UInt8} {sourceLen index : ℕ} {header : TransportHeader}
    {cursor : EntryCursor} {info : EntropyChunkInfo} {codec : EntropyTransportChunkCodec}
    (hbytes : bytes = before ++ entryFields info codec ++ after)
    (hbefore : before.length = header.indexOffset + index * indexEntryBytes)
    (hsmall : before.length + indexEntryBytes < 2 ^ 64) (hfits : info.Fits codec)
    (hversion : header.version = entropyTransportVersion)
    (hcursor : cursor.logicalCursor ≤ header.logicalLen)
    (hlogicalOffset : info.logicalOffset = cursor.logicalCursor) (hlogicalLen : info.logicalLen =
      min (header.logicalLen - cursor.logicalCursor) header.chunkSize)
    (hpayloadOffset : info.payloadOffset = cursor.payloadCursor)
    (hpayloadEnd : info.payloadOffset + info.payloadLen ≤ sourceLen) (hsource : sourceLen < 2 ^ 64)
    (hlogicalEnd : info.logicalOffset + info.logicalLen < 2 ^ 64) :
    parseEntry bytes sourceLen header cursor index = .ok {
        chunks := cursor.chunks ++ [info]
        codecs := cursor.codecs ++ [codec]
        logicalCursor := cursor.logicalCursor + info.logicalLen
        payloadCursor := info.payloadOffset + info.payloadLen } := by
  have hentry : indexEntryBytes = 60 := rfl
  have hfields : subslice bytes before.length (before.length + 60) =
      some (entryFields info codec) :=
    subslice_of_split hbytes rfl (by rw [entryFields_length, hentry])
  have hmodes : [modeByte codec, 0, 0, 0] = [modeByte codec] ++ [0, 0, 0] := rfl
  rw [entryFields, hmodes] at hfields
  simp only [append_assoc, subslice_append_iff_of_length, leBytes_length, length_cons, length_nil,
    add_assoc, Nat.reduceAdd] at hfields
  obtain ⟨hlogicalField, hpayloadField, hlogicalLenField, hpayloadLenField, hmode, hreserved,
    hdigest⟩ := hfields
  have hparsed : parseDigest info.digest.bytes = .ok info.digest := by
    rw [parseDigest, dif_pos info.digest.length_eq]
  have hknown := modeByte_known codec
  rw [parseEntry, ← hbefore, hentry, readU64, readField_eq hlogicalField hfits.logicalOffset_lt
    (by omega), ok_bind, readU64, readField_eq hpayloadField hfits.payloadOffset_lt (by omega),
    ok_bind, readU32, readField_eq hlogicalLenField hfits.logicalLen_lt (by omega), ok_bind,
    readU32, readField_eq hpayloadLenField hfits.payloadLen_lt (by omega), ok_bind,
    getElem?_of_subslice_singleton hmode, okOr_bind, if_neg (not_not.mpr hreserved), hdigest,
    okOr_bind, hparsed, ok_bind, checkedSub_of_le hcursor, okOr_bind, hversion]
  rw [if_neg (not_or.mpr ⟨not_not.mpr hlogicalOffset, not_or.mpr ⟨not_not.mpr hlogicalLen,
      not_or.mpr ⟨not_not.mpr hpayloadOffset, hknown⟩⟩⟩), checkedAdd_of_lt (by omega), okOr_bind,
    if_neg (Nat.not_lt.mpr hpayloadEnd), checkedAdd_of_lt (by rwa [← hlogicalOffset]),
    okOr_bind, codecOfMode_modeByte, ok_bind, pure_eq_ok]
  simp only [modeByte_eq_modeHuffman_iff, ← hfits.huffman_eq]

end Tritium.Entropy
