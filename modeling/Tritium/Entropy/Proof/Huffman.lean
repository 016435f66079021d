import Tritium.Entropy.Proof.Trie
import Mathlib.Data.Nat.Bitwise
import Mathlib.Algebra.BigOperators.Ring.Finset

/-!
# The Huffman round trip

The writer's bytes hold the concatenated codes, bit by bit, and the decoder's walk down the trie
consumes exactly one code for every symbol.
-/

namespace Tritium.Entropy

open List
open PrefixCode

variable {position bit : ℕ} {bytes stream lengths : List UInt8} {writer : BitWriter} {bits : List ℕ}
  {codes : List Code} {paths : List (List ℕ)} {symbolOf : List ℕ → Option ℕ}

/-- A bit of a byte, the highest one first. -/
def byteBit (byte : UInt8) (position : ℕ) : ℕ :=
  ((byte >>> UInt8.ofNat (7 - position)) &&& 1).toNat

def bitAt (stream : List UInt8) (position : ℕ) : ℕ :=
  byteBit (stream.getD (position / 8) 0) (position % 8)

theorem toNat_ofNat_sub (position : ℕ) : (UInt8.ofNat (7 - position)).toNat = 7 - position := by
  rw [UInt8.toNat_ofNat', Nat.mod_eq_of_lt (by omega)]

theorem byteBit_eq_testBit (byte : UInt8) (position : ℕ) :
    byteBit byte position = (byte.toNat.testBit (7 - position)).toNat := by
  rw [byteBit, UInt8.toNat_and, UInt8.toNat_shiftRight, toNat_ofNat_sub,
    Nat.mod_eq_of_lt (by omega : 7 - position < 8)]
  change _ &&& 1 = _
  rw [Nat.and_one_is_mod, Nat.testBit, Nat.one_and_eq_mod_two]
  obtain hzero | hone := Nat.mod_two_eq_zero_or_one (byte.toNat >>> (7 - position))
  · rw [hzero]
    rfl
  · rw [hone]
    rfl

theorem byteBit_zero (position : ℕ) : byteBit 0 position = 0 := by
  simp [byteBit_eq_testBit]

theorem byteBit_or {other : ℕ} (hposition : position < 8) (hother : other < 8) (byte : UInt8) :
    byteBit (byte ||| 1 <<< UInt8.ofNat (7 - position)) other =
      if other = position then 1 else byteBit byte other := by
  have hmask : (1 <<< UInt8.ofNat (7 - position) : UInt8).toNat = 2 ^ (7 - position) := by
    rw [UInt8.toNat_shiftLeft, toNat_ofNat_sub, Nat.mod_eq_of_lt (by omega : 7 - position < 8)]
    change 1 <<< (7 - position) % 2 ^ 8 = _
    rw [Nat.one_shiftLeft, Nat.mod_eq_of_lt]
    exact Nat.pow_lt_pow_right (by decide) (by omega)
  rw [byteBit_eq_testBit, byteBit_eq_testBit, UInt8.toNat_or, hmask, Nat.testBit_or,
    Nat.testBit_two_pow]
  by_cases heq : other = position
  · rw [if_pos heq, heq, decide_eq_true rfl, Bool.or_true]
    rfl
  · rw [if_neg heq, decide_eq_false (by omega), Bool.or_false]

theorem bitAt_append_zero (stream : List UInt8) (position : ℕ) :
    bitAt (stream ++ [0]) position = bitAt stream position := by
  rw [bitAt, bitAt]
  obtain hlt | heq | hgt := Nat.lt_trichotomy (position / 8) stream.length
  · rw [getD_append _ _ _ _ hlt]
  · simp [heq]
  · rw [getD_eq_default _ _ (by
      rw [length_append]
      exact hgt), getD_eq_default _ _ hgt.le]

/-- The writer holds the given bits, and zeros behind them. -/
structure Written (writer : BitWriter) (bits : List ℕ) : Prop where
  count : writer.bits = bits.length
  bytes_length : writer.bytes.length = (bits.length + 7) / 8
  bit : ∀ position < bits.length, bitAt writer.bytes position = bits.getD position 0
  padding : ∀ position, bits.length ≤ position → bitAt writer.bytes position = 0

theorem storeBit_eq (hbit : bit < 2)
    (hlength : bytes.length = position / 8 + 1) (hclear : bitAt bytes position = 0) :
    ∃ stored, storeBit bytes position bit = .ok stored ∧ stored.length = bytes.length ∧
      ∀ other, bitAt stored other = if other = position then bit else bitAt bytes other := by
  by_cases hzero : bit = 0
  · refine ⟨bytes, if_neg (not_not.mpr hzero), rfl, fun other => ?_⟩
    split_ifs with heq
    · rw [heq, hclear, hzero]
    · rfl
  · have hone : bit = 1 := by omega
    have hlast : position / 8 < bytes.length := by omega
    refine ⟨bytes.set (position / 8) (bytes[position / 8] |||
      1 <<< UInt8.ofNat (7 - position % 8)), ?_, length_set, fun other => ?_⟩
    · rw [storeBit, if_pos hzero, sub_of_le (by omega), ok_bind, hlength,
        Nat.add_sub_cancel, index_of_lt hlast, ok_bind, setIndex_of_lt hlast]
    · rw [bitAt, bitAt, getD_eq_getElem?_getD, getElem?_set]
      by_cases hsameByte : position / 8 = other / 8
      · have hiff : other % 8 = position % 8 ↔ other = position := by omega
        rw [if_pos hsameByte, if_pos hlast, Option.getD_some,
          byteBit_or (Nat.mod_lt _ (by decide)) (Nat.mod_lt _ (by decide)), hone,
          getD_eq_getElem _ _ (by omega)]
        simp only [hiff, hsameByte]
      · rw [if_neg hsameByte, ← getD_eq_getElem?_getD, if_neg (by rintro rfl; omega)]

theorem pushBit_written (hwritten : Written writer bits) (hbit : bit < 2) :
    ∃ next, writer.pushBit bit = .ok next ∧ Written next (bits ++ [bit]) := by
  obtain ⟨hcount, _, hbits, hpadding⟩ := hwritten
  rw [BitWriter.pushBit, hcount]
  set bytes := if bits.length % 8 = 0 then writer.bytes ++ [0] else writer.bytes with hbytesEq
  have hbytesLength : bytes.length = bits.length / 8 + 1 := by
    rw [hbytesEq]
    split_ifs
    · rw [length_append, length_singleton]
      omega
    · omega
  have hsame : ∀ position, bitAt bytes position = bitAt writer.bytes position := by
    intro position
    rw [hbytesEq]
    split_ifs
    · exact bitAt_append_zero _ _
    · rfl
  obtain ⟨stored, hstored, hstoredLength, hstoredBits⟩ := storeBit_eq hbit hbytesLength (by
    rw [hsame]
    exact hpadding _ le_rfl)
  refine ⟨⟨stored, bits.length + 1⟩, ?_, ?_, ?_, ?_, ?_⟩
  · rw [hstored, ok_bind, pure_eq_ok]
  · simp
  · rw [hstoredLength, length_append, length_singleton]
    omega
  · intro position hposition
    rw [length_append, length_singleton] at hposition
    rw [hstoredBits, hsame]
    split_ifs with heq
    · simp [heq]
    · rw [hbits position (by omega), getD_append _ _ _ _ (by omega)]
  · intro position hposition
    rw [length_append, length_singleton] at hposition
    rw [hstoredBits, hsame, if_neg (by omega), hpadding position (by omega)]

theorem push_written (hwritten : Written writer bits) {code : Code} (hbinary : Binary code.bits) :
    ∃ next, writer.push code = .ok next ∧ Written next (bits ++ code.bits) := by
  obtain ⟨added⟩ := code
  rw [BitWriter.push]
  induction added generalizing writer bits with
  | nil => exact ⟨writer, rfl, by rwa [append_nil]⟩
  | cons bit rest ih =>
    obtain ⟨hbit, hrest⟩ := forall_mem_cons.mp hbinary
    obtain ⟨middle, hpush, hmiddle⟩ := pushBit_written hwritten hbit
    obtain ⟨next, hfold, hnext⟩ := ih hmiddle hrest
    refine ⟨next, ?_, ?_⟩
    · rw [foldlM_cons, hpush, ok_bind, hfold]
    · rwa [append_assoc] at hnext

def codedBits (codes : List Code) (bytes : List UInt8) : List ℕ :=
  bytes.flatMap fun byte => codeBits codes byte.toNat

theorem foldlM_push (hcodes : IsPrefixCode codes) (bytes : List UInt8)
    (hwritten : Written writer bits) :
    ∃ final,
      bytes.foldlM (fun (stream : BitWriter) byte => do
          let code ← Outcome.index codes byte.toNat
          stream.push code) writer = .ok final ∧ Written final (bits ++ codedBits codes bytes) := by
  induction bytes generalizing writer bits with
  | nil => exact ⟨writer, rfl, by rwa [codedBits, flatMap_nil, append_nil]⟩
  | cons byte bytes ih =>
    have hindex : byte.toNat < codes.length := by
      rw [hcodes.length_eq]
      exact byte.toNat_lt
    have hcode : codes[byte.toNat].bits = codeBits codes byte.toNat := by
      rw [codeBits, getD_eq_getElem _ _ hindex]
    have hbinary : Binary codes[byte.toNat].bits := by
      rw [hcode]
      exact hcodes.binary _
    obtain ⟨middle, hpush, hmiddle⟩ := push_written hwritten hbinary
    obtain ⟨final, hfold, hfinal⟩ := ih hmiddle
    refine ⟨final, ?_, ?_⟩
    · rw [foldlM_cons, index_of_lt hindex, ok_bind, hpush, ok_bind, hfold]
    · rwa [hcode, append_assoc] at hfinal

/-- A stream that holds the given bits from a position on. -/
def Holds (stream : List UInt8) (position : ℕ) (bits : List ℕ) : Prop :=
  position + bits.length ≤ stream.length * 8 ∧
    ∀ offset < bits.length, bitAt stream (position + offset) = bits.getD offset 0

theorem Holds.head (hholds : Holds stream position (bit :: bits)) :
    position / 8 < stream.length ∧ bitAt stream position = bit := by
  obtain ⟨hinside, hbits⟩ := hholds
  rw [length_cons] at hinside
  exact ⟨by omega, hbits 0 (Nat.succ_pos _)⟩

theorem Holds.append {first second : List ℕ} (hholds : Holds stream position (first ++ second)) :
    Holds stream position first ∧ Holds stream (position + first.length) second := by
  obtain ⟨hinside, hbits⟩ := hholds
  rw [length_append] at hinside hbits
  refine ⟨⟨by omega, fun offset hoffset => ?_⟩, ⟨by omega, fun offset hoffset => ?_⟩⟩
  · rw [hbits offset (by omega), getD_append _ _ _ _ hoffset]
  · rw [Nat.add_assoc, hbits _ (by omega), getD_append_right _ _ _ _ (Nat.le_add_right _ _),
      Nat.add_sub_cancel_left]

/-- The walk from a prefix of a code consumes the rest of it and finds its symbol. -/
theorem walkSymbol_eq
    (hcodes : IsPrefixCode codes) (hdecodes : Decodes paths symbolOf codes) {symbol : ℕ}
    (rest done : List ℕ) (hcode : done ++ rest = codeBits codes symbol)
    (hrest : rest ≠ []) (position remaining : ℕ) (hremaining : rest.length ≤ remaining)
    (hholds : Holds stream position rest) :
    walkSymbol (trieOf paths symbolOf) stream remaining (paths.idxOf done) position =
      .ok (symbol, position + rest.length) := by
  have hnonempty : codeBits codes symbol ≠ [] := by
    rw [← hcode]
    exact append_ne_nil_of_right_ne_nil _ hrest
  obtain ⟨hplaced, hsymbol⟩ := hdecodes.placed symbol hnonempty
  induction rest generalizing done position remaining with
  | nil => exact absurd rfl hrest
  | cons bit rest ih =>
    have hnext : done ++ [bit] ++ rest = codeBits codes symbol := by
      rw [append_assoc]
      exact hcode
    have hbit : bit < 2 := hcodes.binary symbol bit (by rw [← hcode]; simp)
    have hdone : done ∈ paths := hdecodes.isTrie.mem_of_isPrefix hplaced ⟨_, hcode⟩
    have hchild : done ++ [bit] ∈ paths := hdecodes.isTrie.mem_of_isPrefix hplaced ⟨_, hnext⟩
    obtain ⟨hbyte, hvalue⟩ := hholds.head
    obtain ⟨remaining, rfl⟩ : ∃ less, remaining = less + 1 := by
      rw [length_cons] at hremaining
      exact ⟨remaining - 1, by omega⟩
    rw [bitAt, getD_eq_getElem _ _ hbyte, byteBit] at hvalue
    rw [walkSymbol, index_of_lt hbyte, ok_bind, index_trieOf hdone,
      ok_bind, hvalue, index_children hbit, ok_bind,
      if_neg (mt pathLink_neg_iff.mp (not_not.mpr hchild)), pathLink_toNat hchild,
      index_trieOf hchild]
    cases rest with
    | nil =>
      rw [append_nil] at hnext
      rw [pathNode, hnext, hsymbol]
      rfl
    | cons following rest =>
      have hunnamed : symbolOf (done ++ [bit]) = none := by
        apply hdecodes.unnamed symbol _ ⟨_, hnext⟩
        intro heq
        rw [← heq] at hnext
        exact absurd hnext (by simp)
      have hsplit : Holds stream position ([bit] ++ following :: rest) := hholds
      have htail : Holds stream (position + 1) (following :: rest) := hsplit.append.2
      rw [pathNode, hunnamed]
      rw [length_cons, length_cons] at hremaining ⊢
      change walkSymbol _ _ _ _ _ = _
      rw [ih (done ++ [bit]) hnext (by simp) (position + 1) remaining (by
        rw [length_cons]
        omega) htail, length_cons]
      congr 2
      omega

theorem walkSymbols_eq (hcodes : IsPrefixCode codes) (hdecodes : Decodes paths symbolOf codes)
    (bitLen : ℕ) (bytes : List UInt8) (hbytes : ∀ byte ∈ bytes, codeBits codes byte.toNat ≠ [])
    (position : ℕ) (hbound : position + (codedBits codes bytes).length ≤ bitLen)
    (hholds : Holds stream position (codedBits codes bytes)) :
    walkSymbols (trieOf paths symbolOf) stream bitLen bytes.length position =
      .ok (bytes, position + (codedBits codes bytes).length) := by
  induction bytes generalizing position with
  | nil => rfl
  | cons byte bytes ih =>
    obtain ⟨hbyte, hrest⟩ := forall_mem_cons.mp hbytes
    have hsplit : codedBits codes (byte :: bytes) =
        codeBits codes byte.toNat ++ codedBits codes bytes := rfl
    rw [hsplit] at hholds hbound ⊢
    rw [length_append] at hbound ⊢
    obtain ⟨hfirst, hsecond⟩ := hholds.append
    have hwalk := walkSymbol_eq hcodes hdecodes (codeBits codes byte.toNat) [] rfl hbyte position
      (bitLen - position) (by omega) hfirst
    rw [hdecodes.isTrie.idxOf_root] at hwalk
    rw [length_cons, walkSymbols, hwalk, ok_bind]
    dsimp only
    rw [ih hrest _ (by omega) hsecond, UInt8.ofNat_toNat, Nat.add_assoc]
    rfl

/-- The tables of a nonempty chunk: a full tree, a prefix code in which every byte that occurs has a
word, and a trie that decodes it. -/
theorem huffmanTables_eq (hbytes : bytes ≠ []) (hlimit : bytes.length < 2 ^ 56) :
    ∃ tree codes paths symbolOf,
      huffmanLengths bytes = .ok (treeLengths tree) ∧ ByteTree tree ∧
        tree.leaves.Perm (occurring bytes) ∧
        canonicalCodes (treeLengths tree) = .ok codes ∧ IsPrefixCode codes ∧
        (∀ symbol, (codeBits codes symbol).length = ((treeLengths tree).getD symbol 0).toNat) ∧
        (∀ byte ∈ bytes, codeBits codes byte.toNat ≠ []) ∧
        buildTrie codes = .ok (trieOf paths symbolOf) ∧ Decodes paths symbolOf codes := by
  obtain ⟨tree, hlengths, hleaves⟩ := huffmanLengths_eq hbytes (by omega)
  have htree : ByteTree tree := by
    refine ⟨hleaves.nodup_iff.mpr (nodup_occurring bytes), fun symbol hsymbol => ?_⟩
    exact (mem_occurring_iff.mp (hleaves.mem_iff.mp hsymbol)).1
  have hcoded : codedSymbols (treeLengths tree) ≠ [] := by
    apply ne_nil_of_length_pos
    rw [htree.codedSymbols_length]
    exact tree.leaves_length_pos
  obtain ⟨codes, hcodes, hcode, hlength⟩ :=
    canonicalCodes_isPrefixCode (treeLengths_length tree) hcoded htree.sum_weight_le
  obtain ⟨paths, symbolOf, htrie, hdecodes⟩ := buildTrie_eq hcode
  refine ⟨tree, codes, paths, symbolOf, hlengths, htree, hleaves, hcodes, hcode, hlength, ?_,
    htrie, hdecodes⟩
  intro byte hbyte hnil
  have hmem : byte.toNat ∈ tree.leaves :=
    hleaves.mem_iff.mpr (mem_occurring_iff.mpr ⟨byte.toNat_lt, occurrences_pos_iff.mpr hbyte⟩)
  have hzero := hlength byte.toNat
  rw [hnil] at hzero
  exact htree.getD_ne_zero_iff.mpr hmem (UInt8.toNat_inj.mp hzero.symm)

theorem codedBits_length_le (hcodes : IsPrefixCode codes) (bytes : List UInt8) :
    (codedBits codes bytes).length ≤ bytes.length * maxCodeBits := by
  rw [codedBits, length_flatMap]
  have hle := sum_le_card_nsmul
    (bytes.map fun byte => (codeBits codes byte.toNat).length) maxCodeBits (by
      intro length hlength
      obtain ⟨byte, _, rfl⟩ := mem_map.mp hlength
      exact hcodes.length_le _)
  rwa [length_map] at hle

/-- The decoder's fields of a payload that is long enough to have them. -/
theorem decodeHuffman_of_le {payload : List UInt8} (hpayload : 264 ≤ payload.length)
    (expectedLen : ℕ) :
    decodeHuffman payload expectedLen = if min ((payload.drop 264).length * 8) (2 ^ 64 - 1) <
          ofLeBytes ((payload.take 264).drop 256) then
        .err .invalidHuffmanStream
      else do
        let codes ← canonicalCodes (payload.take 256)
        let trie ← buildTrie codes
        let (out, bitPos) ← walkSymbols trie (payload.drop 264)
          (ofLeBytes ((payload.take 264).drop 256)) expectedLen 0
        if bitPos ≠ ofLeBytes ((payload.take 264).drop 256) then
          .err .invalidHuffmanStream
        else
          return out := by
  rw [decodeHuffman, if_neg (Nat.not_lt.mpr hpayload)]
  simp [slice_of_le (Nat.zero_le 256) (by omega : 256 ≤ payload.length), slice_of_le (by decide :
    256 ≤ 264) hpayload, slice_of_le hpayload le_rfl, ok_bind]

/-- Encoding with the tables of a chunk and decoding with the tables of the payload. -/
theorem roundTrip_of_tables (hlimit : bytes.length < 2 ^ 56)
    (hlengths : huffmanLengths bytes = .ok lengths) (hcount : lengths.length = 256)
    (hcodes : canonicalCodes lengths = .ok codes) (hcode : IsPrefixCode codes)
    (hcoded : ∀ byte ∈ bytes, codeBits codes byte.toNat ≠ [])
    (htrie : buildTrie codes = .ok (trieOf paths symbolOf))
    (hdecodes : Decodes paths symbolOf codes) :
    ∃ payload, encodeHuffman bytes = .ok payload ∧
      decodeHuffman payload bytes.length = .ok bytes := by
  have hempty : Written ⟨[], 0⟩ [] := by
    refine ⟨rfl, rfl, fun position hposition => absurd hposition (Nat.not_lt_zero _), ?_⟩
    intro position _
    exact byteBit_zero _
  obtain ⟨writer, hfold, hwritten⟩ := foldlM_push hcode bytes hempty
  rw [nil_append] at hwritten
  have hbits := codedBits_length_le hcode bytes
  have hmax : maxCodeBits = 255 := rfl
  rw [hmax] at hbits
  have hbitLen : ofLeBytes (leBytes 8 writer.bits) = (codedBits codes bytes).length := by
    rw [ofLeBytes_leBytes 8 (by rw [hwritten.count]; omega), hwritten.count]
  obtain ⟨hlengthsField, hbitsField, hstreamField, hlong⟩ := parts_of_append lengths
    (leBytes 8 writer.bits) writer.bytes hcount (by rw [leBytes_length] : _ = 264)
  have hfits : (codedBits codes bytes).length ≤ writer.bytes.length * 8 := by
    rw [hwritten.bytes_length]
    omega
  have hholds : Holds writer.bytes 0 (codedBits codes bytes) := by
    refine ⟨by omega, fun offset hoffset => ?_⟩
    rw [zero_add]
    exact hwritten.bit offset hoffset
  have hwalk := walkSymbols_eq hcode hdecodes _ bytes hcoded 0 (zero_add _).le hholds
  refine ⟨lengths ++ leBytes 8 writer.bits ++ writer.bytes, ?_, ?_⟩
  · rw [encodeHuffman, hlengths, ok_bind, hcodes, ok_bind, hfold, ok_bind, pure_eq_ok]
  · rw [decodeHuffman_of_le hlong, hstreamField, hbitsField, hbitLen, hlengthsField, if_neg (by omega), hcodes, ok_bind, htrie, ok_bind, hwalk, ok_bind, zero_add]
    dsimp only
    simp

theorem decodeHuffman_encodeHuffman (hbytes : bytes ≠ []) (hlimit : bytes.length < 2 ^ 56) :
    ∃ payload, encodeHuffman bytes = .ok payload ∧
      decodeHuffman payload bytes.length = .ok bytes := by
  obtain ⟨tree, codes, paths, symbolOf, hlengths, _, _, hcodes, hcode, _, hcoded, htrie,
    hdecodes⟩ := huffmanTables_eq hbytes hlimit
  exact roundTrip_of_tables hlimit hlengths (treeLengths_length tree) hcodes hcode hcoded htrie
    hdecodes

/-- The sum of `2 ^ -length` over the symbols that have a code. -/
def kraftSum (lengths : List UInt8) : ℚ :=
  ((codedSymbols lengths).map fun entry => (1 / 2 : ℚ) ^ entry.1).sum

theorem kraftSum_eq_one
    (hsum : ((codedSymbols lengths).map fun entry => weight maxCodeBits entry.1).sum =
      2 ^ maxCodeBits) : kraftSum lengths = 1 := by
  have hscaled : ((codedSymbols lengths).map fun entry =>
      ((weight maxCodeBits entry.1 : ℕ) : ℚ)).sum = 2 ^ maxCodeBits * kraftSum lengths := by
    rw [kraftSum, ← sum_map_mul_left]
    congr 1
    apply map_congr_left
    intro entry hentry
    have hbound := (codedSymbols_bounds hentry).2.1
    have hsplit : maxCodeBits = maxCodeBits - entry.1 + entry.1 := by omega
    rw [weight, Nat.cast_pow, Nat.cast_ofNat, one_div, inv_pow]
    nth_rewrite 2 [hsplit]
    rw [pow_add, mul_assoc, mul_inv_cancel₀ (pow_ne_zero _ two_ne_zero), mul_one]
  have hcast := congrArg (Nat.cast : ℕ → ℚ) hsum
  rw [Nat.cast_list_sum, map_map] at hcast
  change ((codedSymbols lengths).map fun entry =>
    ((weight maxCodeBits entry.1 : ℕ) : ℚ)).sum = 2 ^ maxCodeBits at hcast
  rw [hscaled] at hcast
  exact mul_left_cancel₀ (pow_ne_zero maxCodeBits (two_ne_zero' ℚ)) (by rw [hcast, mul_one])

theorem occurring_length_eq (bytes : List UInt8) :
    (occurring bytes).length = bytes.toFinset.card := by
  have himage : (occurring bytes).toFinset = bytes.toFinset.image UInt8.toNat := by
    ext symbol
    rw [mem_toFinset, mem_occurring_iff, Finset.mem_image]
    constructor
    · rintro ⟨hsymbol, _⟩
      have hback : (UInt8.ofNat symbol).toNat = symbol := by
        rw [UInt8.toNat_ofNat', Nat.mod_eq_of_lt hsymbol]
      refine ⟨UInt8.ofNat symbol, mem_toFinset.mpr ?_, hback⟩
      rwa [← occurrences_pos_iff, hback]
    · rintro ⟨byte, hbyte, rfl⟩
      exact ⟨byte.toNat_lt, occurrences_pos_iff.mpr (mem_toFinset.mp hbyte)⟩
  rw [← toFinset_card_of_nodup (nodup_occurring bytes), himage,
    Finset.card_image_of_injective _ fun _ _ => UInt8.toNat_inj.mp]

/-- **Huffman round trip.** For every nonempty chunk of at most `2 ^ 20` bytes the greedy merge ends
in code lengths that fit a byte: exactly the bytes that occur have a code, the Kraft sum is one when
there are two of them or more, and a single one has a code of one bit. The canonical codes of these
lengths exist, no code starts another, the trie of the codes is accepted, and decoding the payload at
the chunk's length returns the chunk. -/
theorem encodeHuffman_roundTrip (bytes : List UInt8) (hbytes : bytes ≠ [])
    (hlimit : bytes.length ≤ 2 ^ 20) :
    ∃ lengths codes trie payload,
      huffmanLengths bytes = .ok lengths ∧ lengths.length = 256 ∧
        (∀ byte : UInt8, lengths.getD byte.toNat 0 ≠ 0 ↔ byte ∈ bytes) ∧
        (1 < bytes.toFinset.card → kraftSum lengths = 1) ∧
        (bytes.toFinset.card = 1 → ∀ byte ∈ bytes, lengths.getD byte.toNat 0 = 1) ∧
        canonicalCodes lengths = .ok codes ∧ IsPrefixCode codes ∧
        (∀ byte : UInt8, (codeBits codes byte.toNat).length = (lengths.getD byte.toNat 0).toNat) ∧
        buildTrie codes = .ok trie ∧
        encodeHuffman bytes = .ok payload ∧ decodeHuffman payload bytes.length = .ok bytes := by
  obtain ⟨tree, codes, paths, symbolOf, hlengths, htree, hleaves, hcodes, hcode, hlength, hcoded,
    htrie, hdecodes⟩ := huffmanTables_eq hbytes (by omega)
  obtain ⟨payload, hencode, hdecode⟩ := roundTrip_of_tables (by omega) hlengths
    (treeLengths_length tree) hcodes hcode hcoded htrie hdecodes
  have hcard : tree.leaves.length = bytes.toFinset.card := by
    rw [hleaves.length_eq, occurring_length_eq]
  have hmem : ∀ byte : UInt8, byte.toNat ∈ tree.leaves ↔ byte ∈ bytes := by
    intro byte
    rw [hleaves.mem_iff, mem_occurring_iff, occurrences_pos_iff]
    exact and_iff_right byte.toNat_lt
  refine ⟨treeLengths tree, codes, trieOf paths symbolOf, payload, hlengths,
    treeLengths_length tree, ?_, ?_, ?_, hcodes, hcode, fun byte => hlength byte.toNat, htrie,
    hencode, hdecode⟩
  · intro byte
    rw [htree.getD_ne_zero_iff, hmem]
  · intro hmany
    exact kraftSum_eq_one (htree.sum_weight_eq (by rwa [hcard]))
  · intro hone byte hbyte
    obtain ⟨symbol, rfl⟩ := eq_leaf_of_leaves_length (hcard.trans hone)
    have hsymbol : byte.toNat = symbol := mem_singleton.mp ((hmem byte).mpr hbyte)
    have hcodedOne : (1, symbol) ∈ codedSymbols (treeLengths (.leaf symbol)) := by
      simp [htree.codedSymbols_leaf]
    obtain ⟨length, hget, _, hvalue⟩ := mem_codedSymbols_iff.mp hcodedOne
    rw [hsymbol, getD_eq_getElem?_getD, hget]
    exact UInt8.toNat_inj.mp hvalue

theorem encodeHuffman_roundTrip_skewed :
    ∃ lengths codes trie payload,
      huffmanLengths [7, 7, 7, 200] = .ok lengths ∧ lengths.length = 256 ∧
        (∀ byte : UInt8, lengths.getD byte.toNat 0 ≠ 0 ↔ byte ∈ [7, 7, 7, 200]) ∧
        (1 < ([7, 7, 7, 200] : List UInt8).toFinset.card → kraftSum lengths = 1) ∧
        (([7, 7, 7, 200] : List UInt8).toFinset.card = 1 →
          ∀ byte ∈ ([7, 7, 7, 200] : List UInt8), lengths.getD byte.toNat 0 = 1) ∧
        canonicalCodes lengths = .ok codes ∧ IsPrefixCode codes ∧
        (∀ byte : UInt8, (codeBits codes byte.toNat).length = (lengths.getD byte.toNat 0).toNat) ∧
        buildTrie codes = .ok trie ∧ encodeHuffman [7, 7, 7, 200] = .ok payload ∧
        decodeHuffman payload 4 = .ok [7, 7, 7, 200] :=
  encodeHuffman_roundTrip [7, 7, 7, 200] (by decide) (by decide)

end Tritium.Entropy
