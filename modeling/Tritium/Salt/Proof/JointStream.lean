import Tritium.Salt.Proof.JointTable

/-!
# Joint symbol streams

The bytes written and the bits still pending spell the code words one after the other. Looking one
table width ahead from the start of a word finds its symbol, whatever follows, so the decoder can
start at every recorded offset.
-/

namespace Tritium.Salt

open List
open PrefixCode BitStream

variable {block position symbol : ℕ} {symbols : List ℕ} {sink : BitSink}

/-- The bits in a sink, the pending ones last. -/
def BitSink.content (sink : BitSink) : List ℕ :=
  unpack sink.bits ++ digits sink.pending sink.acc

theorem BitSink.drain_content {turns : ℕ} (sink : BitSink) (hturns : sink.pending ≤ turns) :
    (sink.drain turns).content = sink.content ∧ (sink.drain turns).pending < 8 := by
  induction turns generalizing sink with
  | zero => exact ⟨rfl, lt_of_le_of_lt hturns (by decide)⟩
  | succ turns ih =>
    rw [BitSink.drain]
    by_cases hfull : 8 ≤ sink.pending
    · rw [if_pos hfull]
      obtain ⟨hcontent, hpending⟩ := ih ⟨_, sink.acc, sink.pending - 8⟩ (by
        dsimp only
        omega)
      refine ⟨hcontent.trans ?_, hpending⟩
      have hsplit : sink.pending = 8 + (sink.pending - 8) := by omega
      rw [content, content]
      conv_rhs => rw [hsplit, digits_add]
      rw [unpack_append, unpack_singleton, byteDigits_ofNat, Nat.shiftRight_eq_div_pow,
        append_assoc]
    · rw [if_neg hfull]
      exact ⟨rfl, not_le.mp hfull⟩

theorem BitSink.push_content {length code : ℕ} (hpending : sink.pending < 8) (hlength : length ≤ 56)
    (hcode : code < 2 ^ length) :
    (sink.push length code).content = sink.content ++ digits length code ∧
      (sink.push length code).pending < 8 := by
  obtain ⟨hcontent, hrest⟩ := BitSink.drain_content
    ⟨sink.bits, (sink.acc <<< length) % 2 ^ 64 ||| code, sink.pending + length⟩ le_rfl
  refine ⟨hcontent.trans ?_, hrest⟩
  have hshift : (sink.acc <<< length) % 2 ^ 64 ||| code =
      sink.acc % 2 ^ (64 - length) * 2 ^ length + code := by
    have hmod : (sink.acc <<< length) % 2 ^ 64 = (sink.acc % 2 ^ (64 - length)) <<< length := by
      have hpow : 2 ^ 64 = 2 ^ (64 - length) * 2 ^ length := by
        rw [← pow_add]
        congr 1
        omega
      rw [Nat.shiftLeft_eq, Nat.shiftLeft_eq, hpow, Nat.mul_mod_mul_right]
    rw [hmod, ← Nat.shiftLeft_add_eq_or_of_lt hcode, Nat.shiftLeft_eq]
  rw [content, content]
  rw [hshift, digits_append hcode, digits_mod (by omega), append_assoc]

/-- The last byte is filled up with zeros. -/
theorem BitSink.unpack_finish (hpending : sink.pending < 8) :
    ∃ padding, unpack sink.finish = sink.content ++ padding ∧ padding.length < 8 := by
  rw [BitSink.finish, content]
  by_cases hpartial : 0 < sink.pending
  · refine ⟨replicate (8 - sink.pending) 0, ?_, by rw [length_replicate]; omega⟩
    have hfill : digits 8 (sink.acc <<< (8 - sink.pending)) =
        digits sink.pending sink.acc ++ digits (8 - sink.pending) 0 := by
      rw [← digits_append (Nat.two_pow_pos _), Nat.shiftLeft_eq, add_zero,
        Nat.add_sub_cancel' hpending.le]
    rw [if_pos hpartial, unpack_append, unpack_singleton, byteDigits_ofNat, hfill, digits_zero,
      append_assoc]
  · rw [Nat.eq_zero_of_not_pos hpartial, digits, append_nil]
    simp

section Encoding

variable {code : JointCode}

def codedBits (code : JointCode) (symbols : List ℕ) : List ℕ := symbols.flatMap code.word

def blockStarts (code : JointCode) (block : ℕ) (symbols : List ℕ) : List ℕ :=
  (range ((symbols.length + block - 1) / block)).map fun index =>
    (codedBits code (symbols.take (index * block))).length

theorem codedBits_cons (code : JointCode) (symbol : ℕ) (symbols : List ℕ) :
    codedBits code (symbol :: symbols) = code.word symbol ++ codedBits code symbols :=
  flatMap_cons

theorem codedBits_append (code : JointCode) (first second : List ℕ) :
    codedBits code (first ++ second) = codedBits code first ++ codedBits code second :=
  flatMap_append

theorem codedBits_concat (code : JointCode) (symbols : List ℕ) (symbol : ℕ) :
    codedBits code (symbols ++ [symbol]) = codedBits code symbols ++ code.word symbol := by
  rw [codedBits_append, codedBits, codedBits, flatMap_singleton]

theorem word_length (code : JointCode) (symbol : ℕ) :
    (code.word symbol).length = code.lengths.getD symbol 0 :=
  digits_length _ _

theorem codedBits_length_le (hcode : code.Canonical) (symbols : List ℕ) :
    (codedBits code symbols).length ≤ symbols.length * maxCodeLen := by
  induction symbols with
  | nil => exact le_rfl
  | cons symbol symbols ih =>
    have hword : (code.word symbol).length ≤ maxCodeLen := by
      rw [word_length]
      exact (hcode.length_le symbol).trans hcode.tableBits_le
    rw [codedBits_cons, length_append, length_cons, Nat.succ_mul]
    omega

theorem blockStarts_concat (hblock : 0 < block) (symbols : List ℕ) (symbol : ℕ) :
    blockStarts code block (symbols ++ [symbol]) = if symbols.length % block = 0 then
        blockStarts code block symbols ++ [(codedBits code symbols).length]
      else
        blockStarts code block symbols := by
  have hold : ∀ count, count * block ≤ symbols.length + (block - 1) →
      (range count).map (fun index =>
        (codedBits code ((symbols ++ [symbol]).take (index * block))).length) =
      (range count).map fun index =>
        (codedBits code (symbols.take (index * block))).length := by
    intro count hcount
    apply map_congr_left
    intro index hindex
    have hnext : (index + 1) * block ≤ count * block := Nat.mul_le_mul_right _ (mem_range.mp hindex)
    rw [Nat.succ_mul] at hnext
    rw [take_append_of_le_length (by omega)]
  have hceil : (symbols.length + 1 + block - 1) / block = symbols.length / block + 1 := by
    rw [add_assoc, add_comm 1, ← add_assoc, Nat.add_sub_cancel, Nat.add_div_right _ hblock]
  have hdiv := Nat.div_add_mod' symbols.length block
  rw [blockStarts, blockStarts, length_append, length_singleton, hceil]
  by_cases hfirst : symbols.length % block = 0
  · have hsame : (symbols.length + block - 1) / block = symbols.length / block := by
      apply Nat.div_eq_of_lt_le
      · omega
      · rw [Nat.succ_mul]
        omega
    have hwhole : symbols.length / block * block = symbols.length := by omega
    rw [if_pos hfirst, hsame, range_succ, map_append, hold _ (by omega),
      map_singleton, hwhole, take_left]
  · have hsame : (symbols.length + block - 1) / block = symbols.length / block + 1 := by
      apply Nat.div_eq_of_lt_le
      · rw [Nat.succ_mul]
        omega
      · have hmod := Nat.mod_lt symbols.length hblock
        rw [Nat.succ_mul, Nat.succ_mul]
        omega
    rw [if_neg hfirst, hsame]
    apply hold
    rw [Nat.succ_mul]
    omega

structure Encoding.Holds (code : JointCode) (block : ℕ) (symbols : List ℕ) (state : Encoding) :
    Prop where
  content : state.sink.content = codedBits code symbols
  pending : state.sink.pending < 8
  total : state.total = (codedBits code symbols).length
  blockOffsets : state.blockOffsets = blockStarts code block symbols

def Encoding.next (code : JointCode) (block position symbol : ℕ) (state : Encoding) : Encoding :=
  ⟨state.sink.push (code.lengths.getD symbol 0) (code.codes.getD symbol 0),
    state.total + code.lengths.getD symbol 0,
    if position % block = 0 then state.blockOffsets ++ [state.total] else state.blockOffsets⟩

section

variable (hcode : code.Canonical) {state : Encoding}

include hcode

/-- A symbol is encoded when it has a word and the bits can still be counted. -/
theorem encodeSymbol_eq_ok_iff {next : Encoding} :
    encodeSymbol code block state (symbol, position) = .ok next ↔
      code.Codes symbol ∧ state.total + code.lengths.getD symbol 0 < 2 ^ 64 ∧
        state.next code block position symbol = next := by
  rw [encodeSymbol, refuse_eq_ok_iff, not_le]
  by_cases hinside : symbol < code.lengths.length
  · have hinsideCodes : symbol < code.codes.length := by rwa [hcode.codes_length]
    rw [and_iff_right hinside, index_of_lt hinside, ok_bind,
      refuse_eq_ok_iff, index_of_lt hinsideCodes, ok_bind, JointCode.Codes,
      ← getD_eq_getElem _ 0 hinside, ← getD_eq_getElem _ 0 hinsideCodes,
      Nat.pos_iff_ne_zero, bind_eq_ok_iff]
    apply and_congr_right
    intro _
    constructor
    · rintro ⟨total, htotal, hnext⟩
      obtain ⟨hbound, rfl⟩ := checkedAdd_eq_some_iff.mp (expect_eq_ok_iff.mp htotal)
      exact ⟨hbound, ok.inj hnext⟩
    · rintro ⟨hbound, rfl⟩
      exact ⟨_, add_of_lt hbound, rfl⟩
  · refine iff_of_false (fun hboth => hinside hboth.1) fun hboth => ?_
    have hsymbol := hboth.1
    rw [JointCode.Codes, getD_eq_default _ _ (not_lt.mp hinside)] at hsymbol
    omega

theorem Encoding.Holds.next (hblock : 0 < block) (hsymbol : code.Codes symbol)
    (hstate : state.Holds code block symbols) :
    (state.next code block symbols.length symbol).Holds code block (symbols ++ [symbol]) := by
  obtain ⟨hcontent, hpending, htotal, hoffsets⟩ := hstate
  have hshort : code.lengths.getD symbol 0 ≤ 56 :=
    ((hcode.length_le symbol).trans hcode.tableBits_le).trans (by decide)
  obtain ⟨hpushed, hleft⟩ := BitSink.push_content hpending hshort (hcode.codes_lt symbol hsymbol)
  rw [Encoding.next]
  refine ⟨?_, hleft, ?_, ?_⟩
  · rw [hpushed, hcontent, codedBits_concat]
    rfl
  · rw [htotal, codedBits_concat, length_append, word_length]
  · rw [hoffsets, htotal, blockStarts_concat hblock]

/-- Symbols are encoded when all of them have words and their bits can be counted. -/
theorem foldlM_encodeSymbol (hblock : 0 < block) (symbols : List ℕ) :
    (((∀ symbol ∈ symbols, code.Codes symbol) ∧ (codedBits code symbols).length < 2 ^ 64) →
      ∃ state, symbols.zipIdx.foldlM (encodeSymbol code block) ⟨⟨[], 0, 0⟩, 0, []⟩ = .ok state) ∧
    ∀ state, symbols.zipIdx.foldlM (encodeSymbol code block) ⟨⟨[], 0, 0⟩, 0, []⟩ = .ok state →
      (∀ symbol ∈ symbols, code.Codes symbol) ∧ state.Holds code block symbols := by
  induction symbols using reverseRecOn with
  | nil =>
    have hnone : blockStarts code block [] = [] := by
      rw [blockStarts, length_nil, zero_add, Nat.div_eq_of_lt (Nat.sub_one_lt_of_lt hblock)]
      rfl
    refine ⟨fun _ => ⟨_, rfl⟩, fun state hstate => ?_⟩
    obtain rfl := ok.inj hstate
    exact ⟨forall_mem_nil _, rfl, by decide, rfl, hnone.symm⟩
  | append_singleton symbols symbol ih =>
    obtain ⟨hforward, hbackward⟩ := ih
    rw [zipIdx_append, zipIdx_singleton, zero_add]
    constructor
    · rintro ⟨hsymbols, hbits⟩
      obtain ⟨hinit, hlast⟩ := forall_mem_append.mp hsymbols
      have hsymbol := hlast symbol (mem_singleton_self symbol)
      rw [codedBits_concat, length_append, word_length] at hbits
      obtain ⟨state, hfold⟩ := hforward ⟨hinit, by omega⟩
      have hholds := (hbackward state hfold).2
      refine ⟨state.next code block symbols.length symbol, ?_⟩
      rw [foldlM_append, hfold, ok_bind, foldlM_cons, (encodeSymbol_eq_ok_iff hcode).mpr
        ⟨hsymbol, by rwa [hholds.total], rfl⟩, ok_bind, foldlM_nil, pure_eq_ok]
    · intro final hfinal
      obtain ⟨state, hfold, hnext⟩ := foldlM_concat_eq_ok hfinal
      obtain ⟨hinit, hholds⟩ := hbackward state hfold
      obtain ⟨hsymbol, _, rfl⟩ := (encodeSymbol_eq_ok_iff hcode).mp hnext
      refine ⟨forall_mem_append.mpr ⟨hinit, ?_⟩, hholds.next hcode hblock hsymbol⟩
      exact forall_mem_singleton.mpr hsymbol

/-- The bytes hold the code words of the symbols, and less than one byte of padding. -/
def Spells (code : JointCode) (bits : List UInt8) (symbols : List ℕ) : Prop :=
  ∃ padding, unpack bits = codedBits code symbols ++ padding ∧ padding.length < 8

/-- An encoded stream holds the code words of its symbols, all of which have one. -/
theorem encode_eq_ok {stream : JointStream} (hencode : encode code symbols block = .ok stream) :
    (∀ symbol ∈ symbols, code.Codes symbol) ∧ Spells code stream.bits symbols ∧
      stream = ⟨stream.bits, blockStarts code block symbols, block, symbols.length⟩ := by
  rw [encode] at hencode
  obtain ⟨hblock, hencode⟩ := refuse_eq_ok hencode
  obtain ⟨state, hfold, hstream⟩ := bind_eq_ok hencode
  obtain ⟨hsymbols, hholds⟩ :=
    (foldlM_encodeSymbol hcode (Nat.pos_of_ne_zero hblock) symbols).2 state hfold
  obtain ⟨padding, hfinish, hpadding⟩ := BitSink.unpack_finish hholds.pending
  rw [← ok.inj hstream]
  refine ⟨hsymbols, ⟨padding, ?_, hpadding⟩, ?_⟩
  · rw [hfinish, hholds.content]
  · rw [hholds.blockOffsets]

theorem exists_encode (hblock : 0 < block) (hsymbols : ∀ symbol ∈ symbols, code.Codes symbol)
    (hbits : (codedBits code symbols).length < 2 ^ 64) :
    ∃ stream, encode code symbols block = .ok stream := by
  obtain ⟨state, hfold⟩ := (foldlM_encodeSymbol hcode hblock symbols).1 ⟨hsymbols, hbits⟩
  rw [encode, if_neg (Nat.pos_iff_ne_zero.mp hblock), hfold]
  exact ⟨_, rfl⟩

end

end Encoding

section Decoding

variable {code : JointCode} {stream : List UInt8}

theorem peekBit_eq (stream : List UInt8) (position : ℕ) :
    peekBit stream position = (unpack stream).getD position 0 := by
  rw [peekBit, getD_eq_getElem?_getD]
  cases hbyte : stream[position / 8]? with
  | none =>
    have houtside : (unpack stream).length ≤ position := by
      rw [getElem?_eq_none_iff] at hbyte
      rw [unpack_length]
      omega
    rw [getElem?_eq_none houtside, Option.getD_none]
  | some byte =>
    have hshift : (UInt8.ofNat (7 - position % 8)).toNat = 7 - position % 8 := by
      rw [UInt8.toNat_ofNat', Nat.mod_eq_of_lt (by omega)]
    rw [unpack_getElem? hbyte]
    dsimp only
    rw [UInt8.toNat_and, UInt8.toNat_shiftRight, hshift, Nat.mod_eq_of_lt (by omega)]
    rfl

theorem peek_eq {bit width : ℕ} (hbound : bit + width < 2 ^ 64) :
    peek stream bit width = .ok (value (lookahead (unpack stream) bit width)) := by
  induction width with
  | zero => rfl
  | succ width ih =>
    have hfold := ih (by omega)
    have hlast : peekBit stream (bit + width) < 2 ^ 1 := by
      rw [peekBit_eq, getD_eq_getElem?_getD]
      cases hget : (unpack stream)[bit + width]? with
      | none => exact Nat.two_pos
      | some found => exact unpack_binary stream found (mem_of_getElem? hget)
    rw [peek] at hfold ⊢
    rw [range_succ, foldlM_append, hfold, ok_bind, foldlM_cons,
      add_of_lt (by omega), ok_bind, ← Nat.shiftLeft_add_eq_or_of_lt hlast,
      Nat.shiftLeft_eq, peekBit_eq, lookahead, lookahead, range_succ, map_append,
      map_singleton, value_concat, mul_comm 2]
    rfl

variable (hcode : code.Canonical) (hbound : stream.length * 8 + maxCodeLen < 2 ^ 64)

include hcode hbound

/-- One table lookup reads one code word. -/
theorem decodeRun_succ (hsymbol : code.Codes symbol)
    (hword : code.word symbol <+: (unpack stream).drop position) (count : ℕ) :
    decodeRun code stream (stream.length * 8) (count + 1) position = (do
      let rest ← decodeRun code stream (stream.length * 8) count
        (position + (code.word symbol).length)
      return symbol :: rest) := by
  have hle := hword.length_le
  rw [word_length, length_drop, unpack_length] at hle
  have hpos : 0 < code.lengths.getD symbol 0 := hsymbol
  have hwidth := hcode.tableBits_le
  have hlength := hcode.length_le symbol
  have hinside := @value_lookahead_of_isPrefix code.tableBits _ _ _ (unpack_binary stream) hword
    (by rwa [word_length])
  rw [word_length] at hinside
  have hentry := hcode.entry symbol hsymbol _ hinside.1 hinside.2
  rw [decodeRun, peek_eq (by omega), ok_bind, index_eq_ok_iff.mpr hentry, ok_bind]
  dsimp only
  rw [if_neg (Nat.pos_iff_ne_zero.mp hpos), add_of_lt (by omega), ok_bind,
    if_neg (by omega), word_length]

theorem decodeRun_eq (symbols : List ℕ) (hsymbols : ∀ symbol ∈ symbols, code.Codes symbol)
    (hbits : codedBits code symbols <+: (unpack stream).drop position) :
    decodeRun code stream (stream.length * 8) symbols.length position = .ok symbols := by
  induction symbols generalizing position with
  | nil => rfl
  | cons symbol symbols ih =>
    obtain ⟨hsymbol, hrest⟩ := forall_mem_cons.mp hsymbols
    rw [codedBits_cons] at hbits
    have hword : code.word symbol <+: (unpack stream).drop position :=
      (prefix_append _ _).trans hbits
    have htail : codedBits code symbols <+:
        (unpack stream).drop (position + (code.word symbol).length) := by
      obtain ⟨after, hafter⟩ := hbits
      rw [← drop_drop, ← hafter, append_assoc, drop_left]
      simp
    rw [length_cons, decodeRun_succ hcode hbound hsymbol hword, ih hrest htail, ok_bind, pure_eq_ok]

/-- Decoding from the offset of any symbol returns the symbols from there on. -/
theorem decodeFrom_eq {all before after : List ℕ} (hsplit : before ++ symbols ++ after = all)
    (hsymbols : ∀ symbol ∈ all, code.Codes symbol) (hstream : Spells code stream all) :
    decodeFrom code stream (codedBits code before).length symbols.length = .ok symbols := by
  obtain ⟨padding, hunpack, _⟩ := hstream
  have hbits : codedBits code symbols <+:
      (unpack stream).drop (codedBits code before).length := by
    simp [hunpack, ← hsplit, codedBits_append]
  have hcoded : ∀ symbol ∈ symbols, code.Codes symbol := by
    intro symbol hsymbol
    apply hsymbols
    rw [← hsplit]
    exact mem_append_left _ (mem_append_right _ hsymbol)
  rw [decodeFrom, mul_of_lt (by omega), ok_bind, decodeRun_eq hcode hbound symbols hcoded hbits]

end Decoding

/-- A block of symbols; the last one may be shorter. -/
def blockOf (block : ℕ) (symbols : List ℕ) (index : ℕ) : List ℕ :=
  (symbols.drop (index * block)).take block

/-- A stream holds symbols: it decodes to them, as a whole and block by block. -/
structure JointStream.Holds (code : JointCode) (symbols : List ℕ) (block : ℕ)
    (stream : JointStream) : Prop where
  whole : decode code stream = .ok symbols
  blocks : stream.blockOffsets.length = (symbols.length + block - 1) / block
  each : ∀ index < (symbols.length + block - 1) / block,
    decodeBlock code stream index = .ok (blockOf block symbols index)

theorem lt_of_lt_ceilDiv {count index : ℕ} (hblock : 0 < block)
    (hindex : index < (count + block - 1) / block) : index * block < count := by
  rw [Nat.lt_div_iff_mul_lt hblock] at hindex
  omega

/-- **The stream round trip.** What a canonical code encodes decodes to itself, from the start and
from the offset of every block. -/
theorem encode_holds {code : JointCode} (hcode : code.Canonical) (hblock : 0 < block)
    (hsymbols : ∀ symbol ∈ symbols, code.Codes symbol) (hcount : symbols.length < 2 ^ 60) :
    ∃ stream, encode code symbols block = .ok stream ∧ stream.Holds code symbols block := by
  have hmax : maxCodeLen = 15 := rfl
  have hbits := codedBits_length_le hcode symbols
  rw [hmax] at hbits
  obtain ⟨stream, hencode⟩ := exists_encode hcode hblock hsymbols (by omega)
  obtain ⟨_, hspells, hstream⟩ := encode_eq_ok hcode hencode
  have hbound : stream.bits.length * 8 + maxCodeLen < 2 ^ 64 := by
    obtain ⟨padding, hunpack, _⟩ := hspells
    have hlength := congrArg length hunpack
    rw [unpack_length, length_append] at hlength
    omega
  refine ⟨stream, hencode, ?_⟩
  rw [hstream]
  refine ⟨?_, ?_, ?_⟩
  · have hsplit : [] ++ symbols ++ [] = symbols := by rw [nil_append, append_nil]
    exact decodeFrom_eq hcode hbound hsplit hsymbols hspells
  · simp [blockStarts]
  · intro index hindex
    have hfirst := lt_of_lt_ceilDiv hblock hindex
    have hsplit : symbols.take (index * block) ++ blockOf block symbols index ++
        (symbols.drop (index * block)).drop block = symbols := by
      simp [blockOf]
    have hlength : (blockOf block symbols index).length =
        min block (symbols.length - index * block) := by
      simp [blockOf]
    have hstart : (blockStarts code block symbols)[index]? =
        some (codedBits code (symbols.take (index * block))).length := by
      rw [blockStarts, getElem?_map, getElem?_range hindex, Option.map_some]
    rw [decodeBlock, hstart, okOr_bind, mul_of_lt (by
      dsimp only
      omega), ok_bind, sub_of_le hfirst.le, ok_bind]
    rw [← hlength]
    exact decodeFrom_eq hcode hbound hsplit hsymbols hspells

end Tritium.Salt
