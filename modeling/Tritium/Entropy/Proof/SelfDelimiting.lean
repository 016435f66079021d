import Tritium.Entropy.Proof.Rans
import Tritium.Entropy.Proof.Huffman
import Tritium.Entropy.Transport

/-!
# Where a payload ends

A payload is self-delimiting when nothing behind its last coded symbol can be added or changed
without the decoder noticing. The stored and the rANS decoder check that they have consumed all they
were given. The Huffman decoder checks its reading position against the bit length it was told, and
never looks at what lies behind.
-/

namespace Tritium.Entropy

open List

variable {state next : ℕ} {rest bytes : List UInt8} {trie : List TrieNode}

variable {payload stream : List UInt8} {expectedLen : ℕ} (extra : List UInt8) {table : RansTable}
  (remaining node bitPos : ℕ)

theorem readRansTable_append (hpayload : ransModelBytes ≤ payload.length) :
    readRansTable (payload ++ extra) = readRansTable payload := by
  have hmodel : ransModelBytes = 512 := rfl
  rw [readRansTable, readRansTable, Outcome.foldlM_congr_mem]
  intro table symbol hsymbol
  have hlt := mem_range.mp hsymbol
  rw [RansTable.readSymbol, RansTable.readSymbol, index_append (by omega), index_append (by omega)]

theorem refill_append (hrefill : refill state stream = .ok (next, rest)) :
    refill state (stream ++ extra) = .ok (next, rest ++ extra) := by
  induction stream generalizing state with
  | nil =>
    obtain ⟨hstate, hnext⟩ := refuse_eq_ok hrefill
    obtain ⟨rfl, rfl⟩ := Prod.mk.inj (ok.inj hnext)
    rw [refill_of_le (Nat.le_of_not_lt hstate)]
  | cons byte stream ih =>
    rw [cons_append, refill]
    rw [refill] at hrefill
    by_cases hstate : state < ransLowerBound
    · rw [if_pos hstate] at hrefill ⊢
      exact ih hrefill
    · rw [if_neg hstate] at hrefill ⊢
      obtain ⟨rfl, rfl⟩ := Prod.mk.inj (ok.inj hrefill)
      rfl

theorem takeSymbol_append {symbol : UInt8}
    (htake : takeSymbol table state stream = .ok (symbol, next, rest)) :
    takeSymbol table state (stream ++ extra) = .ok (symbol, next, rest ++ extra) := by
  simp only [takeSymbol, bind_eq_ok_iff, refuse_eq_ok_iff, Prod.exists, pure_eq_ok, ok.injEq,
    Prod.mk.injEq] at htake ⊢
  obtain ⟨owner, howner, frequency, hfrequency, hpositive, product, hproduct, shifted, hshifted, start,
    hstart, reduced, hreduced, refilled, left, hrefill, rfl, rfl, rfl⟩ := htake
  exact ⟨owner, howner, frequency, hfrequency, hpositive, product, hproduct, shifted, hshifted, start,
    hstart, reduced, hreduced, refilled, _, refill_append extra hrefill, rfl, rfl, rfl⟩

theorem takeSymbols_append {decoded : List UInt8} (count : ℕ)
    (htake : takeSymbols table count state stream = .ok (decoded, next, rest)) :
    takeSymbols table count state (stream ++ extra) = .ok (decoded, next, rest ++ extra) := by
  induction count generalizing state stream decoded with
  | zero =>
    obtain ⟨rfl, rfl, rfl⟩ := htake
    rfl
  | succ count ih =>
    simp only [takeSymbols, bind_eq_ok_iff, Prod.exists, pure_eq_ok, ok.injEq,
      Prod.mk.injEq] at htake ⊢
    obtain ⟨symbol, middle, left, hsymbol, tail, last, ending, htail, rfl, rfl, rfl⟩ := htake
    exact ⟨symbol, middle, _, takeSymbol_append extra hsymbol, tail, last, _, ih htail, rfl, rfl, rfl⟩

theorem decodeRans_append (hextra : extra ≠ [])
    (hdecode : decodeRans payload expectedLen = .ok bytes) :
    decodeRans (payload ++ extra) expectedLen = .err .invalidRansStream := by
  have hpayload : ransModelBytes + 4 ≤ payload.length := by
    rw [decodeRans] at hdecode
    exact Nat.le_of_not_lt (refuse_eq_ok hdecode).1
  rw [decodeRans_of_le hpayload] at hdecode
  obtain ⟨table, htable, hdecode⟩ := bind_eq_ok hdecode
  obtain ⟨hstate, hdecode⟩ := refuse_eq_ok hdecode
  obtain ⟨⟨decoded, state, rest⟩, htake, hdecode⟩ := bind_eq_ok hdecode
  have hlonger : ransModelBytes + 4 ≤ (payload ++ extra).length := by
    rw [length_append]
    omega
  rw [decodeRans_of_le hlonger, readRansTable_append extra (by omega), htable, ok_bind,
    take_append_of_le_length hpayload, if_neg hstate, drop_append_of_le_length hpayload,
    takeSymbols_append extra expectedLen htake]
  apply if_pos
  left
  rw [ne_eq, append_eq_nil_iff, not_and]
  exact fun _ => hextra

theorem walkSymbol_append {result : ℕ × ℕ} (hbits : bitPos + remaining ≤ stream.length * 8)
    (hwalk : walkSymbol trie stream remaining node bitPos = .ok result) :
    walkSymbol trie (stream ++ extra) remaining node bitPos = .ok result := by
  induction remaining generalizing node bitPos with
  | zero => exact hwalk
  | succ remaining ih =>
    simp only [walkSymbol, index_append (by omega : bitPos / 8 < stream.length), bind_eq_ok_iff,
      refuse_eq_ok_iff] at hwalk ⊢
    obtain ⟨byte, hbyte, parent, hparent, next, hnext, hchild, reached, hreached, hwalk⟩ := hwalk
    refine ⟨byte, hbyte, parent, hparent, next, hnext, hchild, reached, hreached, ?_⟩
    cases hsymbol : reached.symbol with
    | some symbol =>
      rw [hsymbol] at hwalk
      exact hwalk
    | none =>
      rw [hsymbol] at hwalk
      exact ih next.toNat (bitPos + 1) (by omega) hwalk

theorem walkSymbol_le {symbol : ℕ}
    (hwalk : walkSymbol trie stream remaining node bitPos = .ok (symbol, next)) :
    next ≤ bitPos + remaining := by
  induction remaining generalizing node bitPos with
  | zero => exact absurd hwalk nofun
  | succ remaining ih =>
    rw [walkSymbol] at hwalk
    obtain ⟨byte, _, hwalk⟩ := bind_eq_ok hwalk
    obtain ⟨parent, _, hwalk⟩ := bind_eq_ok hwalk
    obtain ⟨child, _, hwalk⟩ := bind_eq_ok hwalk
    obtain ⟨_, hwalk⟩ := refuse_eq_ok hwalk
    obtain ⟨reached, _, hwalk⟩ := bind_eq_ok hwalk
    cases hsymbol : reached.symbol with
    | some symbol =>
      rw [hsymbol] at hwalk
      dsimp only at hwalk
      rw [pure_eq_ok, ok.injEq, Prod.mk.injEq] at hwalk
      omega
    | none =>
      rw [hsymbol] at hwalk
      have hle := ih child.toNat (bitPos + 1) hwalk
      omega

theorem walkSymbols_append {bitLen : ℕ} {result : List UInt8 × ℕ}
    (hstream : bitLen ≤ stream.length * 8) (count : ℕ) {bitPos : ℕ} (hbitPos : bitPos ≤ bitLen)
    (hwalk : walkSymbols trie stream bitLen count bitPos = .ok result) :
    walkSymbols trie (stream ++ extra) bitLen count bitPos = .ok result := by
  induction count generalizing bitPos result with
  | zero => exact hwalk
  | succ count ih =>
    simp only [walkSymbols, bind_eq_ok_iff, Prod.exists] at hwalk ⊢
    obtain ⟨symbol, next, hsymbol, decoded, last, hrest, hwalk⟩ := hwalk
    have hnext := walkSymbol_le _ _ _ hsymbol
    exact ⟨symbol, next, walkSymbol_append extra _ _ _ (by omega) hsymbol, decoded, last,
      ih (by omega) hrest, hwalk⟩

theorem decodeHuffman_append (hdecode : decodeHuffman payload expectedLen = .ok bytes) :
    decodeHuffman (payload ++ extra) expectedLen = .ok bytes := by
  have hpayload : 264 ≤ payload.length := by
    rw [decodeHuffman] at hdecode
    exact Nat.le_of_not_lt (refuse_eq_ok hdecode).1
  rw [decodeHuffman_of_le hpayload] at hdecode
  obtain ⟨_, hdecode⟩ := refuse_eq_ok hdecode
  obtain ⟨codes, hcodes, hdecode⟩ := bind_eq_ok hdecode
  obtain ⟨trie, htrie, hdecode⟩ := bind_eq_ok hdecode
  obtain ⟨⟨decoded, bitPos⟩, hwalk, hdecode⟩ := bind_eq_ok hdecode
  have hlonger : 264 ≤ (payload ++ extra).length := by
    rw [length_append]
    omega
  have hroom : ¬min ((payload.drop 264 ++ extra).length * 8) (2 ^ 64 - 1) <
      ofLeBytes ((payload.take 264).drop 256) := by
    rw [length_append]
    omega
  rw [decodeHuffman_of_le hlonger, take_append_of_le_length hpayload,
    take_append_of_le_length (by omega : 256 ≤ payload.length),
    drop_append_of_le_length hpayload, if_neg hroom, hcodes, ok_bind, htrie,
    ok_bind, walkSymbols_append extra (by omega) expectedLen (Nat.zero_le _) hwalk]
  exact hdecode

/-- The bits of an accepted payload up to the end of its last symbol: the Huffman decoder ends at the
bit length its payload declares, the others at the end of the payload. -/
def codedLength (codec : EntropyTransportChunkCodec) (payload : List UInt8) : ℕ :=
  match codec with
  | .huffman => 264 * 8 + ofLeBytes ((payload.take 264).drop 256)
  | .raw | .rans => payload.length * 8

/-- The two payloads have the first `count` bits in common. -/
def AgreeUpTo (count : ℕ) (payload other : List UInt8) : Prop :=
  count ≤ other.length * 8 ∧ ∀ position < count, bitAt other position = bitAt payload position

/-- Nothing can be added behind a payload, and no bit behind its last symbol changed. -/
def SelfDelimiting (codec : EntropyTransportChunkCodec) (payload : List UInt8) (expectedLen : ℕ) :
    Prop :=
  (∀ extra, extra ≠ [] → ∃ error, decodePayload codec (payload ++ extra) expectedLen = .err error) ∧
    ∀ other, other ≠ payload → AgreeUpTo (codedLength codec payload) payload other →
      decodePayload codec other expectedLen ≠ decodePayload codec payload expectedLen

theorem eq_of_byteBit {left right : UInt8}
    (hbits : ∀ position < 8, byteBit left position = byteBit right position) : left = right := by
  apply UInt8.toNat_inj.mp
  apply Nat.eq_of_testBit_eq
  intro bit
  by_cases hbit : bit < 8
  · have heq := hbits (7 - bit) (by omega)
    rw [byteBit_eq_testBit, byteBit_eq_testBit, (by omega : 7 - (7 - bit) = bit)] at heq
    rw [Bool.eq_iff_iff, ← Bool.toNat_eq_one, heq, Bool.toNat_eq_one]
  · have hpower : 2 ^ 8 ≤ 2 ^ bit := Nat.pow_le_pow_right (by decide) (by omega)
    rw [Nat.testBit_lt_two_pow (lt_of_lt_of_le left.toNat_lt hpower),
      Nat.testBit_lt_two_pow (lt_of_lt_of_le right.toNat_lt hpower)]

/-- A payload that has all bits of another is an extension of it. -/
theorem AgreeUpTo.exists_append {other : List UInt8}
    (hagree : AgreeUpTo (payload.length * 8) payload other) :
    ∃ extra, other = payload ++ extra := by
  obtain ⟨_, hbits⟩ := hagree
  have hle : payload.length ≤ other.length := by omega
  have htake : other.take payload.length = payload := by
    apply ext_getElem
    · rw [length_take, min_eq_left hle]
    · intro index hindex hpayload
      rw [getElem_take]
      apply eq_of_byteBit
      intro position hposition
      have heq := hbits (index * 8 + position) (by omega)
      rw [bitAt, bitAt, (by omega : (index * 8 + position) / 8 = index),
        (by omega : (index * 8 + position) % 8 = position),
        getD_eq_getElem _ _ (by omega), getD_eq_getElem _ _ hpayload] at heq
      exact heq
  have hprefix := take_prefix payload.length other
  rw [htake] at hprefix
  obtain ⟨extra, hextra⟩ := hprefix
  exact ⟨extra, hextra.symm⟩

/-- A decoder that refuses every extension of a payload is enough for a payload without spare bits. -/
theorem selfDelimiting_of_append {codec : EntropyTransportChunkCodec}
    (hcoded : codedLength codec payload = payload.length * 8)
    (hdecode : decodePayload codec payload expectedLen = .ok bytes) (happend : ∀ extra, extra ≠ [] →
      ∃ error, decodePayload codec (payload ++ extra) expectedLen = .err error) :
    SelfDelimiting codec payload expectedLen := by
  refine ⟨happend, ?_⟩
  intro other hother hagree
  rw [hcoded] at hagree
  obtain ⟨extra, rfl⟩ := hagree.exists_append
  obtain ⟨error, herror⟩ := happend extra fun hextra => hother (by rw [hextra, append_nil])
  rw [herror, hdecode]
  exact nofun

/-- One zero byte under a code of one bit. It is accepted with a byte behind it and with its seven
padding bits set. -/
theorem not_selfDelimiting_huffman :
    let payload : List UInt8 := [1] ++ replicate 255 0 ++ leBytes 8 1 ++ [0]
    decodePayload .huffman payload 1 = .ok [0] ∧
      decodePayload .huffman (payload ++ [255]) 1 = .ok [0] ∧
      decodePayload .huffman (payload.dropLast ++ [127]) 1 = .ok [0] ∧
      ¬SelfDelimiting .huffman payload 1 := by
  intro payload
  have hextended : decodePayload .huffman (payload ++ [255]) 1 = .ok [0] := by decide +kernel
  refine ⟨by decide +kernel, hextended, by decide +kernel, ?_⟩
  rintro ⟨happend, _⟩
  obtain ⟨error, herror⟩ := happend [255] (by decide)
  exact absurd (hextended.symm.trans herror) nofun

/-- **Which payloads are self-delimiting.** An accepted payload is self-delimiting unless it is a
Huffman payload: the Huffman decoder accepts every extension of what it accepts. -/
theorem selfDelimiting_iff (codec : EntropyTransportChunkCodec) (payload : List UInt8)
    (expectedLen : ℕ) (bytes : List UInt8)
    (hdecode : decodePayload codec payload expectedLen = .ok bytes) :
    SelfDelimiting codec payload expectedLen ↔ codec ≠ .huffman := by
  cases codec with
  | raw =>
    refine iff_of_true (selfDelimiting_of_append rfl hdecode ?_) (by decide)
    intro extra hextra
    obtain ⟨_, _⟩ := refuse_eq_ok hdecode
    have hpositive := length_pos_of_ne_nil hextra
    refine ⟨.decodedLengthMismatch, if_pos ?_⟩
    rw [length_append]
    omega
  | rans =>
    refine iff_of_true (selfDelimiting_of_append rfl hdecode ?_) (by decide)
    exact fun extra hextra => ⟨_, decodeRans_append extra hextra hdecode⟩
  | huffman =>
    refine iff_of_false ?_ (by decide)
    rintro ⟨happend, _⟩
    obtain ⟨error, herror⟩ := happend [0] (by decide)
    have haccepted := decodeHuffman_append [0] hdecode
    exact absurd (herror.symm.trans haccepted) nofun

theorem selfDelimiting_iff_skewed :
    ∃ payload, decodePayload .rans payload 4 = .ok [7, 7, 7, 200] ∧
      SelfDelimiting .rans payload 4 := by
  obtain ⟨payload, _, hdecode⟩ :=
    decodeRans_encodeRans (by decide : ([7, 7, 7, 200] : List UInt8) ≠ []) (by decide)
  exact ⟨payload, hdecode, (selfDelimiting_iff .rans payload 4 _ hdecode).mpr (by decide)⟩

end Tritium.Entropy
