import Tritium.Lib.PrefixCode

/-!
# Bit streams in bytes

A stream of bytes is read as one list of bits, the highest bit of a byte first. Numbers are written
into it by their lowest bits, again the highest one first.
-/

namespace Tritium.BitStream

open List
open PrefixCode

variable {width position : ℕ} {bits word : List ℕ}

/-- The lowest bits of a number, the highest one first. -/
def digits : ℕ → ℕ → List ℕ
  | 0, _ => []
  | width + 1, number => digits width (number / 2) ++ [number % 2]

@[simp]
theorem digits_length (width number : ℕ) : (digits width number).length = width := by
  induction width generalizing number with
  | zero => rfl
  | succ width ih => rw [digits, length_append, ih, length_singleton]

theorem digits_binary (width number : ℕ) : Binary (digits width number) := by
  induction width generalizing number with
  | zero => exact forall_mem_nil _
  | succ width ih =>
    apply (ih (number / 2)).append
    intro bit hbit
    rw [mem_singleton.mp hbit]
    omega

theorem value_digits {number : ℕ} (hnumber : number < 2 ^ width) :
    value (digits width number) = number := by
  induction width generalizing number with
  | zero =>
    exact (Nat.lt_one_iff.mp hnumber).symm
  | succ width ih =>
    rw [digits, value_concat, ih (by omega)]
    omega

theorem digits_add (high low number : ℕ) :
    digits (high + low) number = digits high (number / 2 ^ low) ++ digits low number := by
  induction low generalizing number with
  | zero => rw [add_zero, pow_zero, Nat.div_one, digits, append_nil]
  | succ low ih =>
    rw [← add_assoc, digits, ih, digits, Nat.div_div_eq_div_mul, ← pow_succ', append_assoc]

theorem digits_mod {above : ℕ} (hwidth : width ≤ above) (number : ℕ) :
    digits width (number % 2 ^ above) = digits width number := by
  induction width generalizing above number with
  | zero => rfl
  | succ width ih =>
    obtain ⟨above, rfl⟩ := Nat.exists_eq_add_of_le' (Nat.zero_lt_of_lt hwidth)
    have hhalf : number % 2 ^ (above + 1) / 2 = number / 2 % 2 ^ above := by
      rw [pow_succ', Nat.mod_mul_right_div_self]
    have hlast : number % 2 ^ (above + 1) % 2 = number % 2 := by simp
    rw [digits, digits, hhalf, hlast, ih (Nat.succ_le_succ_iff.mp hwidth)]

theorem digits_append {high low upper lower : ℕ} (hlower : lower < 2 ^ low) :
    digits (high + low) (upper * 2 ^ low + lower) = digits high upper ++ digits low lower := by
  have hdiv : (upper * 2 ^ low + lower) / 2 ^ low = upper := by
    rw [mul_comm, Nat.mul_add_div (Nat.two_pow_pos low), Nat.div_eq_of_lt hlower, add_zero]
  have hmod : (upper * 2 ^ low + lower) % 2 ^ low = lower := by
    rw [mul_comm, Nat.mul_add_mod, Nat.mod_eq_of_lt hlower]
  rw [digits_add, hdiv, ← digits_mod le_rfl (upper * 2 ^ low + lower), hmod]

theorem digits_zero (width : ℕ) : digits width 0 = replicate width 0 := by
  induction width with
  | zero => rfl
  | succ width ih => rw [digits, ih, replicate_succ']

def byteDigits (byte : UInt8) : List ℕ := digits 8 byte.toNat

def unpack (stream : List UInt8) : List ℕ := stream.flatMap byteDigits

theorem byteDigits_ofNat (number : ℕ) : byteDigits (UInt8.ofNat number) = digits 8 number := by
  rw [byteDigits, UInt8.toNat_ofNat', digits_mod le_rfl]

theorem unpack_append (first second : List UInt8) :
    unpack (first ++ second) = unpack first ++ unpack second :=
  flatMap_append

theorem unpack_singleton (byte : UInt8) : unpack [byte] = byteDigits byte := by
  rw [unpack, flatMap_singleton]

theorem unpack_length (stream : List UInt8) : (unpack stream).length = stream.length * 8 := by
  induction stream with
  | nil => rfl
  | cons byte stream ih =>
    rw [unpack, flatMap_cons, ← unpack, length_append, byteDigits, digits_length, length_cons]
    omega

theorem unpack_binary (stream : List UInt8) : Binary (unpack stream) := by
  intro bit hbit
  obtain ⟨byte, _, hbyte⟩ := mem_flatMap.mp hbit
  exact digits_binary 8 byte.toNat bit hbyte

theorem digits_getElem? {number : ℕ} (hposition : position < width) :
    (digits width number)[position]? = some (number >>> (width - 1 - position) &&& 1) := by
  obtain ⟨low, rfl⟩ : ∃ low, width = position + 1 + low := ⟨width - (position + 1), by omega⟩
  have hlength : (digits position (number / 2 ^ low / 2)).length = position := digits_length _ _
  have hshift : position + 1 + low - 1 - position = low := by omega
  rw [digits_add, getElem?_append_left (by simp), digits,
    getElem?_append_right hlength.le, hlength, Nat.sub_self, hshift,
    Nat.shiftRight_eq_div_pow, Nat.and_one_is_mod]
  rfl

theorem unpack_getElem? {stream : List UInt8} {byte : UInt8}
    (hbyte : stream[position / 8]? = some byte) :
    (unpack stream)[position]? = some (byte.toNat >>> (7 - position % 8) &&& 1) := by
  induction stream generalizing position with
  | nil => simp at hbyte
  | cons first stream ih =>
    have hlength : (byteDigits first).length = 8 := digits_length _ _
    rw [unpack, flatMap_cons, ← unpack]
    by_cases hfirst : position < 8
    · rw [Nat.div_eq_of_lt hfirst, getElem?_cons_zero, Option.some.injEq] at hbyte
      rw [getElem?_append_left (by omega), byteDigits, digits_getElem? hfirst, hbyte,
        Nat.mod_eq_of_lt hfirst]
    · obtain ⟨position, rfl⟩ := Nat.exists_eq_add_of_le' (not_lt.mp hfirst)
      rw [Nat.add_div_right _ (by decide)] at hbyte
      rw [getElem?_append_right (by omega), hlength, Nat.add_sub_cancel, ih hbyte,
        Nat.add_mod_right]

/-- The next bits from a position on, with zeros past the end. -/
def lookahead (bits : List ℕ) (position width : ℕ) : List ℕ :=
  (range width).map fun step => bits.getD (position + step) 0

theorem lookahead_length (bits : List ℕ) (position width : ℕ) :
    (lookahead bits position width).length = width := by
  simp [lookahead]

theorem lookahead_binary (hbits : Binary bits) (position width : ℕ) :
    Binary (lookahead bits position width) := by
  intro bit hbit
  obtain ⟨step, _, rfl⟩ := mem_map.mp hbit
  rw [getD_eq_getElem?_getD]
  cases hget : bits[position + step]? with
  | none => exact Nat.two_pos
  | some found => exact hbits found (mem_of_getElem? hget)

theorem lookahead_of_isPrefix (hword : word <+: bits.drop position) (hwidth : word.length ≤ width) :
    lookahead bits position width =
      word ++ lookahead bits (position + word.length) (width - word.length) := by
  obtain ⟨rest, hrest⟩ := hword
  have hfront : (range word.length).map (fun step => bits.getD (position + step) 0) = word := by
    apply ext_getElem
    · rw [length_map, length_range]
    · intro step hstep hinside
      have hget : bits[position + step]? = some word[step] := by
        rw [← getElem?_drop, ← hrest, getElem?_append_left hinside, getElem?_eq_getElem hinside]
      simp [hget]
  obtain ⟨more, rfl⟩ := Nat.exists_eq_add_of_le hwidth
  rw [lookahead, range_add, map_append, Nat.add_sub_cancel_left, map_map]
  congr 1
  apply map_congr_left
  intro step _
  rw [Function.comp_apply, add_assoc]

/-- The value read ahead lies in the interval of the word. -/
theorem value_lookahead_of_isPrefix (hbits : Binary bits) (hword : word <+: bits.drop position)
    (hwidth : word.length ≤ width) :
    start width word ≤ value (lookahead bits position width) ∧
      value (lookahead bits position width) < start width word + weight width word.length := by
  have hrest := value_lt (lookahead_binary hbits (position + word.length) (width - word.length))
  rw [lookahead_length] at hrest
  rw [lookahead_of_isPrefix hword hwidth, value_append, lookahead_length, start, weight]
  omega

end Tritium.BitStream
