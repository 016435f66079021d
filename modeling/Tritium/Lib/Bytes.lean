import Tritium.Lib.Outcome
import Mathlib.Tactic.Ring

/-!
# Bytes

Little-endian and big-endian integers, and the optional subslice of a byte string.
-/

namespace Tritium

open List

variable {α ε β : Type} {items part second first : List α} {start stop position count width : ℕ}
  (f : α → List β)

/-- `items.get(start..stop)`: the elements from `start` up to `stop`, if the range is in bounds. -/
def subslice {α : Type} (items : List α) (start stop : ℕ) : Option (List α) :=
  if start ≤ stop ∧ stop ≤ items.length then some ((items.take stop).drop start) else none

theorem subslice_eq_some_iff :
    subslice items start stop = some part ↔
      start ≤ stop ∧ stop ≤ items.length ∧ part = (items.take stop).drop start := by
  rw [subslice, Option.ite_none_right_eq_some, and_assoc, Option.some.injEq, eq_comm (b := part)]

theorem slice_eq_ok_iff :
    (slice items start stop : Outcome ε (List α)) = .ok part ↔
      subslice items start stop = some part := by
  rw [slice, subslice]
  by_cases hbounds : start ≤ stop ∧ stop ≤ items.length
  · rw [if_pos hbounds, if_pos hbounds, ok.injEq, Option.some.injEq]
  · rw [if_neg hbounds, if_neg hbounds]
    simp

theorem parts_of_append (before part after : List α) (hstart : before.length = start)
    (hstop : start + part.length = stop) :
    (before ++ part ++ after).take start = before ∧
      ((before ++ part ++ after).take stop).drop start = part ∧
      (before ++ part ++ after).drop stop = after ∧ stop ≤ (before ++ part ++ after).length := by
  have hlength : (before ++ part).length = stop := by rw [length_append, hstart, hstop]
  refine ⟨?_, ?_, drop_left' hlength, ?_⟩
  · rw [append_assoc, take_left' hstart]
  · rw [take_left' hlength, drop_left' hstart]
  · rw [length_append, hlength]
    omega

theorem subslice_append (before part after : List α) :
    subslice (before ++ part ++ after) before.length (before.length + part.length) = some part := by
  obtain ⟨_, hpart, _, hle⟩ := parts_of_append before part after rfl rfl
  exact subslice_eq_some_iff.mpr ⟨Nat.le_add_right _ _, hle, hpart.symm⟩

theorem subslice_of_split {before after : List α} (hitems : items = before ++ part ++ after)
    (hstart : before.length = start) (hstop : start + part.length = stop) :
    subslice items start stop = some part := by
  rw [hitems, ← hstop, ← hstart]
  exact subslice_append before part after

theorem split_of_subslice (hpart : subslice items start stop = some part) :
    ∃ before after, items = before ++ part ++ after ∧ before.length = start ∧
      start + part.length = stop := by
  obtain ⟨hstart, hstop, rfl⟩ := subslice_eq_some_iff.mp hpart
  refine ⟨(items.take stop).take start, items.drop stop, ?_, ?_, ?_⟩
  · simp
  · rw [length_take, length_take, min_eq_left hstop, min_eq_left hstart]
  · rw [length_drop, length_take, min_eq_left hstop, Nat.add_sub_cancel' hstart]

theorem subslice_whole_iff : subslice items 0 items.length = some part ↔ part = items := by
  simp [subslice_eq_some_iff]

section

variable (hpart : subslice items start stop = some part)

include hpart

theorem length_of_subslice : part.length = stop - start := by
  obtain ⟨_, hstop, rfl⟩ := subslice_eq_some_iff.mp hpart
  rw [length_drop, length_take, min_eq_left hstop]

theorem start_le_of_subslice : start ≤ items.length :=
  have hbounds := subslice_eq_some_iff.mp hpart
  hbounds.1.trans hbounds.2.1

theorem length_le_of_subslice : part.length ≤ items.length - start := by
  obtain ⟨_, hstop, _⟩ := subslice_eq_some_iff.mp hpart
  rw [length_of_subslice hpart]
  omega

theorem add_length_of_subslice : start + part.length = stop := by
  have hlength := length_of_subslice hpart
  have hle := (subslice_eq_some_iff.mp hpart).1
  omega

theorem getElem?_of_subslice (hposition : position < part.length) :
    items[start + position]? = some part[position] := by
  obtain ⟨_, _, rfl⟩ := subslice_eq_some_iff.mp hpart
  simp

end

theorem getElem?_of_subslice_singleton {item : α}
    (hitem : subslice items start stop = some [item]) : items[start]? = some item :=
  getElem?_of_subslice hitem one_pos

theorem index_of_subslice {item : α} (hitem : subslice items start stop = some [item]) :
    (Outcome.index items start : Outcome ε α) = .ok item :=
  index_eq_ok_iff.mpr (getElem?_of_subslice_singleton hitem)

theorem subslice_of_add_le (hle : start + count ≤ items.length) :
    subslice items start (start + count) = some ((items.drop start).take count) := by
  rw [subslice, if_pos ⟨Nat.le_add_right _ _, hle⟩, drop_take, Nat.add_sub_cancel_left]

theorem subslice_singleton {item : α} (hitem : items[position]? = some item) :
    subslice items position (position + 1) = some [item] := by
  obtain ⟨hposition, rfl⟩ := List.getElem?_eq_some_iff.mp hitem
  rw [subslice_of_add_le hposition, drop_eq_getElem_cons hposition]
  rfl

theorem subslice_of_subslice
    (hpart : subslice items start stop = some part) (hle : position + count ≤ part.length) :
    subslice items (start + position) (start + position + count) =
      some ((part.drop position).take count) := by
  have hlength := add_length_of_subslice hpart
  obtain ⟨_, _, rfl⟩ := subslice_eq_some_iff.mp hpart
  refine subslice_eq_some_iff.mpr ⟨Nat.le_add_right _ _, by omega, ?_⟩
  rw [drop_drop, take_drop, take_take, min_eq_left (by omega)]

/-- A range holds a concatenation when it splits into ranges of the two parts. -/
theorem subslice_append_iff :
    subslice items start stop = some (first ++ second) ↔
      ∃ middle, subslice items start middle = some first ∧
        subslice items middle stop = some second := by
  constructor
  · intro hboth
    obtain ⟨before, after, rfl, rfl, rfl⟩ := split_of_subslice hboth
    refine ⟨(before ++ first).length, ?_, ?_⟩
    · exact subslice_of_split (by rw [← append_assoc before, append_assoc (before ++ first)]) rfl
        (length_append ..).symm
    · exact subslice_of_split (by rw [← append_assoc before]) rfl
        (by rw [length_append, length_append, add_assoc])
  · rintro ⟨middle, hfirst, hsecond⟩
    obtain ⟨before, after, rfl, rfl, rfl⟩ := split_of_subslice hfirst
    obtain ⟨front, rest, hitems, hfront, rfl⟩ := split_of_subslice hsecond
    rw [append_assoc front] at hitems
    obtain ⟨rfl, rfl⟩ := append_inj hitems (by rw [length_append, hfront])
    exact subslice_of_split (by rw [append_assoc before, ← append_assoc first, ← append_assoc before])
      rfl (by rw [length_append, add_assoc])

theorem subslice_append_iff_of_length :
    subslice items start stop = some (first ++ second) ↔
      subslice items start (start + first.length) = some first ∧
        subslice items (start + first.length) stop = some second := by
  rw [subslice_append_iff]
  constructor
  · rintro ⟨middle, hfirst, hsecond⟩
    have hlength := length_of_subslice hfirst
    obtain ⟨_, _, _⟩ := subslice_eq_some_iff.mp hfirst
    obtain rfl : middle = start + first.length := by omega
    exact ⟨hfirst, hsecond⟩
  · rintro ⟨hfirst, hsecond⟩
    exact ⟨_, hfirst, hsecond⟩

theorem length_flatMap_const {f : α → List β} (items : List α)
    (hwidth : ∀ item ∈ items, (f item).length = width) :
    (items.flatMap f).length = items.length * width := by
  induction items with
  | nil => rw [flatMap_nil, length_nil, length_nil, zero_mul]
  | cons item items ih =>
    obtain ⟨hitem, hitems⟩ := forall_mem_cons.mp hwidth
    rw [flatMap_cons, length_append, hitem, ih hitems, length_cons, Nat.succ_mul, add_comm]

/-- The part of one item, between the parts before it and those behind it. -/
theorem flatMap_split (hposition : position < items.length) :
    items.flatMap f = (items.take position).flatMap f ++ f items[position] ++
      (items.drop (position + 1)).flatMap f := by
  conv_lhs => rw [← take_append_drop position items, drop_eq_getElem_cons hposition]
  rw [flatMap_append, flatMap_cons, append_assoc]

theorem length_flatMap_take_succ (hposition : position < items.length) :
    ((items.take (position + 1)).flatMap f).length =
      ((items.take position).flatMap f).length + (f items[position]).length := by
  rw [take_succ_eq_append_getElem hposition, flatMap_append, flatMap_singleton, length_append]

/-- The part of one item lies behind those of the items before it. -/
theorem subslice_flatMap (hposition : position < items.length) :
    subslice (items.flatMap f) ((items.take position).flatMap f).length
      (((items.take position).flatMap f).length + (f items[position]).length) =
        some (f items[position]) := by
  conv_lhs => rw [flatMap_split f hposition]
  exact subslice_append _ _ _

theorem zipIdx_map_range (f : ℕ → α) (count : ℕ) :
    ((range count).map f).zipIdx = (range count).map fun index => (f index, index) := by
  apply ext_getElem
  · simp
  · intro index _ _
    simp

/-- `as_chunks().0`: the whole chunks of the given width, in order. -/
def asChunks {α : Type} (width : ℕ) (items : List α) : List (List α) :=
  (range (items.length / width)).map fun index => (items.drop (index * width)).take width

theorem asChunks_length (width : ℕ) (items : List α) :
    (asChunks width items).length = items.length / width := by
  simp [asChunks]

theorem asChunks_append (hwidth : 0 < width) {chunk : List α}
    (hchunk : chunk.length = width) (rest : List α) :
    asChunks width (chunk ++ rest) = chunk :: asChunks width rest := by
  have hcount : (chunk ++ rest).length / width = rest.length / width + 1 := by
    rw [length_append, hchunk, Nat.add_div_left _ hwidth]
  have hfirst : ((chunk ++ rest).drop (0 * width)).take width = chunk := by
    rw [zero_mul, drop_zero, take_left' hchunk]
  rw [asChunks, hcount, range_succ_eq_map, map_cons, map_map]
  congr 1
  apply map_congr_left
  intro index _
  rw [Function.comp_apply, Nat.succ_mul, add_comm, ← drop_drop, drop_left' hchunk]

@[simp]
theorem asChunks_nil (width : ℕ) : asChunks width ([] : List α) = [] := by
  simp [asChunks]

theorem asChunks_append_of_length (hwidth : 0 < width)
    {front : List α} (hfront : front.length = count * width) (rest : List α) :
    asChunks width (front ++ rest) = asChunks width front ++ asChunks width rest := by
  induction count generalizing front with
  | zero =>
    rw [zero_mul, length_eq_zero_iff] at hfront
    simp [hfront, asChunks_nil]
  | succ count ih =>
    rw [Nat.succ_mul] at hfront
    have hfirst : (front.take width).length = width := by
      rw [length_take]
      omega
    have hrest : (front.drop width).length = count * width := by
      rw [length_drop]
      omega
    rw [← take_append_drop width front, append_assoc, asChunks_append hwidth hfirst,
      asChunks_append hwidth hfirst, ih hrest, cons_append]

theorem asChunks_flatten (hwidth : 0 < width) {chunks : List (List α)}
    (hchunks : ∀ chunk ∈ chunks, chunk.length = width) :
    asChunks width chunks.flatten = chunks := by
  induction chunks with
  | nil => rw [flatten_nil, asChunks_nil]
  | cons chunk chunks ih =>
    obtain ⟨hchunk, hrest⟩ := forall_mem_cons.mp hchunks
    rw [flatten_cons, asChunks_append hwidth hchunk, ih hrest]

theorem flatten_asChunks (hwidth : 0 < width) (count : ℕ)
    (hlength : items.length = count * width) : (asChunks width items).flatten = items := by
  induction count generalizing items with
  | zero =>
    rw [zero_mul, length_eq_zero_iff] at hlength
    rw [hlength, asChunks_nil, flatten_nil]
  | succ count ih =>
    rw [Nat.succ_mul] at hlength
    have hfirst : (items.take width).length = width := by
      rw [length_take]
      omega
    have hrest : (items.drop width).length = count * width := by
      rw [length_drop]
      omega
    conv_lhs => rw [← take_append_drop width items]
    rw [asChunks_append hwidth hfirst, flatten_cons, ih hrest, take_append_drop]

theorem asChunks_getElem {index : ℕ} (hindex : index < (asChunks width items).length) :
    (asChunks width items)[index] = (items.drop (index * width)).take width := by
  simp [asChunks]

/-! ### Little-endian integers -/

/-- The `width` low bytes of a number, the lowest first. -/
def leBytes : ℕ → ℕ → List UInt8
  | 0, _ => []
  | width + 1, value => UInt8.ofNat value :: leBytes width (value / 256)

def ofLeBytes : List UInt8 → ℕ
  | [] => 0
  | byte :: rest => byte.toNat + 256 * ofLeBytes rest

@[simp]
theorem leBytes_length (width value : ℕ) : (leBytes width value).length = width := by
  induction width generalizing value with
  | zero => rfl
  | succ width ih => rw [leBytes, length_cons, ih]

theorem ofLeBytes_leBytes (width : ℕ) {value : ℕ} (hvalue : value < 256 ^ width) :
    ofLeBytes (leBytes width value) = value := by
  induction width generalizing value with
  | zero =>
    rw [pow_zero, Nat.lt_one_iff] at hvalue
    rw [hvalue]
    rfl
  | succ width ih =>
    have hrest : value / 256 < 256 ^ width := by
      omega
    rw [leBytes, ofLeBytes, ih hrest]
    exact Nat.mod_add_div value 256

theorem ofLeBytes_lt (bytes : List UInt8) : ofLeBytes bytes < 256 ^ bytes.length := by
  induction bytes with
  | nil => exact one_pos
  | cons byte rest ih =>
    have hbyte := byte.toNat_lt
    rw [ofLeBytes, length_cons]
    omega

theorem leBytes_ofLeBytes {bytes : List UInt8} (hwidth : bytes.length = width) :
    leBytes width (ofLeBytes bytes) = bytes := by
  subst hwidth
  induction bytes with
  | nil => rfl
  | cons byte rest ih =>
    have hbyte := byte.toNat_lt
    have hdiv : (byte.toNat + 256 * ofLeBytes rest) / 256 = ofLeBytes rest := by omega
    have hlow : UInt8.ofNat (byte.toNat + 256 * ofLeBytes rest) = byte := by simp
    rw [length_cons, ofLeBytes, leBytes, hdiv, ih, hlow]

/-- Integers of one width, one behind the other, are found again. -/
theorem map_ofLeBytes_asChunks (hwidth : 0 < width) {values : List ℕ}
    (hvalues : ∀ value ∈ values, value < 256 ^ width) :
    (asChunks width (values.flatMap (leBytes width))).map ofLeBytes = values := by
  have hchunks : ∀ chunk ∈ values.map (leBytes width), chunk.length = width := by
    intro chunk hchunk
    obtain ⟨value, _, rfl⟩ := mem_map.mp hchunk
    simp
  rw [flatMap_def, asChunks_flatten hwidth hchunks, map_map]
  apply (map_congr_left _).trans (map_id values)
  intro value hvalue
  exact ofLeBytes_leBytes width (hvalues value hvalue)

theorem flatMap_leBytes_asChunks {bytes : List UInt8} (hwidth : 0 < width) (count : ℕ)
    (hlength : bytes.length = count * width) :
    ((asChunks width bytes).map ofLeBytes).flatMap (leBytes width) = bytes := by
  rw [flatMap_map, flatMap_def]
  refine Eq.trans (congrArg flatten ((map_congr_left ?_).trans (map_id _)))
    (flatten_asChunks hwidth count hlength)
  intro chunk hchunk
  obtain ⟨index, hindex, rfl⟩ := getElem_of_mem hchunk
  rw [asChunks_length, hlength, Nat.mul_div_cancel _ hwidth] at hindex
  have hroom := Nat.mul_le_mul_right width hindex
  rw [Nat.succ_mul, ← hlength] at hroom
  apply leBytes_ofLeBytes
  rw [asChunks_getElem, length_take, length_drop]
  omega

/-! ### Big-endian integers -/

/-- The `width` low bytes of a number, the highest first. -/
def beBytes (width value : ℕ) : List UInt8 := (leBytes width value).reverse

def ofBeBytes (bytes : List UInt8) : ℕ := ofLeBytes bytes.reverse

@[simp]
theorem beBytes_length (width value : ℕ) : (beBytes width value).length = width := by
  rw [beBytes, length_reverse, leBytes_length]

theorem ofBeBytes_beBytes (width : ℕ) {value : ℕ} (hvalue : value < 256 ^ width) :
    ofBeBytes (beBytes width value) = value := by
  rw [ofBeBytes, beBytes, reverse_reverse, ofLeBytes_leBytes width hvalue]

theorem ofBeBytes_lt (bytes : List UInt8) : ofBeBytes bytes < 256 ^ bytes.length := by
  rw [← length_reverse]
  exact ofLeBytes_lt bytes.reverse

theorem beBytes_ofBeBytes (bytes : List UInt8) :
    beBytes bytes.length (ofBeBytes bytes) = bytes := by
  rw [beBytes, ofBeBytes, ← length_reverse, leBytes_ofLeBytes rfl, reverse_reverse]

theorem ofBeBytes_concat (bytes : List UInt8) (byte : UInt8) :
    ofBeBytes (bytes ++ [byte]) = ofBeBytes bytes * 256 + byte.toNat := by
  rw [ofBeBytes, reverse_append, reverse_singleton, singleton_append, ofLeBytes, ofBeBytes]
  ring

end Tritium
