import Tritium.Gguf.Writer

/-!
# GGUF values

A value that was written is read back from the front of whatever follows it, if its strings are not
too long for the reader.
-/

namespace Tritium.Gguf

open List Stateful
open Cbor (utf8 fromUtf8_eq_some_iff)

variable {value : GgufValue} {bytes : List UInt8} {total total' : ℕ}

def TextFits (text : String) : Prop := (utf8 text).length ≤ maxStringLen

instance (text : String) : Decidable (TextFits text) :=
  inferInstanceAs (Decidable ((utf8 text).length ≤ maxStringLen))

/-- The reader accepts all strings of a value. -/
inductive StringsFit : GgufValue → Prop where
  | string {text : String} (htext : TextFits text) : StringsFit (.string text)
  | array {items : List GgufValue} (hitems : ∀ item ∈ items, StringsFit item) :
      StringsFit (.array items)
  | scalar {value : GgufValue} (hstring : valueTypeTag value ≠ 8) (harray : valueTypeTag value ≠ 9) :
      StringsFit value

theorem take_reads (piece : List UInt8) : Reads (Cursor.take piece.length) piece piece := by
  intro rest
  simp [Cursor.take]

theorem unsigned_reads (width : ℕ) {value : ℕ} (hvalue : value < 256 ^ width) :
    Reads (Cursor.unsigned width) (leBytes width value) value := by
  have htake := take_reads (leBytes width value)
  rw [leBytes_length] at htake
  have hread := htake.map ofLeBytes
  rwa [ofLeBytes_leBytes width hvalue] at hread

theorem ggufString_reads {text : String} (htext : TextFits text) :
    Reads Cursor.ggufString (ggufStringBytes text) text := by
  rw [TextFits, maxStringLen] at htext
  refine (unsigned_reads 8 (by omega)).bind ?_
  rw [if_neg (by rw [maxStringLen]; omega)]
  intro rest
  rw [bind_apply_ok (take_reads (utf8 text) rest), fromUtf8_eq_some_iff.mpr rfl]
  rfl

theorem fixed_reads {width bits : ℕ} (make : ℕ → GgufValue)
    (hbits : bits < 256 ^ width) (hmake : make bits = value) :
    Reads (Cursor.unsigned width >>= fun bits => pure (make bits)) (leBytes width bits) value := by
  rw [← hmake]
  exact (unsigned_reads width hbits).map make

theorem readScalar_reads (hpush : pushScalar value = .ok bytes) (hfits : StringsFit value) :
    Reads (readScalar (valueTypeTag value)) bytes value := by
  cases value <;> obtain rfl | _ := hpush
  case string text =>
    cases hfits with
    | string htext => exact (ggufString_reads htext).map GgufValue.string
    | scalar hstring => exact absurd rfl hstring
  case bool value =>
    refine (unsigned_reads 1 (by cases value <;> decide)).bind ?_
    cases value <;> exact fun rest => rfl
  case u8 value => exact fixed_reads (fun bits => .u8 (.ofNat bits)) value.toNat_lt (by simp)
  case i8 value =>
    exact fixed_reads (fun bits => .i8 (UInt8.ofNat bits).toInt8) value.toUInt8.toNat_lt (by simp)
  case u16 value => exact fixed_reads (fun bits => .u16 (.ofNat bits)) value.toNat_lt (by simp)
  case i16 value =>
    exact fixed_reads (fun bits => .i16 (UInt16.ofNat bits).toInt16) value.toUInt16.toNat_lt
      (by simp)
  case u32 value => exact fixed_reads (fun bits => .u32 (.ofNat bits)) value.toNat_lt (by simp)
  case i32 value =>
    exact fixed_reads (fun bits => .i32 (UInt32.ofNat bits).toInt32) value.toUInt32.toNat_lt
      (by simp)
  case f32 bits => exact fixed_reads (fun bits => .f32 (.ofNat bits)) bits.toNat_lt (by simp)
  case u64 value => exact fixed_reads (fun bits => .u64 (.ofNat bits)) value.toNat_lt (by simp)
  case i64 value =>
    exact fixed_reads (fun bits => .i64 (UInt64.ofNat bits).toInt64) value.toUInt64.toNat_lt
      (by simp)
  case f64 bits => exact fixed_reads (fun bits => .f64 (.ofNat bits)) bits.toNat_lt (by simp)

theorem valueTypeTag_le (value : GgufValue) : valueTypeTag value ≤ 12 := by
  cases value <;> simp [valueTypeTag]

theorem pushValuePayload_of_scalar (hscalar : valueTypeTag value ≠ 9) (room total : ℕ) :
    pushValuePayload room value total = do return (← pushScalar value, total) := by
  cases room <;> cases value <;> first | rfl | exact absurd rfl hscalar

theorem readValue_of_scalar {valueType : ℕ} (hscalar : valueType ≠ 9) (room total : ℕ) :
    readValue room valueType total = do return (← readScalar valueType, total) := by
  cases room <;> rw [readValue, if_neg hscalar]

section Items

variable {push : GgufValue → ℕ → Outcome GgufError (List UInt8 × ℕ)}
  {read : ℕ → ℕ → Reader (GgufValue × ℕ)}
  (hread : ∀ value total bytes total', push value total = .ok (bytes, total') → StringsFit value →
    Reads (read (valueTypeTag value) total) bytes (value, total')) {items : List GgufValue}

include hread

theorem items_reads {childTag : ℕ} {front : List UInt8}
    (hpush : items.foldlM (pushItem push childTag) (front, total) = .ok (bytes, total'))
    (hfits : ∀ item ∈ items, StringsFit item) (done : List GgufValue) :
    ∃ piece, bytes = front ++ piece ∧
      Reads (timesM (readItem read childTag) items.length (done, total)) piece
        (done ++ items, total') := by
  induction items generalizing total front done with
  | nil =>
    cases hpush
    exact ⟨[], by rw [append_nil], by rw [append_nil]; exact Reads.pure _⟩
  | cons item items ih =>
    obtain ⟨hitem, hitems⟩ := forall_mem_cons.mp hfits
    rw [foldlM_cons, bind_eq_ok_iff] at hpush
    obtain ⟨⟨middle, total₁⟩, hfirst, hrest⟩ := hpush
    rw [pushItem, refuse_eq_ok_iff, not_ne_iff, bind_eq_ok_iff] at hfirst
    obtain ⟨rfl, ⟨payload, _⟩, hpayload, hmiddle⟩ := hfirst
    cases hmiddle
    obtain ⟨piece, rfl, hpiece⟩ := ih hrest hitems (done ++ [item])
    refine ⟨payload ++ piece, append_assoc _ _ _, ?_⟩
    rw [append_assoc] at hpiece
    exact ((hread item total payload total₁ hpayload hitem).map
      fun next => (done ++ [next.1], next.2)).bind hpiece

theorem array_reads (hpush : pushArray push items total = .ok (bytes, total'))
    (hfits : ∀ item ∈ items, StringsFit item) :
    Reads (readArray read total) bytes (.array items, total') := by
  rw [pushArray, bind_eq_ok_iff] at hpush
  obtain ⟨next, hnext, hpush⟩ := hpush
  obtain ⟨_, rfl⟩ := checkedAdd_eq_ok hnext
  rw [refuse_eq_ok_iff, bind_eq_ok_iff] at hpush
  obtain ⟨hbound, ⟨payload, _⟩, hitems, hbytes⟩ := hpush
  cases hbytes
  obtain ⟨piece, rfl, hpiece⟩ := items_reads hread hitems hfits []
  have htag : items.head?.elim 0 valueTypeTag ≤ 12 := by
    cases items with
    | nil => decide
    | cons item items => exact valueTypeTag_le item
  have hcount : items.length < 2 ^ 32 := by
    rw [maxMetadataArrayElements] at hbound
    omega
  refine (unsigned_reads 4 (by omega)).bind ?_
  rw [if_neg (by omega)]
  refine (unsigned_reads 8 (by omega)).bind ?_
  rw [if_neg (by rw [maxCount]; omega), hnext, lift_ok_bind, if_neg (by omega)]
  exact hpiece.map fun next => (GgufValue.array next.1, next.2)

end Items

/-- **A written value is read back.** -/
theorem value_reads (room : ℕ)
    (hpush : pushValuePayload room value total = .ok (bytes, total')) (hfits : StringsFit value) :
    Reads (readValue room (valueTypeTag value) total) bytes (value, total') := by
  induction room generalizing value total total' bytes with
  | zero =>
    by_cases hscalar : valueTypeTag value = 9
    · cases value <;> cases hscalar
      cases hpush
    · rw [pushValuePayload_of_scalar hscalar, bind_eq_ok_iff] at hpush
      obtain ⟨payload, hpayload, hbytes⟩ := hpush
      cases hbytes
      rw [readValue_of_scalar hscalar]
      exact (readScalar_reads hpayload hfits).map fun value => (value, total)
  | succ room ih =>
    by_cases hscalar : valueTypeTag value = 9
    · cases value <;> cases hscalar
      cases hfits with
      | array hitems =>
        exact array_reads (fun value total bytes total' hpush hfits => ih hpush hfits) hpush
          hitems
      | scalar _ harray => exact absurd rfl harray
    · rw [pushValuePayload_of_scalar hscalar, bind_eq_ok_iff] at hpush
      obtain ⟨payload, hpayload, hbytes⟩ := hpush
      cases hbytes
      rw [readValue_of_scalar hscalar]
      exact (readScalar_reads hpayload hfits).map fun value => (value, total)

theorem ggufString_ensures : Ensures TextFits Cursor.ggufString := by
  refine (ensures_true _).bind fun length _ => Ensures.refuse fun hlength => ?_
  intro state text after hcall
  obtain ⟨bytes, middle, htake, htext⟩ := Stateful.bind_eq_ok_iff.mp hcall
  have hutf8 := fromUtf8_eq_some_iff.mp (okOr_eq_ok_iff.mp (Prod.mk.inj htext).1)
  rw [Cursor.take] at htake
  split_ifs at htake
  · cases htake
  · cases htake
    rw [TextFits, hutf8, length_take]
    omega

theorem readScalar_ensures (valueType : ℕ) : Ensures StringsFit (readScalar valueType) := by
  have hfixed : ∀ (x : Reader ℕ) (make : ℕ → GgufValue),
      (∀ bits, valueTypeTag (make bits) ≠ 8 ∧ valueTypeTag (make bits) ≠ 9) →
      Ensures StringsFit (x >>= fun bits => pure (make bits)) := fun x make hmake =>
    (ensures_true x).bind fun bits _ => Ensures.pure (.scalar (hmake bits).1 (hmake bits).2)
  unfold readScalar
  split
  case h_8 => exact (ensures_true _).bind fun bits _ => Ensures.refuse fun _ =>
    Ensures.pure (.scalar (by simp [valueTypeTag]) (by simp [valueTypeTag]))
  case h_9 => exact ggufString_ensures.bind fun text htext => Ensures.pure (.string htext)
  case h_13 => exact Ensures.lift fun value hvalue => by cases hvalue
  all_goals exact hfixed _ _ fun bits => by simp [valueTypeTag]

theorem readValue_ensures (room valueType total : ℕ) :
    Ensures (fun result => StringsFit result.1) (readValue room valueType total) := by
  induction room generalizing valueType total with
  | zero =>
    rw [readValue]
    exact Ensures.refuse fun _ => (readScalar_ensures valueType).bind fun _ hvalue =>
      Ensures.pure hvalue
  | succ room ih =>
    by_cases hscalar : valueType = 9
    · rw [readValue, if_pos hscalar]
      refine (ensures_true _).bind fun childType _ => Ensures.refuse fun _ =>
        (ensures_true _).bind fun count _ => Ensures.refuse fun _ =>
        (ensures_true _).bind fun total _ => Ensures.refuse fun _ => ?_
      have hstep : ∀ (turn : ℕ) (state : List GgufValue × ℕ),
          (∀ item ∈ state.1, StringsFit item) →
          Ensures (fun next : List GgufValue × ℕ => ∀ item ∈ next.1, StringsFit item)
            (readItem (readValue room) childType state) := fun _ state hstate =>
        (ih childType state.2).bind fun item hitem => Ensures.pure fun other hother =>
          (mem_append.mp hother).elim (hstate other) fun hlast =>
            mem_singleton.mp hlast ▸ hitem
      exact (@Ensures.timesM _ _ _ (fun _ state => ∀ item ∈ state.1, StringsFit item) _ hstep
        count 0 ([], total) (by simp)).bind fun _ hitems => Ensures.pure (.array hitems)
    · rw [readValue_of_scalar hscalar]
      exact (readScalar_ensures valueType).bind fun _ hvalue => Ensures.pure hvalue

end Tritium.Gguf
