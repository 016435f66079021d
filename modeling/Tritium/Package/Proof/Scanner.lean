import Tritium.Lib.Cbor
import Tritium.Package.Cbor
import Mathlib.Data.List.Chain

/-!
# The scanner accepts exactly the deterministic encodings

Every step of the scanner is described by an equivalence: it goes from one position to another if
and only if the bytes between the two are an encoding. Soundness and completeness are the two
directions, and both pass through the loops in the same induction.
-/

namespace Tritium.Package

open List
open Cbor

variable {position stop code argument levels : ℕ} {header : Head} {previous : Option (List UInt8)}

variable {bytes content : List UInt8} (hsmall : bytes.length < 2 ^ 64)
  {entries : List (Scalar × Value)} {admitted : Value → Prop} {form : ℕ × ℕ}

theorem Head.exists_iff {p : Head → Prop} :
    (∃ header, p header) ↔ ∃ major argument, p ⟨major, argument⟩ :=
  ⟨fun ⟨_, hheader⟩ => ⟨_, _, hheader⟩, fun ⟨_, _, hheader⟩ => ⟨_, hheader⟩⟩

include hsmall in
theorem take_eq_ok_iff {count : ℕ} {out : List UInt8} :
    take bytes position count = .ok (out, stop) ↔
      out.length = count ∧ subslice bytes position stop = some out := by
  simp only [take, bind_eq_ok_iff, okOr_eq_ok_iff, checkedAdd_eq_some_iff, pure_eq_ok, ok.injEq,
    Prod.mk.injEq, existsAndEq, and_true, true_and]
  constructor
  · rintro ⟨_, hpart, rfl⟩
    exact ⟨Nat.add_left_cancel (add_length_of_subslice hpart), hpart⟩
  · rintro ⟨rfl, hpart⟩
    obtain ⟨_, _, _⟩ := subslice_eq_some_iff.mp hpart
    rw [add_length_of_subslice hpart]
    exact ⟨by omega, hpart, rfl⟩

theorem headArgument_eq {field : List UInt8} (hlength : field.length ≤ 8) :
    headArgument field = ofBeBytes field := by
  induction field using reverseRecOn with
  | nil => rfl
  | append_singleton field byte ih =>
    rw [length_append, length_singleton] at hlength
    have hbyte := byte.toNat_lt
    have hlt : ofBeBytes field < 256 ^ 7 :=
      lt_of_lt_of_le (ofBeBytes_lt field) (Nat.pow_le_pow_right (by decide) (by omega))
    rw [headArgument, foldl_append, foldl_cons, foldl_nil, ← headArgument, ih (by omega),
      ofBeBytes_concat, Nat.shiftLeft_eq,
      Nat.mod_eq_of_lt (by omega), ← Nat.shiftLeft_eq, ← Nat.shiftLeft_add_eq_or_of_lt hbyte]

theorem headForm_width_le (hform : headForm code = some form) : form.1 ≤ 8 := by
  unfold headForm at hform
  split at hform <;> cases hform <;> decide

/-- A form fits an argument when the deterministic encoding chooses it. -/
theorem form_of_headForm (hform : headForm code = some form) (hminimum : form.2 ≤ argument)
    (hargument : argument < 256 ^ form.1) :
    24 ≤ argument ∧ additional argument = code ∧ argumentWidth argument = form.1 := by
  unfold headForm at hform
  rw [additional, argumentWidth]
  split at hform <;> cases hform
  all_goals
    dsimp only at hminimum hargument
    split_ifs <;> omega

theorem exists_headForm (hlarge : 24 ≤ argument) :
    ∃ form, headForm (additional argument) = some form ∧ form.1 = argumentWidth argument ∧
      form.2 ≤ argument := by
  rw [additional, argumentWidth, if_neg (not_lt.mpr hlarge), if_neg (not_lt.mpr hlarge)]
  split_ifs with h8 h16 h32
  · exact ⟨(1, 24), rfl, rfl, hlarge⟩
  · exact ⟨(2, 256), rfl, rfl, Nat.le_of_not_lt h8⟩
  · exact ⟨(4, 65536), rfl, rfl, Nat.le_of_not_lt h16⟩
  · exact ⟨(8, 1 <<< 32), rfl, rfl, Nat.le_of_not_lt h32⟩

def HeadOk (header : Head) : Prop :=
  header.major ≤ 5 ∧ header.argument < 2 ^ 64 ∨
    header.major = 7 ∧ 20 ≤ header.argument ∧ header.argument ≤ 22

theorem headBytes_of_lt (major : ℕ) (hargument : argument < 24) :
    headBytes major argument = [UInt8.ofNat (major * 32 + argument)] := by
  rw [headBytes, additional, argumentWidth, if_pos hargument, if_pos hargument]
  rfl

theorem exists_initial (initial : UInt8) :
    ∃ major < 8, ∃ code < 32, initial = UInt8.ofNat (major * 32 + code) := by
  have hlt := initial.toNat_lt
  refine ⟨initial.toNat / 32, by omega, initial.toNat % 32, by omega, ?_⟩
  rw [mul_comm, Nat.div_add_mod, UInt8.ofNat_toNat]

include hsmall in
theorem wideHead_eq_ok_iff {major : ℕ} :
    wideHead bytes position major code = .ok (header, stop) ↔
      header.major = major ∧ 24 ≤ header.argument ∧ header.argument < 2 ^ 64 ∧
        additional header.argument = code ∧ subslice bytes position stop =
          some (beBytes (argumentWidth header.argument) header.argument) := by
  simp only [wideHead, bind_eq_ok_iff, okOr_eq_ok_iff, Prod.exists, take_eq_ok_iff hsmall,
    refuse_eq_ok_iff, not_lt, pure_eq_ok, ok.injEq, Prod.mk.injEq]
  constructor
  · rintro ⟨width, minimum, hform, field, _, ⟨rfl, hfield⟩, hminimum, rfl, rfl⟩
    have hargument := headArgument_eq (headForm_width_le hform)
    have hlt := ofBeBytes_lt field
    rw [hargument] at hminimum ⊢
    obtain ⟨hlarge, hcode, hargumentWidth⟩ := form_of_headForm hform hminimum hlt
    have hpower : 256 ^ field.length ≤ 2 ^ 64 := by
      calc 256 ^ field.length ≤ 256 ^ 8 := Nat.pow_le_pow_right (by decide) (headForm_width_le hform)
        _ = 2 ^ 64 := by norm_num
    refine ⟨rfl, hlarge, hlt.trans_le hpower, hcode, ?_⟩
    rw [hfield, hargumentWidth, beBytes_ofBeBytes]
  · rintro ⟨hmajor, hlarge, hlt, rfl, hfield⟩
    obtain ⟨form, hform, hformWidth, hminimum⟩ := exists_headForm hlarge
    have hargument : headArgument (beBytes (argumentWidth header.argument) header.argument) =
        header.argument := by
      rw [headArgument_eq (by rw [beBytes_length, ← hformWidth]; exact headForm_width_le hform),
        ofBeBytes_beBytes _ (lt_pow_argumentWidth hlt hlarge)]
    exact ⟨_, _, hform, _, _, ⟨by rw [beBytes_length, hformWidth], hfield⟩, by rwa [hargument],
      by rw [hargument, ← hmajor], rfl⟩

theorem eq_of_subslice_nil (hpart : subslice bytes position stop = some []) : stop = position := by
  have hlength := length_of_subslice hpart
  obtain ⟨_, _⟩ := subslice_eq_some_iff.mp hpart
  rw [length_nil] at hlength
  omega

include hsmall in
/-- What is read behind the initial byte of a head. -/
theorem head_of_initial {major middle : ℕ} (hmajor : major < 8) (hcode : code < 32)
    (hfirst : subslice bytes position middle = some [UInt8.ofNat (major * 32 + code)]) :
    head bytes position = if major = 6 then .err .reference
      else if major = 7 then
        if 20 ≤ code ∧ code ≤ 22 then .ok (⟨major, code⟩, middle) else .err .invalid
      else if code ≤ 23 then .ok (⟨major, code⟩, middle)
      else wideHead bytes middle major code := by
  have hshift : (major * 32 + code) >>> 5 = major := by omega
  have hmask : (major * 32 + code) &&& 31 = code := by
    rw [Nat.and_two_pow_sub_one_eq_mod _ 5]
    omega
  have hindex (initial : UInt8) :
      (Outcome.index [initial] 0 : Outcome ScanError UInt8) = .ok initial := rfl
  have htake : take bytes position 1 = .ok ([UInt8.ofNat (major * 32 + code)], middle) :=
    (take_eq_ok_iff hsmall).mpr ⟨rfl, hfirst⟩
  rw [head, htake, ok_bind]
  dsimp only
  rw [hindex, ok_bind, initial_toNat hmajor hcode, hshift, hmask]

include hsmall in
/-- A head is read where its deterministic encoding stands. -/
theorem head_eq_ok_iff :
    head bytes position = .ok (header, stop) ↔ HeadOk header ∧
        subslice bytes position stop = some (headBytes header.major header.argument) := by
  constructor
  · intro hhead
    obtain ⟨⟨first, middle⟩, htake, _⟩ := bind_eq_ok hhead
    obtain ⟨hlength, hfirst⟩ := (take_eq_ok_iff hsmall).mp htake
    obtain ⟨initial, rfl⟩ := length_eq_one_iff.mp hlength
    obtain ⟨major, hmajor, code, hcode, rfl⟩ := exists_initial initial
    rw [head_of_initial hsmall hmajor hcode hfirst] at hhead
    split_ifs at hhead with _ hsimple hvalue hshort
    · obtain ⟨rfl, rfl⟩ := hhead
      refine ⟨Or.inr ⟨hsimple, hvalue⟩, ?_⟩
      rw [headBytes_of_lt _ (by dsimp only; omega), hfirst]
    · obtain ⟨rfl, rfl⟩ := hhead
      refine ⟨Or.inl ⟨by dsimp only; omega, by dsimp only; omega⟩, ?_⟩
      rw [headBytes_of_lt _ (by dsimp only; omega), hfirst]
    · obtain ⟨rfl, _, hlt, rfl, hfield⟩ := (wideHead_eq_ok_iff hsmall).mp hhead
      refine ⟨Or.inl ⟨by omega, hlt⟩, ?_⟩
      rw [headBytes, ← singleton_append, subslice_append_iff]
      exact ⟨_, hfirst, hfield⟩
  · rintro ⟨hok, hbytes⟩
    rw [headBytes, ← singleton_append, subslice_append_iff] at hbytes
    obtain ⟨middle, hfirst, hfield⟩ := hbytes
    have hstop : header.argument < 24 → middle = stop := by
      intro hshort
      rw [argumentWidth, if_pos hshort] at hfield
      exact (eq_of_subslice_nil hfield).symm
    have hmajor : header.major < 8 := by
      obtain ⟨hmajor, _⟩ | ⟨hmajor, _⟩ := hok <;> omega
    rw [head_of_initial hsmall hmajor (additional_lt _) hfirst]
    obtain ⟨hmajor, hargument⟩ | ⟨hmajor, hlower, hupper⟩ := hok
    · rw [if_neg (by omega), if_neg (by omega)]
      by_cases hshort : header.argument < 24
      · rw [additional, if_pos hshort, if_pos (by omega), hstop hshort]
      · have hlong : ¬additional header.argument ≤ 23 := by
          rw [additional]
          split_ifs <;> omega
        rw [if_neg hlong]
        exact (wideHead_eq_ok_iff hsmall).mpr
          ⟨rfl, Nat.le_of_not_lt hshort, hargument, rfl, hfield⟩
    · have hshort : header.argument < 24 := by omega
      rw [if_neg (by omega), if_pos hmajor, additional, if_pos hshort, if_pos ⟨hlower, hupper⟩,
        hstop hshort]

include hsmall in
theorem head_eq_ok_iff_of_le {major : ℕ} (hmajor : major ≤ 5) :
    head bytes position = .ok (⟨major, argument⟩, stop) ↔
      argument < 2 ^ 64 ∧ subslice bytes position stop = some (headBytes major argument) := by
  rw [head_eq_ok_iff hsmall]
  refine and_congr_left fun _ => ⟨?_, fun hargument => .inl ⟨hmajor, hargument⟩⟩
  rintro (⟨_, hargument⟩ | ⟨hseven, _⟩)
  · exact hargument
  · exact absurd hseven (by dsimp only; omega)

theorem count_eq_ok_iff {remaining minimum length : ℕ} (hminimum : 0 < minimum) :
    count argument remaining minimum = .ok length ↔
      argument < 2 ^ 64 ∧ argument * minimum ≤ remaining ∧ argument = length := by
  simp only [count, bind_eq_ok_iff, okOr_eq_ok_iff, tryInto_eq_some_iff, div_of_pos hminimum,
    ok.injEq, refuse_eq_ok_iff, not_lt, pure_eq_ok, Nat.le_div_iff_mul_le hminimum, existsAndEq,
    and_assoc, true_and]

include hsmall in
theorem payload_eq_ok_iff :
    payload bytes position header = .ok stop ↔ ∃ content, content.length = header.argument ∧
        subslice bytes position stop = some content ∧
        (header.major = 3 → validUtf8 content = true) := by
  simp only [payload, bind_eq_ok_iff, sub_eq_ok_iff, count_eq_ok_iff one_pos, Prod.exists,
    take_eq_ok_iff hsmall, refuse_eq_ok_iff, not_and, Bool.not_eq_false, pure_eq_ok, ok.injEq,
    existsAndEq, and_assoc, and_true, true_and]
  constructor
  · simp
  · rintro ⟨content, _, hcontent, hvalid⟩
    obtain ⟨_, _, _⟩ := subslice_eq_some_iff.mp hcontent
    have hspan := add_length_of_subslice hcontent
    exact ⟨by omega, by omega, by omega, content, by omega, hcontent, hvalid⟩

theorem validUtf8_utf8 (text : String) : validUtf8 (utf8 text) = true :=
  ByteArray.validateUTF8_eq_true_iff.mpr text.isValidUTF8

theorem exists_utf8 (hvalid : validUtf8 content = true) : ∃ text, utf8 text = content :=
  ⟨String.ofByteArray _ (ByteArray.validateUTF8_eq_true_iff.mp hvalid), rfl⟩

/-- What has to stand behind the head of a scalar. -/
def ScalarBody (header : Head) (content : List UInt8) : Prop :=
  if header.major = 2 ∨ header.major = 3 then
    content.length = header.argument ∧ (header.major = 3 → validUtf8 content = true)
  else
    (header.major = 0 ∨ header.major = 1 ∨ header.major = 7) ∧ content = []

/-- Every head of a scalar, with what belongs behind it, is some scalar's. -/
theorem exists_scalar (hok : HeadOk header) (hbody : ScalarBody header content) :
    ∃ value : Scalar, value.major = header.major ∧ value.argument = header.argument ∧
      value.content = content := by
  obtain ⟨major, argument⟩ := header
  rw [HeadOk] at hok
  rw [ScalarBody] at hbody
  dsimp only at hok hbody ⊢
  by_cases hstring : major = 2 ∨ major = 3
  · obtain rfl | rfl := hstring
    · exact ⟨.bytes content, rfl, hbody.1, rfl⟩
    · obtain ⟨text, rfl⟩ := exists_utf8 (hbody.2 rfl)
      exact ⟨.text text, rfl, hbody.1, rfl⟩
  · rw [if_neg hstring] at hbody
    obtain ⟨rfl | rfl | rfl, rfl⟩ := hbody
    · have hnonneg : (0 : ℤ) ≤ argument := by omega
      refine ⟨.integer ⟨argument, by omega, by omega⟩, ?_, ?_, rfl⟩
      · rw [Scalar.major, if_pos hnonneg]
      · simp [Scalar.argument]
    · have hneg : ¬(0 : ℤ) ≤ -1 - argument := by omega
      refine ⟨.integer ⟨-1 - argument, by omega, by omega⟩, ?_, ?_, rfl⟩
      · rw [Scalar.major, if_neg hneg]
      · rw [Scalar.argument, if_neg hneg]
        dsimp only
        omega
    · obtain rfl | rfl | rfl : argument = 20 ∨ argument = 21 ∨ argument = 22 := by omega
      · exact ⟨.bool false, rfl, rfl, rfl⟩
      · exact ⟨.bool true, rfl, rfl, rfl⟩
      · exact ⟨.null, rfl, rfl, rfl⟩

theorem scalarBody_content (value : Scalar) :
    ScalarBody ⟨value.major, value.argument⟩ value.content := by
  cases value with
  | integer value =>
    rw [ScalarBody]
    dsimp only [Scalar.major]
    split_ifs <;> simp [Scalar.content] at *
  | bytes content => exact ⟨rfl, fun hmajor => absurd hmajor (by decide : (2 : ℕ) ≠ 3)⟩
  | text content => exact ⟨rfl, fun _ => validUtf8_utf8 content⟩
  | bool value => exact ⟨Or.inr (Or.inr rfl), rfl⟩
  | null => exact ⟨Or.inr (Or.inr rfl), rfl⟩

theorem headOk_scalar {value : Scalar} (hlength : value.content.length < 2 ^ 64) :
    HeadOk ⟨value.major, value.argument⟩ := by
  have hfits := Scalar.headFits hlength
  cases value with
  | integer value =>
    refine Or.inl ⟨?_, hfits.2⟩
    dsimp only [Scalar.major]
    split_ifs <;> decide
  | bytes content => exact Or.inl ⟨(by decide : 2 ≤ 5), hfits.2⟩
  | text content => exact Or.inl ⟨(by decide : 3 ≤ 5), hfits.2⟩
  | bool value => cases value <;> exact Or.inr ⟨rfl, by decide, by decide⟩
  | null => exact Or.inr ⟨rfl, by decide, by decide⟩

theorem subslice_self (hposition : position ≤ bytes.length) :
    subslice bytes position position = some [] := by
  rw [subslice_eq_some_iff]
  exact ⟨le_rfl, hposition, (drop_eq_nil_of_le (length_take_le _ _)).symm⟩

include hsmall in
theorem scalar_eq_ok_true_iff (hposition : position ≤ bytes.length) :
    scalar bytes position header = .ok (true, stop) ↔
      ∃ content, subslice bytes position stop = some content ∧ ScalarBody header content := by
  unfold scalar ScalarBody
  by_cases hplain : header.major = 0 ∨ header.major = 1 ∨ header.major = 7
  · have hstring : ¬(header.major = 2 ∨ header.major = 3) := by omega
    simp only [if_pos hplain, if_neg hstring, ok.injEq, Prod.mk.injEq, true_and]
    constructor
    · rintro rfl
      exact ⟨[], subslice_self hposition, hplain, rfl⟩
    · rintro ⟨_, hpart, _, rfl⟩
      exact (eq_of_subslice_nil hpart).symm
  · rw [if_neg hplain]
    by_cases hstring : header.major = 2 ∨ header.major = 3
    · simp only [if_pos hstring, bind_eq_ok_iff, pure_eq_ok, ok.injEq,
        Prod.mk.injEq, true_and, exists_eq_right, payload_eq_ok_iff hsmall]
      exact exists_congr fun content => and_left_comm
    · simp [if_neg hstring, hplain]

theorem scalar_eq_ok_false_iff :
    scalar bytes position header = .ok (false, stop) ↔
      stop = position ∧ header.major ≠ 0 ∧ header.major ≠ 1 ∧ header.major ≠ 2 ∧
        header.major ≠ 3 ∧ header.major ≠ 7 := by
  simp only [scalar, ite_eq_iff, bind_eq_ok_iff, pure_eq_ok, ok.injEq, Prod.mk.injEq,
    Bool.true_eq_false, false_and, and_false, exists_false, false_or, true_and]
  omega

include hsmall in
theorem scalar_iff_encode :
    (∃ header middle, head bytes position = .ok (header, middle) ∧
      scalar bytes middle header = .ok (true, stop)) ↔
    ∃ value : Scalar, subslice bytes position stop = some value.encode := by
  constructor
  · rintro ⟨_, middle, hhead, hscalar⟩
    obtain ⟨hok, hbytes⟩ := (head_eq_ok_iff hsmall).mp hhead
    obtain ⟨_, hmiddle, _⟩ := subslice_eq_some_iff.mp hbytes
    obtain ⟨content, hbehind, hbody⟩ := (scalar_eq_ok_true_iff hsmall hmiddle).mp hscalar
    obtain ⟨value, hmajor, hargument, rfl⟩ := exists_scalar hok hbody
    refine ⟨value, ?_⟩
    rw [Scalar.encode, hmajor, hargument, subslice_append_iff]
    exact ⟨middle, hbytes, hbehind⟩
  · rintro ⟨value, hvalue⟩
    have hlength := length_of_subslice hvalue
    obtain ⟨_, _, _⟩ := subslice_eq_some_iff.mp hvalue
    have hcontent := value.content_length_le_encode
    rw [Scalar.encode, subslice_append_iff] at hvalue
    obtain ⟨middle, hbytes, hbehind⟩ := hvalue
    obtain ⟨_, hmiddle, _⟩ := subslice_eq_some_iff.mp hbytes
    exact ⟨⟨value.major, value.argument⟩, middle,
      (head_eq_ok_iff hsmall).mpr ⟨headOk_scalar (by omega), hbytes⟩,
      (scalar_eq_ok_true_iff hsmall hmiddle).mpr ⟨value.content, hbehind, scalarBody_content value⟩⟩

include hsmall in
theorem key_eq_ok_iff :
    key bytes levels position = .ok stop ↔
      0 < levels ∧ ∃ value : Scalar, subslice bytes position stop = some value.encode := by
  simp [key, refuse_eq_ok_iff, ← scalar_iff_encode hsmall, bind_eq_ok_iff, pure_eq_ok, ok.injEq]

theorem compareKeys_encode (left right : Scalar) :
    compareKeys left.encode right.encode = .lt ↔ KeyBefore left right :=
  (keyBefore_iff_shortlex left right).symm

/-- A loop over a scanner of values scans the items of an array. -/
theorem timesM_items_iff {step : ℕ → Outcome ScanError ℕ}
    (hstep : ∀ position stop, step position = .ok stop ↔
      ∃ value, admitted value ∧ subslice bytes position stop = some value.encode) (length : ℕ)
    (hposition : position ≤ bytes.length) :
    timesM step length position = .ok stop ↔
      ∃ items, items.length = length ∧ (∀ value ∈ items, admitted value) ∧
        subslice bytes position stop = some (encodeItems items) := by
  induction length generalizing position with
  | zero =>
    rw [timesM, pure_eq_ok, ok.injEq]
    constructor
    · rintro rfl
      exact ⟨[], rfl, by simp, subslice_self hposition⟩
    · rintro ⟨items, hlength, _, hitems⟩
      obtain rfl := eq_nil_of_length_eq_zero hlength
      exact (eq_of_subslice_nil hitems).symm
  | succ length ih =>
    simp only [timesM, bind_eq_ok_iff, hstep]
    constructor
    · rintro ⟨middle, ⟨value, hvalue, hbytes⟩, hloop⟩
      obtain ⟨_, hmiddle, _⟩ := subslice_eq_some_iff.mp hbytes
      obtain ⟨items, hlength, hitems, hrest⟩ := (ih hmiddle).mp hloop
      refine ⟨value :: items, by rw [length_cons, hlength],
        forall_mem_cons.mpr ⟨hvalue, hitems⟩, ?_⟩
      rw [encodeItems, subslice_append_iff]
      exact ⟨middle, hbytes, hrest⟩
    · rintro ⟨items, hlength, hitems, hbytes⟩
      cases items with
      | nil => exact absurd hlength (Nat.succ_ne_zero _).symm
      | cons value items =>
        rw [encodeItems, subslice_append_iff] at hbytes
        obtain ⟨middle, hfirst, hrest⟩ := hbytes
        obtain ⟨hvalue, hitems⟩ := forall_mem_cons.mp hitems
        obtain ⟨_, hmiddle, _⟩ := subslice_eq_some_iff.mp hfirst
        exact ⟨middle, ⟨value, hvalue, hfirst⟩,
          (ih hmiddle).mpr ⟨items, Nat.succ.inj hlength, hitems, hrest⟩⟩

include hsmall in
theorem nextKey_eq_ok_iff {current : List UInt8} :
    nextKey bytes levels position previous = .ok (current, stop) ↔
      0 < levels ∧ (∀ earlier ∈ previous, compareKeys earlier current = .lt) ∧
        ∃ value : Scalar, value.encode = current ∧ subslice bytes position stop = some current := by
  have hany (current : List UInt8) :
      previous.any (fun earlier => compareKeys earlier current ≠ .lt) = true ↔
        ¬∀ earlier ∈ previous, compareKeys earlier current = .lt := by
    cases previous <;> simp
  simp only [nextKey, bind_eq_ok_iff, key_eq_ok_iff hsmall, slice_eq_ok_iff, refuse_eq_ok_iff, hany,
    not_not, pure_eq_ok, ok.injEq, Prod.mk.injEq, existsAndEq, and_assoc, and_true, true_and]
  constructor
  · rintro ⟨hlevels, ⟨value, hvalue⟩, hpart, horder⟩
    exact ⟨hlevels, horder, value, Option.some.inj (hvalue.symm.trans hpart), hpart⟩
  · rintro ⟨hlevels, horder, value, rfl, hvalue⟩
    exact ⟨hlevels, ⟨value, hvalue⟩, hvalue, horder⟩

/-- The keys continue an increasing sequence. -/
def Continues (previous : Option (List UInt8)) (entries : List (Scalar × Value)) : Prop :=
  (previous.toList ++ entries.map fun entry => entry.1.encode).IsChain
    fun left right => compareKeys left right = .lt

theorem continues_nil (previous : Option (List UInt8)) : Continues previous [] := by
  cases previous with
  | none => exact List.IsChain.nil
  | some earlier => exact List.IsChain.singleton earlier

theorem continues_cons_iff {entry : Scalar × Value} :
    Continues previous (entry :: entries) ↔
      (∀ earlier ∈ previous, compareKeys earlier entry.1.encode = .lt) ∧
        Continues (some entry.1.encode) entries := by
  cases previous with
  | none => simp [Continues]
  | some earlier => simp [Continues, isChain_cons_cons]

theorem continues_none_iff :
    Continues none entries ↔ (entries.map Prod.fst).Pairwise KeyBefore := by
  have hmap : (entries.map fun entry => entry.1.encode) =
      (entries.map Prod.fst).map Scalar.encode := by
    rw [map_map]
    rfl
  rw [Continues, Option.toList_none, nil_append, hmap, isChain_map, ← isChain_iff_pairwise]
  simp only [compareKeys_encode]

include hsmall in
/-- A loop over a scanner of values scans the entries of a map. -/
theorem timesM_entries_iff {scanValue : ℕ → Outcome ScanError ℕ}
    (hscan : ∀ position stop, scanValue position = .ok stop ↔
      ∃ value, admitted value ∧ subslice bytes position stop = some value.encode) (length : ℕ)
    (hposition : position ≤ bytes.length) :
    (∃ last, timesM (scanEntry bytes levels scanValue) length (position, previous) =
      .ok (stop, last)) ↔ ∃ entries, entries.length = length ∧ (∀ entry ∈ entries, 0 < levels) ∧
      (∀ entry ∈ entries, admitted entry.2) ∧ Continues previous entries ∧
      subslice bytes position stop = some (encodeEntries entries) := by
  induction length generalizing position previous with
  | zero =>
    simp only [timesM, pure_eq_ok, ok.injEq, Prod.mk.injEq]
    constructor
    · rintro ⟨_, rfl, _⟩
      exact ⟨[], rfl, by simp, by simp, continues_nil previous, subslice_self hposition⟩
    · rintro ⟨entries, hlength, _, _, _, hentries⟩
      obtain rfl := eq_nil_of_length_eq_zero hlength
      exact ⟨previous, (eq_of_subslice_nil hentries).symm, rfl⟩
  | succ length ih =>
    simp only [timesM, scanEntry, bind_eq_ok_iff, Prod.exists, nextKey_eq_ok_iff hsmall, hscan,
      pure_eq_ok, ok.injEq, Prod.mk.injEq]
    constructor
    · rintro ⟨last, _, _, ⟨_, middle, ⟨hlevels, horder, key, rfl, hkeyBytes⟩, behind,
        ⟨value, hadmitted, hvalueBytes⟩, rfl, rfl⟩, hloop⟩
      obtain ⟨_, hbehind, _⟩ := subslice_eq_some_iff.mp hvalueBytes
      obtain ⟨entries, hlength, hall, hvalues, hcontinues, hrest⟩ := (ih hbehind).mp ⟨last, hloop⟩
      refine ⟨(key, value) :: entries, by rw [length_cons, hlength],
        forall_mem_cons.mpr ⟨hlevels, hall⟩, forall_mem_cons.mpr ⟨hadmitted, hvalues⟩,
        continues_cons_iff.mpr ⟨horder, hcontinues⟩, ?_⟩
      rw [encodeEntries, subslice_append_iff]
      exact ⟨behind, subslice_append_iff.mpr ⟨middle, hkeyBytes, hvalueBytes⟩, hrest⟩
    · rintro ⟨entries, hlength, hall, hvalues, hcontinues, hbytes⟩
      cases entries with
      | nil => exact absurd hlength (Nat.succ_ne_zero _).symm
      | cons entry entries =>
        obtain ⟨key, value⟩ := entry
        rw [encodeEntries, subslice_append_iff] at hbytes
        obtain ⟨behind, hfirst, hrest⟩ := hbytes
        obtain ⟨middle, hkeyBytes, hvalueBytes⟩ := subslice_append_iff.mp hfirst
        obtain ⟨hlevels, hall⟩ := forall_mem_cons.mp hall
        obtain ⟨hadmitted, hvalues⟩ := forall_mem_cons.mp hvalues
        obtain ⟨horder, hcontinues⟩ := continues_cons_iff.mp hcontinues
        obtain ⟨_, hbehind, _⟩ := subslice_eq_some_iff.mp hvalueBytes
        obtain ⟨last, hloop⟩ := (ih hbehind).mpr
          ⟨entries, Nat.succ.inj hlength, hall, hvalues, hcontinues, hrest⟩
        exact ⟨last, _, _, ⟨_, middle, ⟨hlevels, horder, key, rfl, hkeyBytes⟩, behind,
          ⟨value, hadmitted, hvalueBytes⟩, rfl, rfl⟩, hloop⟩

include hsmall in
theorem head_of_compound {major middle length minimum : ℕ} (hmajor : major = 4 ∨ major = 5)
    (hminimum : 0 < minimum) (hlength : length < 2 ^ 64)
    (hbytes : subslice bytes position middle = some (headBytes major length))
    (hroom : length * minimum ≤ bytes.length - middle) :
    head bytes position = .ok (⟨major, length⟩, middle) ∧
      scalar bytes middle ⟨major, length⟩ = .ok (false, middle) ∧
      (Outcome.sub bytes.length middle : Outcome ScanError ℕ) = .ok (bytes.length - middle) ∧
      count length (bytes.length - middle) minimum = .ok length := by
  refine ⟨?_, ?_, sub_of_le (subslice_eq_some_iff.mp hbytes).2.1,
    (count_eq_ok_iff hminimum).mpr ⟨hlength, hroom, rfl⟩⟩
  · exact (head_eq_ok_iff_of_le hsmall (by omega)).mpr ⟨hlength, hbytes⟩
  · refine scalar_eq_ok_false_iff.mpr ⟨rfl, ?_⟩
    dsimp only
    omega

include hsmall in
/-- One call of the scanner reads a scalar, or the head of an array or of a map and then its
members. -/
theorem item_succ_eq_ok_iff :
    item bytes (levels + 1) position = .ok stop ↔
      (∃ value : Scalar, subslice bytes position stop = some value.encode) ∨
      (∃ length middle, subslice bytes position middle = some (headBytes 4 length) ∧
        length < 2 ^ 64 ∧ length * 1 ≤ bytes.length - middle ∧
        timesM (item bytes levels) length middle = .ok stop) ∨
      (∃ length middle, subslice bytes position middle = some (headBytes 5 length) ∧
        length < 2 ^ 64 ∧ length * 2 ≤ bytes.length - middle ∧
        ∃ last, timesM (scanEntry bytes levels (item bytes levels)) length (middle, none) =
          .ok (stop, last)) := by
  have hcount {length middle : ℕ} {rest : Prop} {head : List UInt8} :
      length < 2 ^ 64 ∧ subslice bytes position middle = some head ∧ middle ≤ bytes.length ∧
          length < 2 ^ 64 ∧ rest ↔
        subslice bytes position middle = some head ∧ length < 2 ^ 64 ∧ rest := by
    constructor
    · rintro ⟨_, hhead, _, hlength, hrest⟩
      exact ⟨hhead, hlength, hrest⟩
    · rintro ⟨hhead, hlength, hrest⟩
      exact ⟨hlength, hhead, (subslice_eq_some_iff.mp hhead).2.1, hlength, hrest⟩
  simp only [item, ← scalar_iff_encode hsmall, bind_eq_ok_iff, Prod.exists, Bool.exists_bool,
    Bool.false_eq_true, ite_eq_iff, false_and, not_false_eq_true, true_and, false_or,
    not_true_eq_false, reduceCtorEq, and_false, or_false, sub_eq_ok_iff, count_eq_ok_iff one_pos,
    count_eq_ok_iff Nat.two_pos, pure_eq_ok, ok.injEq, existsAndEq, scalar_eq_ok_false_iff,
    and_or_left, exists_or, Head.exists_iff, and_assoc, head_eq_ok_iff_of_le hsmall,
    Nat.reduceLeDiff, Nat.reduceEqDiff, ne_eq, and_true, OfNat.ofNat_ne_zero, OfNat.ofNat_ne_one,
    exists_false, hcount]

include hsmall in
/-- The scanner goes from one position to another exactly over the encoding of a value of the
profile. -/
theorem item_eq_ok_iff {depth : ℕ} (hlevels : depth + levels = rootLevels) :
    item bytes levels position = .ok stop ↔
      ∃ value, Nested (List.Pairwise KeyBefore) 64 depth value ∧
        subslice bytes position stop = some value.encode := by
  induction levels generalizing depth position stop with
  | zero =>
    constructor
    · intro hitem
      rw [item] at hitem
      cases hitem
    · rintro ⟨value, hnested, _⟩
      have hdepth := hnested.depth_le
      rw [rootLevels] at hlevels
      omega
  | succ levels ih =>
    have hdepth : depth ≤ 64 := by
      rw [rootLevels] at hlevels
      omega
    have hkeyDepth : 0 < levels ↔ depth + 1 ≤ 64 := by
      rw [rootLevels] at hlevels
      omega
    have hmembers : ∀ position stop, item bytes levels position = .ok stop ↔
        ∃ value, Nested (List.Pairwise KeyBefore) 64 (depth + 1) value ∧
          subslice bytes position stop = some value.encode :=
      fun position stop => ih (by omega)
    rw [item_succ_eq_ok_iff hsmall]
    constructor
    · rintro (⟨value, hvalue⟩ | ⟨length, middle, hbytes, _, _, hloop⟩ |
        ⟨length, middle, hbytes, _, _, hloop⟩)
      · exact ⟨.scalar value, .scalar value hdepth, hvalue⟩
      · obtain ⟨_, hmiddle, _⟩ := subslice_eq_some_iff.mp hbytes
        obtain ⟨items, rfl, hnested, hitems⟩ := (timesM_items_iff hmembers length hmiddle).mp hloop
        exact ⟨.array items, .array hdepth hnested,
          subslice_append_iff.mpr ⟨middle, hbytes, hitems⟩⟩
      · obtain ⟨_, hmiddle, _⟩ := subslice_eq_some_iff.mp hbytes
        obtain ⟨entries, rfl, hall, hnested, hcontinues, hentries⟩ :=
          (timesM_entries_iff hsmall hmembers length hmiddle).mp hloop
        exact ⟨.map entries, .map hdepth (fun entry hentry => hkeyDepth.mp (hall entry hentry))
          hnested (continues_none_iff.mp hcontinues),
          subslice_append_iff.mpr ⟨middle, hbytes, hentries⟩⟩
    · rintro ⟨value, hnested, hbytes⟩
      cases hnested with
      | scalar value _ => exact .inl ⟨value, hbytes⟩
      | @array _ items _ hitems =>
        obtain ⟨middle, hhead, hbody⟩ := subslice_append_iff.mp hbytes
        obtain ⟨_, hmiddle, _⟩ := subslice_eq_some_iff.mp hhead
        have hroom := (length_le_encodeItems items).trans (length_le_of_subslice hbody)
        exact .inr (.inl ⟨items.length, middle, hhead, by omega, by omega,
          (timesM_items_iff hmembers _ hmiddle).mpr ⟨items, rfl, hitems, hbody⟩⟩)
      | @map _ entries _ hdepths hvalues hkeys =>
        obtain ⟨middle, hhead, hbody⟩ := subslice_append_iff.mp hbytes
        obtain ⟨_, hmiddle, _⟩ := subslice_eq_some_iff.mp hhead
        have hroom := (length_mul_two_le_encodeEntries entries).trans (length_le_of_subslice hbody)
        exact .inr (.inr ⟨entries.length, middle, hhead, by omega, by omega,
          (timesM_entries_iff hsmall hmembers _ hmiddle).mpr ⟨entries, rfl,
            fun entry hentry => hkeyDepth.mpr (hdepths entry hentry), hvalues,
            continues_none_iff.mpr hkeys, hbody⟩⟩)

include hsmall in
theorem item_root_eq_ok_iff :
    item bytes rootLevels 0 = .ok bytes.length ↔
      ∃ value, Deterministic 64 value ∧ value.encode = bytes := by
  rw [item_eq_ok_iff hsmall (zero_add rootLevels)]
  simp only [subslice_whole_iff, Deterministic]

theorem validateWithLimit_iff_encoding (bytes : List UInt8) (limit : UInt64) :
    validateWithLimit bytes limit = .ok () ↔ 1 ≤ bytes.length ∧ bytes.length ≤ limit.toNat ∧
        ∃ value, Deterministic 64 value ∧ value.encode = bytes := by
  rw [validateWithLimit, refuse_eq_ok_iff, not_or, not_lt, ← ne_eq,
    ← length_pos_iff_ne_nil, and_assoc]
  refine and_congr_right fun hpos => and_congr_right fun hle => ?_
  have hsmall : bytes.length < 2 ^ 64 := lt_of_le_of_lt hle limit.toNat_lt
  rw [bind_eq_ok_iff, ← item_root_eq_ok_iff hsmall]
  constructor
  · rintro ⟨position, hitem, hend⟩
    obtain ⟨hposition, _⟩ := refuse_eq_ok hend
    rwa [not_not.mp hposition] at hitem
  · intro hitem
    exact ⟨bytes.length, hitem, if_neg (not_not.mpr rfl)⟩

/-- **The scanner is exact.** It accepts a buffer if and only if the buffer is nonempty, within the
limit, and the deterministic encoding of a value of the profile; there is only one such value. -/
theorem validateWithLimit_eq_ok_iff (bytes : List UInt8) (limit : UInt64) :
    validateWithLimit bytes limit = .ok () ↔ 1 ≤ bytes.length ∧ bytes.length ≤ limit.toNat ∧
        ∃! value, Deterministic 64 value ∧ value.encode = bytes := by
  rw [validateWithLimit_iff_encoding]
  refine and_congr_right fun _ => and_congr_right fun hle => ?_
  refine ⟨?_, ExistsUnique.exists⟩
  rintro ⟨value, hvalue, hencode⟩
  refine ⟨value, ⟨hvalue, hencode⟩, ?_⟩
  rintro other ⟨_, hother⟩
  refine encode_inj ?_ (hother.trans hencode.symm)
  rw [hother]
  exact lt_of_le_of_lt hle limit.toNat_lt

end Tritium.Package
