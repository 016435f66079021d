import Tritium.Lib.Bytes
import Tritium.Lib.Ordering

/-!
# Deterministic CBOR

Integers, byte strings, texts, the three simple values, arrays, and maps with scalar keys, each in
the shortest definite form. An encoding announces its own end, so a byte string is the encoding of
at most one value.
-/

namespace Tritium.Cbor

open List

variable {rest rest' : List UInt8} (entries : List (Scalar × Value)) {value : Value}

/-- The additional information of a head: small arguments themselves, or the code of a width. -/
def additional (argument : ℕ) : ℕ :=
  if argument < 24 then argument
  else if argument < 2 ^ 8 then 24
  else if argument < 2 ^ 16 then 25
  else if argument < 2 ^ 32 then 26
  else 27

/-- The bytes of an argument behind the initial byte. -/
def argumentWidth (argument : ℕ) : ℕ :=
  if argument < 24 then 0
  else if argument < 2 ^ 8 then 1
  else if argument < 2 ^ 16 then 2
  else if argument < 2 ^ 32 then 4
  else 8

def headBytes (major argument : ℕ) : List UInt8 :=
  UInt8.ofNat (major * 32 + additional argument) :: beBytes (argumentWidth argument) argument

/-- Inside this range of heads the encoding is one to one. -/
def HeadFits (major argument : ℕ) : Prop := major < 8 ∧ argument < 2 ^ 64

theorem additional_lt (argument : ℕ) : additional argument < 32 := by
  rw [additional]
  split_ifs <;> omega

theorem headBytes_length (major argument : ℕ) :
    (headBytes major argument).length = 1 + argumentWidth argument := by
  rw [headBytes, length_cons, beBytes_length, add_comm]

theorem lt_pow_argumentWidth {argument : ℕ} (hargument : argument < 2 ^ 64)
    (hlarge : 24 ≤ argument) : argument < 256 ^ argumentWidth argument := by
  rw [argumentWidth]
  split_ifs <;> omega

theorem argumentWidth_eq_of_additional_eq {left right : ℕ}
    (hadditional : additional left = additional right) :
    argumentWidth left = argumentWidth right ∧ (left < 24 → left = right) := by
  rw [additional, additional] at hadditional
  rw [argumentWidth, argumentWidth]
  split_ifs at hadditional ⊢ <;> omega

theorem initial_toNat {major code : ℕ} (hmajor : major < 8) (hcode : code < 32) :
    (UInt8.ofNat (major * 32 + code)).toNat = major * 32 + code := by
  rw [UInt8.toNat_ofNat', Nat.mod_eq_of_lt (by omega)]

theorem headBytes_append_inj {major argument major' argument' : ℕ}
    (hfits : HeadFits major argument) (hfits' : HeadFits major' argument')
    (heq : headBytes major argument ++ rest = headBytes major' argument' ++ rest') :
    major = major' ∧ argument = argument' ∧ rest = rest' := by
  rw [headBytes, headBytes, cons_append, cons_append, cons.injEq] at heq
  obtain ⟨hinitial, hbytes⟩ := heq
  have hnat := congrArg UInt8.toNat hinitial
  have hlt := additional_lt argument
  have hlt' := additional_lt argument'
  rw [initial_toNat hfits.1 hlt, initial_toNat hfits'.1 hlt'] at hnat
  have hadditional : additional argument = additional argument' := by omega
  obtain ⟨hwidth, hsmall⟩ := argumentWidth_eq_of_additional_eq hadditional
  have hlength : (beBytes (argumentWidth argument) argument).length =
      (beBytes (argumentWidth argument') argument').length := by
    simp [hwidth]
  obtain ⟨hargument, hrest⟩ := append_inj hbytes hlength
  refine ⟨by omega, ?_, hrest⟩
  by_cases hlarge : argument < 24
  · exact hsmall hlarge
  · have hlarge' : ¬argument' < 24 := by
      intro hsmall'
      have hsymm := (argumentWidth_eq_of_additional_eq hadditional.symm).2 hsmall'
      omega
    have hvalue := congrArg ofBeBytes hargument
    rwa [ofBeBytes_beBytes _ (lt_pow_argumentWidth hfits.2 (Nat.le_of_not_lt hlarge)),
      ofBeBytes_beBytes _ (lt_pow_argumentWidth hfits'.2 (Nat.le_of_not_lt hlarge'))] at hvalue

/-- An integer that an unsigned or a negative head can carry. -/
structure WireInteger where
  value : ℤ
  lower : -2 ^ 64 ≤ value
  upper : value < 2 ^ 64
deriving DecidableEq

def WireInteger.ofUInt64 (value : UInt64) : WireInteger where
  value := value.toNat
  lower := by omega
  upper := by exact_mod_cast value.toNat_lt

inductive Scalar where
  | integer (value : WireInteger)
  | bytes (content : List UInt8)
  | text (content : String)
  | bool (value : Bool)
  | null
deriving DecidableEq

def utf8 (text : String) : List UInt8 := text.toByteArray.data.toList

def fromUtf8 (bytes : List UInt8) : Option String := String.fromUTF8? ⟨bytes.toArray⟩

theorem fromUtf8_eq_some_iff {content : List UInt8} {text : String} :
    fromUtf8 content = some text ↔ utf8 text = content := by
  rw [fromUtf8, String.fromUTF8?]
  constructor
  · intro hsome
    split at hsome
    · rw [Option.some.injEq] at hsome
      rw [← hsome]
      rfl
    · cases hsome
  · rintro rfl
    exact dif_pos text.isValidUTF8

theorem utf8_injective : Function.Injective utf8 := by
  intro left right heq
  have hleft := fromUtf8_eq_some_iff.mpr heq
  rwa [fromUtf8_eq_some_iff.mpr rfl, Option.some.injEq, eq_comm] at hleft

namespace Scalar

def major : Scalar → ℕ
  | integer value => if 0 ≤ value.value then 0 else 1
  | bytes _ => 2
  | text _ => 3
  | bool _ => 7
  | null => 7

def argument : Scalar → ℕ
  | integer value => if 0 ≤ value.value then value.value.toNat else (-1 - value.value).toNat
  | bytes content => content.length
  | text content => (utf8 content).length
  | bool value => if value then 21 else 20
  | null => 22

def content : Scalar → List UInt8
  | bytes content => content
  | text content => utf8 content
  | _ => []

def encode (scalar : Scalar) : List UInt8 :=
  headBytes scalar.major scalar.argument ++ scalar.content

theorem content_length (scalar : Scalar) :
    scalar.content.length = if scalar.major = 2 ∨ scalar.major = 3 then scalar.argument else 0 := by
  cases scalar with
  | integer value =>
    by_cases hvalue : 0 ≤ value.value
    · simp [major, content, hvalue]
    · simp [major, content, hvalue]
  | bytes content => rfl
  | text content => rfl
  | bool value => rfl
  | null => rfl

theorem headFits {scalar : Scalar} (hlength : scalar.content.length < 2 ^ 64) :
    HeadFits scalar.major scalar.argument := by
  cases scalar with
  | integer value =>
    have hlower := value.lower
    have hupper := value.upper
    rw [HeadFits, major, argument]
    split_ifs <;> omega
  | bytes content => exact ⟨(by decide : 2 < 8), hlength⟩
  | text content => exact ⟨(by decide : 3 < 8), hlength⟩
  | bool value => cases value <;> exact ⟨by decide, by decide⟩
  | null => exact ⟨by decide, by decide⟩

/-- The scalar with the given head and the given bytes behind it. -/
def ofParts (major argument : ℕ) (content : List UInt8) : Option Scalar :=
  if major ≤ 1 then
    if hargument : argument < 2 ^ 64 then
      if major = 0 then some (integer ⟨argument, by omega, by omega⟩)
      else some (integer ⟨-1 - argument, by omega, by omega⟩)
    else none
  else if major = 2 then some (bytes content)
  else if major = 3 then
    if hvalid : (ByteArray.mk content.toArray).IsValidUTF8 then
      some (text (String.ofByteArray ⟨content.toArray⟩ hvalid))
    else none
  else if major = 7 then
    if argument = 20 then some (bool false)
    else if argument = 21 then some (bool true)
    else if argument = 22 then some null
    else none
  else none

theorem ofParts_self (scalar : Scalar) :
    ofParts scalar.major scalar.argument scalar.content = some scalar := by
  cases scalar with
  | integer value =>
    obtain ⟨value, lower, upper⟩ := value
    by_cases hvalue : 0 ≤ value
    · have hcast : (value.toNat : ℤ) = value := by omega
      simp [ofParts, major, argument, hvalue, hcast]
      omega
    · have hcast : ((-1 - value).toNat : ℤ) = -1 - value := by omega
      simp [ofParts, major, argument, hvalue, hcast]
      omega
  | bytes content => rfl
  | text content =>
    have hvalid : (ByteArray.mk (utf8 content).toArray).IsValidUTF8 := content.isValidUTF8
    exact dif_pos hvalid
  | bool value => cases value <;> rfl
  | null => rfl

theorem eq_of_parts {left right : Scalar} (hmajor : left.major = right.major)
    (hargument : left.argument = right.argument) (hcontent : left.content = right.content) :
    left = right := by
  have hleft := ofParts_self left
  rw [hmajor, hargument, hcontent, ofParts_self, Option.some.injEq] at hleft
  exact hleft.symm

theorem content_length_le_encode (scalar : Scalar) :
    scalar.content.length < scalar.encode.length := by
  rw [encode, length_append, headBytes_length]
  omega

/-- An encoded scalar announces its own end. -/
theorem encode_append_inj {left right : Scalar}
    (hleft : left.encode.length < 2 ^ 64) (hright : right.encode.length < 2 ^ 64)
    (heq : left.encode ++ rest = right.encode ++ rest') : left = right ∧ rest = rest' := by
  have hfits := headFits ((content_length_le_encode left).trans hleft)
  have hfits' := headFits ((content_length_le_encode right).trans hright)
  rw [encode, encode, append_assoc, append_assoc] at heq
  obtain ⟨hmajor, hargument, hbehind⟩ := headBytes_append_inj hfits hfits' heq
  have hlength : left.content.length = right.content.length := by
    rw [content_length, content_length, hmajor, hargument]
  obtain ⟨hcontent, hrest⟩ := append_inj hbehind hlength
  exact ⟨eq_of_parts hmajor hargument hcontent, hrest⟩

end Scalar

inductive Value where
  | scalar (value : Scalar)
  | array (items : List Value)
  | map (entries : List (Scalar × Value))

/-- Induction over the items of arrays and the values of maps. -/
@[elab_as_elim, induction_eliminator]
theorem Value.induction {motive : Value → Prop} (scalar : ∀ value, motive (.scalar value))
    (array : ∀ items, (∀ item ∈ items, motive item) → motive (.array items))
    (map : ∀ entries, (∀ entry ∈ entries, motive entry.2) → motive (.map entries))
    (value : Value) : motive value := by
  refine @Value.rec motive (fun items => ∀ item ∈ items, motive item)
    (fun entries => ∀ entry ∈ entries, motive entry.2) (fun entry => motive entry.2)
    scalar array map ?_ ?_ ?_ ?_ ?_ value
  · simp
  · intro item items hitem hitems
    exact forall_mem_cons.mpr ⟨hitem, hitems⟩
  · simp
  · intro entry entries hentry hentries
    exact forall_mem_cons.mpr ⟨hentry, hentries⟩
  · simp

mutual

def Value.encode : Value → List UInt8
  | .scalar value => value.encode
  | .array items => headBytes 4 items.length ++ encodeItems items
  | .map entries => headBytes 5 entries.length ++ encodeEntries entries

def encodeItems : List Value → List UInt8
  | [] => []
  | item :: items => item.encode ++ encodeItems items

def encodeEntries : List (Scalar × Value) → List UInt8
  | [] => []
  | (key, value) :: entries => key.encode ++ value.encode ++ encodeEntries entries

end

theorem encodeItems_eq (items : List Value) : encodeItems items = items.flatMap Value.encode := by
  induction items with
  | nil => rfl
  | cons item items ih => rw [encodeItems, ih, flatMap_cons]

def encodeEntry (entry : Scalar × Value) : List UInt8 := entry.1.encode ++ entry.2.encode

theorem encodeEntries_eq :
    encodeEntries entries = entries.flatMap encodeEntry := by
  induction entries with
  | nil => rfl
  | cons entry entries ih => rw [encodeEntries, ih, flatMap_cons, encodeEntry]

theorem Scalar.encode_length_pos (scalar : Scalar) : 0 < scalar.encode.length := by
  have hcontent := scalar.content_length_le_encode
  omega

theorem Value.encode_length_pos (value : Value) : 0 < value.encode.length := by
  cases value with
  | scalar value => exact value.encode_length_pos
  | array items =>
    rw [Value.encode, length_append, headBytes_length]
    omega
  | map entries =>
    rw [Value.encode, length_append, headBytes_length]
    omega

theorem length_le_encodeItems (items : List Value) : items.length ≤ (encodeItems items).length := by
  induction items with
  | nil => exact le_rfl
  | cons item items ih =>
    have hitem := item.encode_length_pos
    rw [encodeItems, length_cons, length_append]
    omega

theorem length_mul_two_le_encodeEntries :
    entries.length * 2 ≤ (encodeEntries entries).length := by
  induction entries with
  | nil => exact le_rfl
  | cons entry entries ih =>
    have hkey := entry.1.encode_length_pos
    have hvalue := entry.2.encode_length_pos
    rw [encodeEntries, length_cons, length_append, length_append]
    omega

/-! ### An encoding announces its own end -/

def AnnouncesEnd {α : Type} (encode : α → List UInt8) (item : α) : Prop :=
  ∀ other (rest rest' : List UInt8), (encode item).length < 2 ^ 64 →
    (encode other).length < 2 ^ 64 → encode item ++ rest = encode other ++ rest' →
    item = other ∧ rest = rest'

theorem flatMap_append_inj {α : Type} {encode : α → List UInt8} {left right : List α}
    (hlengths : left.length = right.length) (hitems : ∀ item ∈ left, AnnouncesEnd encode item)
    (hleft : (left.flatMap encode).length < 2 ^ 64) (hright : (right.flatMap encode).length < 2 ^ 64)
    (heq : left.flatMap encode ++ rest = right.flatMap encode ++ rest') :
    left = right ∧ rest = rest' := by
  induction left generalizing right with
  | nil =>
    obtain rfl := eq_nil_of_length_eq_zero hlengths.symm
    exact ⟨rfl, heq⟩
  | cons item left ih =>
    cases right with
    | nil => exact absurd hlengths (Nat.succ_ne_zero _)
    | cons other right =>
      obtain ⟨hitem, hitems⟩ := forall_mem_cons.mp hitems
      rw [flatMap_cons, length_append] at hleft hright
      rw [flatMap_cons, flatMap_cons, append_assoc, append_assoc] at heq
      obtain ⟨rfl, hbehind⟩ := hitem other _ _ (by omega) (by omega) heq
      obtain ⟨rfl, hrest⟩ := ih (Nat.succ.inj hlengths) hitems (by omega) (by omega) hbehind
      exact ⟨rfl, hrest⟩

theorem AnnouncesEnd.entry {entry : Scalar × Value} (hvalue : AnnouncesEnd Value.encode entry.2) :
    AnnouncesEnd encodeEntry entry := by
  intro other rest rest' hleft hright heq
  rw [encodeEntry, length_append] at hleft hright
  rw [encodeEntry, encodeEntry, append_assoc, append_assoc] at heq
  obtain ⟨hkey, hbehind⟩ := Scalar.encode_append_inj (by omega) (by omega) heq
  obtain ⟨hvalue, hrest⟩ := hvalue other.2 _ _ (by omega) (by omega) hbehind
  exact ⟨Prod.ext hkey hvalue, hrest⟩

namespace Value

def major : Value → ℕ
  | scalar value => value.major
  | array _ => 4
  | map _ => 5

def argument : Value → ℕ
  | scalar value => value.argument
  | array items => items.length
  | map entries => entries.length

def body : Value → List UInt8
  | scalar value => value.content
  | array items => encodeItems items
  | map entries => encodeEntries entries

theorem encode_eq (value : Value) :
    value.encode = headBytes value.major value.argument ++ value.body := by
  cases value with
  | scalar value => rfl
  | array items => rw [encode, major, argument, body]
  | map entries => rw [encode, major, argument, body]

theorem body_length_lt (hlength : value.encode.length < 2 ^ 64) :
    value.body.length < 2 ^ 64 := by
  rw [encode_eq, length_append] at hlength
  omega

theorem headFits (hlength : value.encode.length < 2 ^ 64) :
    HeadFits value.major value.argument := by
  have hbody := body_length_lt hlength
  cases value with
  | scalar value => exact Scalar.headFits hbody
  | array items =>
    exact ⟨(by decide : 4 < 8), lt_of_le_of_lt (length_le_encodeItems items) hbody⟩
  | map entries =>
    have hentries := length_mul_two_le_encodeEntries entries
    rw [body] at hbody
    exact ⟨(by decide : 5 < 8), by rw [argument]; omega⟩

theorem head_append_inj {left right : Value}
    (hleft : left.encode.length < 2 ^ 64) (hright : right.encode.length < 2 ^ 64)
    (heq : left.encode ++ rest = right.encode ++ rest') :
    left.major = right.major ∧ left.argument = right.argument ∧
      left.body ++ rest = right.body ++ rest' := by
  rw [encode_eq, encode_eq, append_assoc, append_assoc] at heq
  exact headBytes_append_inj (headFits hleft) (headFits hright) heq

end Value

theorem Scalar.major_ne_compound (scalar : Scalar) : scalar.major ≠ 4 ∧ scalar.major ≠ 5 := by
  cases scalar with
  | integer value =>
    rw [major]
    split_ifs <;> decide
  | bytes _ => exact ⟨(by decide : 2 ≠ 4), (by decide : 2 ≠ 5)⟩
  | text _ => exact ⟨(by decide : 3 ≠ 4), (by decide : 3 ≠ 5)⟩
  | bool _ => exact ⟨(by decide : 7 ≠ 4), (by decide : 7 ≠ 5)⟩
  | null => exact ⟨(by decide : 7 ≠ 4), (by decide : 7 ≠ 5)⟩

/-- **Unique decoding.** An encoding announces its own end: a byte string starts with the encoding of
at most one value. -/
theorem encode_append_inj (left right : Value) (rest rest' : List UInt8)
    (hleft : left.encode.length < 2 ^ 64) (hright : right.encode.length < 2 ^ 64)
    (heq : left.encode ++ rest = right.encode ++ rest') : left = right ∧ rest = rest' := by
  induction left generalizing right rest rest' with
  | scalar value =>
    cases right with
    | scalar other =>
      obtain ⟨rfl, hrest⟩ := Scalar.encode_append_inj hleft hright heq
      exact ⟨rfl, hrest⟩
    | array items =>
      exact absurd (Value.head_append_inj hleft hright heq).1 value.major_ne_compound.1
    | map entries =>
      exact absurd (Value.head_append_inj hleft hright heq).1 value.major_ne_compound.2
  | array items ih =>
    obtain ⟨hmajor, hargument, hbody⟩ := Value.head_append_inj hleft hright heq
    cases right with
    | scalar other => exact absurd hmajor.symm other.major_ne_compound.1
    | map entries => exact absurd hmajor (by decide : 4 ≠ 5)
    | array others =>
      have hleft := Value.body_length_lt hleft
      have hright := Value.body_length_lt hright
      rw [Value.body, encodeItems_eq] at hleft hright
      rw [Value.body, Value.body, encodeItems_eq, encodeItems_eq] at hbody
      obtain ⟨rfl, hrest⟩ := flatMap_append_inj hargument ih hleft hright hbody
      exact ⟨rfl, hrest⟩
  | map entries ih =>
    obtain ⟨hmajor, hargument, hbody⟩ := Value.head_append_inj hleft hright heq
    cases right with
    | scalar other => exact absurd hmajor.symm other.major_ne_compound.2
    | array items => exact absurd hmajor (by decide : 5 ≠ 4)
    | map others =>
      have hleft := Value.body_length_lt hleft
      have hright := Value.body_length_lt hright
      rw [Value.body, encodeEntries_eq] at hleft hright
      rw [Value.body, Value.body, encodeEntries_eq, encodeEntries_eq] at hbody
      obtain ⟨rfl, hrest⟩ := flatMap_append_inj hargument (fun entry hentry =>
        AnnouncesEnd.entry (ih entry hentry)) hleft hright hbody
      exact ⟨rfl, hrest⟩

theorem encode_inj {left right : Value} (hlength : left.encode.length < 2 ^ 64)
    (heq : left.encode = right.encode) : left = right :=
  (encode_append_inj left right [] [] hlength (heq ▸ hlength) (congrArg (· ++ []) heq)).1

/-- Every item and every key is nested at most `limit` levels deep, and the keys of every map are as
they should be. -/
inductive Nested (keysOk : List Scalar → Prop) (limit : ℕ) : ℕ → Value → Prop
  | scalar {depth : ℕ} (value : Scalar) (hdepth : depth ≤ limit) :
      Nested keysOk limit depth (.scalar value)
  | array {depth : ℕ} {items : List Value} (hdepth : depth ≤ limit)
      (hitems : ∀ item ∈ items, Nested keysOk limit (depth + 1) item) :
      Nested keysOk limit depth (.array items)
  | map {depth : ℕ} {entries : List (Scalar × Value)} (hdepth : depth ≤ limit)
      (hkeyDepth : ∀ entry ∈ entries, depth + 1 ≤ limit)
      (hvalues : ∀ entry ∈ entries, Nested keysOk limit (depth + 1) entry.2)
      (hkeys : keysOk (entries.map Prod.fst)) : Nested keysOk limit depth (.map entries)

/-- Shorter encoded keys first, keys of one length in the order of their bytes. -/
def KeyBefore (left right : Scalar) : Prop :=
  left.encode.length < right.encode.length ∨
    left.encode.length = right.encode.length ∧ left.encode < right.encode

theorem keyBefore_iff_shortlex (left right : Scalar) :
    KeyBefore left right ↔ shortlex left.encode right.encode = .lt :=
  (shortlex_eq_lt_iff left.encode right.encode).symm

instance : Trans KeyBefore KeyBefore KeyBefore where
  trans {left middle right} hleft hright := by
    rw [keyBefore_iff_shortlex] at hleft hright ⊢
    exact Std.TransCmp.lt_trans hleft hright

/-- A value whose encoding is deterministic: nested no deeper than the limit, with the entries of
every map in strictly increasing order of their keys. -/
def Deterministic (limit : ℕ) (value : Value) : Prop :=
  Nested (List.Pairwise KeyBefore) limit 0 value

theorem Nested.depth_le {keysOk : List Scalar → Prop} {limit depth : ℕ}
    (hnested : Nested keysOk limit depth value) : depth ≤ limit := by
  cases hnested with
  | scalar _ hdepth => exact hdepth
  | array hdepth _ => exact hdepth
  | map hdepth _ _ _ => exact hdepth

end Tritium.Cbor
