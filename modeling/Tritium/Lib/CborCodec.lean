import Tritium.Lib.Cbor

/-!
# A general CBOR codec

The data model of a general codec has floats, tags and keys of every kind. What such a codec does
with a value of the deterministic profile is stated here as a property of the codec.
-/

namespace Tritium.Cbor

inductive Item where
  | integer (value : WireInteger)
  | bytes (content : List UInt8)
  | float (bits : UInt64)
  | text (content : String)
  | bool (value : Bool)
  | null
  | tag (number : UInt64) (content : Item)
  | array (items : List Item)
  | map (entries : List (Item × Item))

/-- Equality of floats as numbers: not a number is not equal to itself, and both zeros are equal. -/
def sameFloat (left right : UInt64) : Bool :=
  let magnitude (bits : UInt64) := bits &&& 0x7FFFFFFFFFFFFFFF
  magnitude left ≤ 0x7FF0000000000000 && magnitude right ≤ 0x7FF0000000000000 &&
    (left == right || magnitude left == 0 && magnitude right == 0)

mutual

def Item.same : Item → Item → Bool
  | .integer left, .integer right => left = right
  | .bytes left, .bytes right => left = right
  | .float left, .float right => sameFloat left right
  | .text left, .text right => left = right
  | .bool left, .bool right => left = right
  | .null, .null => true
  | .tag number left, .tag number' right => number = number' && left.same right
  | .array left, .array right => sameItems left right
  | .map left, .map right => sameEntries left right
  | _, _ => false

def sameItems : List Item → List Item → Bool
  | [], [] => true
  | left :: lefts, right :: rights => left.same right && sameItems lefts rights
  | _, _ => false

def sameEntries : List (Item × Item) → List (Item × Item) → Bool
  | [], [] => true
  | (key, value) :: lefts, (key', value') :: rights =>
    key.same key' && value.same value' && sameEntries lefts rights
  | _, _ => false

end

def Scalar.toItem : Scalar → Item
  | .integer value => .integer value
  | .bytes content => .bytes content
  | .text content => .text content
  | .bool value => .bool value
  | .null => .null

mutual

def Value.toItem : Value → Item
  | .scalar value => value.toItem
  | .array items => .array (toItems items)
  | .map entries => .map (toItemEntries entries)

def toItems : List Value → List Item
  | [] => []
  | item :: items => item.toItem :: toItems items

def toItemEntries : List (Scalar × Value) → List (Item × Item)
  | [] => []
  | (key, value) :: entries => (key.toItem, value.toItem) :: toItemEntries entries

end

theorem toItems_eq (items : List Value) : toItems items = items.map Value.toItem := by
  induction items with
  | nil => rfl
  | cons item items ih => rw [toItems, ih, List.map_cons]

structure Codec where
  intoWriter : Item → Option (List UInt8)
  /-- Reads the item at the front of the bytes. -/
  fromReader : List UInt8 → Option Item
  compareCanonical : Item → Item → Ordering

namespace Codec

/-- Values of the profile are written with definite heads of the least width. -/
def WritesMinimal (codec : Codec) : Prop :=
  ∀ value : Value, codec.intoWriter value.toItem = some value.encode

/-- Encodings of the profile nested no deeper than `limit` are read back. -/
def ReadsBack (codec : Codec) (limit : ℕ) : Prop :=
  ∀ value : Value, value.encode.length < 2 ^ 64 → Nested (fun _ => True) limit 0 value →
    codec.fromReader value.encode = some value.toItem

end Codec

theorem Scalar.toItem_inj {left right : Scalar} (heq : left.toItem = right.toItem) :
    left = right := by
  cases left <;> cases right <;> simp_all [Scalar.toItem]

mutual

theorem Value.toItem_inj : ∀ {left right : Value}, left.toItem = right.toItem → left = right
  | .scalar _, .scalar _, heq => by rw [Scalar.toItem_inj heq]
  | .array _, .array _, heq => by rw [toItems_inj (Item.array.inj heq)]
  | .map _, .map _, heq => by rw [toItemEntries_inj (Item.map.inj heq)]
  | .scalar value, .array _, heq | .scalar value, .map _, heq => by cases value <;> cases heq
  | .array _, .scalar value, heq | .map _, .scalar value, heq => by cases value <;> cases heq
  | .array _, .map _, heq | .map _, .array _, heq => by cases heq

theorem toItems_inj : ∀ {left right : List Value}, toItems left = toItems right → left = right
  | [], [], _ => rfl
  | [], _ :: _, heq | _ :: _, [], heq => by cases heq
  | _ :: _, _ :: _, heq => by
    rw [toItems, toItems, List.cons.injEq] at heq
    rw [Value.toItem_inj heq.1, toItems_inj heq.2]

theorem toItemEntries_inj : ∀ {left right : List (Scalar × Value)},
    toItemEntries left = toItemEntries right → left = right
  | [], [], _ => rfl
  | [], _ :: _, heq | _ :: _, [], heq => by cases heq
  | (_, _) :: _, (_, _) :: _, heq => by
    rw [toItemEntries, toItemEntries, List.cons.injEq, Prod.mk.injEq] at heq
    rw [Scalar.toItem_inj heq.1.1, Value.toItem_inj heq.1.2, toItemEntries_inj heq.2]

end

open Classical in
noncomputable def profileCodec : Codec where
  intoWriter item :=
    if hvalue : ∃ value : Value, value.toItem = item then some hvalue.choose.encode else none
  fromReader bytes :=
    if hvalue : ∃ value : Value, value.encode = bytes then some hvalue.choose.toItem else none
  compareCanonical _ _ := .eq

theorem profileCodec_writesMinimal : profileCodec.WritesMinimal := by
  intro value
  have hvalue : ∃ other : Value, other.toItem = value.toItem := ⟨value, rfl⟩
  simp [profileCodec, Value.toItem_inj hvalue.choose_spec]

theorem profileCodec_readsBack (limit : ℕ) : profileCodec.ReadsBack limit := by
  intro value hlength _
  have hvalue : ∃ other : Value, other.encode = value.encode := ⟨value, rfl⟩
  have hsame := encode_inj hlength hvalue.choose_spec.symm
  simp [profileCodec, ← hsame]

end Tritium.Cbor
