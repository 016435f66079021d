import Tritium.Lib.Bytes
import Mathlib.Data.List.Nodup

/-!
# Packing contents at aligned offsets

Contents with keys are placed one behind the other, each at the next aligned offset, with zeros in
the gaps. The second half says what it means that a list of ranges accounts for a part of a byte
string, gaps included.
-/

namespace Tritium.Packing

open List

variable (alignment : ℕ)

def alignUp (cursor : ℕ) : ℕ := (cursor + (alignment - 1)) / alignment * alignment

theorem dvd_alignUp (cursor : ℕ) : alignment ∣ alignUp alignment cursor := Nat.dvd_mul_left _ _

variable {alignment}

theorem le_alignUp (hpos : 0 < alignment) (cursor : ℕ) : cursor ≤ alignUp alignment cursor := by
  have hdiv := Nat.div_add_mod (cursor + (alignment - 1)) alignment
  have hmod := Nat.mod_lt (cursor + (alignment - 1)) hpos
  rw [alignUp, mul_comm]
  omega

theorem alignUp_lt (hpos : 0 < alignment) (cursor : ℕ) :
    alignUp alignment cursor < cursor + alignment := by
  have hdiv := Nat.div_mul_le_self (cursor + (alignment - 1)) alignment
  rw [alignUp]
  omega

theorem alignUp_le {cursor target : ℕ} (hpos : 0 < alignment) (hdvd : alignment ∣ target)
    (hle : cursor ≤ target) : alignUp alignment cursor ≤ target := by
  obtain ⟨multiple, rfl⟩ := hdvd
  rw [mul_comm alignment]
  apply Nat.mul_le_mul_right
  rw [Nat.div_le_iff_le_mul hpos]
  calc
    cursor + (alignment - 1) ≤ alignment * multiple + (alignment - 1) := by gcongr
    _ = multiple * alignment + alignment - 1 := by
      rw [mul_comm, Nat.add_sub_assoc hpos]

section Placement

variable (alignment) {κ ν : Type} (size : ν → ℕ)

/-- The offset of every content, from the cursor on. -/
def layout : ℕ → List (κ × ν) → List (κ × ℕ × ν)
  | _, [] => []
  | cursor, (key, content) :: pieces =>
    (key, alignUp alignment cursor, content) ::
      layout (alignUp alignment cursor + size content) pieces

def finish : ℕ → List (κ × ν) → ℕ
  | cursor, [] => cursor
  | cursor, (_, content) :: pieces => finish (alignUp alignment cursor + size content) pieces

variable {alignment} {size} {pieces : List (κ × ν)}

theorem layout_pieces (cursor : ℕ) (pieces : List (κ × ν)) :
    (layout alignment size cursor pieces).map (fun placed => (placed.1, placed.2.2)) = pieces := by
  induction pieces generalizing cursor with
  | nil => rfl
  | cons piece pieces ih => rw [layout, map_cons, ih]

/-- Where no key is used twice, a key determines where its content stands. -/
theorem layout_eq_of_key {cursor : ℕ} (hnodup : (pieces.map Prod.fst).Nodup)
    {left right : κ × ℕ × ν} (hleft : left ∈ layout alignment size cursor pieces)
    (hright : right ∈ layout alignment size cursor pieces) (hkey : left.1 = right.1) :
    left = right := by
  have hkeys : (layout alignment size cursor pieces).map Prod.fst = pieces.map Prod.fst := by
    conv_rhs => rw [← @layout_pieces alignment _ _ size cursor pieces, map_map]
    rfl
  rw [← hkeys] at hnodup
  exact inj_on_of_nodup_map hnodup hleft hright hkey

theorem layout_map {ν' : Type} (f : ν' → ν) (cursor : ℕ) (pieces : List (κ × ν')) :
    layout alignment size cursor (pieces.map (Prod.map id f)) =
      (layout alignment (fun content => size (f content)) cursor pieces).map
        (Prod.map id (Prod.map id f)) := by
  induction pieces generalizing cursor with
  | nil => rfl
  | cons piece pieces ih =>
    change _ :: layout alignment size _ (pieces.map (Prod.map id f)) = _
    rw [ih]
    rfl

theorem finish_map {ν' : Type} (f : ν' → ν) (cursor : ℕ) (pieces : List (κ × ν')) :
    finish alignment size cursor (pieces.map (Prod.map id f)) =
      finish alignment (fun content => size (f content)) cursor pieces := by
  induction pieces generalizing cursor with
  | nil => rfl
  | cons piece pieces ih => exact ih _

variable (hpos : 0 < alignment)

include hpos in
theorem le_finish (cursor : ℕ) (pieces : List (κ × ν)) :
    cursor ≤ finish alignment size cursor pieces := by
  induction pieces generalizing cursor with
  | nil => exact le_rfl
  | cons piece pieces ih =>
    have haligned := le_alignUp hpos cursor
    have hrest := ih (alignUp alignment cursor + size piece.2)
    rw [finish]
    omega

include hpos in
/-- No gap is as long as the alignment. -/
theorem finish_le (cursor : ℕ) (pieces : List (κ × ν)) :
    finish alignment size cursor pieces ≤
      cursor + pieces.length * (alignment - 1) + (pieces.map fun piece => size piece.2).sum := by
  induction pieces generalizing cursor with
  | nil => exact Nat.le_add_right _ _
  | cons piece pieces ih =>
    have haligned := alignUp_lt hpos cursor
    have hrest := ih (alignUp alignment cursor + size piece.2)
    rw [finish, map_cons, sum_cons, length_cons, Nat.succ_mul]
    omega

include hpos in
theorem mem_layout {cursor offset : ℕ} {key : κ} {content : ν}
    (hmem : (key, offset, content) ∈ layout alignment size cursor pieces) :
    cursor ≤ offset ∧ alignment ∣ offset ∧
      offset + size content ≤ finish alignment size cursor pieces := by
  induction pieces generalizing cursor with
  | nil => cases hmem
  | cons piece pieces ih =>
    have haligned := le_alignUp hpos cursor
    rw [layout] at hmem
    obtain heq | hmem := mem_cons.mp hmem
    · obtain ⟨_, rfl, rfl⟩ := heq
      exact ⟨haligned, dvd_alignUp alignment cursor, le_finish hpos _ pieces⟩
    · obtain ⟨_, hdvd, hfinish⟩ := ih hmem
      exact ⟨by omega, hdvd, hfinish⟩

include hpos in
theorem layout_pairwise (cursor : ℕ) (pieces : List (κ × ν)) :
    (layout alignment size cursor pieces).Pairwise
      fun left right => left.2.1 + size left.2.2 ≤ right.2.1 := by
  induction pieces generalizing cursor with
  | nil => exact List.Pairwise.nil
  | cons piece pieces ih =>
    rw [layout, pairwise_cons]
    refine ⟨?_, ih _⟩
    rintro ⟨key, offset, content⟩ hmem
    exact (mem_layout hpos hmem).1

end Placement

section Region

variable (alignment) {κ : Type}

/-- The contents with the gaps in front of them. -/
def region : ℕ → List (κ × List UInt8) → List UInt8
  | _, [] => []
  | cursor, (_, content) :: pieces =>
    replicate (alignUp alignment cursor - cursor) 0 ++ content ++
      region (alignUp alignment cursor + content.length) pieces

variable {alignment} (hpos : 0 < alignment)

include hpos in
theorem region_length (cursor : ℕ) (pieces : List (κ × List UInt8)) :
    cursor + (region alignment cursor pieces).length = finish alignment length cursor pieces := by
  induction pieces generalizing cursor with
  | nil => rfl
  | cons piece pieces ih =>
    have haligned := le_alignUp hpos cursor
    rw [region, finish, ← ih]
    simp only [length_append, length_replicate]
    omega

include hpos in
theorem subslice_region {before after : List UInt8} {key : κ} {offset : ℕ} {content : List UInt8}
    {pieces : List (κ × List UInt8)}
    (hmem : (key, offset, content) ∈ layout alignment length before.length pieces) :
    subslice (before ++ region alignment before.length pieces ++ after) offset
      (offset + content.length) = some content := by
  induction pieces generalizing before with
  | nil => cases hmem
  | cons piece pieces ih =>
    obtain ⟨firstKey, first⟩ := piece
    have haligned := le_alignUp hpos before.length
    rw [layout] at hmem
    generalize hgap : replicate (alignUp alignment before.length - before.length)
      (0 : UInt8) = gap
    have hlength : (before ++ gap).length = alignUp alignment before.length := by
      rw [length_append, ← hgap, length_replicate]
      omega
    rw [region, hgap]
    obtain heq | hmem := mem_cons.mp hmem
    · obtain ⟨_, rfl, rfl⟩ := heq
      have hslice := subslice_append (before ++ gap) content
        (region alignment (alignUp alignment before.length + content.length) pieces ++ after)
      rw [hlength] at hslice
      simpa only [append_assoc] using hslice
    · have hfront : (before ++ gap ++ first).length =
          alignUp alignment before.length + first.length := by
        rw [length_append, hlength]
      rw [← hfront] at hmem ⊢
      simpa only [append_assoc] using ih hmem

end Region

/-! ### Accounting for every byte -/

/-- The range exists and holds zeros only. -/
def Zeros (bytes : List UInt8) (start stop : ℕ) : Prop :=
  ∃ gap, subslice bytes start stop = some gap ∧ ∀ byte ∈ gap, byte = 0

/-- From the cursor to the end there are the ranges, one behind the other, and zeros. -/
def Swept (bytes : List UInt8) (stop : ℕ) : ℕ → List (ℕ × ℕ) → Prop
  | cursor, [] => Zeros bytes cursor stop
  | cursor, range :: ranges => Zeros bytes cursor range.1 ∧ Swept bytes stop range.2 ranges

variable {bytes : List UInt8} {cursor stop position : ℕ} {ranges : List (ℕ × ℕ)}

theorem Zeros.le {start : ℕ} (hzeros : Zeros bytes start stop) : start ≤ stop := by
  obtain ⟨gap, hgap, _⟩ := hzeros
  exact (subslice_eq_some_iff.mp hgap).1

theorem Zeros.getElem {start : ℕ} (hzeros : Zeros bytes start stop) (hstart : start ≤ position)
    (hstop : position < stop) : bytes[position]? = some 0 := by
  obtain ⟨gap, hgap, hzero⟩ := hzeros
  obtain ⟨_, hlength, rfl⟩ := subslice_eq_some_iff.mp hgap
  have hindex : position < bytes.length := by omega
  rw [getElem?_eq_getElem hindex, Option.some.injEq]
  apply hzero
  have hget : ((bytes.take stop).drop start)[position - start]? = some bytes[position] := by
    rw [getElem?_drop, Nat.add_sub_cancel' hstart, getElem?_take_of_lt hstop,
      getElem?_eq_getElem hindex]
  exact mem_of_getElem? hget

theorem Swept.le_start (hranges : ∀ range ∈ ranges, range.1 ≤ range.2)
    (hswept : Swept bytes stop cursor ranges) : ∀ range ∈ ranges, cursor ≤ range.1 := by
  induction ranges generalizing cursor with
  | nil => exact forall_mem_nil _
  | cons first ranges ih =>
    obtain ⟨hfirst, hranges⟩ := forall_mem_cons.mp hranges
    obtain ⟨hzeros, hrest⟩ := hswept
    refine forall_mem_cons.mpr ⟨hzeros.le, fun range hrange => ?_⟩
    exact hzeros.le.trans (hfirst.trans (ih hranges hrest range hrange))

theorem Swept.pairwise (hranges : ∀ range ∈ ranges, range.1 ≤ range.2)
    (hswept : Swept bytes stop cursor ranges) :
    ranges.Pairwise fun left right => left.2 ≤ right.1 := by
  induction ranges generalizing cursor with
  | nil => exact List.Pairwise.nil
  | cons first ranges ih =>
    obtain ⟨_, hranges⟩ := forall_mem_cons.mp hranges
    exact pairwise_cons.mpr ⟨hswept.2.le_start hranges, ih hranges hswept.2⟩

/-- A byte that stands in no range is zero. -/
theorem Swept.getElem (hswept : Swept bytes stop cursor ranges)
    (hcursor : cursor ≤ position) (hstop : position < stop) :
    (∃ range ∈ ranges, range.1 ≤ position ∧ position < range.2) ∨ bytes[position]? = some 0 := by
  induction ranges generalizing cursor with
  | nil => exact .inr (Zeros.getElem hswept hcursor hstop)
  | cons first ranges ih =>
    obtain ⟨hzeros, hrest⟩ := hswept
    by_cases hgap : position < first.1
    · exact .inr (hzeros.getElem hcursor hgap)
    · by_cases hinside : position < first.2
      · exact .inl ⟨first, mem_cons_self, not_lt.mp hgap, hinside⟩
      · obtain ⟨range, hrange, hposition⟩ | hzero := ih hrest (not_lt.mp hinside)
        · exact .inl ⟨range, mem_cons_of_mem _ hrange, hposition⟩
        · exact .inr hzero

theorem zeros_replicate (before after : List UInt8) (count : ℕ) :
    Zeros (before ++ replicate count 0 ++ after) before.length (before.length + count) := by
  refine ⟨replicate count 0, ?_, fun byte hbyte => eq_of_mem_replicate hbyte⟩
  have hslice := subslice_append before (replicate count (0 : UInt8)) after
  rwa [length_replicate] at hslice

/-- A packed region is accounted for by the ranges of its layout. -/
theorem swept_region {κ : Type} (hpos : 0 < alignment) (before after : List UInt8)
    (pieces : List (κ × List UInt8)) :
    Swept (before ++ region alignment before.length pieces ++ after)
      (finish alignment length before.length pieces) before.length
      ((layout alignment length before.length pieces).map fun placed =>
        (placed.2.1, placed.2.1 + placed.2.2.length)) := by
  induction pieces generalizing before with
  | nil =>
    rw [region, append_nil]
    have hzeros := zeros_replicate before after 0
    rwa [replicate_zero, append_nil] at hzeros
  | cons piece pieces ih =>
    obtain ⟨key, first⟩ := piece
    have haligned := le_alignUp hpos before.length
    have hgap : before.length + (alignUp alignment before.length - before.length) =
        alignUp alignment before.length := by omega
    have hfront : (before ++ replicate (alignUp alignment before.length - before.length) 0 ++
        first).length = alignUp alignment before.length + first.length := by
      rw [length_append, length_append, length_replicate, hgap]
    rw [region, finish]
    constructor
    · have hzeros := zeros_replicate before
        (first ++ (region alignment (alignUp alignment before.length + first.length) pieces ++
          after)) (alignUp alignment before.length - before.length)
      rw [hgap] at hzeros
      simpa only [append_assoc] using hzeros
    · have hrest :=
        ih (before ++ replicate (alignUp alignment before.length - before.length) 0 ++ first)
      rw [hfront] at hrest
      simpa only [append_assoc] using hrest

/-! ### Ranges without slack -/

/-- Every range begins at the first aligned position behind the one before it, and the last one ends
at the stop. -/
def Tight (alignment stop : ℕ) : ℕ → List (ℕ × ℕ) → Prop
  | cursor, [] => cursor = stop
  | cursor, range :: ranges =>
    range.1 = alignUp alignment cursor ∧ Tight alignment stop range.2 ranges

instance Tight.decidable (alignment stop : ℕ) :
    (cursor : ℕ) → (ranges : List (ℕ × ℕ)) → Decidable (Tight alignment stop cursor ranges)
  | cursor, [] => inferInstanceAs (Decidable (cursor = stop))
  | cursor, range :: ranges =>
    have := Tight.decidable alignment stop range.2 ranges
    inferInstanceAs (Decidable (range.1 = alignUp alignment cursor ∧
      Tight alignment stop range.2 ranges))

theorem tight_layout {κ : Type} (cursor : ℕ) (pieces : List (κ × List UInt8)) :
    Tight alignment (finish alignment length cursor pieces) cursor
      ((layout alignment length cursor pieces).map fun placed =>
        (placed.2.1, placed.2.1 + placed.2.2.length)) := by
  induction pieces generalizing cursor with
  | nil => rfl
  | cons piece pieces ih => exact ⟨rfl, ih _⟩

theorem Tight.pairwise (hpos : 0 < alignment)
    (hranges : ∀ range ∈ ranges, range.1 ≤ range.2) (htight : Tight alignment stop cursor ranges) :
    (∀ range ∈ ranges, cursor ≤ range.1) ∧ ranges.Pairwise fun left right => left.2 ≤ right.1 := by
  induction ranges generalizing cursor with
  | nil => exact ⟨forall_mem_nil _, List.Pairwise.nil⟩
  | cons first ranges ih =>
    obtain ⟨hfirst, hranges⟩ := forall_mem_cons.mp hranges
    obtain ⟨hstart, hrest⟩ := htight
    obtain ⟨hbounds, hpairwise⟩ := ih hranges hrest
    have hcursor : cursor ≤ first.1 := by
      rw [hstart]
      exact le_alignUp hpos cursor
    refine ⟨forall_mem_cons.mpr ⟨hcursor, fun range hrange => ?_⟩,
      pairwise_cons.mpr ⟨hbounds, hpairwise⟩⟩
    exact hcursor.trans (hfirst.trans (hbounds range hrange))

section Tight

variable {κ : Type} {content : ℕ × ℕ → List UInt8} {cursor : ℕ} {ranged : List (κ × ℕ × ℕ)}
  (htight : Tight alignment stop cursor (ranged.map Prod.snd))
  (hcontent : ∀ piece ∈ ranged, subslice bytes piece.2.1 piece.2.2 = some (content piece.2))

include htight hcontent

/-- Ranges without slack are where packing puts their contents. -/
theorem Tight.layout_eq :
    layout alignment length cursor (ranged.map (Prod.map id content)) =
      ranged.map (fun piece => (piece.1, piece.2.1, content piece.2)) ∧
    finish alignment length cursor (ranged.map (Prod.map id content)) = stop := by
  induction ranged generalizing cursor with
  | nil => exact ⟨rfl, htight⟩
  | cons piece ranged ih =>
    obtain ⟨hpiece, hcontent⟩ := forall_mem_cons.mp hcontent
    obtain ⟨hstart, hrest⟩ := htight
    have hlength := add_length_of_subslice hpiece
    rw [hstart] at hlength
    obtain ⟨hlayout, hfinish⟩ := ih hrest hcontent
    change (piece.1, alignUp alignment cursor, content piece.2) :: layout alignment length
      (alignUp alignment cursor + (content piece.2).length) _ = _ ∧ finish alignment length
          (alignUp alignment cursor + (content piece.2).length) _ = stop
    rw [hlength, hlayout, hfinish, ← hstart]
    exact ⟨rfl, rfl⟩

/-- Ranges without slack leave nothing to choose: the bytes are the packed contents. -/
theorem Tight.subslice_eq (hswept : Swept bytes stop cursor (ranged.map Prod.snd)) :
    subslice bytes cursor stop =
      some (region alignment cursor (ranged.map (Prod.map id content))) := by
  induction ranged generalizing cursor with
  | nil =>
    obtain rfl : cursor = stop := htight
    obtain ⟨gap, hgap, _⟩ : Zeros bytes cursor cursor := hswept
    have hlength := length_of_subslice hgap
    rw [Nat.sub_self, length_eq_zero_iff] at hlength
    rw [hgap, hlength]
    rfl
  | cons piece ranged ih =>
    obtain ⟨hpiece, hcontent⟩ := forall_mem_cons.mp hcontent
    obtain ⟨hstart, hrest⟩ := htight
    obtain ⟨⟨gap, hgap, hzero⟩, hswept⟩ := hswept
    have hlength := add_length_of_subslice hpiece
    rw [hstart] at hlength
    have hreplicate : gap = replicate (alignUp alignment cursor - cursor) 0 := by
      rw [eq_replicate_iff, length_of_subslice hgap, hstart]
      exact ⟨rfl, hzero⟩
    change _ = some (replicate (alignUp alignment cursor - cursor) 0 ++ content piece.2 ++
      region alignment (alignUp alignment cursor + (content piece.2).length) _)
    rw [hlength, ← hreplicate, append_assoc]
    refine subslice_append_iff.mpr ⟨_, hgap, subslice_append_iff.mpr ⟨_, hpiece, ?_⟩⟩
    exact ih hrest hcontent hswept

end Tight

end Tritium.Packing
