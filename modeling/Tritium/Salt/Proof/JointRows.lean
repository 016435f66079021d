import Tritium.Salt.JointBundle
import Tritium.Salt.Proof.JointTable
import Tritium.Salt.Proof.Tq2

/-!
# Rows of a joint bundle

What the writer takes out of a row is all of it: the symbols and the raw scales pack back into the
same bytes. Every step of the writer is matched with the step of the reader that undoes it, wherever
the scales of the step lie among the scales of the tensor.
-/

namespace Tritium.Salt

open List

variable {k row planes position : ℕ} {name : String} {plane scales : List UInt8}
  {rows : List SaltRow} {parts : List (List ℕ × List UInt8)}

section Planes

variable {ι : Type} {state : List (List ℤ) × List UInt8} {done : List (List ℤ)} {front : List ℤ}

/-- A row of the given width, so far. -/
def padTo (k : ℕ) (front : List ℤ) : List ℤ :=
  front.take k ++ replicate (k - front.length) 0

theorem padTo_length (k : ℕ) (front : List ℤ) : (padTo k front).length = k := by
  rw [padTo, length_append, length_take, length_replicate]
  omega

theorem padTo_set (hroom : front.length < k) (digit : ℤ) :
    (padTo k front).set front.length digit = padTo k (front ++ [digit]) := by
  obtain ⟨room, hroomEq⟩ : ∃ room, k - front.length = room + 1 := ⟨k - front.length - 1, by omega⟩
  have hnext : k - (front ++ [digit]).length = room := by
    rw [length_append, length_singleton]
    omega
  rw [padTo, padTo, hroomEq, hnext, take_of_length_le hroom.le,
    take_of_length_le (by rw [length_append, length_singleton]; omega),
    set_append_right _ _ le_rfl, Nat.sub_self, append_assoc]
  rfl

theorem padTo_of_le (hfull : k ≤ front.length) (more : List ℤ) :
    padTo k (front ++ more) = padTo k front := by
  rw [padTo, padTo, take_append_of_le_length hfull, Nat.sub_eq_zero_of_le hfull,
    Nat.sub_eq_zero_of_le (by rw [length_append]; omega)]

/-- Trits behind the width of the row are padding. -/
def ZeroFrom (k : ℕ) (trits : List Trit) : Prop :=
  ∀ (position : ℕ) (trit : Trit), k ≤ position → trits[position]? = some trit → trit = .zero

theorem foldlM_placeTrit (front trits : List Trit) (hfront : ZeroFrom k front) {digits : List ℤ}
    (hfold : trits.zipIdx.foldlM (placeTrit name row k front.length)
      (padTo k (front.map Trit.get)) = (.ok digits : Outcome (JointBundleError ι) (List ℤ))) :
    digits = padTo k ((front ++ trits).map Trit.get) ∧ ZeroFrom k (front ++ trits) := by
  induction trits using reverseRecOn generalizing digits with
  | nil =>
    obtain rfl := ok.inj hfold
    rw [append_nil]
    exact ⟨rfl, hfront⟩
  | append_singleton trits trit ih =>
    rw [zipIdx_append, zero_add] at hfold
    obtain ⟨placed, hplaced, hstep⟩ := foldlM_concat_eq_ok hfold
    obtain ⟨hplacedEq, hzero⟩ := ih hplaced
    have hlength : ((front ++ trits).map Trit.get).length = front.length + trits.length := by
      simp
    have hmap : (front ++ (trits ++ [trit])).map Trit.get =
        (front ++ trits).map Trit.get ++ [trit.get] := by
      simp
    rw [placeTrit, hplacedEq] at hstep
    rw [hmap]
    have hnewZero : (k ≤ front.length + trits.length → trit = .zero) →
        ZeroFrom k (front ++ (trits ++ [trit])) := by
      intro hpadding position other hposition hget
      rw [← append_assoc] at hget
      by_cases hinside : position < (front ++ trits).length
      · rw [getElem?_append_left hinside] at hget
        exact hzero position other hposition hget
      · obtain ⟨hbound, -⟩ := List.getElem?_eq_some_iff.mp hget
        rw [List.length_append, List.length_singleton] at hbound
        have hlast : position = (front ++ trits).length := by omega
        rw [hlast, getElem?_concat_length, Option.some.injEq] at hget
        rw [← hget]
        apply hpadding
        rw [← length_append, ← hlast]
        exact hposition
    by_cases hroom : front.length + trits.length < k
    · rw [if_pos hroom, setIndex_of_lt (by rwa [padTo_length])] at hstep
      refine ⟨?_, hnewZero fun hfull => absurd hroom (not_lt.mpr hfull)⟩
      rw [← ok.inj hstep, ← hlength, padTo_set (by rwa [hlength])]
    · rw [if_neg hroom] at hstep
      obtain ⟨hpadding, hsame⟩ := refuse_eq_ok hstep
      refine ⟨?_, hnewZero fun _ => not_not.mp hpadding⟩
      rw [padTo_of_le (by rw [hlength]; exact not_lt.mp hroom), ← ok.inj hsame]

theorem tritAt_padTo {trits : List Trit} {trit : Trit} (hzero : ZeroFrom k trits)
    (htrit : trits[position]? = some trit) :
    (tritAt (padTo k (trits.map Trit.get)) position : Outcome (JointBundleError ι) Trit) =
      .ok trit := by
  have hinside := (List.getElem?_eq_some_iff.mp htrit).1
  rw [tritAt]
  by_cases hposition : position < k
  · have hget : (padTo k (trits.map Trit.get))[position]? = some trit.get := by
      rw [padTo, getElem?_append_left (by rw [length_take, length_map]; omega),
        getElem?_take_of_lt hposition, getElem?_map, htrit, Option.map_some]
    rw [hget]
    dsimp only
    rw [Trit.fromI8_get, mapErr_ok]
  · have hget : (padTo k (trits.map Trit.get))[position]? = none := by
      rw [getElem?_eq_none_iff, padTo_length]
      omega
    rw [hget, hzero position trit (not_lt.mp hposition) htrit]

theorem extractBlock_eq_ok {block : ℕ}
    {front : List Trit} (hfront : ZeroFrom k front) (hlength : front.length = block * qkK)
    {state : List ℤ × List UInt8}
    (hextract : extractBlock name row k plane (padTo k (front.map Trit.get), scales) block =
      (.ok state : Outcome (JointBundleError ι) _)) :
    ∃ trits low high bytes,
      state = (padTo k ((front ++ trits).map Trit.get), scales ++ [low, high]) ∧
        trits.length = qkK ∧ ZeroFrom k (front ++ trits) ∧
        subslice plane (block * tq20BlockBytes) ((block + 1) * tq20BlockBytes) = some bytes ∧
        packTq20Block trits (ofLeBytes [low, high]) (replicate tq20BlockBytes 0) = .ok bytes := by
  rw [extractBlock] at hextract
  obtain ⟨bytes, hbytes, hrest⟩ := bind_eq_ok hextract
  obtain ⟨⟨trits, scale⟩, hunpack, hrest⟩ := bind_eq_ok hrest
  obtain ⟨digits, hdigits, hrest⟩ := bind_eq_ok hrest
  obtain ⟨raw, hraw, hresult⟩ := bind_eq_ok hrest
  obtain ⟨hblock, htrits, rfl, hpack⟩ := packTq20Block_of_unpack (mapErr_eq_ok_iff.mp hunpack)
    (@length_replicate _ tq20BlockBytes 0)
  rw [← hlength] at hdigits
  obtain ⟨rfl, hzero⟩ := foldlM_placeTrit front trits hfront hdigits
  obtain ⟨_, _, hrawEq⟩ := subslice_eq_some_iff.mp (slice_eq_ok_iff.mp hraw)
  rw [take_length] at hrawEq
  have hrawLength : raw.length = 2 := by
    rw [hrawEq, length_drop, hblock]
    rfl
  obtain ⟨low, high, rfl⟩ := length_eq_two.mp hrawLength
  refine ⟨trits, low, high, bytes, (ok.inj hresult).symm, htrits, hzero,
    slice_eq_ok_iff.mp hbytes, ?_⟩
  rw [hrawEq]
  exact hpack

/-- The blocks of a plane pack back from its digits and from the scales taken out of it. -/
theorem foldlM_extractBlock (count : ℕ) {state : List ℤ × List UInt8}
    (hextract : (range count).foldlM (extractBlock name row k plane)
      (replicate k 0, scales) = (.ok state : Outcome (JointBundleError ι) _)) :
    ∃ trits raw, state = (padTo k (trits.map Trit.get), scales ++ raw) ∧
      trits.length = count * qkK ∧ raw.length = count * 2 ∧ ZeroFrom k trits ∧
      ∀ final, trits <+: final → ZeroFrom k final → ∀ all start,
        subslice all start (start + raw.length) = some raw →
        (range count).foldlM (packBlock all (padTo k (final.map Trit.get))) ([], start) =
          (.ok (plane.take (count * tq20BlockBytes), start + raw.length) :
            Outcome (JointBundleError ι) _) := by
  induction count generalizing state with
  | zero =>
    obtain rfl := ok.inj hextract
    refine ⟨[], [], ?_, ?_, rfl, ?_, ?_⟩
    · simp [padTo]
    · rw [zero_mul, length_nil]
    · intro position trit _ htrit
      simp at htrit
    · intro final _ _ all start _
      rfl
  | succ count ih =>
    rw [range_succ] at hextract
    obtain ⟨middle, hmiddle, hnext⟩ := foldlM_concat_eq_ok hextract
    obtain ⟨front, raw, rfl, hfrontLength, hrawLength, hfrontZero, hpacks⟩ := ih hmiddle
    obtain ⟨trits, low, high, bytes, rfl, htrits, hzero, hbytes, hpack⟩ :=
      extractBlock_eq_ok hfrontZero hfrontLength hnext
    refine ⟨front ++ trits, raw ++ [low, high], ?_, ?_, ?_, hzero, ?_⟩
    · rw [append_assoc]
    · rw [length_append, hfrontLength, htrits, Nat.succ_mul]
    · rw [length_append, hrawLength, Nat.succ_mul]
      rfl
    · intro final hfinal hfinalZero all start hall
      rw [length_append] at hall ⊢
      obtain ⟨hbefore, hscale⟩ := subslice_append_iff_of_length.mp hall
      have hpacked := hpacks final ((prefix_append _ _).trans hfinal) hfinalZero all start
        hbefore
      have hread : (range qkK).mapM (fun position =>
          (tritAt (padTo k (final.map Trit.get)) (count * qkK + position) :
            Outcome (JointBundleError ι) Trit)) = .ok trits := by
        rw [mapM_eq_ok_iff, forall₂_iff_get]
        refine ⟨by rw [length_range, htrits], fun position hposition hinside => ?_⟩
        rw [get_eq_getElem, getElem_range, get_eq_getElem]
        apply tritAt_padTo hfinalZero
        obtain ⟨rest, rfl⟩ := hfinal
        rw [append_assoc, getElem?_append_right (by omega), hfrontLength,
          Nat.add_sub_cancel_left, getElem?_append_left hinside, getElem?_eq_getElem hinside]
      have hlow : all[start + raw.length]? = some low :=
        @getElem?_of_subslice _ _ _ _ _ 0 hscale Nat.two_pos
      have hhigh : all[start + raw.length + 1]? = some high :=
        @getElem?_of_subslice _ _ _ _ _ 1 hscale Nat.one_lt_two
      have hplane : plane.take ((count + 1) * tq20BlockBytes) =
          plane.take (count * tq20BlockBytes) ++ bytes := by
        obtain ⟨hle, _, rfl⟩ := subslice_eq_some_iff.mp hbytes
        have hsplit := take_append_drop (count * tq20BlockBytes)
          (plane.take ((count + 1) * tq20BlockBytes))
        rw [take_take, min_eq_left hle] at hsplit
        exact hsplit.symm
      rw [range_succ, foldlM_append, hpacked, ok_bind, foldlM_cons,
        packBlock, hread, ok_bind, index_eq_ok_iff.mpr hlow, ok_bind,
        index_eq_ok_iff.mpr hhigh, ok_bind, hpack, hplane]
      rfl

/-- The plane packs back from its digits and its scales. -/
theorem extractPlane_eq_ok (hextract : extractPlane name row k (done, scales) plane =
      (.ok state : Outcome (JointBundleError ι) _)) :
    ∃ digits raw, state = (done ++ [digits], scales ++ raw) ∧ digits.length = k ∧
      raw.length = numBlocks k * 2 ∧
      ∀ out all start, subslice all start (start + raw.length) = some raw →
        packPlane k all (out, start) digits =
          (.ok (out ++ [plane], start + raw.length) : Outcome (JointBundleError ι) _) := by
  rw [extractPlane] at hextract
  obtain ⟨hlength, hextract⟩ := refuse_eq_ok hextract
  obtain ⟨⟨digits, after⟩, hblocks, hresult⟩ := bind_eq_ok hextract
  obtain ⟨trits, raw, hstate, _, hraw, hzero, hpacks⟩ := foldlM_extractBlock _ hblocks
  obtain ⟨rfl, rfl⟩ := Prod.mk.inj hstate
  refine ⟨_, raw, (ok.inj hresult).symm, padTo_length _ _, hraw, ?_⟩
  intro out all start hall
  rw [packPlane, hpacks trits prefix_rfl hzero all start hall, ← not_not.mp hlength, take_length]
  rfl

theorem foldlM_extractPlane (planes : List (List UInt8))
    (hextract : planes.foldlM (extractPlane name row k) (done, scales) =
      (.ok state : Outcome (JointBundleError ι) _)) :
    ∃ digits raw, state = (done ++ digits, scales ++ raw) ∧ digits.length = planes.length ∧
      raw.length = planes.length * (numBlocks k * 2) ∧ (∀ plane ∈ digits, plane.length = k) ∧
      ∀ out all start, subslice all start (start + raw.length) = some raw →
        digits.foldlM (packPlane k all) (out, start) =
          (.ok (out ++ planes, start + raw.length) : Outcome (JointBundleError ι) _) := by
  induction planes generalizing done scales with
  | nil =>
    obtain rfl := ok.inj hextract
    refine ⟨[], [], by rw [append_nil, append_nil], rfl, ?_, ?_, ?_⟩
    · simp
    · simp
    · intro out all start _
      rw [append_nil]
      rfl
  | cons plane planes ih =>
    obtain ⟨middle, hfirst, hrest⟩ := foldlM_cons_eq_ok hextract
    obtain ⟨digits, raw, rfl, hdigits, hraw, hpackFirst⟩ := extractPlane_eq_ok hfirst
    obtain ⟨others, raws, rfl, hcount, hraws, hothers, hpackRest⟩ := ih hrest
    refine ⟨digits :: others, raw ++ raws, ?_, ?_, ?_, forall_mem_cons.mpr ⟨hdigits, hothers⟩, ?_⟩
    · simp
    · simp [hcount]
    · rw [length_append, hraw, hraws, length_cons, Nat.succ_mul, add_comm]
    · intro out all start hall
      rw [length_append, ← add_assoc] at hall ⊢
      obtain ⟨hbefore, hafter⟩ := subslice_append_iff_of_length.mp hall
      rw [foldlM_cons, hpackFirst out all start hbefore, ok_bind,
        hpackRest _ all _ hafter, append_assoc, singleton_append]

end Planes

theorem foldlM_jointDigit (planes : List (List ℤ)) {symbol : ℕ}
    (hsymbol : planes.foldlM (jointDigit position) 0 = .ok symbol) :
    symbol < 3 ^ planes.length ∧
      symbolTrits planes.length symbol = planes.map fun plane => plane.getD position 0 := by
  induction planes using reverseRecOn generalizing symbol with
  | nil =>
    obtain rfl := ok.inj hsymbol
    exact ⟨one_pos, rfl⟩
  | append_singleton planes plane ih =>
    obtain ⟨high, hhigh, hdigit⟩ := foldlM_concat_eq_ok hsymbol
    obtain ⟨_, _⟩ := ih hhigh
    rw [jointDigit] at hdigit
    obtain ⟨trit, htrit, hdigit⟩ := bind_eq_ok hdigit
    obtain ⟨_, hvalue⟩ := refuse_eq_ok hdigit
    have hget : plane.getD position 0 = trit := by
      simp [index_eq_ok_iff.mp htrit]
    obtain ⟨digit, hdigitEq⟩ := Int.eq_ofNat_of_zero_le (by omega : 0 ≤ trit + 1)
    rw [hdigitEq] at hvalue
    have hsymbolEq : high * 3 + digit = symbol := ok.inj hvalue
    have hdiv : symbol / 3 = high := by omega
    have hmod : symbol % 3 = digit := by omega
    rw [length_append, length_singleton]
    refine ⟨by rw [pow_succ]; omega, ?_⟩
    rw [symbolTrits, hdiv, map_append, map_singleton]
    congr 2
    omega

theorem jointSymbols_eq_ok {planes : List (List ℤ)} {symbols : List ℕ}
    (hsymbols : jointSymbols planes = .ok symbols) :
    (1 ≤ planes.length ∧ planes.length ≤ maxJointPlanes) ∧
      (∀ plane ∈ planes, plane.length = symbols.length) ∧
      planesFromSymbols symbols planes.length = .ok planes := by
  rw [jointSymbols] at hsymbols
  obtain ⟨size, hsize, hrest⟩ := bind_eq_ok hsymbols
  obtain ⟨hcount, rfl⟩ := alphabet_eq_ok_iff.mp hsize
  obtain ⟨first, _, hrest⟩ := bind_eq_ok hrest
  rw [refuse_eq_ok_iff] at hrest
  obtain ⟨hshape, hmap⟩ := hrest
  have hpointwise := mapM_eq_ok_iff.mp hmap
  have hlength : symbols.length = first.length := by
    rw [← hpointwise.length_eq, length_range]
  have hplanes : ∀ plane ∈ planes, plane.length = symbols.length := by
    intro plane hplane
    rw [hlength]
    by_contra hne
    exact hshape (any_eq_true.mpr ⟨plane, hplane, decide_eq_true hne⟩)
  have heach : ∀ (position : ℕ) (hposition : position < symbols.length),
      symbols[position] < 3 ^ planes.length ∧ symbolTrits planes.length symbols[position] =
          planes.map fun plane => plane.getD position 0 := by
    intro position hposition
    have hfound := (forall₂_iff_get.mp hpointwise).2 position
      (by rwa [length_range, ← hlength]) hposition
    rw [get_eq_getElem, getElem_range, get_eq_getElem] at hfound
    obtain ⟨symbol, hsymbol, hvalue⟩ := bind_eq_ok hfound
    obtain ⟨hbound, htrits⟩ := foldlM_jointDigit planes hsymbol
    have hsmall : symbol < 2 ^ 16 := hbound.trans_le ((three_pow_le hcount.2).trans (by decide))
    rw [pure_eq_ok, ok.injEq, Nat.mod_eq_of_lt hsmall] at hvalue
    rw [← hvalue]
    exact ⟨hbound, htrits⟩
  refine ⟨hcount, hplanes, ?_⟩
  have hcolumns : symbols.mapM (fun symbol => if 3 ^ planes.length ≤ symbol then
      (.err (.symbolOutOfRange symbol (3 ^ planes.length)) : Outcome JointCodeError (List ℤ))
      else .ok (symbolTrits planes.length symbol)) =
        .ok (symbols.map (symbolTrits planes.length)) := by
    apply mapM_of_forall_mem
    intro symbol hsymbol
    obtain ⟨position, hposition, rfl⟩ := getElem_of_mem hsymbol
    exact if_neg (not_le.mpr (heach position hposition).1)
  rw [planesFromSymbols, alphabet_eq_ok_iff.mpr ⟨hcount, rfl⟩, ok_bind, hcolumns, ok_bind]
  congr 1
  apply ext_getElem
  · rw [length_map, length_range]
  · intro plane hleft hright
    rw [getElem_map, getElem_range]
    apply ext_getElem
    · simp [hplanes _ (getElem_mem hright)]
    · intro position hcolumn hinside
      rw [length_map, length_map] at hcolumn
      rw [getElem_map, getElem_map, (heach position hcolumn).2,
        getD_eq_getElem _ _ (by rwa [length_map]), getElem_map, getD_eq_getElem _ _ hinside]

section Rows

variable {ι : Type}

/-- The row packs back from its symbols and its scales, wherever those lie. -/
structure RowParts (ι : Type) (planes : ℕ) (row : SaltRow) (symbols : List ℕ)
    (raw : List UInt8) : Prop where
  planes_eq : row.planes.length = planes
  supported : 1 ≤ planes ∧ planes ≤ maxJointPlanes
  symbols_length : symbols.length = row.k
  raw_length : raw.length = numBlocks row.k * (planes * 2)
  packs : ∃ digits, planesFromSymbols symbols planes = .ok digits ∧
    ∀ all start, subslice all start (start + raw.length) = some raw →
      digits.foldlM (packPlane row.k all) ([], start) =
        (.ok (row.planes, start + raw.length) : Outcome (JointBundleError ι) _)

theorem extractRow_eq_ok {state next : Extracted} {entry : SaltRow × ℕ}
    (hextract : extractRow name planes state entry = (.ok next : Outcome (JointBundleError ι) _)) :
    ∃ symbols raw, next = ⟨state.symbols ++ symbols, state.scales ++ raw⟩ ∧
      RowParts ι planes entry.1 symbols raw := by
  rw [extractRow] at hextract
  obtain ⟨hplanes, hextract⟩ := refuse_eq_ok hextract
  obtain ⟨⟨digits, scales⟩, hdigits, hrest⟩ := bind_eq_ok hextract
  obtain ⟨symbols, hsymbols, hresult⟩ := bind_eq_ok hrest
  obtain ⟨found, raw, hstate, hcount, hraw, hwidth, hpacks⟩ := foldlM_extractPlane _ hdigits
  obtain ⟨rfl, rfl⟩ := Prod.mk.inj hstate
  obtain ⟨hsupported, hlengths, hunfold⟩ := jointSymbols_eq_ok (mapErr_eq_ok_iff.mp hsymbols)
  have hplanesEq := not_not.mp hplanes
  rw [hcount, hplanesEq] at hsupported hunfold
  refine ⟨symbols, raw, (ok.inj hresult).symm, hplanesEq, hsupported, ?_, ?_,
    digits, hunfold, fun all start hall => hpacks [] all start hall⟩
  · -- there is a plane, and it has one digit for each symbol
    obtain ⟨plane, hplane⟩ := exists_mem_of_length_pos (by omega : 0 < digits.length)
    rw [← hlengths plane hplane, hwidth plane hplane]
  · rw [hraw, hplanesEq, ← mul_assoc, mul_comm planes, mul_assoc]

def TensorParts (ι : Type) (planes : ℕ) (rows : List SaltRow)
    (parts : List (List ℕ × List UInt8)) : Prop :=
  Forall₂ (fun row part => RowParts ι planes row part.1 part.2) rows parts

theorem TensorParts.planes_eq (hparts : TensorParts ι planes rows parts) {row : SaltRow}
    (hrow : row ∈ rows) : row.planes.length = planes := by
  obtain ⟨position, hposition, rfl⟩ := getElem_of_mem hrow
  have hinside : position < parts.length := by rwa [← hparts.length_eq]
  exact ((forall₂_iff_get.mp hparts).2 position hposition hinside).planes_eq

theorem foldlM_extractRow (rows : List SaltRow) (first : ℕ) {state next : Extracted}
    (hextract : (rows.zipIdx first).foldlM (extractRow name planes) state =
      (.ok next : Outcome (JointBundleError ι) _)) :
    ∃ parts, TensorParts ι planes rows parts ∧
      next = ⟨state.symbols ++ parts.flatMap Prod.fst, state.scales ++ parts.flatMap Prod.snd⟩ := by
  induction rows generalizing first state with
  | nil =>
    obtain rfl := ok.inj hextract
    refine ⟨[], .nil, ?_⟩
    simp
  | cons row rows ih =>
    obtain ⟨middle, hfirst, hrest⟩ := bind_eq_ok hextract
    obtain ⟨symbols, raw, rfl, hrow⟩ := extractRow_eq_ok hfirst
    obtain ⟨parts, hparts, rfl⟩ := ih _ hrest
    refine ⟨(symbols, raw) :: parts, .cons hrow hparts, ?_⟩
    simp

/-- The rows of a tensor pack back one after the other. -/
theorem foldlM_packRow {info : JointTensorInfo} (hparts : TensorParts ι planes rows parts)
    (hwidth : ∀ row ∈ rows, row.k = info.k) (count : ℕ) (hcount : count ≤ rows.length) :
    (range count).foldlM
        (packRow info planes (parts.flatMap Prod.snd) (parts.flatMap Prod.fst)) ([], 0) =
      (.ok (rows.take count, ((parts.take count).flatMap Prod.snd).length) :
        Outcome (JointBundleError ι) _) := by
  induction count with
  | zero =>
    rfl
  | succ count ih =>
    have hinside : count < rows.length := hcount
    have hinsideParts : count < parts.length := by rwa [← hparts.length_eq]
    have hrow : RowParts ι planes rows[count] parts[count].1 parts[count].2 :=
      (forall₂_iff_get.mp hparts).2 count hinside hinsideParts
    have hk : rows[count].k = info.k := hwidth _ (getElem_mem hinside)
    have hpartWidth : ∀ part ∈ parts, part.1.length = info.k := by
      intro part hpart
      obtain ⟨row, hmem, hparted⟩ := exists_mem_of_forall₂ hparts hpart
      rw [hparted.symbols_length, hwidth row hmem]
    have hsymbols := subslice_flatMap Prod.fst hinsideParts
    rw [length_flatMap_const _ fun part hpart => hpartWidth part (mem_of_mem_take hpart),
      length_take, min_eq_left hinsideParts.le, hpartWidth _ (getElem_mem hinsideParts),
      ← Nat.succ_mul] at hsymbols
    have hscales := subslice_flatMap Prod.snd hinsideParts
    obtain ⟨digits, hunfold, hpacks⟩ := hrow.packs
    have hpacked := hpacks _ _ hscales
    rw [hk] at hpacked
    rw [range_succ, foldlM_append, ih hinside.le, ok_bind, foldlM_cons,
      packRow, slice_eq_ok_iff.mpr hsymbols, ok_bind, hunfold, mapErr_ok,
      ok_bind, hpacked, length_flatMap_take_succ Prod.snd hinsideParts,
      take_succ_eq_append_getElem hinside, ← hk]
    rfl

end Rows

end Tritium.Salt
