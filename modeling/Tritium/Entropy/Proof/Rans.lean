import Tritium.Entropy.Proof.Frequencies
import Tritium.Lib.Rans

/-!
# The rANS round trip

The encoder keeps its state in `[2 ^ 23, 2 ^ 31)`. Taking a symbol out of the state it was put into
restores the state before the put, and reading the drained bytes back restores the state before the
drain, so the decoder walks the encoder's states backwards.
-/

namespace Tritium.Entropy

open List

variable {position symbol state : ℕ} {ε : Type} {payload bytes : List UInt8} {frequencies : List ℕ}

/-! ### Running sums and slot owners -/

def runningSums : ℕ → List ℕ → List ℕ
  | _, [] => []
  | total, frequency :: rest => total :: runningSums (total + frequency) rest

theorem runningSums_append (total : ℕ) (frequencies : List ℕ) (last : ℕ) :
    runningSums total (frequencies ++ [last]) =
      runningSums total frequencies ++ [total + frequencies.sum] := by
  induction frequencies generalizing total with
  | nil => rfl
  | cons frequency rest ih =>
    rw [cons_append, runningSums, ih, sum_cons, ← add_assoc]
    rfl

theorem runningSums_getElem? (total : ℕ) (frequencies : List ℕ)
    (hposition : position < frequencies.length) :
    (runningSums total frequencies)[position]? = some (total + (frequencies.take position).sum) := by
  induction frequencies generalizing total position with
  | nil => exact absurd hposition (Nat.not_lt_zero _)
  | cons frequency rest ih =>
    cases position with
    | zero => rfl
    | succ position =>
      rw [runningSums, getElem?_cons_succ, ih _ (Nat.lt_of_succ_lt_succ hposition),
        take_succ_cons, sum_cons, add_assoc]

/-- The owner of every slot, when the symbols from `symbol` on take their slots in turn. -/
def slotOwners : ℕ → List ℕ → List ℕ
  | _, [] => []
  | symbol, frequency :: rest => replicate frequency symbol ++ slotOwners (symbol + 1) rest

theorem slotOwners_append (symbol : ℕ) (frequencies : List ℕ) (last : ℕ) :
    slotOwners symbol (frequencies ++ [last]) =
      slotOwners symbol frequencies ++ replicate last (symbol + frequencies.length) := by
  induction frequencies generalizing symbol with
  | nil =>
    simp [slotOwners]
  | cons frequency rest ih =>
    rw [cons_append, slotOwners, slotOwners, ih, append_assoc, length_cons]
    congr 3
    omega

theorem slotOwners_length (symbol : ℕ) (frequencies : List ℕ) :
    (slotOwners symbol frequencies).length = frequencies.sum := by
  induction frequencies generalizing symbol with
  | nil => rfl
  | cons frequency rest ih =>
    simp [slotOwners, ih]

theorem lt_of_mem_slotOwners {owner : ℕ} (howner : owner ∈ slotOwners symbol frequencies) :
    owner < symbol + frequencies.length := by
  induction frequencies generalizing symbol with
  | nil => cases howner
  | cons frequency rest ih =>
    rw [length_cons]
    obtain hfirst | hrest := mem_append.mp howner
    · have heq := eq_of_mem_replicate hfirst
      omega
    · have hlt := ih hrest
      omega

theorem slotOwners_getElem? (symbol : ℕ) (frequencies : List ℕ) {slot : ℕ}
    (hposition : position < frequencies.length) (hslot : slot < frequencies[position]) :
    (slotOwners symbol frequencies)[slot + (frequencies.take position).sum]? =
      some (symbol + position) := by
  induction frequencies generalizing symbol position with
  | nil => exact absurd hposition (Nat.not_lt_zero _)
  | cons frequency rest ih =>
    cases position with
    | zero =>
      rw [getElem_cons_zero] at hslot
      have hlt : slot < (replicate frequency symbol).length := by
        rwa [length_replicate]
      rw [take_zero, sum_nil, slotOwners, add_zero symbol, add_zero slot,
        getElem?_append_left hlt, getElem?_replicate_of_lt hslot]
    | succ position =>
      have hrest := ih (symbol + 1) (Nat.lt_of_succ_lt_succ hposition) hslot
      rw [take_succ_cons, sum_cons, slotOwners, getElem?_append_right (by
          rw [length_replicate]
          omega), length_replicate]
      have hsub : slot + (frequency + (rest.take position).sum) - frequency =
          slot + (rest.take position).sum := by omega
      rw [hsub, hrest]
      congr 1
      omega

namespace FrequencyTable

variable (table : FrequencyTable)

def ransTable : RansTable where
  frequencies := table.values
  cumulative := runningSums 0 table.values
  lookup := slotOwners 0 table.values
  total := ransTotal

theorem index_values (hsymbol : symbol < 256) :
    (Outcome.index table.values symbol : Outcome ε ℕ) = .ok (table.frequency symbol) := by
  have hlt : symbol < table.values.length := by rwa [table.length_eq]
  rw [index_of_lt hlt, table.getElem_eq_frequency hlt]

theorem index_cumulative (hsymbol : symbol < 256) :
    (Outcome.index (runningSums 0 table.values) symbol : Outcome ε ℕ) =
      .ok (table.start symbol) := by
  have hlt : symbol < table.values.length := by rwa [table.length_eq]
  rw [Outcome.index, runningSums_getElem? 0 _ hlt, expect_some, zero_add, start]

theorem index_lookup {slot : ℕ} (hsymbol : symbol < 256) (hslot : slot < table.frequency symbol) :
    (Outcome.index (slotOwners 0 table.values) (slot + table.start symbol) : Outcome ε ℕ) =
      .ok symbol := by
  have hlt : symbol < table.values.length := by rwa [table.length_eq]
  have howner := slotOwners_getElem? 0 table.values hlt (by
    rwa [table.getElem_eq_frequency hlt])
  rw [Outcome.index, start, howner, expect_some, zero_add]

end FrequencyTable

theorem fillSlots_eq (filled : List ℕ) (symbol frequency unowned : ℕ)
    (hfits : frequency ≤ unowned) :
    fillSlots (filled ++ replicate unowned unownedSlot) symbol filled.length
        (filled.length + frequency) = .ok (filled ++ replicate frequency symbol ++
        replicate (unowned - frequency) unownedSlot) := by
  rw [fillSlots, Nat.add_sub_cancel_left]
  induction frequency generalizing filled unowned with
  | zero =>
    simp
  | succ frequency ih =>
    obtain ⟨rest, rfl⟩ : ∃ rest, unowned = rest + 1 := ⟨unowned - 1, by omega⟩
    have hset : (filled ++ replicate (rest + 1) unownedSlot).set filled.length symbol =
        filled ++ [symbol] ++ replicate rest unownedSlot := by
      rw [set_append_right _ _ (le_refl _), Nat.sub_self, append_assoc]
      rfl
    have hnext := ih (filled ++ [symbol]) rest (by omega)
    rw [length_append, length_singleton] at hnext
    rw [range'_succ, foldlM_cons, setIndex_of_lt (by simp), ok_bind,
      hset, hnext, replicate_succ, Nat.add_sub_add_right]
    simp

def frequencyAt (payload : List UInt8) (symbol : ℕ) : ℕ :=
  ofLeBytes [payload.getD (symbol * 2) 0, payload.getD (symbol * 2 + 1) 0]

theorem index_getD {α : Type} {items : List α} (fallback : α)
    (hposition : position < items.length) :
    (Outcome.index items position : Outcome ε α) = .ok (items.getD position fallback) := by
  rw [index_of_lt hposition, getD_eq_getElem _ _ hposition]

def partialTable (done : List ℕ) : RansTable where
  frequencies := done
  cumulative := runningSums 0 done
  lookup := slotOwners 0 done ++ replicate (ransTotal - done.sum) unownedSlot
  total := done.sum

section

variable (hpayload : ransModelBytes ≤ payload.length)

include hpayload

theorem readSymbol_partialTable {done : List ℕ} (hdone : done.length < 256)
    (hfits : done.sum + frequencyAt payload done.length ≤ ransTotal) :
    RansTable.readSymbol payload (partialTable done) done.length =
      .ok (partialTable (done ++ [frequencyAt payload done.length])) := by
  have hmodel : ransModelBytes = 512 := rfl
  have htotal : ransTotal = 4096 := rfl
  have hfill := fillSlots_eq (slotOwners 0 done) done.length (frequencyAt payload done.length)
    (ransTotal - done.sum) (by omega)
  rw [slotOwners_length] at hfill
  rw [RansTable.readSymbol, index_getD 0 (by omega), ok_bind, index_getD 0 (by omega),
    ok_bind, ← frequencyAt]
  dsimp only [partialTable]
  rw [checkedAdd_of_lt (by omega), okOr_bind, if_neg (by omega), hfill, ok_bind, pure_eq_ok]
  simp only [runningSums_append, slotOwners_append, sum_append, sum_singleton,
    zero_add, Nat.sub_sub]

theorem foldlM_readSymbol (rest done : List ℕ) (hlength : done.length + rest.length = 256)
    (hrest : rest = (range' done.length rest.length).map (frequencyAt payload))
    (hsum : done.sum + rest.sum ≤ ransTotal) :
    (range' done.length rest.length).foldlM (RansTable.readSymbol payload)
        (partialTable done) = .ok (partialTable (done ++ rest)) := by
  induction rest generalizing done with
  | nil => rw [append_nil]; rfl
  | cons frequency rest ih =>
    rw [length_cons, range'_succ, map_cons, cons.injEq] at hrest
    rw [length_cons] at hlength
    rw [sum_cons] at hsum
    have hstep := readSymbol_partialTable hpayload (by omega : done.length < 256) (by
      omega)
    have hnext := ih (done ++ [frequency]) (by
      rw [length_append, length_singleton]
      omega) (by
      rw [length_append]
      exact hrest.2) (by
      rw [sum_append, sum_singleton]
      omega)
    rw [length_append, length_singleton, append_assoc] at hnext
    rw [length_cons, range'_succ, foldlM_cons, hstep, ok_bind, ← hrest.1, hnext]
    rfl

/-- A payload that starts with the frequencies of a table is read as that table. -/
theorem readRansTable_eq (table : FrequencyTable)
    (htable : table.values = (range 256).map (frequencyAt payload)) :
    readRansTable payload = .ok table.ransTable := by
  have hloop := foldlM_readSymbol hpayload table.values [] (by
    rw [table.length_eq]
    rfl) (by
    rw [table.length_eq, length_nil, ← range_eq_range']
    exact htable) (by
    rw [table.sum_eq]
    exact le_rfl)
  rw [table.length_eq, length_nil, ← range_eq_range', nil_append] at hloop
  have hdone : partialTable table.values = table.ransTable := by
    rw [partialTable, FrequencyTable.ransTable, table.sum_eq, Nat.sub_self, replicate_zero,
      append_nil]
  have hunowned : unownedSlot ∉ table.ransTable.lookup := by
    intro hmem
    have hlt := lt_of_mem_slotOwners hmem
    rw [table.length_eq] at hlt
    exact absurd hlt (by decide)
  have hempty : (⟨[], [], replicate ransTotal unownedSlot, 0⟩ : RansTable) = partialTable [] := by
    rfl
  have haccepted : ¬(table.ransTable.total ≠ ransTotal ∨ unownedSlot ∈ table.ransTable.lookup) :=
    not_or.mpr ⟨not_not.mpr rfl, hunowned⟩
  rw [readRansTable, hempty, hloop, ok_bind, hdone, if_neg haccepted, pure_eq_ok]

end

/-- The states between two symbols: large enough to hold a symbol, small enough for a `u32`. -/
def InRange (state : ℕ) : Prop := ransLowerBound ≤ state ∧ state < 2 ^ 31

theorem refill_of_le (hstate : ransLowerBound ≤ state) (stream : List UInt8) :
    refill state stream = .ok (state, stream) := by
  cases stream with
  | nil => rw [refill, if_neg (Nat.not_lt.mpr hstate)]
  | cons byte stream => rw [refill, if_neg (Nat.not_lt.mpr hstate)]

/-- Reading the low byte of a state back into what the shift left of it. -/
theorem refill_shift (hstate : state < 2 ^ 31) (stream : List UInt8) :
    refill (state >>> 8) (UInt8.ofNat state :: stream) = refill state stream := by
  have hbound : ransLowerBound = 2 ^ 23 := rfl
  have hlow : (UInt8.ofNat state).toNat = state % 2 ^ 8 := UInt8.toNat_ofNat'
  have hjoin : (state >>> 8 <<< 8) % 2 ^ 32 ||| state % 2 ^ 8 = state := by
    have hmod : (state >>> 8 <<< 8) % 2 ^ 32 = state >>> 8 <<< 8 := by
      apply Nat.mod_eq_of_lt
      omega
    rw [hmod, ← Nat.shiftLeft_add_eq_or_of_lt (Nat.mod_lt _ (by decide))]
    omega
  rw [refill, if_pos (by rw [Nat.shiftRight_eq_div_pow]; omega), hlow, hjoin]

/-- The drain stops below the maximum, and the bytes it moved restore the state. -/
theorem drain_eq {maximum unit : ℕ} (hmaximum : maximum = unit * 2 ^ 8) (turns state : ℕ)
    (renormalized : List UInt8) (hturns : state < maximum * 256 ^ turns) (hstate : state < 2 ^ 31)
    (hunit : unit ≤ state) :
    ∃ moved drained, drain maximum (turns + 1) state renormalized =
        .ok (drained, renormalized ++ moved) ∧ unit ≤ drained ∧ drained < maximum ∧
        ∀ stream, refill drained (moved.reverse ++ stream) = refill state stream := by
  induction turns generalizing state renormalized with
  | zero =>
    rw [pow_zero, mul_one] at hturns
    refine ⟨[], state, ?_, hunit, hturns, fun stream => rfl⟩
    rw [drain, if_neg (not_le.mpr hturns), append_nil]
  | succ turns ih =>
    by_cases hdrains : maximum ≤ state
    · have hshift : state >>> 8 = state / 2 ^ 8 := Nat.shiftRight_eq_div_pow state 8
      have hless : state >>> 8 < maximum * 256 ^ turns := by
        rw [hshift]
        apply Nat.div_lt_of_lt_mul
        calc state < maximum * 256 ^ (turns + 1) := hturns
          _ = 2 ^ 8 * (maximum * 256 ^ turns) := by ring
      have hunit' : unit ≤ state >>> 8 := by omega
      obtain ⟨moved, drained, hdrain, hlow, hhigh, hrefill⟩ :=
        ih (state >>> 8) (renormalized ++ [UInt8.ofNat state]) hless (by omega) hunit'
      refine ⟨UInt8.ofNat state :: moved, drained, ?_, hlow, hhigh, fun stream => ?_⟩
      · rw [drain, if_pos hdrains, hdrain, append_assoc]
        rfl
      · rw [reverse_cons, append_assoc, hrefill]
        exact refill_shift hstate stream
    · refine ⟨[], state, ?_, hunit, Nat.lt_of_not_le hdrains, fun stream => rfl⟩
      rw [drain, if_neg hdrains, append_nil]

section Symbol

variable (table : FrequencyTable)

/-- Taking a symbol out of the state it was put into restores the state before. -/
theorem takeSymbol_put {byte : UInt8} (state : ℕ) (hfrequency : 0 < table.frequency byte.toNat)
    (hput : Rans.put ransTotal (table.frequency byte.toNat) (table.start byte.toNat) state < 2 ^ 31)
    (stream : List UInt8) :
    takeSymbol table.ransTable
        (Rans.put ransTotal (table.frequency byte.toNat) (table.start byte.toNat) state) stream =
      (do
        let (state, stream) ← refill state stream
        return (byte, state, stream)) := by
  have hfits := table.start_add_frequency_le byte.toNat
  have hslot := Rans.put_mod (x := state) hfrequency hfits
  have hquotient := Rans.put_div (x := state) hfrequency hfits
  have hrestore := Rans.get_put (x := state) hfrequency hfits
  have hlookup := table.index_lookup (ε := EntropyTransportError) byte.toNat_lt
    (Nat.mod_lt state hfrequency)
  have htotal : ransTotal = 2 ^ 12 := rfl
  generalize Rans.put ransTotal (table.frequency byte.toNat) (table.start byte.toNat) state = coded
    at *
  rw [Rans.get, hslot, hquotient] at hrestore
  have hmask : coded &&& (ransTotal - 1) = state % table.frequency byte.toNat +
      table.start byte.toNat := by
    rw [← hslot, htotal, Nat.and_two_pow_sub_one_eq_mod]
  have hshift : coded >>> ransScaleBits = state / table.frequency byte.toNat := by
    rw [← hquotient, Nat.shiftRight_eq_div_pow]
    rfl
  have hproduct : table.frequency byte.toNat * (state / table.frequency byte.toNat) ≤ coded := by
    calc table.frequency byte.toNat * (state / table.frequency byte.toNat)
        ≤ ransTotal * (coded / ransTotal) := by
          rw [hquotient]
          exact Nat.mul_le_mul_right _ ((Nat.le_add_left _ _).trans
            (table.start_add_frequency_le byte.toNat))
      _ ≤ coded := Nat.mul_div_le coded ransTotal
  have hremainder := Nat.mod_lt state hfrequency
  rw [takeSymbol, hmask, hshift]
  dsimp only [FrequencyTable.ransTable]
  rw [hlookup, ok_bind, table.index_values byte.toNat_lt, ok_bind,
    if_neg hfrequency.ne', mul_of_lt (by omega), ok_bind,
    add_of_lt (by omega), ok_bind, table.index_cumulative byte.toNat_lt,
    ok_bind, sub_of_le (by omega), ok_bind, hrestore, UInt8.ofNat_toNat]

/-- One step of the encoder keeps its state in range, and the decoder's step undoes it. -/
theorem putSymbol_step {byte : UInt8} (renormalized : List UInt8)
    (hfrequency : 0 < table.frequency byte.toNat) (hstate : InRange state) :
    ∃ next moved, putSymbol table.values (runningSums 0 table.values) (state, renormalized) byte =
        .ok (next, renormalized ++ moved) ∧ InRange next ∧
        ∀ stream, takeSymbol table.ransTable next (moved.reverse ++ stream) =
          .ok (byte, state, stream) := by
  obtain ⟨hlow, hhigh⟩ := hstate
  have hbound : ransLowerBound = 2 ^ 23 := rfl
  have htotal : ransTotal = 2 ^ 12 := rfl
  have hfits := table.start_add_frequency_le byte.toNat
  have hindex := table.index_values (ε := EntropyTransportError) byte.toNat_lt
  have hstart := table.index_cumulative (ε := EntropyTransportError) byte.toNat_lt
  have htake := fun (drained : ℕ) => takeSymbol_put table drained hfrequency
  generalize table.frequency byte.toNat = frequency at *
  generalize table.start byte.toNat = start at *
  have hmaximum : (ransLowerBound >>> ransScaleBits) <<< 8 = 2 ^ 19 := rfl
  obtain ⟨moved, drained, hdrain, hdrainedLow, hdrainedHigh, hrefill⟩ :=
    drain_eq (by ring : 2 ^ 19 * frequency = 2 ^ 11 * frequency * 2 ^ 8) 4 state renormalized
      (by omega) hhigh (by omega)
  have hputLow : ransLowerBound ≤ Rans.put ransTotal frequency start drained := by
    have hle : 2 ^ 11 * ransTotal ≤ Rans.put ransTotal frequency start drained :=
      Rans.le_put (2 ^ 11) hfrequency hdrainedLow
    omega
  have hputHigh : Rans.put ransTotal frequency start drained < 2 ^ 31 := by
    have hlt := Rans.put_lt hfrequency hfits (2 ^ 19) hdrainedHigh
    omega
  refine ⟨Rans.put ransTotal frequency start drained, moved, ?_, ⟨hputLow, hputHigh⟩, ?_⟩
  · have hshift : (drained / frequency) <<< ransScaleBits = drained / frequency * ransTotal := by
      rw [Nat.shiftLeft_eq]
      rfl
    rw [Rans.put] at hputHigh ⊢
    rw [putSymbol, hindex, ok_bind, hmaximum, checkedMul_of_lt (by omega),
      okOr_bind, hdrain, ok_bind]
    dsimp only
    rw [div_of_pos hfrequency, ok_bind, Outcome.rem_of_pos hfrequency,
      ok_bind, hstart, ok_bind, hshift, Nat.mod_eq_of_lt (by omega),
      add_of_lt (by omega), ok_bind, add_of_lt (by omega), ok_bind, pure_eq_ok]
  · intro stream
    rw [htake drained hputHigh, hrefill, refill_of_le hlow]
    rfl

end Symbol

/-- Decoding from the encoder's final state returns the bytes, and gives back the state and the
stream the encoder started from. -/
theorem foldlM_putSymbol (table : FrequencyTable) (bytes : List UInt8)
    (hbytes : ∀ byte ∈ bytes, 0 < table.frequency byte.toNat) :
    ∃ state renormalized,
      bytes.reverse.foldlM (putSymbol table.values (runningSums 0 table.values))
          (ransLowerBound, []) = .ok (state, renormalized) ∧ InRange state ∧
          ∀ stream, takeSymbols table.ransTable bytes.length state
            (renormalized.reverse ++ stream) = .ok (bytes, ransLowerBound, stream) := by
  induction bytes with
  | nil => exact ⟨ransLowerBound, [], rfl, ⟨le_rfl, by decide⟩, fun stream => rfl⟩
  | cons byte rest ih =>
    obtain ⟨hbyte, hrest⟩ := forall_mem_cons.mp hbytes
    obtain ⟨state, renormalized, hfold, hstate, htake⟩ := ih hrest
    obtain ⟨next, moved, hput, hnext, hundo⟩ := putSymbol_step table renormalized hbyte hstate
    refine ⟨next, renormalized ++ moved, ?_, hnext, fun stream => ?_⟩
    · rw [reverse_cons, foldlM_append, hfold, ok_bind, foldlM_cons, hput,
        ok_bind, foldlM_nil, pure_eq_ok]
    · rw [length_cons, takeSymbols, reverse_append, append_assoc, hundo, ok_bind]
      dsimp only
      rw [htake, ok_bind, pure_eq_ok]

theorem cumulativeFrequencies_eq (hsum : frequencies.sum < 2 ^ 32) :
    cumulativeFrequencies frequencies = .ok (runningSums 0 frequencies, frequencies.sum) := by
  have hloop : ∀ (rest sums : List ℕ) (total : ℕ), total + rest.sum < 2 ^ 32 →
      rest.foldlM (fun (current : List ℕ × ℕ) frequency => do
          let total ← okOr (checkedAdd 32 current.2 frequency)
            EntropyTransportError.lengthOverflow
          return (current.1 ++ [current.2], total)) (sums, total) =
        .ok (sums ++ runningSums total rest, total + rest.sum) := by
    intro rest
    induction rest with
    | nil =>
      intro sums total _
      rw [runningSums, append_nil]
      rfl
    | cons frequency rest ih =>
      intro sums total htotal
      rw [sum_cons] at htotal
      rw [foldlM_cons, checkedAdd_of_lt (by omega), okOr_bind,
        pure_eq_ok, ok_bind, ih _ _ (by omega), append_assoc, sum_cons, ← add_assoc]
      rfl
  rw [cumulativeFrequencies, hloop frequencies [] 0 (by omega), nil_append, zero_add]

theorem frequencyAt_flatMap (frequencies : List ℕ) (tail : List UInt8)
    (hfrequencies : ∀ frequency ∈ frequencies, frequency < 2 ^ 16) :
    (range frequencies.length).map
        (frequencyAt (frequencies.flatMap (leBytes 2) ++ tail)) = frequencies := by
  induction frequencies with
  | nil => rfl
  | cons frequency rest ih =>
    obtain ⟨hfrequency, hrest⟩ := forall_mem_cons.mp hfrequencies
    have hpair : leBytes 2 frequency = [UInt8.ofNat frequency, UInt8.ofNat (frequency / 256)] := rfl
    rw [length_cons, range_succ_eq_map, map_cons, map_map]
    congr 1
    · have hread := ofLeBytes_leBytes 2 hfrequency
      rwa [hpair] at hread
    · apply Eq.trans _ (ih hrest)
      apply map_congr_left
      intro symbol _
      rw [Function.comp_apply, frequencyAt, Nat.succ_mul]
      rfl

theorem decodeRans_of_le (hpayload : ransModelBytes + 4 ≤ payload.length) (expectedLen : ℕ) :
    decodeRans payload expectedLen = (do
      let table ← readRansTable payload
      if ofLeBytes ((payload.take (ransModelBytes + 4)).drop ransModelBytes) < ransLowerBound then
        .err .invalidRansStream
      else do
        let (decoded, state, stream) ← takeSymbols table expectedLen
          (ofLeBytes ((payload.take (ransModelBytes + 4)).drop ransModelBytes))
          (payload.drop (ransModelBytes + 4))
        if stream ≠ [] ∨ state ≠ ransLowerBound then
          .err .invalidRansStream
        else
          return decoded) := by
  rw [decodeRans, if_neg (Nat.not_lt.mpr hpayload)]
  simp [slice_of_le (Nat.le_add_right _ _) hpayload, slice_of_le hpayload le_rfl, ok_bind]

/-- What the encoder writes, and what the decoder makes of it. -/
theorem encodeRans_eq (hbytes : bytes ≠ []) (hlimit : bytes.length < 2 ^ 52) :
    ∃ (table : FrequencyTable) (payload : List UInt8), encodeRans bytes = .ok payload ∧
      decodeRans payload bytes.length = .ok bytes ∧ readRansTable payload = .ok table.ransTable ∧
      takeSymbols table.ransTable bytes.length
          (ofLeBytes ((payload.take (ransModelBytes + 4)).drop ransModelBytes))
          (payload.drop (ransModelBytes + 4)) = .ok (bytes, ransLowerBound, []) := by
  obtain ⟨table, hfrequencies, _, hshares⟩ := normalizedFrequencies_eq hbytes hlimit
  have hpositive : ∀ byte ∈ bytes, 0 < table.frequency byte.toNat := by
    intro byte hbyte
    obtain ⟨extra, _, _, heq⟩ := hshares byte
    rw [heq, baseFrequency, if_neg (occurrences_pos_iff.mpr hbyte).ne']
    omega
  obtain ⟨state, renormalized, hfold, hstate, htake⟩ := foldlM_putSymbol table bytes hpositive
  have htotal : ransTotal = 4096 := rfl
  have hvalues : ∀ frequency ∈ table.values, frequency < 2 ^ 16 := by
    intro frequency hfrequency
    have hle := le_sum_of_mem hfrequency
    rw [table.sum_eq] at hle
    omega
  have hmodelLength : (table.values.flatMap (leBytes 2)).length = ransModelBytes := by
    rw [length_flatMap]
    simp only [leBytes_length, map_const', sum_replicate, table.length_eq]
    rfl
  have hstateBytes : ofLeBytes (leBytes 4 state) = state := by
    apply ofLeBytes_leBytes
    have hlt := hstate.2
    omega
  obtain ⟨_, hstateField, hstreamField, hlong⟩ := parts_of_append _ (leBytes 4 state)
    renormalized.reverse hmodelLength rfl
  rw [leBytes_length] at hstateField hstreamField hlong
  have htable : readRansTable (table.values.flatMap (leBytes 2) ++ leBytes 4 state ++
      renormalized.reverse) = .ok table.ransTable := by
    apply readRansTable_eq (by omega)
    have hread := frequencyAt_flatMap table.values (leBytes 4 state ++ renormalized.reverse) hvalues
    rw [table.length_eq, ← append_assoc] at hread
    exact hread.symm
  have hall := htake []
  rw [append_nil] at hall
  refine ⟨table, table.values.flatMap (leBytes 2) ++ leBytes 4 state ++ renormalized.reverse, ?_, ?_,
    htable, ?_⟩
  · rw [encodeRans, hfrequencies, ok_bind, cumulativeFrequencies_eq (by
      rw [table.sum_eq]
      omega), ok_bind]
    dsimp only
    rw [if_neg (not_not.mpr table.sum_eq), hfold, ok_bind, pure_eq_ok]
  · rw [decodeRans_of_le hlong, htable, ok_bind, hstateField, hstreamField, hstateBytes,
      if_neg (Nat.not_lt.mpr hstate.1), hall]
    rfl
  · rwa [hstateField, hstreamField, hstateBytes]

theorem decodeRans_encodeRans (hbytes : bytes ≠ []) (hlimit : bytes.length < 2 ^ 52) :
    ∃ payload, encodeRans bytes = .ok payload ∧ decodeRans payload bytes.length = .ok bytes := by
  obtain ⟨_, payload, hencode, hdecode, _⟩ := encodeRans_eq hbytes hlimit
  exact ⟨payload, hencode, hdecode⟩

/-- **rANS round trip.** Every nonempty chunk is encoded, and decoding the payload at the chunk's
length returns the chunk. The decoder's table is accepted, its walk ends at the encoder's initial
state, and it leaves no byte of the stream unread. -/
theorem encodeRans_roundTrip (bytes : List UInt8) (hbytes : bytes ≠ [])
    (hlimit : bytes.length < 2 ^ 52) :
    ∃ payload, encodeRans bytes = .ok payload ∧ decodeRans payload bytes.length = .ok bytes ∧
      ∃ table, readRansTable payload = .ok table ∧ takeSymbols table bytes.length
            (ofLeBytes ((payload.take (ransModelBytes + 4)).drop ransModelBytes))
            (payload.drop (ransModelBytes + 4)) = .ok (bytes, ransLowerBound, []) := by
  obtain ⟨table, payload, hencode, hdecode, htable, htake⟩ := encodeRans_eq hbytes hlimit
  exact ⟨payload, hencode, hdecode, table.ransTable, htable, htake⟩

theorem encodeRans_roundTrip_skewed :
    ∃ payload, encodeRans [7, 7, 7, 200] = .ok payload ∧ decodeRans payload 4 = .ok [7, 7, 7, 200] ∧
        ∃ table, readRansTable payload = .ok table ∧ takeSymbols table 4
              (ofLeBytes ((payload.take (ransModelBytes + 4)).drop ransModelBytes))
              (payload.drop (ransModelBytes + 4)) = .ok ([7, 7, 7, 200], ransLowerBound, []) :=
  encodeRans_roundTrip [7, 7, 7, 200] (by decide) (by decide)

end Tritium.Entropy
