import Tritium.Entropy.Rans
import Mathlib.Algebra.Order.BigOperators.Group.Finset
import Mathlib.Algebra.Order.Floor.Semifield
import Mathlib.Data.List.GetD
import Mathlib.Data.Rat.Floor
import Mathlib.Tactic.Linarith

/-!
# Byte counts and scaled frequencies

The counts are the occurrences of every symbol. Scaling them rounds down, so the assigned sum falls
short by fewer units than there are symbols, and handing one unit each to the largest remainders
reaches the total exactly.
-/

namespace Tritium.Entropy

open List

variable {bytes : List UInt8} {position : ℕ} {counts : List ℕ}

def occurrences (bytes : List UInt8) (symbol : ℕ) : ℕ := (bytes.map UInt8.toNat).count symbol

theorem occurrences_cons (byte : UInt8) (bytes : List UInt8) (symbol : ℕ) :
    occurrences (byte :: bytes) symbol =
      occurrences bytes symbol + if byte.toNat = symbol then 1 else 0 := by
  rw [occurrences, map_cons, count_cons, occurrences]
  simp only [beq_iff_eq]

theorem occurrences_pos_iff {byte : UInt8} : 0 < occurrences bytes byte.toNat ↔ byte ∈ bytes := by
  rw [occurrences, count_pos_iff, mem_map]
  constructor
  · rintro ⟨other, _, heq⟩
    rwa [← UInt8.toNat_inj.mp heq]
  · intro hbyte
    exact ⟨byte, hbyte, rfl⟩

/-- Every byte is one of the 256 symbols, so the counts sum to the length. -/
theorem sum_occurrences (bytes : List UInt8) :
    ((range 256).map (occurrences bytes)).sum = bytes.length := by
  have hmem : ∀ symbol ∈ (↑(bytes.map UInt8.toNat) : Multiset ℕ), symbol ∈ Finset.range 256 := by
    intro symbol hsymbol
    obtain ⟨byte, _, rfl⟩ := mem_map.mp (Multiset.mem_coe.mp hsymbol)
    exact Finset.mem_range.mpr byte.toNat_lt
  have hsum := Multiset.sum_count_eq_card hmem
  rw [Multiset.coe_card, length_map] at hsum
  rw [← hsum]
  simp only [Multiset.coe_count]
  rfl

theorem set_map_range {length value : ℕ} (base : ℕ → ℕ) :
    ((range length).map base).set position value =
      (range length).map (Function.update base position value) := by
  apply ext_getElem (by simp)
  intro i _ _
  rw [getElem_set, getElem_map, getElem_map, getElem_range, Function.update_apply]
  simp only [eq_comm]

/-- A count that can be raised up to the length of the input ends at the occurrences. -/
theorem countBytes_eq {increment : ℕ → Outcome EntropyTransportError ℕ}
    (hincrement : ∀ count < bytes.length, increment count = .ok (count + 1)) :
    countBytes increment bytes = .ok ((range 256).map (occurrences bytes)) := by
  have hloop : ∀ (rest : List UInt8) (base : ℕ → ℕ),
      (∀ symbol, base symbol + rest.length ≤ bytes.length) →
        rest.foldlM (fun counts byte => do
            let count ← Outcome.index counts byte.toNat
            let count ← increment count
            setIndex counts byte.toNat count) ((range 256).map base) =
          .ok ((range 256).map fun symbol => base symbol + occurrences rest symbol) := by
    intro rest
    induction rest with
    | nil =>
      intro base _
      rfl
    | cons byte rest ih =>
      intro base hbase
      have hlength : ∀ symbol, base symbol + rest.length + 1 ≤ bytes.length := hbase
      have hcount : base byte.toNat < bytes.length := by
        have := hlength byte.toNat
        omega
      rw [foldlM_cons, index_of_lt (by simpa using byte.toNat_lt), getElem_map, getElem_range,
        ok_bind, hincrement _ hcount, ok_bind, setIndex_of_lt (by simpa using byte.toNat_lt),
        ok_bind, set_map_range, ih]
      · congr 1
        apply map_congr_left
        intro symbol _
        rw [occurrences_cons, Function.update_apply]
        by_cases heq : symbol = byte.toNat
        · rw [if_pos heq, if_pos heq.symm, heq]
          omega
        · rw [if_neg heq, if_neg (Ne.symm heq), Nat.add_zero]
      · intro symbol
        have := hlength symbol
        rw [Function.update_apply]
        split_ifs with heq
        · rw [heq] at this
          omega
        · omega
  have hzero : replicate 256 0 = (range 256).map fun _ => 0 := by
    rw [map_const', length_range]
  rw [countBytes, hzero, hloop bytes (fun _ => 0) (fun _ => by omega)]
  simp only [zero_add]

section Shares

variable (available length : ℕ) {entry : ℕ × ℕ}

def share (count : ℕ) : ℕ := available * count / length

def baseFrequency (count : ℕ) : ℕ := if count = 0 then 0 else 1 + share available length count

def remainderEntries (entries : List (ℕ × ℕ)) : List (ℕ × ℕ) :=
  (entries.filter fun entry => entry.1 ≠ 0).map fun entry => (available * entry.1 % length, entry.2)

theorem sum_baseFrequency (counts : List ℕ) :
    (counts.map (baseFrequency available length)).sum =
      counts.countP (fun count => count ≠ 0) + (counts.map (share available length)).sum := by
  induction counts with
  | nil => rfl
  | cons count counts ih =>
    rw [map_cons, sum_cons, map_cons, sum_cons, ih, countP_cons, baseFrequency]
    by_cases hcount : count = 0
    · simp [hcount, share]
    · simp only [hcount, if_false, ne_eq, not_false_eq_true, decide_true, if_true]
      omega

theorem sum_share_mul_add (counts : List ℕ) (start : ℕ) :
    length * (counts.map (share available length)).sum +
        ((remainderEntries available length (counts.zipIdx start)).map Prod.fst).sum =
      available * counts.sum := by
  induction counts generalizing start with
  | nil => rfl
  | cons count counts ih =>
    have hdiv : length * share available length count + available * count % length =
        available * count := Nat.div_add_mod _ _
    have hrest := ih (start + 1)
    rw [remainderEntries] at hrest ⊢
    rw [zipIdx_cons, map_cons, sum_cons, sum_cons, mul_add, mul_add]
    by_cases hcount : count = 0
    · rw [filter_cons_of_neg (by simp [hcount]), hcount] at *
      simp only [share, mul_zero, Nat.zero_div] at *
      omega
    · rw [filter_cons_of_pos (by simp [hcount]), map_cons, map_cons, sum_cons]
      dsimp only
      omega

theorem remainderEntries_length (counts : List ℕ) (start : ℕ) :
    (remainderEntries available length (counts.zipIdx start)).length =
      counts.countP fun count => count ≠ 0 := by
  rw [remainderEntries, length_map]
  induction counts generalizing start with
  | nil => rfl
  | cons count counts ih =>
    rw [zipIdx_cons]
    by_cases hcount : count = 0
    · rw [filter_cons_of_neg (by simp [hcount]), countP_cons_of_neg (by simp [hcount]), ih]
    · rw [filter_cons_of_pos (by simp [hcount]), countP_cons_of_pos (by simp [hcount]),
        length_cons, ih]

theorem exists_of_mem_remainderEntries
    (hentry : entry ∈ remainderEntries available length counts.zipIdx) :
    ∃ hlt : entry.2 < counts.length, counts[entry.2] ≠ 0 := by
  obtain ⟨source, hsource, rfl⟩ := mem_map.mp hentry
  obtain ⟨hmem, hnonzero⟩ := mem_filter.mp hsource
  obtain ⟨_, hlt, heq⟩ := mem_zipIdx hmem
  refine ⟨by simpa using hlt, ?_⟩
  simpa [heq] using hnonzero

theorem remainderEntries_nodup (counts : List ℕ) :
    ((remainderEntries available length counts.zipIdx).map Prod.snd).Nodup := by
  rw [remainderEntries, map_map]
  exact (filter_sublist.map Prod.snd).nodup (by simp [nodup_range'])

theorem share_le {count : ℕ} (hcount : count ≤ length) :
    share available length count ≤ available := by
  rw [share]
  exact Nat.div_le_of_le_mul (by
    rw [mul_comm length]
    exact Nat.mul_le_mul_left available hcount)

end Shares

/-- Fewer units are left over than there are symbols: each of them lost less than one. -/
theorem leftover_lt {length : ℕ} (available : ℕ) (hlength : 0 < length) (hsum : counts.sum = length)
    (hpresent : 0 < counts.countP fun count => count ≠ 0) :
    (counts.map (share available length)).sum ≤ available ∧
      available - (counts.map (share available length)).sum <
        counts.countP fun count => count ≠ 0 := by
  have hsplit := sum_share_mul_add available length counts 0
  have hbound := sum_le_card_nsmul
    ((remainderEntries available length counts.zipIdx).map Prod.fst) (length - 1) (by
      intro remainder hremainder
      obtain ⟨entry, hentry, rfl⟩ := mem_map.mp hremainder
      obtain ⟨source, _, rfl⟩ := mem_map.mp hentry
      exact Nat.le_pred_of_lt (Nat.mod_lt _ hlength))
  rw [length_map, remainderEntries_length, Nat.nsmul_eq_mul] at hbound
  rw [hsum, mul_comm available] at hsplit
  generalize (counts.map (share available length)).sum = shares at *
  generalize (counts.countP fun count => count ≠ 0) = present at *
  have hshares : shares ≤ available := by
    apply Nat.le_of_mul_le_mul_left _ hlength
    omega
  refine ⟨hshares, ?_⟩
  apply Nat.lt_of_mul_lt_mul_left (a := length)
  calc length * (available - shares) = length * available - length * shares :=
        Nat.mul_sub length available shares
    _ ≤ present * (length - 1) := by omega
    _ < present * length := Nat.mul_lt_mul_of_pos_left (by omega) hpresent
    _ = length * present := mul_comm _ _

/-- The loop over the counts writes every base frequency and keeps every remainder. -/
theorem foldlM_assign {length : ℕ} (available : ℕ) (hlength : 0 < length) (hlimit : length < 2 ^ 52)
    (havailable : available < 2 ^ 12) (rest done : List ℕ) (remainders : List (ℕ × ℕ))
    (assigned : ℕ) (hrest : ∀ count ∈ rest, count ≤ length)
    (hassigned : assigned + (rest.map (share available length)).sum < 2 ^ 64) :
    (rest.zipIdx done.length).foldlM (Apportionment.assign available length)
        { frequencies := done ++ replicate rest.length 0, remainders, assigned } = .ok {
        frequencies := done ++ rest.map (baseFrequency available length)
        remainders := remainders ++ remainderEntries available length (rest.zipIdx done.length)
        assigned := assigned + (rest.map (share available length)).sum } := by
  induction rest generalizing done remainders assigned with
  | nil =>
    simp [remainderEntries]
  | cons count rest ih =>
    obtain ⟨hcount, hrest⟩ := forall_mem_cons.mp hrest
    rw [map_cons, sum_cons] at hassigned
    have hnext := ih (done ++ [baseFrequency available length count])
      (remainders ++ remainderEntries available length [(count, done.length)])
      (assigned + share available length count) hrest (by omega)
    rw [length_append, length_singleton] at hnext
    have hstep : Apportionment.assign available length
        { frequencies := done ++ replicate (count :: rest).length 0, remainders, assigned }
        (count, done.length) = .ok {
            frequencies := done ++ [baseFrequency available length count] ++ replicate rest.length 0
            remainders := remainders ++ remainderEntries available length [(count, done.length)]
            assigned := assigned + share available length count } := by
      rw [length_cons, replicate_succ]
      by_cases hzero : count = 0
      · rw [Apportionment.assign]
        simp [hzero, baseFrequency, share, remainderEntries]
      · have hscaled : available * count < 2 ^ 64 := by
          calc available * count ≤ 2 ^ 12 * count := Nat.mul_le_mul_right _ havailable.le
            _ < 2 ^ 64 := by omega
        have hshare := share_le available length hcount
        rw [Apportionment.assign, checkedMul_of_lt hscaled, okOr_bind,
          div_of_pos hlength, ok_bind, Outcome.rem_of_pos hlength, ok_bind, ← share,
          tryInto_of_lt (by omega), okOr_bind, setIndex_of_lt (by simp), add_of_lt (by
            change assigned + share available length count < 2 ^ 64
            omega)]
        simp [hzero, baseFrequency, remainderEntries]
    rw [zipIdx_cons, foldlM_cons, hstep, ok_bind, hnext]
    have hremainders : remainderEntries available length
          ((count, done.length) :: rest.zipIdx (done.length + 1)) =
        remainderEntries available length [(count, done.length)] ++
          remainderEntries available length (rest.zipIdx (done.length + 1)) := by
      rw [remainderEntries, remainderEntries, remainderEntries, ← map_append, ← filter_append]
      rfl
    rw [hremainders]
    simp only [append_assoc, singleton_append, map_cons, sum_cons, add_assoc]

theorem sum_set {frequencies : List ℕ} (value : ℕ) (hposition : position < frequencies.length) :
    (frequencies.set position value).sum + frequencies[position] = frequencies.sum + value := by
  have hset := (set_perm_cons_eraseIdx hposition value).sum_eq
  have hsum := (getElem_cons_eraseIdx_perm hposition).sum_eq
  rw [sum_cons] at hset hsum
  omega

/-- Every leftover unit raises the frequency of the symbol it is for. -/
theorem foldlM_addLeftover (entries : List (ℕ × ℕ)) (frequencies : List ℕ)
    (hentries : ∀ entry ∈ entries, entry.2 < frequencies.length)
    (hsum : frequencies.sum + entries.length < 2 ^ 16) :
    ∃ raised, entries.foldlM addLeftover frequencies = .ok raised ∧
      raised.length = frequencies.length ∧ raised.sum = frequencies.sum + entries.length ∧
        ∀ symbol, raised.getD symbol 0 =
          frequencies.getD symbol 0 + (entries.map Prod.snd).count symbol := by
  induction entries generalizing frequencies with
  | nil => exact ⟨frequencies, rfl, rfl, rfl, fun _ => rfl⟩
  | cons entry entries ih =>
    obtain ⟨hentry, hentries⟩ := forall_mem_cons.mp hentries
    rw [length_cons] at hsum
    have hle : frequencies[entry.2] ≤ frequencies.sum := le_sum_of_mem (getElem_mem hentry)
    have hset := sum_set (frequencies[entry.2] + 1) hentry
    obtain ⟨raised, hraised, hlength, _, hvalues⟩ :=
      ih (frequencies.set entry.2 (frequencies[entry.2] + 1))
        (fun other hother => by
          rw [length_set]
          exact hentries other hother) (by omega)
    refine ⟨raised, ?_, ?_, ?_, ?_⟩
    · rw [foldlM_cons, addLeftover, index_of_lt hentry, ok_bind,
        checkedAdd_of_lt (by omega), okOr_bind, setIndex_of_lt hentry, ok_bind, hraised]
    · rw [hlength, length_set]
    · rw [length_cons]
      omega
    · intro symbol
      rw [hvalues, map_cons, count_cons, getD_eq_getElem?_getD, getD_eq_getElem?_getD, getElem?_set]
      by_cases heq : entry.2 = symbol
      · subst heq
        simp [hentry]
        omega
      · simp [heq]

/-- A scaled model: 256 frequencies that share all the slots. -/
structure FrequencyTable where
  values : List ℕ
  length_eq : values.length = 256
  sum_eq : values.sum = ransTotal

namespace FrequencyTable

variable (table : FrequencyTable)

def frequency (symbol : ℕ) : ℕ := table.values.getD symbol 0

def start (symbol : ℕ) : ℕ := (table.values.take symbol).sum

theorem getElem_eq_frequency {symbol : ℕ} (hsymbol : symbol < table.values.length) :
    table.values[symbol] = table.frequency symbol :=
  (getD_eq_getElem table.values 0 hsymbol).symm

theorem start_succ {symbol : ℕ} (hsymbol : symbol < table.values.length) :
    table.start (symbol + 1) = table.start symbol + table.frequency symbol := by
  rw [start, sum_take_succ _ _ hsymbol, table.getElem_eq_frequency hsymbol, start]

theorem start_add_frequency_le (symbol : ℕ) :
    table.start symbol + table.frequency symbol ≤ ransTotal := by
  by_cases hsymbol : symbol < table.values.length
  · rw [← table.start_succ hsymbol, start, ← table.sum_eq]
    exact (take_sublist _ _).sum_le_sum (fun _ _ => Nat.zero_le _)
  · rw [frequency, getD_eq_default _ _ (Nat.le_of_not_lt hsymbol), Nat.add_zero, start,
      take_of_length_le (Nat.le_of_not_lt hsymbol), table.sum_eq]

end FrequencyTable

def symbolCounts (bytes : List UInt8) : List ℕ := (range 256).map (occurrences bytes)

def presentCount (bytes : List UInt8) : ℕ := (symbolCounts bytes).countP fun count => count ≠ 0

/-- What the rounded down shares leave of the slots. -/
def leftoverUnits (bytes : List UInt8) : ℕ :=
  ransTotal - (presentCount bytes +
    ((symbolCounts bytes).map (share (ransTotal - presentCount bytes) bytes.length)).sum)

theorem symbolCounts_getElem (byte : UInt8) : ∃ hindex : byte.toNat < (symbolCounts bytes).length,
    (symbolCounts bytes)[byte.toNat] = occurrences bytes byte.toNat :=
  ⟨by simpa [symbolCounts] using byte.toNat_lt, by simp [symbolCounts]⟩

/-- The frequencies of a nonempty chunk form a table in which exactly the bytes that occur have
slots, each its rounded down share or one more. -/
theorem normalizedFrequencies_eq (hbytes : bytes ≠ []) (hlimit : bytes.length < 2 ^ 52) :
    ∃ table : FrequencyTable, normalizedFrequencies bytes = .ok table.values ∧
      leftoverUnits bytes < presentCount bytes ∧
      ∀ byte : UInt8, ∃ extra ≤ 1, (byte ∉ bytes → extra = 0) ∧ table.frequency byte.toNat =
        baseFrequency (ransTotal - presentCount bytes) bytes.length
          (occurrences bytes byte.toNat) + extra := by
  have hlength : 0 < bytes.length := length_pos_iff.mpr hbytes
  have hincrement : ∀ count < bytes.length,
      (okOr (checkedAdd 64 count 1) .lengthOverflow : Outcome EntropyTransportError ℕ) =
        .ok (count + 1) := by
    intro count hcount
    rw [checkedAdd_of_lt (by omega), okOr_some]
  have hcounts := countBytes_eq hincrement
  rw [← symbolCounts] at hcounts
  have hsum : (symbolCounts bytes).sum = bytes.length := sum_occurrences bytes
  have hle : ∀ count ∈ symbolCounts bytes, count ≤ bytes.length := by
    intro count hcount
    obtain ⟨symbol, _, rfl⟩ := mem_map.mp hcount
    exact count_le_length.trans_eq (length_map _)
  have hcountsLength : (symbolCounts bytes).length = 256 := by
    rw [symbolCounts, length_map, length_range]
  have hget := @symbolCounts_getElem bytes
  rw [leftoverUnits]
  generalize hpresentEq : presentCount bytes = present
  rw [presentCount] at hpresentEq
  have hpresent : 0 < present := by
    obtain ⟨byte, hbyte⟩ := exists_mem_of_ne_nil bytes hbytes
    obtain ⟨hindex, heq⟩ := hget byte
    rw [← hpresentEq]
    refine countP_pos_iff.mpr ⟨_, getElem_mem hindex, ?_⟩
    simpa [heq] using (occurrences_pos_iff.mpr hbyte).ne'
  generalize symbolCounts bytes = counts at *
  have hfew : (counts.countP fun count => count ≠ 0) ≤ 256 := by
    rw [← hcountsLength]
    exact countP_le_length
  have htotal : ransTotal = 4096 := rfl
  obtain ⟨_, _⟩ := leftover_lt (ransTotal - present) hlength hsum
    (hpresentEq ▸ hpresent)
  have hassign := foldlM_assign (ransTotal - present) hlength hlimit (by omega)
    counts [] [] present hle (by omega)
  rw [nil_append, nil_append, nil_append, hcountsLength, length_nil] at hassign
  have hbaseSum := sum_baseFrequency (ransTotal - present) bytes.length counts
  set shares := (counts.map (share (ransTotal - present) bytes.length)).sum with hsharesEq
  set remainders := remainderEntries (ransTotal - present) bytes.length counts.zipIdx
    with hremaindersEq
  set taken := (sortBy compareRemainders remainders).take (ransTotal - (present + shares))
    with htakenEq
  have hperm := sortBy_perm compareRemainders remainders
  have htake : taken.length = ransTotal - (present + shares) := by
    rw [length_take, hperm.length_eq, remainderEntries_length]
    omega
  have htaken : ∀ entry ∈ taken, ∃ hlt : entry.2 < counts.length, counts[entry.2] ≠ 0 :=
    fun entry hentry => exists_of_mem_remainderEntries _ _
      (hperm.mem_iff.mp (mem_of_mem_take hentry))
  obtain ⟨raised, hraised, hraisedLength, _, hvalues⟩ := foldlM_addLeftover taken
    (counts.map (baseFrequency (ransTotal - present) bytes.length))
    (fun entry hentry => by simpa using (htaken entry hentry).1) (by omega)
  refine ⟨⟨raised, ?_, ?_⟩, ?_, by omega, fun byte => ?_⟩
  · rw [hraisedLength, length_map, hcountsLength]
  · omega
  · rw [normalizedFrequencies, hcounts, ok_bind]
    rw [hpresentEq, if_neg (by omega), sub_of_le (by omega), ok_bind,
      tryInto_of_lt (by omega), okOr_bind, hassign, ok_bind]
    dsimp only
    rw [sub_of_le (by omega), ok_bind, hraised]
  · obtain ⟨hindex, heq⟩ := hget byte
    refine ⟨(taken.map Prod.snd).count byte.toNat, ?_,
      fun hbyte => count_eq_zero_of_not_mem fun hmem => ?_, (hvalues byte.toNat).trans ?_⟩
    · exact nodup_iff_count_le_one.mp (((take_sublist _ _).map _).nodup
        ((hperm.map _).nodup_iff.mpr (remainderEntries_nodup _ _ counts))) _
    · obtain ⟨entry, hentry, hsymbol⟩ := mem_map.mp hmem
      obtain ⟨_, hnonzero⟩ := htaken entry hentry
      simp only [hsymbol, heq] at hnonzero
      exact hbyte (occurrences_pos_iff.mp (Nat.pos_of_ne_zero hnonzero))
    · rw [getD_eq_getElem _ _ (by rwa [length_map]), getElem_map, heq]

/-- **Apportioned frequencies.** The frequencies of a nonempty chunk sum to all the slots, exactly
the bytes that occur have some, and each has its exact share up to one. Fewer slots are left over
than there are symbols, so that the pass over the remainders hands out all of them. -/
theorem normalizedFrequencies_apportions (bytes : List UInt8) (hbytes : bytes ≠ [])
    (hlimit : bytes.length < 2 ^ 52) :
    ∃ frequencies, normalizedFrequencies bytes = .ok frequencies ∧ frequencies.length = 256 ∧
      frequencies.sum = 4096 ∧ leftoverUnits bytes < presentCount bytes ∧
      ∀ byte : UInt8, (frequencies.getD byte.toNat 0 ≠ 0 ↔ byte ∈ bytes) ∧
        |(frequencies.getD byte.toNat 0 : ℚ) - (1 + ((4096 - presentCount bytes) *
          occurrences bytes byte.toNat : ℕ) / bytes.length)| ≤ 1 := by
  obtain ⟨table, hok, hleftover, hshares⟩ := normalizedFrequencies_eq hbytes hlimit
  refine ⟨table.values, hok, table.length_eq, table.sum_eq, hleftover, fun byte => ?_⟩
  obtain ⟨extra, hextra, habsent, heq⟩ := hshares byte
  rw [FrequencyTable.frequency, baseFrequency] at heq
  rw [heq]
  by_cases hbyte : byte ∈ bytes
  · have hcount := (occurrences_pos_iff.mpr hbyte).ne'
    refine ⟨iff_of_true (by simp [hcount]) hbyte, ?_⟩
    set exact : ℚ := ((4096 - presentCount bytes) * occurrences bytes byte.toNat : ℕ) /
      bytes.length
    have hfloor : ⌊exact⌋₊ = share (ransTotal - presentCount bytes) bytes.length
        (occurrences bytes byte.toNat) := Nat.floor_div_eq_div _ _
    have hlow : (⌊exact⌋₊ : ℚ) ≤ exact := Nat.floor_le (by positivity)
    have hhigh := Nat.lt_floor_add_one exact
    have hcast : (extra : ℚ) ≤ 1 := by exact_mod_cast hextra
    have hpos : (0 : ℚ) ≤ extra := extra.cast_nonneg
    rw [if_neg hcount, ← hfloor, abs_le]
    push_cast
    constructor <;> linarith
  · have hcount := Nat.eq_zero_of_not_pos (mt occurrences_pos_iff.mp hbyte)
    simp [hcount, habsent hbyte, hbyte]

theorem normalizedFrequencies_apportions_skewed : ∃ frequencies, normalizedFrequencies [7, 7, 200] =
    .ok frequencies ∧ frequencies.length = 256 ∧ frequencies.sum = 4096 := by
  obtain ⟨frequencies, hok, hlength, hsum, _⟩ := normalizedFrequencies_apportions [7, 7, 200]
    (by decide) (by decide)
  exact ⟨frequencies, hok, hlength, hsum⟩

/-- The scaled count of so many bytes of one value does not fit 64 bits. -/
theorem normalizedFrequencies_long :
    normalizedFrequencies (replicate (2 ^ 53) 0) = .err .lengthOverflow := by
  have hn : 2 ^ 53 < 2 ^ 64 ∧ 2 ^ 64 ≤ 4095 * 2 ^ 53 := by decide
  generalize 2 ^ 53 = n at hn
  have hcounts := @countBytes_eq (replicate n 0)
    (fun count => okOr (checkedAdd 64 count 1) .lengthOverflow) (fun count hcount => by
      rw [length_replicate] at hcount
      rw [checkedAdd_of_lt (by omega), okOr_some])
  have hsymbols : ∀ rest, (range (rest + 1)).map (occurrences (replicate n 0)) =
      n :: replicate rest 0 := fun rest => by
    rw [range_succ_eq_map]
    simp [occurrences, Function.comp_def, count_replicate]
  have hpresent : ∀ rest, (n :: replicate rest 0).countP (fun count => count ≠ 0) = 1 :=
    fun rest => by
      rw [countP_cons_of_pos (by simp; omega)]
      simp [countP_replicate]
  rw [normalizedFrequencies, hcounts, ok_bind, hsymbols, hpresent, if_neg (by decide), zipIdx_cons,
    sub_of_le (by decide), ok_bind, length_replicate, tryInto_of_lt hn.1, okOr_bind, foldlM_cons,
    Apportionment.assign]
  dsimp only
  rw [if_neg (by omega), checkedMul, if_neg (show ¬ (ransTotal - 1) * n < 2 ^ 64 from not_lt.mpr hn.2)]
  rfl

end Tritium.Entropy
