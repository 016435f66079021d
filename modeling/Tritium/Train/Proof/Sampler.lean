import Tritium.Train.Sampler
import Mathlib.Data.List.Flatten
import Mathlib.Data.List.GetD
import Mathlib.Data.List.Nodup

/-!
# Epochs are covered once and resumed exactly

A rank reads the shuffled order at its own positions, and the ranks are the residues of the
positions. What a sampler still gives is a function of its cursor alone: the memoised order is
always that of the epoch it is kept for.
-/

namespace Tritium.Train.DataSampler

open List Outcome

section Reached

variable (nSamples nRanks rank : ℕ) (dropLast : Bool)

/-- The samplers of one rank, whatever was read from them and whatever cursors they were set to. -/
inductive Reached : DataSampler → Prop
  | new {seed self} : DataSampler.new nSamples nRanks rank dropLast seed = .ok self → Reached self
  | next {self value after} : Reached self → self.nextIndex = .ok (value, after) → Reached after
  | setCursor {self} (cursor : Cursor) : Reached self → cursor.epoch < 2 ^ 64 →
      Reached (self.setCursor cursor)

end Reached

theorem swapDrawn_perm {nSamples : ℕ} (hi : i < nSamples) (state : UInt64 × Array ℕ)
    (hstate : state.2.toList.Perm (range nSamples)) :
    ∃ next, swapDrawn state i = .ok next ∧ next.2.toList.Perm (range nSamples) := by
  have hsize : state.2.size = nSamples := by simpa using hstate.length_eq
  have hj : (nextDraw state.1).toNat % (i + 1) < i + 1 := Nat.mod_lt _ i.succ_pos
  have hinside : i < state.2.size ∧ (nextDraw state.1).toNat % (i + 1) < state.2.size := by omega
  rw [swapDrawn, dif_pos hinside]
  exact ⟨_, rfl, (Array.swap_perm hinside.1 hinside.2).toList.trans hstate⟩

/-- The shuffled orders of all epochs. -/
def Orders (nSamples : ℕ) (order : UInt64 → ℕ → List ℕ) : Prop :=
  ∀ seed epoch, (order seed epoch).Perm (range nSamples) ∧ ∀ self : DataSampler,
    self.nSamples = nSamples → self.cursor.seed = seed →
      self.epochPermutation epoch = .ok (order seed epoch)

/-- The memoised order is that of the epoch it is kept for. -/
structure Coherent (order : UInt64 → ℕ → List ℕ) (sampler : DataSampler) : Prop where
  rank_lt : sampler.rank < sampler.nRanks
  epoch_lt : sampler.cursor.epoch < 2 ^ 64
  cache : ∀ entry ∈ sampler.cache, entry.2.2 = order entry.1 entry.2.1

theorem exists_orders (nSamples : ℕ) : ∃ order, Orders nSamples order := by
  have hitems : ∀ i ∈ (range' 1 (nSamples - 1)).reverse, i < nSamples := by
    intro i hi
    have := mem_range'_1.mp (mem_reverse.mp hi)
    omega
  choose result hresult hperm using fun seed epoch => exists_foldlM
    (fun state hstate i hi => swapDrawn_perm (hitems i hi) state hstate)
    (by rw [Array.toList_range] :
      (epochSeed seed (.ofNat epoch) ||| 1, Array.range nSamples).2.toList.Perm (range nSamples))
  refine ⟨fun seed epoch => (result seed epoch).2.toList, fun seed epoch => ⟨hperm seed epoch, ?_⟩⟩
  rintro self rfl rfl
  rw [epochPermutation, hresult]
  rfl

/-- Where a rank reads the order of an epoch. -/
def positions (self : DataSampler) : List ℕ :=
  (range self.samplesPerEpoch).map (self.rank + · * self.nRanks)

/-- What it finds there. -/
def share (order : UInt64 → ℕ → List ℕ) (self : DataSampler) (seed : UInt64) (epoch : ℕ) : List ℕ :=
  self.positions.map ((order seed epoch).getD · 0)

def allPositions (self : DataSampler) : List ℕ :=
  (range self.nRanks).flatMap fun rank => { self with rank }.positions

variable {self after : DataSampler} {order : UInt64 → ℕ → List ℕ} {i epoch : ℕ} {seed : UInt64}
  (hself : Coherent order self) (horder : Orders self.nSamples order)

section Share

variable (hranks : 0 < self.nRanks)

theorem lt_samplesPerEpoch_iff (self : DataSampler) (hranks : 0 < self.nRanks) :
    i < self.samplesPerEpoch ↔ if self.dropLast then (i + 1) * self.nRanks ≤ self.nSamples
      else self.rank + i * self.nRanks < self.nSamples := by
  rw [samplesPerEpoch]
  split
  · rw [← Nat.succ_le_iff, Nat.le_div_iff_mul_le hranks]
  · split
    · omega
    · rw [← Nat.succ_le_iff, Nat.le_div_iff_mul_le hranks, Nat.succ_mul]
      omega

theorem position_lt (self : DataSampler) (hrank : self.rank < self.nRanks)
    (hi : i < self.samplesPerEpoch) : self.rank + i * self.nRanks < self.nSamples := by
  have hlt := (lt_samplesPerEpoch_iff self (by omega)).mp hi
  split at hlt
  · rw [Nat.succ_mul] at hlt
    omega
  · exact hlt

theorem lt_of_mem_allPositions :
    ∀ position ∈ self.allPositions, position ∈ range self.nSamples := by
  simp only [allPositions, mem_flatMap, positions, mem_map, mem_range]
  rintro _ ⟨rank, hrank, i, hi, rfl⟩
  exact position_lt { self with rank } hrank hi

include hranks

theorem nodup_allPositions : self.allPositions.Nodup := by
  rw [allPositions, nodup_flatMap]
  constructor
  · intro rank _
    refine nodup_range.map fun first second heq => ?_
    exact Nat.eq_of_mul_eq_mul_right hranks (Nat.add_left_cancel heq)
  · refine nodup_range.imp_of_mem fun hfirst hsecond hne position hleft hright => hne ?_
    obtain ⟨i, _, rfl⟩ := mem_map.mp hleft
    obtain ⟨j, _, heq⟩ := mem_map.mp hright
    have hmod := congrArg (· % self.nRanks) heq.symm
    simpa [Nat.mod_eq_of_lt (mem_range.mp hfirst), Nat.mod_eq_of_lt (mem_range.mp hsecond)]
      using hmod

theorem allPositions_perm (hkeep : self.dropLast = false) :
    self.allPositions.Perm (range self.nSamples) := by
  rw [perm_ext_iff_of_nodup (nodup_allPositions hranks) nodup_range]
  refine fun position => ⟨lt_of_mem_allPositions position, fun hlt => ?_⟩
  -- The rank that reads a position is its residue, and the quotient says when.
  have hsplit := Nat.mod_add_div' position self.nRanks
  refine mem_flatMap.mpr ⟨_, mem_range.mpr (Nat.mod_lt position hranks),
    mem_map.mpr ⟨position / self.nRanks, mem_range.mpr ?_, hsplit⟩⟩
  refine (lt_samplesPerEpoch_iff { self with rank := position % self.nRanks } hranks).mpr ?_
  rw [if_neg (by simpa using hkeep), hsplit]
  exact mem_range.mp hlt

include horder

/-- The ranks divide every epoch among themselves. -/
theorem share_cover (seed : UInt64) (epoch : ℕ) :
    let all := (range self.nRanks).flatMap (share order { self with rank := · } seed epoch)
    all.Nodup ∧ (∀ index ∈ all, index < self.nSamples) ∧
      (self.dropLast = false → all.Perm (range self.nSamples)) ∧
      (self.dropLast = true → all.length = self.nRanks * (self.nSamples / self.nRanks) ∧
        ∀ rank, (share order { self with rank } seed epoch).length =
          self.nSamples / self.nRanks) := by
  intro all
  have hperm := (horder seed epoch).1
  have hall : all = self.allPositions.map ((order seed epoch).getD · 0) := map_flatMap.symm
  have hmap : (range self.nSamples).map ((order seed epoch).getD · 0) = order seed epoch := by
    have hlength : (order seed epoch).length = self.nSamples := by simpa using hperm.length_eq
    exact ext_getElem (by simp [hlength]) fun i _ hi => by simp [hi]
  refine ⟨?_, ?_, fun hkeep => ?_, fun hdrop => ?_⟩
  · rw [hall]
    have hnodup := hperm.nodup_iff.mpr nodup_range
    rw [← hmap] at hnodup
    exact (nodup_allPositions hranks).map_on fun first hfirst second hsecond =>
      inj_on_of_nodup_map hnodup (lt_of_mem_allPositions _ hfirst)
        (lt_of_mem_allPositions _ hsecond)
  · rw [hall, forall_mem_map]
    intro position hposition
    have hmem := mem_map_of_mem (f := ((order seed epoch).getD · 0))
      (lt_of_mem_allPositions _ hposition)
    rw [hmap] at hmem
    exact mem_range.mp (hperm.subset hmem)
  · rw [hall]
    refine ((allPositions_perm hranks hkeep).map _).trans ?_
    rwa [hmap]
  · have heach rank :
        (share order { self with rank } seed epoch).length = self.nSamples / self.nRanks := by
      simp [share, positions, samplesPerEpoch, hdrop]
    exact ⟨by simp [all, length_flatMap, heach], heach⟩

end Share

/-- What the next calls give: the rest of the epoch, then the epochs that the counter can name. -/
def ahead (indices : UInt64 → ℕ → List ℕ) (cursor : Cursor) : List ℕ :=
  (indices cursor.seed cursor.epoch).drop cursor.consumed ++
    (range' (cursor.epoch + 1) (2 ^ 64 - (cursor.epoch + 1))).flatMap (indices cursor.seed)

/-- The next calls give what lies ahead of the cursor; a rank without samples gives nothing. -/
def Gives (indices : UInt64 → ℕ → List ℕ) (cursor : Cursor) (self : DataSampler) : Prop :=
  ∀ count, (self.samplesPerEpoch = 0 → nextMany count self = .ok (replicate count none, self)) ∧
    (self.samplesPerEpoch ≠ 0 → count ≤ (ahead indices cursor).length →
      ∃ after, nextMany count self = .ok (((ahead indices cursor).take count).map some, after))

section Roll

variable {cursor : Cursor}

include hself in
theorem Coherent.rolled (hcursor : self.rolledCursor = .ok cursor) :
    Coherent order (self.setCursor cursor) := by
  refine ⟨hself.rank_lt, ?_, hself.cache⟩
  rw [rolledCursor] at hcursor
  split_ifs at hcursor
  · obtain ⟨epoch, hadd, hcursor⟩ := bind_eq_ok hcursor
    cases hcursor
    obtain ⟨hlt, rfl⟩ := add_eq_ok_iff.mp hadd
    exact hlt
  · cases hcursor
    exact hself.epoch_lt

theorem rolledCursor_of_ahead {value : ℕ} {rest : List ℕ} (hcount : self.samplesPerEpoch ≠ 0)
    (hahead : ahead (share order self) self.cursor = value :: rest) :
    ∃ cursor, self.rolledCursor = .ok cursor ∧ cursor.consumed < self.samplesPerEpoch ∧
      ahead (share order self) cursor = value :: rest := by
  rw [rolledCursor]
  split_ifs with hend
  · rw [ahead, drop_eq_nil_of_le (by simpa [share, positions] using hend)] at hahead
    cases hleft : 2 ^ 64 - (self.cursor.epoch + 1) with
    | zero =>
      rw [hleft] at hahead
      cases hahead
    | succ left =>
      rw [hleft] at hahead
      rw [add_of_lt (by omega)]
      refine ⟨_, rfl, Nat.pos_of_ne_zero hcount, ?_⟩
      rw [ahead, show 2 ^ 64 - (self.cursor.epoch + 1 + 1) = left by omega]
      exact hahead
  · exact ⟨_, rfl, by omega, hahead⟩

end Roll

include horder

theorem index_order (hrank : self.rank < self.nRanks) (hi : i < self.samplesPerEpoch) :
    (index (order seed epoch) (self.rank + i * self.nRanks) : Outcome Empty ℕ) =
      .ok ((order seed epoch).getD (self.rank + i * self.nRanks) 0) := by
  have hlt := position_lt self hrank hi
  rw [← length_range (n := self.nSamples), ← (horder seed epoch).1.length_eq] at hlt
  rw [index_of_lt hlt, getD_eq_getElem _ _ hlt]

theorem epochIndices_eq (hrank : self.rank < self.nRanks) (epoch : ℕ) :
    self.epochIndices epoch = .ok (share order self self.cursor.seed epoch) := by
  rw [epochIndices, (horder _ epoch).2 self rfl rfl, share, positions, map_map]
  exact mapM_of_forall_mem fun i hi => index_order horder hrank (mem_range.mp hi)

include hself

theorem memoised_eq : self.memoised = .ok (order self.cursor.seed self.cursor.epoch) := by
  have hfresh := (horder _ self.cursor.epoch).2 self rfl rfl
  rw [memoised]
  split
  case h_1 seed epoch perm hcache =>
    split_ifs with hsame
    · rw [← hsame.1, ← hsame.2]
      exact congrArg ok (hself.cache _ hcache)
    · exact hfresh
  case h_2 => exact hfresh

theorem coherent_nextIndex {value : Option ℕ} (hnext : self.nextIndex = .ok (value, after)) :
    ∃ cursor cache, after = { self with cursor, cache } ∧ Coherent order after := by
  rw [nextIndex] at hnext
  split_ifs at hnext
  · cases hnext
    exact ⟨_, _, rfl, hself⟩
  · obtain ⟨cursor, hcursor, hnext⟩ := bind_eq_ok hnext
    obtain ⟨perm, hperm, hnext⟩ := bind_eq_ok hnext
    obtain ⟨idx, -, hnext⟩ := bind_eq_ok hnext
    cases hnext
    have hset := hself.rolled hcursor
    refine ⟨_, _, rfl, hset.rank_lt, hset.epoch_lt, ?_⟩
    rintro _ ⟨⟩
    exact ok.inj (hperm.symm.trans (memoised_eq hset horder))

/-- One call gives the first of the indices ahead and leaves the others ahead. -/
theorem nextIndex_of_ahead {value : ℕ} {rest : List ℕ} (hcount : self.samplesPerEpoch ≠ 0)
    (hahead : ahead (share order self) self.cursor = value :: rest) :
    ∃ cursor cache, self.nextIndex = .ok (some value, { self with cursor, cache }) ∧
      ahead (share order self) cursor = rest := by
  obtain ⟨cursor, hcursor, hlt, hahead⟩ := rolledCursor_of_ahead hcount hahead
  have hset := hself.rolled hcursor
  rw [ahead, drop_eq_getElem_cons (by simpa [share, positions] using hlt), cons_append,
    cons_eq_cons] at hahead
  rw [nextIndex, if_neg hcount, hcursor, ok_bind, memoised_eq hset horder, ok_bind,
    index_order horder hself.rank_lt hlt]
  refine ⟨_, _, congrArg (fun value => ok (some value, _)) ?_, hahead.2⟩
  rw [← hahead.1]
  simp [share, positions, setCursor]

theorem nextMany_of_ahead (hcount : self.samplesPerEpoch ≠ 0) (count : ℕ)
    (hle : count ≤ (ahead (share order self) self.cursor).length) :
    ∃ after, nextMany count self =
      .ok (((ahead (share order self) self.cursor).take count).map some, after) := by
  induction count generalizing self with
  | zero => exact ⟨self, rfl⟩
  | succ count ih =>
    obtain ⟨value, rest, hahead⟩ := exists_cons_of_length_pos (Nat.zero_lt_of_lt hle)
    obtain ⟨cursor, cache, hnext, hrest⟩ := nextIndex_of_ahead hself horder hcount hahead
    obtain ⟨_, _, -, hafter⟩ := coherent_nextIndex hself horder hnext
    rw [hahead, length_cons, Nat.succ_le_succ_iff, ← hrest] at hle
    obtain ⟨last, hlast⟩ := ih hafter horder hcount hle
    refine ⟨last, ?_⟩
    rw [hahead, nextMany, hnext, ok_bind, hlast, ← hrest]
    rfl

omit horder hself

theorem nextMany_of_empty (hcount : self.samplesPerEpoch = 0) (count : ℕ) :
    nextMany count self = .ok (replicate count none, self) := by
  induction count with
  | zero => rfl
  | succ count ih =>
    rw [nextMany, nextIndex, if_pos hcount, pure_eq_ok, ok_bind, ih]
    rfl

theorem coherent_of_reached {nSamples nRanks rank : ℕ} {dropLast : Bool}
    (horder : Orders nSamples order) (hreached : Reached nSamples nRanks rank dropLast self) :
    ∃ cursor cache, self = ⟨nSamples, nRanks, rank, dropLast, cursor, cache⟩ ∧
      Coherent order self := by
  induction hreached with
  | new hnew =>
    rw [DataSampler.new] at hnew
    split_ifs at hnew with hvalid
    cases hnew
    exact ⟨_, _, rfl, by dsimp only; omega, by simp, by simp⟩
  | next _ hnext ih =>
    obtain ⟨_, _, rfl, hself⟩ := ih
    obtain ⟨cursor, cache, rfl, hafter⟩ := coherent_nextIndex hself horder hnext
    exact ⟨cursor, cache, rfl, hafter⟩
  | setCursor cursor _ hepoch ih =>
    obtain ⟨_, cache, rfl, hself⟩ := ih
    exact ⟨cursor, cache, rfl, hself.rank_lt, hepoch, hself.cache⟩

theorem gives_of_reached {nSamples nRanks rank : ℕ} {dropLast : Bool}
    (horder : Orders nSamples order) (hreached : Reached nSamples nRanks rank dropLast self) :
    Gives (share order ⟨nSamples, nRanks, rank, dropLast, ⟨0, 0, 0⟩, none⟩) self.cursor self := by
  obtain ⟨cursor, cache, rfl, hself⟩ := coherent_of_reached horder hreached
  exact fun count => ⟨fun hcount => nextMany_of_empty hcount count,
    fun hcount => nextMany_of_ahead hself horder hcount count⟩

/-- Every epoch's order is a permutation that the ranks divide among themselves. A sampler gives the
rest of its rank's share from its cursor on, then the shares of the epochs after, and so it does
from any cursor that it is set to. -/
theorem covers_and_resumes (nSamples nRanks : ℕ) (dropLast : Bool) :
    ∃ indices : ℕ → UInt64 → ℕ → List ℕ,
      (∀ rank self, Reached nSamples nRanks rank dropLast self → ∀ epoch,
        (∃ perm, self.epochPermutation epoch = .ok perm ∧ perm.Perm (range nSamples)) ∧
          self.epochIndices epoch = .ok (indices rank self.cursor.seed epoch)) ∧
      (0 < nRanks → ∀ seed epoch, let all := (range nRanks).flatMap (indices · seed epoch)
        all.Nodup ∧ (∀ index ∈ all, index < nSamples) ∧
          (dropLast = false → all.Perm (range nSamples)) ∧
          (dropLast = true → all.length = nRanks * (nSamples / nRanks) ∧
            ∀ rank, (indices rank seed epoch).length = nSamples / nRanks)) ∧
      ∀ rank self, Reached nSamples nRanks rank dropLast self →
        Gives (indices rank) self.cursor self ∧
          ∀ cursor, cursor.epoch < 2 ^ 64 →
            Gives (indices rank) cursor (self.setCursor cursor) := by
  obtain ⟨order, horder⟩ := exists_orders nSamples
  let base : DataSampler := ⟨nSamples, nRanks, 0, dropLast, ⟨0, 0, 0⟩, none⟩
  refine ⟨fun rank => share order { base with rank }, ?_, @share_cover base _ horder, ?_⟩
  · intro rank self hreached epoch
    obtain ⟨cursor, cache, rfl, hself⟩ := coherent_of_reached horder hreached
    obtain ⟨hperm, hepoch⟩ := horder cursor.seed epoch
    exact ⟨⟨_, hepoch _ rfl rfl, hperm⟩, epochIndices_eq horder hself.rank_lt epoch⟩
  · intro rank self hreached
    refine ⟨gives_of_reached horder hreached, fun cursor hepoch => ?_⟩
    exact gives_of_reached horder (hreached.setCursor cursor hepoch)

/-- Two ranks share four samples; the second one is set to the middle of its fourth epoch. -/
theorem covers_and_resumes_fourSamples :
    ∃ self indices after, DataSampler.new 4 2 1 true 7 = .ok self ∧
      self.epochIndices 3 = .ok indices ∧ indices.length = 2 ∧
      nextMany 1 (self.setCursor ⟨7, 3, 1⟩) = .ok ((indices.drop 1).map some, after) := by
  obtain ⟨indices, hindices, hcover, hgives⟩ := covers_and_resumes 4 2 true
  have hlength : (indices 1 7 3).length = 2 := ((hcover Nat.two_pos 7 3).2.2.2 rfl).2 1
  have hreached : Reached 4 2 1 true ⟨4, 2, 1, true, ⟨7, 0, 0⟩, none⟩ := .new rfl
  have htake : (ahead (indices 1) ⟨7, 3, 1⟩).take 1 = (indices 1 7 3).drop 1 :=
    take_left' (by simp [hlength])
  obtain ⟨after, hafter⟩ := ((hgives 1 _ hreached).2 ⟨7, 3, 1⟩ (by decide) 1).2 (by decide)
    (by simp only [ahead, length_append, length_drop, hlength]; omega)
  rw [htake] at hafter
  exact ⟨_, _, after, rfl, (hindices 1 _ hreached 3).2, hlength, hafter⟩

end Tritium.Train.DataSampler
