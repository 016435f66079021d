import Tritium.Lib.BitStream
import Tritium.Salt.JointCode
import Mathlib.Data.List.Fold
import Mathlib.Data.List.GetD
import Mathlib.Data.List.MinMax

/-!
# The decode table of a joint code

The code words are handed out by increasing length, so their intervals lie one behind the other, and
Kraft's inequality keeps them inside the table. An index that starts with a code word then finds the
symbol of that word.
-/

namespace Tritium.Salt

open List
open PrefixCode BitStream

variable {entry : ℕ × ℕ} {lengths : List ℕ}

instance : Std.TransCmp comparePairs :=
  inferInstanceAs (Std.TransCmp (compareLex (compareOn Prod.fst) (compareOn Prod.snd)))

theorem mem_codedSymbols_iff :
    entry ∈ codedSymbols lengths ↔ lengths[entry.2]? = some entry.1 ∧ 0 < entry.1 := by
  rw [codedSymbols, mem_filter, ← mk_mem_zipIdx_iff_getElem?, decide_eq_true_eq]

theorem nodup_codedSymbols (lengths : List ℕ) : ((codedSymbols lengths).map Prod.snd).Nodup := by
  have hsublist : ((codedSymbols lengths).map Prod.snd).Sublist (lengths.zipIdx.map Prod.snd) :=
    filter_sublist.map _
  refine hsublist.nodup ?_
  rw [zipIdx_map_snd]
  exact nodup_range'

theorem map_fst_codedSymbols (lengths : List ℕ) :
    (codedSymbols lengths).map Prod.fst = lengths.filter (0 < ·) := by
  rw [codedSymbols]
  conv_rhs => rw [← zipIdx_map_fst 0 lengths, filter_map]
  rfl

def canonicalOrder (lengths : List ℕ) : List (ℕ × ℕ) := sortBy comparePairs (codedSymbols lengths)

theorem mem_canonicalOrder_iff :
    entry ∈ canonicalOrder lengths ↔ lengths[entry.2]? = some entry.1 ∧ 0 < entry.1 := by
  rw [canonicalOrder, (sortBy_perm _ _).mem_iff, mem_codedSymbols_iff]

theorem canonicalOrder_sorted (lengths : List ℕ) :
    (canonicalOrder lengths).Pairwise fun left right => left.1 ≤ right.1 :=
  (sortBy_pairwise comparePairs _).imp fun hle =>
    Nat.isLE_compare.mp (Ordering.isLE_left_of_isLE_then hle)

theorem sum_weight_canonicalOrder (width : ℕ) (lengths : List ℕ) :
    ((canonicalOrder lengths).map fun entry => weight width entry.1).sum =
      kraftUnits width lengths := by
  rw [canonicalOrder, ((sortBy_perm comparePairs (codedSymbols lengths)).map _).sum_eq, kraftUnits,
    ← map_fst_codedSymbols, map_map]
  rfl

section Words

variable {width : ℕ}

/-- Where the intervals of the words handed out so far end. -/
def CodeCursor.frontier (width : ℕ) (cursor : CodeCursor) : ℕ :=
  if cursor.previousLen = 0 then 0 else (cursor.code + 1) * weight width cursor.previousLen

/-- The number of a slot's word. -/
def slotWord (width : ℕ) (slot : Slot ℕ) : ℕ := slot.start / weight width slot.length

def wordEntries (width : ℕ) (placed : List (Slot ℕ)) : List (ℕ × ℕ) :=
  placed.map fun slot => (slot.symbol, slotWord width slot)

/-- The next word starts where the intervals end. -/
theorem CodeCursor.next_eq {cursor : CodeCursor} {length : ℕ}
    (hstart : cursor.previousLen = 0 → cursor.code = 0) (hprevious : cursor.previousLen ≤ length)
    (hlength : length ≤ width) (hwidth : width ≤ 31)
    (hroom : cursor.frontier width + weight width length ≤ 2 ^ width) :
    cursor.next length = .ok (cursor.frontier width / weight width length) := by
  rw [CodeCursor.next]
  by_cases hfirst : cursor.previousLen = 0
  · rw [if_neg (not_not.mpr hfirst), hstart hfirst, frontier, if_pos hfirst, Nat.zero_div]
  · have hsplit : weight width cursor.previousLen =
        2 ^ (length - cursor.previousLen) * weight width length := by
      rw [weight, weight, ← pow_add]
      congr 1
      omega
    rw [frontier, if_neg hfirst, hsplit, ← mul_assoc] at hroom ⊢
    set word := (cursor.code + 1) * 2 ^ (length - cursor.previousLen) with hword
    have hbound : word < 2 ^ 32 := by
      have hpos := weight_pos width length
      have hle : word ≤ word * weight width length := Nat.le_mul_of_pos_right _ hpos
      have hpow : 2 ^ width ≤ 2 ^ 31 := Nat.pow_le_pow_right (by decide) hwidth
      omega
    have hcode : cursor.code + 1 ≤ word := Nat.le_mul_of_pos_right _ (Nat.two_pow_pos _)
    rw [if_pos hfirst, add_of_lt (lt_of_le_of_lt hcode hbound), ok_bind,
      sub_of_le hprevious, ok_bind, Nat.shiftLeft_eq, Nat.mod_eq_of_lt hbound, Nat.mul_div_cancel _ (weight_pos _ _), pure_eq_ok]

theorem foldlM_assign (hwidth : width ≤ 31) (order : List (ℕ × ℕ)) (cursor : CodeCursor)
    (hsorted : order.Pairwise fun left right => left.1 ≤ right.1)
    (hentries : ∀ entry ∈ order, 0 < entry.1 ∧ entry.1 ≤ width ∧ entry.2 < cursor.codes.length)
    (hstart : cursor.previousLen = 0 → cursor.code = 0)
    (hprevious : ∀ entry ∈ order, cursor.previousLen ≤ entry.1)
    (haligned : ∀ entry ∈ order, weight width entry.1 ∣ cursor.frontier width)
    (hroom : cursor.frontier width + (order.map fun entry => weight width entry.1).sum ≤
      2 ^ width) :
    ∃ last, order.foldlM CodeCursor.assign cursor = .ok last ∧ last.codes = writeAll cursor.codes
        (wordEntries width (slots width (cursor.frontier width) order)) := by
  induction order generalizing cursor with
  | nil => exact ⟨cursor, rfl, rfl⟩
  | cons entry order ih =>
    obtain ⟨hle, hsorted⟩ := pairwise_cons.mp hsorted
    obtain ⟨⟨hpos, hlength, hsymbol⟩, hentries⟩ := forall_mem_cons.mp hentries
    obtain ⟨hprev, -⟩ := forall_mem_cons.mp hprevious
    obtain ⟨halign, hothers⟩ := forall_mem_cons.mp haligned
    rw [map_cons, sum_cons] at hroom
    set word := cursor.frontier width / weight width entry.1 with hword
    have hnext := CodeCursor.next_eq hstart hprev hlength hwidth (by omega)
    set after : CodeCursor := ⟨cursor.codes.set entry.2 word, word, entry.1⟩ with hafter
    have hassign : cursor.assign entry = .ok after := by
      rw [CodeCursor.assign, hnext, ok_bind, setIndex_of_lt hsymbol, ok_bind, pure_eq_ok]
    have hfrontier : after.frontier width = cursor.frontier width + weight width entry.1 := by
      rw [CodeCursor.frontier, if_neg (Nat.pos_iff_ne_zero.mp hpos), add_mul,
        Nat.div_mul_cancel halign, one_mul]
    obtain ⟨last, hfold, hcodes⟩ := ih after hsorted
      (fun later hlater => by
        rw [length_set]
        exact hentries later hlater)
      (fun hzero => absurd hzero (Nat.pos_iff_ne_zero.mp hpos)) hle
      (fun later hlater => by
        rw [hfrontier]
        exact Nat.dvd_add (hothers later hlater) (weight_dvd_weight (hle later hlater)))
      (by rw [hfrontier]; omega)
    refine ⟨last, ?_, ?_⟩
    · rw [foldlM_cons, hassign, ok_bind, hfold]
    · rw [hcodes, hfrontier]
      rfl

end Words

/-- The part of the table that stands for a slot. -/
def slotFilling (width : ℕ) (slot : Slot ℕ) : Filling (ℕ × ℕ) :=
  ⟨slot.start, weight width slot.length, (slot.symbol, slot.length)⟩

theorem foldlM_fillEntry {width : ℕ} (codes : List ℕ) (hwidth : width ≤ 31)
    (placed : List (Slot ℕ))
    (hplaced : ∀ slot ∈ placed, slot.length ≤ width ∧ slot.symbol < 2 ^ 16 ∧
      weight width slot.length ∣ slot.start ∧ slot.start < 2 ^ width ∧
      codes[slot.symbol]? = some (slotWord width slot)) (table : List (ℕ × ℕ)) :
    (placed.map fun slot => (slot.length, slot.symbol)).foldlM (fillEntry width codes) table =
      .ok (fillAll table (placed.map (slotFilling width))) := by
  induction placed generalizing table with
  | nil => rfl
  | cons slot placed ih =>
    obtain ⟨⟨hlength, hsymbol, hdvd, hstart, hcode⟩, hplaced⟩ := forall_mem_cons.mp hplaced
    have hword : slotWord width slot <<< (width - slot.length) = slot.start := by
      rw [Nat.shiftLeft_eq]
      exact Nat.div_mul_cancel hdvd
    have hbound : slot.start < 2 ^ 64 :=
      lt_of_lt_of_le hstart (Nat.pow_le_pow_right (by decide) (by omega))
    rw [map_cons, foldlM_cons, fillEntry, sub_of_le hlength, ok_bind,
      index_eq_ok_iff.mpr hcode, ok_bind, pure_eq_ok, ok_bind,
      hword, Nat.mod_eq_of_lt hbound, Nat.mod_eq_of_lt hsymbol, ih hplaced]
    rfl

def JointCode.word (code : JointCode) (symbol : ℕ) : List ℕ :=
  digits (code.lengths.getD symbol 0) (code.codes.getD symbol 0)

def JointCode.Codes (code : JointCode) (symbol : ℕ) : Prop := 0 < code.lengths.getD symbol 0

/-- Every index that starts with the word of a symbol finds that symbol in the table. -/
structure JointCode.Canonical (code : JointCode) : Prop where
  codes_length : code.codes.length = code.lengths.length
  tableBits_le : code.tableBits ≤ maxCodeLen
  length_le : ∀ symbol, code.lengths.getD symbol 0 ≤ code.tableBits
  codes_lt : ∀ symbol, code.Codes symbol → code.codes.getD symbol 0 < 2 ^ code.lengths.getD symbol 0
  entry : ∀ symbol, code.Codes symbol → ∀ index, start code.tableBits (code.word symbol) ≤ index →
    index < start code.tableBits (code.word symbol) +
      weight code.tableBits (code.lengths.getD symbol 0) →
    code.table[index]? = some (symbol, code.lengths.getD symbol 0)

def longest (lengths : List ℕ) : ℕ := lengths.foldl max 0

theorem le_longest {length : ℕ} (hlength : length ∈ lengths) : length ≤ longest lengths := by
  rw [longest, foldl_eq_foldr]
  exact List.le_max_of_le hlength le_rfl

theorem getD_le_longest (lengths : List ℕ) (symbol : ℕ) :
    lengths.getD symbol 0 ≤ longest lengths := by
  by_cases hsymbol : symbol < lengths.length
  · rw [getD_eq_getElem _ _ hsymbol]
    exact le_longest (getElem_mem hsymbol)
  · rw [getD_eq_default _ _ (Nat.not_lt.mp hsymbol)]
    exact Nat.zero_le _

theorem three_pow_le {t : ℕ} (ht : t ≤ maxJointPlanes) : 3 ^ t ≤ 2 ^ maxCodeLen :=
  (Nat.pow_le_pow_right (by decide) ht).trans (by decide)

theorem alphabet_eq_ok_iff {t size : ℕ} :
    alphabet t = .ok size ↔ (1 ≤ t ∧ t ≤ maxJointPlanes) ∧ 3 ^ t = size := by
  rw [alphabet, refuse_eq_ok_iff, ok.injEq]
  simp only [not_or, Nat.not_lt, Nat.one_le_iff_ne_zero]

/-- The lengths of a prefix code for the alphabet. -/
structure CodeLengths (t : ℕ) (lengths : List ℕ) : Prop where
  planes : 1 ≤ t ∧ t ≤ maxJointPlanes
  length_eq : lengths.length = 3 ^ t
  le_max : longest lengths ≤ maxCodeLen
  kraft : kraftUnits (longest lengths) lengths ≤ 2 ^ longest lengths

/-- The slots of the words, from the start of the table on. -/
def codeSlots (lengths : List ℕ) : List (Slot ℕ) :=
  slots (longest lengths) 0 (canonicalOrder lengths)

def canonicalCodes (lengths : List ℕ) : List ℕ :=
  writeAll (replicate lengths.length 0) (wordEntries (longest lengths) (codeSlots lengths))

def canonicalTable (lengths : List ℕ) : List (ℕ × ℕ) :=
  fillAll (replicate (2 ^ longest lengths) (0, 0))
    ((codeSlots lengths).map (slotFilling (longest lengths)))

def canonicalCode (t : ℕ) (lengths : List ℕ) : JointCode :=
  ⟨t, lengths, canonicalCodes lengths, longest lengths, canonicalTable lengths⟩

structure CodeSlot (lengths : List ℕ) (slot : Slot ℕ) : Prop where
  length_le : slot.length ≤ longest lengths
  symbol_lt : slot.symbol < lengths.length
  aligned : weight (longest lengths) slot.length ∣ slot.start
  stop_le : slot.start + weight (longest lengths) slot.length ≤ 2 ^ longest lengths
  word : (canonicalCodes lengths)[slot.symbol]? = some (slotWord (longest lengths) slot)

theorem map_fst_wordEntries (lengths : List ℕ) :
    (wordEntries (longest lengths) (codeSlots lengths)).map Prod.fst =
      (canonicalOrder lengths).map Prod.snd := by
  rw [wordEntries, map_map, ← map_slots (longest lengths) 0 (canonicalOrder lengths), map_map]
  rfl

theorem mem_canonicalOrder_bounds (hentry : entry ∈ canonicalOrder lengths) :
    0 < entry.1 ∧ entry.1 ≤ longest lengths ∧ entry.2 < lengths.length := by
  obtain ⟨hget, hpos⟩ := mem_canonicalOrder_iff.mp hentry
  exact ⟨hpos, le_longest (List.mem_of_getElem? hget), (List.getElem?_eq_some_iff.mp hget).1⟩

variable {t : ℕ} {slot : Slot ℕ}

section

variable (hlengths : CodeLengths t lengths)

include hlengths

theorem CodeLengths.codeSlot (hslot : slot ∈ codeSlots lengths) : CodeSlot lengths slot := by
  obtain ⟨_, hlength, hsymbol⟩ := mem_canonicalOrder_bounds (mem_of_mem_slots hslot)
  refine ⟨hlength, hsymbol, ?_, ?_, ?_⟩
  · exact slots_dvd (canonicalOrder_sorted lengths) (fun _ _ => Nat.dvd_zero _) hslot
  · have hbounds := (slots_bounds hslot).2
    rw [Nat.zero_add, sum_weight_canonicalOrder] at hbounds
    exact hbounds.trans hlengths.kraft
  · have hentry : (slot.symbol, slotWord (longest lengths) slot) ∈
        wordEntries (longest lengths) (codeSlots lengths) := mem_map.mpr ⟨slot, hslot, rfl⟩
    rw [canonicalCodes]
    refine writeAll_getElem?_of_mem (replicate lengths.length 0) ?_ hentry ?_
    · rw [map_fst_wordEntries]
      exact ((sortBy_perm _ _).map Prod.snd).nodup_iff.mpr (nodup_codedSymbols lengths)
    · rwa [length_replicate]

theorem CodeLengths.alphabet_lt : lengths.length < 2 ^ 16 := by
  rw [hlengths.length_eq]
  exact lt_of_le_of_lt (three_pow_le hlengths.planes.2) (by decide)

theorem CodeLengths.longest_le : longest lengths ≤ 31 :=
  hlengths.le_max.trans (by decide)

theorem CodeLengths.foldlM_assign_eq : ∃ last, (canonicalOrder lengths).foldlM CodeCursor.assign
        ⟨replicate lengths.length 0, 0, 0⟩ = .ok last ∧ last.codes = canonicalCodes lengths := by
  apply foldlM_assign hlengths.longest_le (canonicalOrder lengths) _ (canonicalOrder_sorted lengths)
  · intro entry hentry
    rw [length_replicate]
    exact mem_canonicalOrder_bounds hentry
  · exact fun _ => rfl
  · simp
  · exact fun entry _ => Nat.dvd_zero _
  · rw [CodeCursor.frontier, if_pos rfl, Nat.zero_add, sum_weight_canonicalOrder]
    exact hlengths.kraft

theorem CodeLengths.foldlM_fillEntry_eq :
    (canonicalOrder lengths).foldlM (fillEntry (longest lengths) (canonicalCodes lengths))
        (replicate (2 ^ longest lengths) (0, 0)) = .ok (canonicalTable lengths) := by
  have hfold := foldlM_fillEntry (canonicalCodes lengths) hlengths.longest_le
    (codeSlots lengths) ?_ (replicate (2 ^ longest lengths) (0, 0))
  · rwa [codeSlots, map_slots] at hfold
  · intro slot hslot
    have hcode := hlengths.codeSlot hslot
    have hpos := weight_pos (longest lengths) slot.length
    have hstop := hcode.stop_le
    exact ⟨hcode.length_le, hcode.symbol_lt.trans hlengths.alphabet_lt, hcode.aligned, by omega,
      hcode.word⟩

theorem fromLengths_eq : JointCode.fromLengths lengths t = .ok (canonicalCode t lengths) := by
  obtain ⟨cursor, hcursor, hcodes⟩ := hlengths.foldlM_assign_eq
  have hover : ¬(0 < longest lengths ∧ 2 ^ longest lengths < kraftUnits (longest lengths) lengths) :=
    fun hover => Nat.not_lt.mpr hlengths.kraft hover.2
  rw [JointCode.fromLengths, alphabet_eq_ok_iff.mpr ⟨hlengths.planes, rfl⟩, ok_bind,
    if_neg (not_not.mpr hlengths.length_eq), ← hlengths.length_eq]
  dsimp only
  rw [← longest, ← canonicalOrder, if_neg (Nat.not_lt.mpr hlengths.le_max), if_neg hover, hcursor,
    ok_bind, hcodes, hlengths.foldlM_fillEntry_eq]
  rfl

end

theorem kraftUnits_of_longest_eq_zero (width : ℕ) (hzero : longest lengths = 0) :
    kraftUnits width lengths = 0 := by
  have hnone : lengths.filter (0 < ·) = [] := by
    rw [filter_eq_nil_iff]
    intro length hlength
    have hle := le_longest hlength
    simp [Nat.le_zero.mp (hzero ▸ hle)]
  rw [kraftUnits, hnone, map_nil, sum_nil]

/-- **The lengths of a code.** A code is built exactly for the lengths of a prefix code. -/
theorem fromLengths_eq_ok_iff {code : JointCode} :
    JointCode.fromLengths lengths t = .ok code ↔
      CodeLengths t lengths ∧ canonicalCode t lengths = code := by
  constructor
  · intro hcode
    have hbuilt := hcode
    rw [JointCode.fromLengths] at hbuilt
    obtain ⟨size, hsize, hbuilt⟩ := bind_eq_ok hbuilt
    obtain ⟨hplanes, rfl⟩ := alphabet_eq_ok_iff.mp hsize
    obtain ⟨hlength, hbuilt⟩ := refuse_eq_ok hbuilt
    obtain ⟨hmax, hbuilt⟩ := refuse_eq_ok hbuilt
    obtain ⟨hkraft, -⟩ := refuse_eq_ok hbuilt
    have hlengths : CodeLengths t lengths := by
      refine ⟨hplanes, not_not.mp hlength, Nat.not_lt.mp hmax, ?_⟩
      by_cases hzero : longest lengths = 0
      · simp [kraftUnits_of_longest_eq_zero _ hzero]
      · exact Nat.not_lt.mp fun hover => hkraft ⟨Nat.pos_of_ne_zero hzero, hover⟩
    rw [fromLengths_eq hlengths] at hcode
    exact ⟨hlengths, ok.inj hcode⟩
  · rintro ⟨hlengths, rfl⟩
    exact fromLengths_eq hlengths

theorem exists_slot {symbol : ℕ} (hsymbol : 0 < lengths.getD symbol 0) :
    ∃ slot ∈ codeSlots lengths, slot.length = lengths.getD symbol 0 ∧ slot.symbol = symbol := by
  have hmem : (lengths.getD symbol 0, symbol) ∈ canonicalOrder lengths := by
    refine mem_canonicalOrder_iff.mpr ⟨?_, hsymbol⟩
    cases hget : lengths[symbol]? with
    | none =>
      rw [getD_eq_getElem?_getD, hget] at hsymbol
      exact absurd hsymbol (lt_irrefl 0)
    | some length => rw [getD_eq_getElem?_getD, hget, Option.getD_some]
  obtain ⟨slot, hslot, hentry⟩ := exists_mem_slots hmem
  exact ⟨slot, hslot, congrArg Prod.fst hentry, congrArg Prod.snd hentry⟩

theorem slotWord_lt (hcode : CodeSlot lengths slot) :
    slotWord (longest lengths) slot < 2 ^ slot.length := by
  have hpos := weight_pos (longest lengths) slot.length
  have hsplit : 2 ^ longest lengths = 2 ^ slot.length * weight (longest lengths) slot.length := by
    rw [weight, ← pow_add, Nat.add_sub_cancel' hcode.length_le]
  have hstop := hcode.stop_le
  rw [slotWord, Nat.div_lt_iff_lt_mul hpos]
  omega

theorem canonicalTable_getElem? (hcode : CodeSlot lengths slot) (hslot : slot ∈ codeSlots lengths)
    {index : ℕ} (hstart : slot.start ≤ index)
    (hstop : index < slot.start + weight (longest lengths) slot.length) :
    (canonicalTable lengths)[index]? = some (slot.symbol, slot.length) := by
  rw [canonicalTable]
  refine fillAll_getElem? ?_ (mem_map_of_mem hslot) hstart hstop ?_
  · exact pairwise_map.mpr (slots_pairwise (longest lengths) 0 (canonicalOrder lengths))
  · rw [length_replicate]
    exact lt_of_lt_of_le hstop hcode.stop_le

theorem canonicalCode_canonical (hlengths : CodeLengths t lengths) :
    (canonicalCode t lengths).Canonical := by
  have hslots : ∀ symbol, (canonicalCode t lengths).Codes symbol →
      ∃ slot ∈ codeSlots lengths, CodeSlot lengths slot ∧ slot.length = lengths.getD symbol 0 ∧
        slot.symbol = symbol ∧
        (canonicalCodes lengths).getD symbol 0 = slotWord (longest lengths) slot := by
    intro symbol hsymbol
    obtain ⟨slot, hslot, hlength, rfl⟩ := exists_slot hsymbol
    have hcode := hlengths.codeSlot hslot
    refine ⟨slot, hslot, hcode, hlength, rfl, ?_⟩
    simp [hcode.word]
  refine ⟨(writeAll_length _ _).trans length_replicate, hlengths.le_max, getD_le_longest lengths,
    ?_, ?_⟩
  · intro symbol hsymbol
    obtain ⟨slot, -, hcode, hlength, -, hword⟩ := hslots symbol hsymbol
    change (canonicalCodes lengths).getD symbol 0 < 2 ^ lengths.getD symbol 0
    rw [hword, ← hlength]
    exact slotWord_lt hcode
  · intro symbol hsymbol index hstart hstop
    obtain ⟨slot, hslot, hcode, hlength, rfl, hword⟩ := hslots symbol hsymbol
    -- the word's interval is the slot
    have hinterval : start (longest lengths) ((canonicalCode t lengths).word slot.symbol) =
        slot.start := by
      rw [JointCode.word]
      change start _ (digits (lengths.getD slot.symbol 0)
        ((canonicalCodes lengths).getD slot.symbol 0)) = _
      rw [hword, ← hlength, start, value_digits (slotWord_lt hcode), digits_length]
      exact Nat.div_mul_cancel hcode.aligned
    change start (longest lengths) _ ≤ index at hstart
    change index < start (longest lengths) _ + weight (longest lengths) (lengths.getD _ 0) at hstop
    change (canonicalTable lengths)[index]? = some (slot.symbol, lengths.getD slot.symbol 0)
    rw [hinterval] at hstart hstop
    rw [← hlength] at hstop ⊢
    exact canonicalTable_getElem? hcode hslot hstart hstop

end Tritium.Salt
