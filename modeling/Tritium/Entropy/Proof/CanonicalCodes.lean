import Tritium.Entropy.Proof.HuffmanLengths

/-!
# Canonical codes

The codes are handed out by increasing length, each one the successor of the one before, so their
intervals lie one behind the other and the next code starts at the sum of the weights so far. A sum
of at most the whole range leaves room for every code.
-/

namespace Tritium.Entropy

open List
open PrefixCode

variable {lengths : List UInt8} {bits : List ℕ}

theorem incrementReversed_spec (reversed : List ℕ) (hbinary : Binary reversed) :
    (incrementReversed reversed).2.length = reversed.length ∧
      Binary (incrementReversed reversed).2 ∧ ((incrementReversed reversed).1 = true →
        value (incrementReversed reversed).2.reverse = value reversed.reverse + 1) ∧
      ((incrementReversed reversed).1 = false →
        value reversed.reverse + 1 = 2 ^ reversed.length) := by
  induction reversed with
  | nil => exact ⟨rfl, hbinary, fun hcarried => (nomatch hcarried), fun _ => rfl⟩
  | cons bit rest ih =>
    obtain ⟨_, hrest⟩ := forall_mem_cons.mp hbinary
    obtain ⟨hlength, hincremented, hcarried, hspilled⟩ := ih hrest
    rw [incrementReversed]
    by_cases hzero : bit = 0
    · rw [if_pos hzero]
      refine ⟨rfl, forall_mem_cons.mpr ⟨by decide, hrest⟩, fun _ => ?_,
        fun hspill => (nomatch hspill)⟩
      simp [value_concat, hzero]
    · rw [if_neg hzero]
      refine ⟨?_, forall_mem_cons.mpr ⟨by decide, hincremented⟩, fun hcarry => ?_, fun hspill => ?_⟩
      · simp [hlength]
      · rw [reverse_cons, reverse_cons, value_concat, value_concat, hcarried hcarry]
        omega
      · rw [reverse_cons, value_concat, length_cons, pow_succ, ← hspilled hspill]
        omega

theorem incrementBits_eq (hbinary : Binary bits) (hroom : value bits + 1 < 2 ^ bits.length) :
    ∃ next, incrementBits bits = (true, next) ∧ Binary next ∧ next.length = bits.length ∧
      value next = value bits + 1 := by
  obtain ⟨hlength, hincremented, hcarried, hspilled⟩ := incrementReversed_spec bits.reverse
    (fun bit hbit => hbinary bit (mem_reverse.mp hbit))
  rw [reverse_reverse] at hcarried hspilled
  rw [length_reverse] at hlength hspilled
  have hcarry : (incrementReversed bits.reverse).1 = true := by
    by_contra hspill
    have hfull := hspilled (Bool.eq_false_iff.mpr hspill)
    omega
  refine ⟨(incrementReversed bits.reverse).2.reverse, ?_, ?_, ?_, hcarried hcarry⟩
  · rw [incrementBits, ← hcarry]
  · exact fun bit hbit => hincremented bit (mem_reverse.mp hbit)
  · rw [length_reverse, hlength]

/-- Where the next interval starts: behind that of the current code. -/
def CodeCursor.next (cursor : CodeCursor) : ℕ :=
  start maxCodeBits cursor.current + weight maxCodeBits cursor.current.length

/-- The current code is a word of the previous length. -/
structure CodeCursor.Valid (cursor : CodeCursor) : Prop where
  binary : Binary cursor.current
  length_eq : cursor.current.length = cursor.previousLen
  length_le : cursor.previousLen ≤ maxCodeBits

theorem resizeBits_eq {length : ℕ} (hlength : bits.length ≤ length) :
    resizeBits bits length = bits ++ replicate (length - bits.length) 0 := by
  rw [resizeBits, take_of_length_le hlength]

theorem CodeCursor.assign_eq {cursor : CodeCursor} (hcursor : cursor.Valid)
    {len symbol position : ℕ}
    (hposition : position ≠ 0) (hprevious : cursor.previousLen ≤ len) (hlen : len ≤ maxCodeBits)
    (hroom : cursor.next < 2 ^ maxCodeBits) (hsymbol : symbol < cursor.codes.length) :
    ∃ bits, cursor.assign ((len, symbol), position) =
        .ok { codes := cursor.codes.set symbol ⟨bits⟩, current := bits, previousLen := len } ∧
      Binary bits ∧ bits.length = len ∧ start maxCodeBits bits = cursor.next := by
  obtain ⟨hbinary, _, _⟩ := hcursor
  rw [CodeCursor.next, start, weight] at hroom
  have hroom' : value cursor.current + 1 < 2 ^ cursor.current.length := by
    have hsplit : maxCodeBits = cursor.current.length + (maxCodeBits - cursor.current.length) := by
      omega
    apply Nat.lt_of_mul_lt_mul_right (a := 2 ^ (maxCodeBits - cursor.current.length))
    rw [← pow_add, ← hsplit]
    linarith
  obtain ⟨incremented, hincrement, hnextBinary, _, hvalue⟩ := incrementBits_eq hbinary hroom'
  have hresize := resizeBits_eq (by omega : incremented.length ≤ len)
  have hbitsLength : (resizeBits incremented len).length = len := by
    rw [hresize, length_append, length_replicate]
    omega
  refine ⟨resizeBits incremented len, ?_, ?_, hbitsLength, ?_⟩
  · rw [CodeCursor.assign]
    rw [if_pos hposition, hincrement]
    dsimp only
    rw [if_neg (by decide), if_neg (not_lt.mpr hprevious), ok_bind,
      setIndex_of_lt hsymbol, ok_bind, pure_eq_ok]
  · rw [hresize]
    exact hnextBinary.append (Binary.replicate_zero _)
  · have hsplit : maxCodeBits - cursor.current.length =
        (len - incremented.length) + (maxCodeBits - len) := by omega
    rw [start, hbitsLength, hresize, value_append, value_replicate_zero, length_replicate,
      hvalue, CodeCursor.next, start, weight, hsplit]
    ring

def codeEntries (assigned : List (ℕ × List ℕ)) : List (ℕ × Code) :=
  assigned.map fun entry => (entry.1, ⟨entry.2⟩)

/-- A run over the remaining symbols gives each of them a code of its length, behind all the codes
before. -/
theorem foldlM_assign_codes (order : List (ℕ × ℕ)) (position : ℕ) (cursor : CodeCursor)
    (hposition : position ≠ 0) (hcursor : cursor.Valid)
    (hsorted : (cursor.previousLen :: order.map Prod.fst).Pairwise (· ≤ ·))
    (hbounds : ∀ entry ∈ order, entry.1 ≤ maxCodeBits ∧ entry.2 < cursor.codes.length)
    (hroom : cursor.next + (order.map fun entry => weight maxCodeBits entry.1).sum ≤
      2 ^ maxCodeBits) :
    ∃ final assigned,
      (order.zipIdx position).foldlM CodeCursor.assign cursor = .ok final ∧
        final.codes = writeAll cursor.codes (codeEntries assigned) ∧
        (assigned.map fun entry => (entry.2.length, entry.1)) = order ∧
        (∀ entry ∈ assigned, Binary entry.2 ∧ cursor.next ≤ start maxCodeBits entry.2) ∧
        assigned.Pairwise fun first second => Before maxCodeBits first.2 second.2 := by
  induction order generalizing position cursor with
  | nil => exact ⟨cursor, [], rfl, rfl, rfl, by simp, List.Pairwise.nil⟩
  | cons entry order ih =>
    obtain ⟨len, symbol⟩ := entry
    obtain ⟨⟨hlen, hsymbol⟩, hrest⟩ := forall_mem_cons.mp hbounds
    rw [map_cons, sum_cons] at hroom
    rw [map_cons, pairwise_cons, forall_mem_cons] at hsorted
    obtain ⟨⟨hprevious, _⟩, hsortedRest⟩ := hsorted
    dsimp only at hlen hsymbol hprevious hroom hsortedRest
    have hpos := weight_pos maxCodeBits len
    obtain ⟨bits, hassign, hbinary, hlength, hstart⟩ :=
      CodeCursor.assign_eq hcursor hposition hprevious hlen (by omega) hsymbol
    have hnext : CodeCursor.next { codes := cursor.codes.set symbol ⟨bits⟩, current := bits,
                                   previousLen := len } = cursor.next + weight maxCodeBits len := by
      rw [CodeCursor.next, hstart, hlength]
    obtain ⟨final, assigned, hfold, hcodes, horder, hall, hpairwise⟩ :=
      ih (position + 1) { codes := cursor.codes.set symbol ⟨bits⟩, current := bits,
                          previousLen := len } (Nat.succ_ne_zero _) ⟨hbinary, hlength, hlen⟩
        hsortedRest (by
          intro other hother
          rw [length_set]
          exact hrest other hother) (by
          omega)
    rw [hnext] at hall
    refine ⟨final, (symbol, bits) :: assigned, ?_, ?_, ?_, ?_, ?_⟩
    · rw [zipIdx_cons, foldlM_cons, hassign, ok_bind, hfold]
    · exact hcodes
    · rw [map_cons, horder, hlength]
    · refine forall_mem_cons.mpr ⟨⟨hbinary, hstart.ge⟩, fun other hother => ?_⟩
      obtain ⟨hotherBinary, _⟩ := hall other hother
      exact ⟨hotherBinary, by omega⟩
    · refine pairwise_cons.mpr ⟨fun other hother => ?_, hpairwise⟩
      rw [Before, hstart, hlength]
      exact (hall other hother).2

instance : Std.TransCmp compareCoded :=
  inferInstanceAs (Std.TransCmp (compareLex (compareOn Prod.fst) (compareOn Prod.snd)))

theorem codedSymbols_bounds {entry : ℕ × ℕ} (hentry : entry ∈ codedSymbols lengths) :
    0 < entry.1 ∧ entry.1 ≤ maxCodeBits ∧ entry.2 < lengths.length := by
  obtain ⟨length, hlength, hnonzero, _⟩ := mem_codedSymbols_iff.mp hentry
  obtain ⟨hsymbol, _⟩ := List.getElem?_eq_some_iff.mp hlength
  have hlt := length.toNat_lt
  have hmax : maxCodeBits = 255 := rfl
  have hpos : length.toNat ≠ 0 := fun hzero => hnonzero (UInt8.toNat_inj.mp hzero)
  omega

/-- Lengths whose weights fit into the code space have canonical codes, one interval behind the
other. -/
theorem canonicalCodes_eq (hlengths : lengths.length = 256) (hcoded : codedSymbols lengths ≠ [])
    (hkraft : ((codedSymbols lengths).map fun entry => weight maxCodeBits entry.1).sum ≤
      2 ^ maxCodeBits) :
    ∃ assigned : List (ℕ × List ℕ),
      canonicalCodes lengths = .ok (writeAll (replicate 256 ⟨[]⟩) (codeEntries assigned)) ∧
        (assigned.map fun entry => (entry.2.length, entry.1)).Perm (codedSymbols lengths) ∧
        (∀ entry ∈ assigned, Binary entry.2) ∧
        assigned.Pairwise fun first second => Before maxCodeBits first.2 second.2 := by
  have hperm := sortBy_perm compareCoded (codedSymbols lengths)
  have hsorted := sortBy_pairwise compareCoded (codedSymbols lengths)
  have hsum := (hperm.map fun entry => weight maxCodeBits entry.1).sum_eq
  have hbounds : ∀ entry ∈ sortBy compareCoded (codedSymbols lengths),
      entry.1 ≤ maxCodeBits ∧ entry.2 < 256 := by
    intro entry hentry
    have hbound := codedSymbols_bounds (hperm.mem_iff.mp hentry)
    rw [hlengths] at hbound
    exact hbound.2
  rw [canonicalCodes]
  dsimp only
  rw [if_neg hcoded]
  cases hordered : sortBy compareCoded (codedSymbols lengths) with
  | nil =>
    rw [hordered] at hperm
    exact absurd hperm.symm.eq_nil hcoded
  | cons first rest =>
    rw [hordered] at hperm hsorted hsum hbounds
    rw [map_cons, sum_cons] at hsum
    obtain ⟨⟨hfirstLen, hfirstSymbol⟩, hrest⟩ := forall_mem_cons.mp hbounds
    set initial : CodeCursor :=
      { codes := (replicate 256 ⟨[]⟩).set first.2 ⟨replicate first.1 0⟩
        current := replicate first.1 0
        previousLen := first.1 } with hinitial
    have hstart : start maxCodeBits (replicate first.1 0) = 0 := by
      rw [start, value_replicate_zero, zero_mul]
    have hnext : initial.next = weight maxCodeBits first.1 := by
      rw [CodeCursor.next, hstart, length_replicate, zero_add]
    have hsortedLengths : (initial.previousLen :: rest.map Prod.fst).Pairwise (· ≤ ·) :=
      List.Pairwise.map (S := (· ≤ ·)) Prod.fst
        (fun _ _ hle => Nat.isLE_compare.mp (Ordering.isLE_left_of_isLE_then hle)) hsorted
    obtain ⟨final, assigned, hfold, hcodes, horder, hall, hpairwise⟩ :=
      foldlM_assign_codes rest 1 initial Nat.one_ne_zero
        ⟨Binary.replicate_zero _, length_replicate, hfirstLen⟩ hsortedLengths (by
          intro entry hentry
          rw [length_set, length_replicate]
          exact hrest entry hentry) (by
          rw [hnext, hsum]
          exact hkraft)
    refine ⟨(first.2, replicate first.1 0) :: assigned, ?_, ?_, ?_, ?_⟩
    · have hassign : CodeCursor.assign ⟨replicate 256 ⟨[]⟩, replicate first.1 0, first.1⟩
          (first, 0) = .ok initial := by
        rw [CodeCursor.assign]
        dsimp only
        rw [if_neg (not_not.mpr rfl), ok_bind, setIndex_of_lt (by
          rw [length_replicate]
          exact hfirstSymbol), ok_bind, pure_eq_ok]
      rw [index_of_lt (by simp), ok_bind, getElem_cons_zero,
        zipIdx_cons, foldlM_cons, hassign, ok_bind, hfold, ok_bind, hcodes]
      rfl
    · rw [map_cons, horder, length_replicate]
      exact hperm
    · exact forall_mem_cons.mpr
        ⟨Binary.replicate_zero _, fun entry hentry => (hall entry hentry).1⟩
    · refine pairwise_cons.mpr ⟨fun entry hentry => ?_, hpairwise⟩
      exact (hall entry hentry).2

def codeBits (codes : List Code) (symbol : ℕ) : List ℕ := (codes.getD symbol ⟨[]⟩).bits

/-- 256 words, of which no nonempty one starts another. -/
structure IsPrefixCode (codes : List Code) : Prop where
  length_eq : codes.length = 256
  binary : ∀ symbol, Binary (codeBits codes symbol)
  length_le : ∀ symbol, (codeBits codes symbol).length ≤ maxCodeBits
  prefixFree : ∀ symbol other, symbol ≠ other → codeBits codes symbol ≠ [] →
    ¬codeBits codes symbol <+: codeBits codes other

theorem codeBits_writeAll {assigned : List (ℕ × List ℕ)}
    (hnodup : (assigned.map Prod.fst).Nodup) (hbounds : ∀ entry ∈ assigned, entry.1 < 256)
    (symbol : ℕ) :
    (∃ entry ∈ assigned, entry.1 = symbol ∧
        codeBits (writeAll (replicate 256 ⟨[]⟩) (codeEntries assigned)) symbol = entry.2) ∨
      symbol ∉ assigned.map Prod.fst ∧
        codeBits (writeAll (replicate 256 ⟨[]⟩) (codeEntries assigned)) symbol = [] := by
  have hkeys : (codeEntries assigned).map Prod.fst = assigned.map Prod.fst := by
    rw [codeEntries, map_map]
    rfl
  by_cases hmem : symbol ∈ assigned.map Prod.fst
  · obtain ⟨entry, hentry, rfl⟩ := mem_map.mp hmem
    left
    refine ⟨entry, hentry, rfl, ?_⟩
    have hwritten : (entry.1, (⟨entry.2⟩ : Code)) ∈ codeEntries assigned := mem_map_of_mem hentry
    have hread : (writeAll (replicate 256 ⟨[]⟩) (codeEntries assigned))[entry.1]? =
        some ⟨entry.2⟩ := writeAll_getElem?_of_mem _ (hkeys ▸ hnodup) hwritten (by
          rw [length_replicate]
          exact hbounds entry hentry)
    rw [codeBits, getD_eq_getElem?_getD, hread]
    rfl
  · right
    refine ⟨hmem, ?_⟩
    rw [codeBits, getD_eq_getElem?_getD, writeAll_getElem?_of_notMem (hkeys ▸ hmem),
      getElem?_replicate]
    split_ifs <;> rfl

theorem canonicalCodes_isPrefixCode (hlengths : lengths.length = 256)
    (hcoded : codedSymbols lengths ≠ [])
    (hkraft : ((codedSymbols lengths).map fun entry => weight maxCodeBits entry.1).sum ≤
      2 ^ maxCodeBits) :
    ∃ codes, canonicalCodes lengths = .ok codes ∧ IsPrefixCode codes ∧
      ∀ symbol, (codeBits codes symbol).length = (lengths.getD symbol 0).toNat := by
  obtain ⟨assigned, hcodes, hperm, hbinary, hpairwise⟩ := canonicalCodes_eq hlengths hcoded hkraft
  have hcoded : ∀ entry ∈ assigned, (entry.2.length, entry.1) ∈ codedSymbols lengths :=
    fun entry hentry => hperm.subset (mem_map_of_mem hentry)
  have hbounds : ∀ entry ∈ assigned, 0 < entry.2.length ∧ entry.2.length ≤ maxCodeBits ∧
      entry.1 < 256 := by
    intro entry hentry
    rw [← hlengths]
    exact codedSymbols_bounds (hcoded entry hentry)
  have hnodup : (assigned.map Prod.fst).Nodup := by
    have hsymbols := (hperm.map Prod.snd).nodup_iff.mpr (nodup_codedSymbols lengths)
    rw [map_map] at hsymbols
    exact hsymbols
  have hread := codeBits_writeAll hnodup fun entry hentry => (hbounds entry hentry).2.2
  set codes := writeAll (replicate 256 ⟨[]⟩) (codeEntries assigned) with hcodesEq
  have hapart : ∀ first ∈ assigned, ∀ second ∈ assigned, first.1 ≠ second.1 →
      ¬first.2 <+: second.2 := by
    intro first hfirst second hsecond hne
    have hsymmetric : Std.Symm fun first second : ℕ × List ℕ =>
        ¬first.2 <+: second.2 ∧ ¬second.2 <+: first.2 := ⟨fun _ _ h => ⟨h.2, h.1⟩⟩
    have hall : assigned.Pairwise fun first second =>
        ¬first.2 <+: second.2 ∧ ¬second.2 <+: first.2 := by
      apply hpairwise.imp_of_mem
      intro left right hleft hright hbefore
      exact hbefore.not_isPrefix (hbounds left hleft).2.1 (hbounds right hright).2.1
        (hbinary right hright)
    exact (hall.forall hfirst hsecond (fun heq => hne (congrArg Prod.fst heq))).1
  have hword : ∀ symbol, Binary (codeBits codes symbol) ∧
      (codeBits codes symbol).length ≤ maxCodeBits := by
    intro symbol
    obtain ⟨entry, hentry, _, hbits⟩ | ⟨_, hbits⟩ := hread symbol
    · rw [hbits]
      exact ⟨hbinary entry hentry, (hbounds entry hentry).2.1⟩
    · rw [hbits]
      exact ⟨forall_mem_nil _, Nat.zero_le _⟩
  refine ⟨codes, hcodes, ⟨?_, fun symbol => (hword symbol).1, fun symbol => (hword symbol).2, ?_⟩,
    ?_⟩
  · rw [writeAll_length, length_replicate]
  · intro symbol other hne hnonempty
    obtain ⟨entry, hentry, rfl, hbits⟩ | ⟨_, hbits⟩ := hread symbol
    · rw [hbits] at hnonempty ⊢
      obtain ⟨second, hsecond, rfl, hotherBits⟩ | ⟨_, hotherBits⟩ := hread other
      · rw [hotherBits]
        exact hapart entry hentry second hsecond hne
      · rw [hotherBits, prefix_nil]
        exact hnonempty
    · exact absurd hbits hnonempty
  · intro symbol
    obtain ⟨entry, hentry, rfl, hbits⟩ | ⟨hmem, hbits⟩ := hread symbol
    · obtain ⟨length, hlength, _, heq⟩ := mem_codedSymbols_iff.mp (hcoded entry hentry)
      simp [hbits, hlength, heq]
    · rw [hbits]
      by_contra hne
      apply hmem
      rw [getD_eq_getElem?_getD] at hne
      obtain ⟨length, hget⟩ : ∃ length, lengths[symbol]? = some length :=
        Option.ne_none_iff_exists'.mp fun hnone => hne (by rw [hnone]; rfl)
      rw [hget] at hne
      have hcodedEntry : (length.toNat, symbol) ∈ codedSymbols lengths :=
        mem_codedSymbols_iff.mpr ⟨length, hget, fun hzero => hne (by rw [hzero]; rfl), rfl⟩
      obtain ⟨entry, hentry, heq⟩ := mem_map.mp (hperm.mem_iff.mpr hcodedEntry)
      exact mem_map.mpr ⟨entry, hentry, (Prod.mk.inj heq).2⟩

end Tritium.Entropy
