import Tritium.Salt.Proof.JointLengths
import Tritium.Salt.Proof.JointStream
import Mathlib.Algebra.BigOperators.Ring.Finset
import Mathlib.Tactic.Positivity

/-!
# The joint code

Every table of frequencies has a code, and what the code encodes comes back exactly.
-/

namespace Tritium.Salt

open PrefixCode

variable {lengths freq : List ℕ}

def kraftSum (lengths : List ℕ) : ℚ :=
  ((lengths.filter (0 < ·)).map fun length => (1 : ℚ) / 2 ^ length).sum

theorem kraftSum_eq {width : ℕ} (hwidth : ∀ length ∈ lengths, length ≤ width) :
    kraftSum lengths * 2 ^ width = kraftUnits width lengths := by
  rw [kraftSum, kraftUnits, Nat.cast_list_sum, ← List.sum_map_mul_right, List.map_map]
  apply congrArg List.sum
  apply List.map_congr_left
  intro length hlength
  have hle := hwidth length (List.mem_of_mem_filter hlength)
  rw [Function.comp_apply, Nat.cast_pow, Nat.cast_ofNat, pow_sub₀ _ two_ne_zero hle]
  ring

theorem kraftSum_le_one {width : ℕ} (hwidth : ∀ length ∈ lengths, length ≤ width)
    (hkraft : kraftUnits width lengths ≤ 2 ^ width) : kraftSum lengths ≤ 1 := by
  have hpos : (0 : ℚ) < 2 ^ width := by positivity
  apply le_of_mul_le_mul_right _ hpos
  rw [kraftSum_eq hwidth, one_mul]
  exact_mod_cast hkraft

/-- A code that was built is the canonical code of its lengths. -/
theorem fromLengths_of_build {t : ℕ} {code : JointCode} (hcode : JointCode.build freq t = .ok code)
    : JointCode.fromLengths code.lengths t = .ok code := by
  rw [JointCode.build] at hcode
  obtain ⟨size, _, hcode⟩ := bind_eq_ok hcode
  obtain ⟨_, hcode⟩ := refuse_eq_ok hcode
  obtain ⟨_, hcode⟩ := refuse_eq_ok hcode
  obtain ⟨natural, _, hcode⟩ := bind_eq_ok hcode
  obtain ⟨limited, _, hcode⟩ := bind_eq_ok hcode
  obtain ⟨_, hlengths⟩ := fromLengths_eq_ok_iff.mp hcode
  rw [← hlengths] at hcode ⊢
  exact hcode

theorem build_eq {t : ℕ} (ht : 1 ≤ t ∧ t ≤ maxJointPlanes) (hfreq : freq.length = 3 ^ t)
    (htotal : freq.sum < 2 ^ 64) :
    ∃ lengths, JointCode.build freq t = .ok (canonicalCode t lengths) ∧ CodeLengths t lengths ∧
      LimitedLengths freq lengths ∧ kraftUnits maxCodeLen lengths ≤ 2 ^ maxCodeLen := by
  have hcapacity : (liveSymbols freq).length ≤ 2 ^ maxCodeLen :=
    (liveSymbols_length_le freq).trans (hfreq.trans_le (three_pow_le ht.2))
  obtain ⟨natural, hnatural, hnaturalLengths⟩ := huffmanLengths_natural htotal
  obtain ⟨limited, hlimited, hlimitedLengths, hkraft⟩ := limitLengths_eq hnaturalLengths hcapacity
  have hshort : longest limited ≤ maxCodeLen := hlimitedLengths.longest_le
  have hlengths : CodeLengths t limited :=
    ⟨ht, hlimitedLengths.length_eq.trans hfreq, hshort, kraftUnits_longest hshort hkraft⟩
  refine ⟨limited, ?_, hlengths, hlimitedLengths, hkraft⟩
  rw [JointCode.build, alphabet_eq_ok_iff.mpr ⟨ht, rfl⟩, ok_bind, if_neg (not_not.mpr hfreq)]
  rw [List.countP_eq_length_filter, filter_pos_eq, List.length_map,
    if_neg (not_lt.mpr hcapacity), hnatural, ok_bind, hlimited, ok_bind, fromLengths_eq hlengths]

/-- **Joint code round trip.** A table of `3 ^ t` frequencies has a prefix code of at most 15 bits
for exactly the symbols that occur, and every list of those symbols comes back from its stream, as a
whole and block by block. -/
theorem jointCode_roundTrip {t : ℕ} (ht : 1 ≤ t ∧ t ≤ maxJointPlanes) {freq : List ℕ}
    (hfreq : freq.length = 3 ^ t) (htotal : freq.sum < 2 ^ 64) :
    ∃ code, JointCode.build freq t = .ok code ∧ code.lengths.length = 3 ^ t ∧
      (∀ length ∈ code.lengths, length ≤ 15) ∧
      (∀ symbol, 0 < code.lengths.getD symbol 0 ↔ 0 < freq.getD symbol 0) ∧
      kraftSum code.lengths ≤ 1 ∧
      ∀ (symbols : List ℕ) (block : ℕ), (∀ symbol ∈ symbols, 0 < freq.getD symbol 0) → 1 ≤ block →
        symbols.length < 2 ^ 60 →
        ∃ stream, encode code symbols block = .ok stream ∧ decode code stream = .ok symbols ∧
          stream.blockOffsets.length = (symbols.length + block - 1) / block ∧
          ∀ index < (symbols.length + block - 1) / block,
            decodeBlock code stream index = .ok ((symbols.drop (index * block)).take block) := by
  obtain ⟨lengths, hbuild, hlengths, hlimited, hkraft⟩ := build_eq ht hfreq htotal
  have hshort : ∀ length ∈ lengths, length ≤ maxCodeLen :=
    fun length hlength => (le_longest hlength).trans hlengths.le_max
  refine ⟨canonicalCode t lengths, hbuild, hlengths.length_eq, hshort, hlimited.live,
    kraftSum_le_one hshort hkraft, ?_⟩
  intro symbols block hsymbols hblock hcount
  obtain ⟨stream, hencode, hholds⟩ := encode_holds (canonicalCode_canonical hlengths) hblock
    (fun symbol hsymbol => (hlimited.live symbol).mpr (hsymbols symbol hsymbol)) hcount
  exact ⟨stream, hencode, hholds.whole, hholds.blocks, hholds.each⟩

theorem jointCode_roundTrip_sample :
    ∃ code stream, JointCode.build [2, 0, 1] 1 = .ok code ∧
      encode code [0, 2, 0] 2 = .ok stream ∧ decode code stream = .ok [0, 2, 0] ∧
      decodeBlock code stream 1 = .ok [0] := by
  obtain ⟨code, hbuild, _, _, _, _, hstreams⟩ :=
    @jointCode_roundTrip 1 (by decide) [2, 0, 1] rfl (by decide)
  obtain ⟨stream, hencode, hdecode, _, hblocks⟩ :=
    hstreams [0, 2, 0] 2 (by decide) (by decide) (by decide)
  exact ⟨code, stream, hbuild, hencode, hdecode, hblocks 1 (by decide)⟩

end Tritium.Salt
