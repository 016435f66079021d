import Tritium.Package.Manifest

/-!
# The check of a manifest does not panic

Whatever the bytes are, every index and slice on the way is inside them and no subtraction wraps.
-/

namespace Tritium.Package

open Cbor

variable (bytes : List UInt8) {position : ℕ}

/-- A call that moved from one position in the bytes to a later one. -/
def Advances (position stop : ℕ) : Prop := position ≤ stop ∧ stop ≤ bytes.length

theorem take_returns (position count : ℕ) :
    (take bytes position count).Returns fun out =>
      out.1.length = count ∧ Advances bytes position out.2 := by
  rw [take]
  refine (Outcome.okOr_returns fun stop hstop => hstop).bind fun stop hstop => ?_
  obtain ⟨_, rfl⟩ := checkedAdd_eq_some_iff.mp hstop
  refine (Outcome.okOr_returns fun out hout => hout).bind fun out hout => ?_
  obtain ⟨hle, hlength, _⟩ := subslice_eq_some_iff.mp hout
  refine ⟨?_, hle, hlength⟩
  simp [length_of_subslice hout]

theorem head_returns (position : ℕ) :
    (head bytes position).Returns fun out => Advances bytes position out.2 := by
  refine (take_returns bytes position 1).bind ?_
  rintro ⟨first, next⟩ ⟨hfirst, hle, hlength⟩
  dsimp only at hfirst hle hlength ⊢
  rw [index_of_lt (by omega)]
  refine Outcome.Returns.refuse fun _ => ?_
  split
  · split
    · exact ⟨hle, hlength⟩
    · trivial
  · split
    · exact ⟨hle, hlength⟩
    · rw [wideHead]
      refine (okOr_total _ _).bind fun form _ => ?_
      refine (take_returns bytes next form.1).bind ?_
      rintro ⟨field, stop⟩ ⟨_, hnext, hstop⟩
      exact Outcome.Returns.refuse fun _ => ⟨hle.trans hnext, hstop⟩

theorem count_returns (argument remaining : ℕ) {minimumBytes : ℕ} (hpos : 0 < minimumBytes) :
    (count argument remaining minimumBytes).Returns fun _ => True := by
  rw [count]
  refine (okOr_total _ _).bind fun length _ => ?_
  rw [div_of_pos hpos]
  exact Outcome.Returns.refuse fun _ => trivial

theorem payload_returns (hposition : position ≤ bytes.length) (header : Head) :
    (payload bytes position header).Returns (Advances bytes position) := by
  rw [payload, sub_of_le hposition]
  refine (count_returns _ _ one_pos).bind fun length _ => ?_
  refine (take_returns bytes position length).bind ?_
  rintro ⟨field, stop⟩ ⟨_, hadvance⟩
  exact Outcome.Returns.refuse fun _ => hadvance

theorem scalar_returns (hposition : position ≤ bytes.length) (header : Head) :
    (scalar bytes position header).Returns fun out => Advances bytes position out.2 := by
  rw [scalar]
  split
  · exact ⟨le_rfl, hposition⟩
  · split
    · exact (payload_returns bytes hposition header).bind fun _ hstop => hstop
    · exact ⟨le_rfl, hposition⟩

theorem key_returns (levels position : ℕ) :
    (key bytes levels position).Returns fun stop => Advances bytes position stop := by
  rw [key]
  refine Outcome.Returns.refuse fun _ => (head_returns bytes position).bind ?_
  rintro ⟨header, next⟩ ⟨hnext, hlength⟩
  refine (scalar_returns bytes hlength header).bind ?_
  rintro ⟨isScalar, stop⟩ ⟨hstop, hstopLength⟩
  cases isScalar
  · trivial
  · exact ⟨hnext.trans hstop, hstopLength⟩

theorem nextKey_returns (levels position : ℕ) (previous : Option (List UInt8)) :
    (nextKey bytes levels position previous).Returns fun out => out.2 ≤ bytes.length := by
  rw [nextKey]
  refine (key_returns bytes levels position).bind fun stop hstop => ?_
  rw [slice_of_le hstop.1 hstop.2]
  exact Outcome.Returns.refuse fun _ => hstop.2

theorem item_returns (levels position : ℕ) :
    (item bytes levels position).Returns fun stop => stop ≤ bytes.length := by
  induction levels generalizing position with
  | zero => trivial
  | succ levels ih =>
    rw [item]
    refine (head_returns bytes position).bind ?_
    rintro ⟨header, next⟩ ⟨_, hlength⟩
    refine (scalar_returns bytes hlength header).bind ?_
    rintro ⟨isScalar, stop⟩ ⟨_, hstop⟩
    dsimp only at hstop ⊢
    cases isScalar
    · rw [if_neg Bool.false_ne_true, sub_of_le hstop]
      split
      · refine (count_returns _ _ one_pos).bind fun length _ => ?_
        exact Outcome.Returns.timesM (fun state _ => ih state) length hstop
      · split
        · refine (count_returns _ _ Nat.two_pos).bind fun length _ => ?_
          have hentry (state : ℕ × Option (List UInt8)) (_ : state.1 ≤ bytes.length) :
              (scanEntry bytes levels (item bytes levels) state).Returns
                fun next => next.1 ≤ bytes.length :=
            (nextKey_returns bytes levels state.1 state.2).bind fun out _ =>
              (ih out.2).bind fun _ hvalue => hvalue
          refine Outcome.Returns.bind (Outcome.Returns.timesM hentry length ?_) fun _ hout => hout
          exact hstop
        · trivial
    · exact hstop

theorem validateWithLimit_returns (limit : UInt64) :
    (validateWithLimit bytes limit).Returns fun _ => True := by
  rw [validateWithLimit]
  refine Outcome.Returns.refuse fun _ => (item_returns bytes _ _).bind fun stop _ => ?_
  exact Outcome.Returns.refuse fun _ => trivial

variable (codec : Codec)

theorem canonicalizeValue_returns (levels : ℕ) (value : Cbor.Item) :
    (canonicalizeValue codec levels value).Returns fun _ => True := by
  induction levels generalizing value with
  | zero =>
    rw [canonicalizeValue]
    trivial
  | succ levels ih =>
    cases value with
    | array items =>
      rw [canonicalizeValue]
      exact (Outcome.Returns.mapM fun entry _ => ih entry).bind fun _ _ => trivial
    | map entries =>
      rw [canonicalizeValue]
      refine (Outcome.Returns.mapM fun entry _ => ?_).bind fun _ _ =>
        Outcome.Returns.refuse fun _ => trivial
      exact (ih entry.1).bind fun _ _ => (ih entry.2).bind fun _ _ => trivial
    | tag number inner =>
      rw [canonicalizeValue]
      exact (ih inner).bind fun _ _ => trivial
    | float bits =>
      rw [canonicalizeValue]
      trivial
    | _ => trivial

theorem validateCanonicalManifest_returns :
    (validateCanonicalManifest codec bytes).Returns fun _ => True := by
  rw [validateCanonicalManifest]
  have hvalidate : validate bytes ≠ .panic := (validateWithLimit_returns bytes _).ne_panic
  cases hscan : validate bytes with
  | ok value => trivial
  | panic => exact absurd hscan hvalidate
  | err error =>
    cases error with
    | invalid => trivial
    | reference =>
      have hparse : (parseCanonicalManifest codec bytes).Returns fun _ => True := by
        rw [parseCanonicalManifest]
        refine Outcome.Returns.refuse fun _ => ?_
        refine (okOr_total _ _).bind fun value _ => ?_
        refine (canonicalizeValue_returns codec _ value).bind fun value _ => ?_
        refine (okOr_total _ _).bind fun encoded _ => ?_
        exact Outcome.Returns.refuse fun _ => trivial
      exact hparse.bind fun _ _ => trivial

end Tritium.Package
