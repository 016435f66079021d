import Tritium.Serve.Lookup
import Mathlib.Data.Nat.Find

/-!
# The lookup finds the longest match, and the most recent of these
-/

namespace Tritium.Serve

open List Outcome

variable {history : List UInt32} {e n : ℕ} {best : ℕ × ℕ}

/-- The history and its first `e` tokens end in the same `n` tokens. -/
def EndsAlike (history : List UInt32) (e n : ℕ) : Prop :=
  ∀ k < n, k < e ∧ history[e - 1 - k]? = history[history.length - 1 - k]?

instance : DecidablePred (EndsAlike history e) := fun n => Nat.decidableBallLT n _

def matchCap (history : List UInt32) : ℕ := min maxNgram (history.length - 1)

/-- The length of the longest common suffix, capped. -/
def matchLength (history : List UInt32) (e : ℕ) : ℕ :=
  Nat.findGreatest (EndsAlike history e) (matchCap history)

/-- No match is longer, and none as long is more recent. -/
structure IsBest (history : List UInt32) (e : ℕ) : Prop where
  two_le : 2 ≤ e
  lt_length : e < history.length
  two_le_match : 2 ≤ matchLength history e
  best : ∀ e', 2 ≤ e' → e' < history.length → matchLength history e' < matchLength history e ∨
    matchLength history e' = matchLength history e ∧ e' ≤ e

theorem matchLength_eq (hends : EndsAlike history e n) (hcap : n ≤ matchCap history)
    (hstops : n < matchCap history → ¬EndsAlike history e (n + 1)) : matchLength history e = n := by
  refine Nat.findGreatest_eq_iff.mpr ⟨hcap, fun _ => hends, fun m hm hle hlonger => ?_⟩
  exact hstops (hm.trans_le hle) fun k hk => hlonger k (hk.trans_le hm)

section Scan

variable (hlt : e < history.length)

include hlt

theorem tokensBack (hn : n < e) : ∃ earlier own, tokenBack history e n = .ok earlier ∧
    tokenBack history history.length n = .ok own ∧
      (earlier = own ↔ history[e - 1 - n]? = history[history.length - 1 - n]?) := by
  have hearlier : e - 1 - n < history.length := by omega
  have hown : history.length - 1 - n < history.length := by omega
  refine ⟨_, _, ?_, ?_, by rw [getElem?_eq_getElem hearlier, getElem?_eq_getElem hown,
    Option.some.injEq]⟩
  all_goals
    rw [tokenBack, sub_of_le (by omega), ok_bind, sub_of_le (by omega), ok_bind, index_of_lt]

theorem extendMatch_eq (left : ℕ) (hleft : left ≤ matchCap history)
    (hends : EndsAlike history e (matchCap history - left)) :
    extendMatch history (matchCap history) e left = .ok (matchLength history e) := by
  induction left with
  | zero => rw [extendMatch, matchLength_eq hends le_rfl (by omega)]; rfl
  | succ left ih =>
    have hnext : matchCap history - left = matchCap history - (left + 1) + 1 := by omega
    rw [extendMatch]
    generalize matchCap history - (left + 1) = n at hends hnext ⊢
    split_ifs with hmore
    · obtain ⟨earlier, own, hearlier, hown, hiff⟩ := tokensBack hlt hmore
      rw [hearlier, ok_bind, hown, ok_bind]
      split_ifs with hsame
      · refine ih (by omega) ?_
        rw [hnext, EndsAlike, Nat.forall_lt_succ_right]
        exact ⟨hends, hmore, hiff.mp hsame⟩
      · rw [matchLength_eq hends (by omega) fun _ hlonger =>
          hsame (hiff.mpr (hlonger n n.lt_succ_self).2)]
    · rw [matchLength_eq hends (by omega) fun _ hlonger => hmore (hlonger n n.lt_succ_self).1]

/-- One candidate: a longer match becomes the best one, and one at the cap ends the scan. -/
theorem scanEnds_succ {count : ℕ} (he : e = minNgram + count) :
    scanEnds history (matchCap history) (count + 1) best =
      if 2 ≤ matchLength history e ∧ best.1 < matchLength history e then
        if matchLength history e = matchCap history then .ok (matchLength history e, e)
        else scanEnds history (matchCap history) count (matchLength history e, e)
      else scanEnds history (matchCap history) count best := by
  subst he
  have hpos : 0 < minNgram + count := Nat.add_pos_left Nat.two_pos _
  have hcap : 1 ≤ matchCap history := by
    rw [matchCap, maxNgram]
    omega
  obtain ⟨earlier, own, hearlier, hown, hiff⟩ := tokensBack hlt hpos
  rw [scanEnds, hearlier, ok_bind, hown, ok_bind]
  by_cases hsame : earlier = own
  · have hone : EndsAlike history (minNgram + count) (matchCap history - (matchCap history - 1)) := by
      rw [Nat.sub_sub_self hcap]
      intro k hk
      obtain rfl : k = 0 := by omega
      exact ⟨hpos, hiff.mp hsame⟩
    rw [if_neg (not_not.mpr hsame), extendMatch_eq hlt _ (Nat.sub_le _ _) hone]
    rfl
  · have hzero := matchLength_eq (fun k hk => absurd hk k.not_lt_zero) (Nat.zero_le _)
      fun _ hlonger => hsame (hiff.mpr (hlonger 0 Nat.one_pos).2)
    rw [if_pos hsame, hzero, if_neg (by omega)]

end Scan

/-- The state of the scan once the candidates from `first` on are seen. -/
structure BestFrom (history : List UInt32) (first : ℕ) (best : ℕ × ℕ) : Prop where
  found : best.1 ≠ 0 → 2 ≤ best.1 ∧ matchLength history best.2 = best.1 ∧ first ≤ best.2 ∧
    best.2 < history.length
  others : ∀ e, first ≤ e → e < history.length → matchLength history e < 2 ∨
    matchLength history e < best.1 ∨ matchLength history e = best.1 ∧ e ≤ best.2

theorem scanEnds_best (count : ℕ) (hcount : minNgram + count ≤ history.length)
    (hbest : BestFrom history (minNgram + count) best) :
    ∃ result, scanEnds history (matchCap history) count best = .ok result ∧
      BestFrom history 2 result := by
  induction count generalizing best with
  | zero => exact ⟨best, rfl, hbest⟩
  | succ count ih =>
    obtain ⟨hfound, hothers⟩ := hbest
    rw [← add_assoc] at hcount hfound hothers
    rw [scanEnds_succ hcount rfl]
    have hmin : 2 ≤ minNgram + count := Nat.le_add_right _ _
    generalize minNgram + count = e at *
    split_ifs with hlonger hfull
    · refine ⟨_, rfl, fun _ => ⟨hlonger.1, rfl, hmin, hcount⟩, fun e' he' hlt => ?_⟩
      have hle : matchLength history e' ≤ matchCap history := Nat.findGreatest_le _
      have := hothers e'
      dsimp only
      omega
    · refine ih (Nat.le_of_lt hcount) ⟨fun _ => ⟨hlonger.1, rfl, le_rfl, hcount⟩, fun e' he' hlt => ?_⟩
      obtain rfl | hlater := eq_or_lt_of_le he'
      · omega
      · have := hothers e' hlater hlt
        dsimp only
        omega
    · refine ih (Nat.le_of_lt hcount) ⟨fun hne => ?_, fun e' he' hlt => ?_⟩
      · have := hfound hne
        omega
      · obtain rfl | hlater := eq_or_lt_of_le he'
        · omega
        · exact hothers e' hlater hlt

/-- **Prompt lookup drafts behind the best match**, and drafts nothing just when no two tokens
match. Positions are `usize`, so the end of the draft has to be one. -/
theorem lookupDraft_eq {maxDraft : ℕ} (hdraft : 0 < maxDraft)
    (hfits : history.length + maxDraft < 2 ^ 64) :
    (lookupDraft history maxDraft = .ok [] ↔
      ∀ e, 2 ≤ e → e < history.length → matchLength history e < 2) ∧
    (lookupDraft history maxDraft ≠ .ok [] → ∃ e, IsBest history e ∧
      lookupDraft history maxDraft =
        .ok ((history.take (min (e + maxDraft) history.length)).drop e)) := by
  rw [lookupDraft]
  dsimp only
  by_cases hshort : history.length < minNgram + 1
  · rw [if_pos (.inr hshort), minNgram] at *
    exact ⟨iff_of_true rfl (by omega), fun hne => absurd rfl hne⟩
  rw [if_neg (by omega)]
  obtain ⟨best, hscan, hfound, hothers⟩ := @scanEnds_best history (0, 0) (history.length - minNgram)
    (by omega) ⟨fun hne => absurd rfl hne, by omega⟩
  rw [← matchCap, hscan, ok_bind]
  split_ifs with hnone
  · refine ⟨iff_of_true rfl fun e he hlt => ?_, fun hne => absurd rfl hne⟩
    have := hothers e he hlt
    omega
  · obtain ⟨htwo, hlength, hmin, hlt⟩ := hfound (by omega)
    rw [add_of_lt (by omega), ok_bind, slice_of_le (by omega) (min_le_right _ _)]
    refine ⟨iff_of_false (fun hempty => ?_) fun hall => ?_, fun _ =>
      ⟨best.2, ⟨hmin, hlt, by omega, fun e he hlt => ?_⟩, rfl⟩⟩
    · have hlength := congrArg length (ok.inj hempty)
      rw [length_drop, length_take, length_nil] at hlength
      omega
    · have := hall best.2 hmin hlt
      omega
    · have := hothers e he hlt
      omega

/-- The end of the draft is added without a check, so a limit near `2 ^ 64` overflows. -/
theorem lookupDraft_overflow :
    lookupDraft [1, 1, 1] (2 ^ 64 - 1) = .panic ∧ 2 ≤ matchLength [1, 1, 1] 2 := by
  decide

theorem lookupDraft_eq_sample : ∃ e, IsBest [5, 6, 1, 5, 6, 2, 5, 6] e ∧
    lookupDraft [5, 6, 1, 5, 6, 2, 5, 6] 2 =
      .ok (([5, 6, 1, 5, 6, 2, 5, 6].take (min (e + 2) 8)).drop e) :=
  (lookupDraft_eq (by decide) (by decide)).2 (by decide)

end Tritium.Serve
