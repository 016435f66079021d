import Tritium.Lib.Bytes
import Tritium.Serve.Generator

/-!
# Speculation is lossless

Whenever the speculative loop has a pending token, it is what the target answers to the history, so
the plain loop would sample the same token there. A verified chain keeps this, one committed token
after the other, and leaves the runner with exactly the history. Only a chain that does not fit the
cache is refused, and the loop asks for none.
-/

namespace Tritium.Serve

open List Outcome

variable {next : List UInt32 → UInt32} {g : Generation} {state : SpecState} {token : UInt32}

/-- The plain loop, from where the speculative one stands. -/
def plainFrom (next : List UInt32 → UInt32) (g : Generation) (state : SpecState) : List Step :=
  streamLoop next g (g.maxNew - state.emitted) state.history state.steps

/-- One turn of the plain loop emits what the speculative loop emits. -/
theorem plainFrom_eq (hroom : state.emitted < g.maxNew) :
    plainFrom next g state = let pending := next state.history
      if (state.emit g pending).1 then (state.emit g pending).2.steps
      else plainFrom next g ((state.emit g pending).2.push pending) := by
  obtain ⟨turns, hturns⟩ : ∃ turns, g.maxNew - state.emitted = turns + 1 :=
    ⟨g.maxNew - state.emitted - 1, by omega⟩
  have hindex : g.maxNew - (turns + 1) = state.emitted := by omega
  have hrest : g.maxNew - (state.emitted + 1) = turns := by omega
  have hlast : (state.emitted + 1 == g.maxNew) = decide (g.maxNew ≤ state.emitted + 1) := by
    rw [Bool.eq_iff_iff, beq_iff_eq, decide_eq_true_iff]
    omega
  rw [plainFrom, hturns, streamLoop]
  simp only [hindex, hlast, SpecState.emit, SpecState.push, plainFrom, hrest]
  cases g.onStep _ <;> cases (g.stopEos && next state.history == g.eos || _) <;> simp

/-- An emission that is not the last leaves budget for another one. -/
theorem lt_maxNew_of_emit (hgoes : (state.emit g token).1 = false) :
    state.emitted + 1 < g.maxNew := by
  simp only [SpecState.emit, Bool.or_eq_false_iff, decide_eq_false_iff_not] at hgoes
  omega

theorem acceptWalk_ne_nil (next : List UInt32 → UInt32) (kv : List UInt32) (token : UInt32)
    (drafts : List UInt32) : acceptWalk next kv token drafts ≠ [] := by
  cases drafts with
  | nil => exact cons_ne_nil _ _
  | cons draft drafts =>
    rw [acceptWalk]
    split_ifs <;> exact cons_ne_nil _ _

/-- The steps are reported, unless a refused draft ends the loop with an error. -/
def Reports (refused : Prop) (result : Option (List Step)) (steps : List Step) : Prop :=
  result = some steps ∨ result = none ∧ refused

/-- Emitting a verified chain, and going on from there as the plain loop does, is the plain loop. -/
theorem emitCommitted_reports {refused : Prop} {kv : List UInt32} (drafts : List UInt32)
    {goOn : SpecState → Option (List Step)} (hroom : state.emitted < g.maxNew)
    (hhistory : state.history = kv ++ [token])
    (hgoOn : ∀ after, after.emitted < g.maxNew → state.emitted ≤ after.emitted →
      after.history = kv ++ (token :: drafts).take (acceptWalk next kv token drafts).length →
      (acceptWalk next kv token drafts).getLast? = some (next after.history) →
      Reports refused (goOn after) (plainFrom next g after)) :
    Reports refused (emitCommitted g goOn (acceptWalk next kv token drafts).dropLast state)
      (plainFrom next g state) := by
  induction drafts generalizing kv token state with
  | nil => exact hgoOn state hroom (Nat.le_refl _) hhistory (by rw [hhistory]; rfl)
  | cons draft drafts ih =>
    rw [acceptWalk, ← hhistory] at hgoOn ⊢
    split_ifs at hgoOn ⊢ with hdraft
    · subst hdraft
      have hne := acceptWalk_ne_nil next state.history (next state.history) drafts
      rw [getLast?_cons_of_ne_nil hne] at hgoOn
      rw [dropLast_cons_of_ne_nil hne, plainFrom_eq hroom, emitCommitted]
      dsimp only
      cases hdone : (state.emit g (next state.history)).1 with
      | true => exact .inl rfl
      | false =>
        refine ih (lt_maxNew_of_emit hdone) rfl fun after hafter hle hend hlast => ?_
        refine hgoOn after hafter (Nat.le_of_succ_le hle) ?_ hlast
        rw [hend, hhistory]
        simp
    · exact hgoOn state hroom (Nat.le_refl _) hhistory rfl

variable {δ : Type} (drafter : Drafter δ) (nCtx : ℕ)

/-- A draft that does not fit the cache, although no more was asked for than fits. -/
def Drafter.Overlong : Prop :=
  ∃ own history maxDraft, history.length + maxDraft ≤ nCtx ∧
    nCtx < history.length + (drafter.draft own history maxDraft).length

theorem overlong_of_budgetedDraft {own : δ} (hdrafts : budgetedDraft g drafter nCtx own state ≠ [])
    (hfull : nCtx < state.history.length + (budgetedDraft g drafter nCtx own state).length) :
    drafter.Overlong nCtx := by
  rw [budgetedDraft] at hdrafts hfull
  split_ifs at hdrafts hfull with hnone
  · exact absurd rfl hdrafts
  · exact ⟨own, state.history, _, by omega, hfull⟩

theorem specLoop_reports (turns : ℕ) (own : δ) (hroom : state.emitted < g.maxNew)
    (hturns : g.maxNew - state.emitted ≤ turns) :
    Reports (drafter.Overlong nCtx)
      (specLoop next g drafter nCtx turns own state.history (next state.history) state)
      (plainFrom next g state) := by
  induction turns generalizing own state with
  | zero => omega
  | succ turns ih =>
    rw [specLoop, plainFrom_eq hroom]
    dsimp only
    cases hdone : (state.emit g (next state.history)).1 with
    | true => exact .inl rfl
    | false =>
      have hmore := lt_maxNew_of_emit hdone
      rw [if_neg Bool.false_ne_true, if_neg Bool.false_ne_true]
      generalize hpushed : (state.emit g (next state.history)).2.push (next state.history) = pushed
      have hhistory : pushed.history = state.history ++ [next state.history] := by
        rw [← hpushed]
        rfl
      have hemitted : pushed.emitted = state.emitted + 1 := by
        rw [← hpushed]
        rfl
      rw [← hemitted] at hmore
      rw [← hhistory]
      split_ifs with hdrafts
      · exact ih _ hmore (by omega)
      · rw [treeVerifyGreedy]
        split_ifs with hfull
        · refine .inr ⟨rfl, overlong_of_budgetedDraft drafter nCtx hdrafts ?_⟩
          rw [hhistory, length_append, length_singleton]
          rw [length_cons] at hfull
          omega
        · refine emitCommitted_reports _ hmore hhistory fun after hafter hle hend hlast => ?_
          rw [hlast, ← hend]
          exact ih _ hafter (by omega)

theorem generateSpecLookup_reports (own : δ) :
    Reports (drafter.Overlong nCtx) (generateSpecLookup next g drafter nCtx own)
      (streamSteps next g) := by
  rw [generateSpecLookup, streamSteps]
  split_ifs with hnone
  · rw [hnone]
    exact .inl rfl
  · let start : SpecState := ⟨g.promptTokens, 0, []⟩
    have hroom : start.emitted < g.maxNew := Nat.pos_of_ne_zero hnone
    exact specLoop_reports drafter nCtx g.maxNew own hroom (Nat.sub_le _ _)

theorem length_lookupDraft_le {history drafts : List UInt32} {maxDraft : ℕ}
    (hdrafts : lookupDraft history maxDraft = .ok drafts) : drafts.length ≤ maxDraft := by
  rw [lookupDraft] at hdrafts
  split_ifs at hdrafts
  · cases hdrafts
    exact Nat.zero_le _
  · obtain ⟨best, _, hdrafts⟩ := bind_eq_ok hdrafts
    dsimp only at hdrafts
    split_ifs at hdrafts
    · cases hdrafts
      exact Nat.zero_le _
    · obtain ⟨stop, hstop, hdrafts⟩ := bind_eq_ok hdrafts
      obtain ⟨_, rfl⟩ := add_eq_ok_iff.mp hstop
      have hlength := length_of_subslice (slice_eq_ok_iff.mp hdrafts)
      omega

theorem lookupDrafter_not_overlong (want : δ → ℕ)
    (observe : δ → List UInt32 → List UInt32 → List UInt32 → δ) :
    ¬ (lookupDrafter want observe).Overlong nCtx := by
  rintro ⟨own, history, maxDraft, hroom, hfull⟩
  have hle : ((lookupDrafter want observe).draft own history maxDraft).length ≤ maxDraft := by
    dsimp only [lookupDrafter]
    split
    · exact length_lookupDraft_le ‹_›
    · exact Nat.zero_le _
  omega

/-- **Greedy speculative decoding is lossless.** Whatever is drafted, it reports the steps of the
plain loop, unless the verifier refuses a draft that does not fit the cache although no more was
asked for than fits. Prompt lookup drafts none such. -/
theorem generateSpecLookup_eq_streamSteps (next : List UInt32 → UInt32) (g : Generation)
    {δ : Type} (own : δ) (nCtx : ℕ) :
    (∀ drafter : Drafter δ,
      generateSpecLookup next g drafter nCtx own = some (streamSteps next g) ∨
        generateSpecLookup next g drafter nCtx own = none ∧ drafter.Overlong nCtx) ∧
      ∀ want observe, generateSpecLookup next g (lookupDrafter want observe) nCtx own =
        some (streamSteps next g) := by
  refine ⟨fun drafter => generateSpecLookup_reports drafter nCtx own, fun want observe => ?_⟩
  obtain hsteps | ⟨_, hoverlong⟩ :=
    @generateSpecLookup_reports next g _ (lookupDrafter want observe) nCtx own
  · exact hsteps
  · exact absurd hoverlong (lookupDrafter_not_overlong nCtx want observe)

end Tritium.Serve
