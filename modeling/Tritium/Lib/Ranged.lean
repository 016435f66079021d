import Tritium.Lib.Stateful

/-!
# Programs over ranges

Code that is generic over its source, and reaches the source only by asking for ranges of numbered
blobs. A range that cannot be had ends the program with the error of the source.
-/

namespace Tritium

inductive Ranged (ε α : Type) where
  | done (outcome : Outcome ε α)
  | request (blob offset count : ℕ) (next : List UInt8 → Ranged ε α)

namespace Ranged

variable {ε ε' ε'' α β : Type} {served : ℕ → ℕ → ℕ → Outcome ε' (List UInt8)}

def bind (program : Ranged ε α) (rest : α → Ranged ε β) : Ranged ε β :=
  match program with
  | done (.ok value) => rest value
  | done (.err error) => done (.err error)
  | done .panic => done .panic
  | request blob offset count next =>
    request blob offset count fun bytes => (next bytes).bind rest

instance : Monad (Ranged ε) where
  pure value := done (.ok value)
  bind := bind

def readRange (blob offset count : ℕ) : Ranged ε (List UInt8) :=
  request blob offset count fun bytes => done (.ok bytes)

def run {m : Type → Type} [Monad m] (readRange : ℕ → ℕ → ℕ → m (List UInt8))
    (settle : Outcome ε α → m α) : Ranged ε α → m α
  | done outcome => settle outcome
  | request blob offset count next => do
    let bytes ← readRange blob offset count
    (next bytes).run readRange settle

/-- A source that answers every request like a pure one runs every program like it. -/
theorem run_implements {σ : Type} {invariant : σ → Prop}
    {readRange : ℕ → ℕ → ℕ → Stateful σ ε' (List UInt8)} (hserved : ∀ blob offset count,
      Stateful.Implements invariant (readRange blob offset count) (served blob offset count))
    (convert : ε → ε') (program : Ranged ε α) :
    Stateful.Implements invariant
      (program.run readRange fun outcome => lift (outcome.mapErr convert))
      (program.run served (·.mapErr convert)) := by
  induction program with
  | done outcome => exact Stateful.Implements.lift _
  | request blob offset count next ih =>
    exact (hserved blob offset count).bind fun bytes _ => ih bytes

/-- Two sources that have the same ranges let the same programs succeed, whatever their errors. -/
theorem run_eq_ok_congr {served' : ℕ → ℕ → ℕ → Outcome ε'' (List UInt8)}
    (hserved : ∀ blob offset count bytes,
      served blob offset count = .ok bytes ↔ served' blob offset count = .ok bytes)
    (convert : ε → ε') (convert' : ε → ε'') (program : Ranged ε α) (value : α) :
    program.run served (·.mapErr convert) = .ok value ↔
      program.run served' (·.mapErr convert') = .ok value := by
  induction program with
  | done outcome => rw [run, run, Outcome.mapErr_eq_ok_iff, Outcome.mapErr_eq_ok_iff]
  | request blob offset count next ih =>
    rw [run, run, Outcome.bind_eq_ok_iff, Outcome.bind_eq_ok_iff]
    simp only [hserved, ih]

end Ranged

end Tritium
