import Tritium.Lib.Outcome
import Mathlib.Algebra.BigOperators.Group.List.Basic
import Mathlib.Algebra.GroupWithZero.Nat

/-!
# Machine integers

Unsigned integers of a given width are natural numbers. The checked operations return `none` when
the result does not fit; the plain ones panic there.
-/

namespace Tritium

variable {ε : Type} {error : ε} {bits left right value result : ℕ}

def checkedAdd (bits left right : ℕ) : Option ℕ :=
  if left + right < 2 ^ bits then some (left + right) else none

def checkedMul (bits left right : ℕ) : Option ℕ :=
  if left * right < 2 ^ bits then some (left * right) else none

def checkedSub (left right : ℕ) : Option ℕ :=
  if right ≤ left then some (left - right) else none

/-- The conversion of an integer to the given width, when it fits. -/
def tryInto (bits value : ℕ) : Option ℕ :=
  if value < 2 ^ bits then some value else none

def isPowerOfTwo (value : ℕ) : Bool := value = 2 ^ Nat.log2 value

/-- A vector holds at most `isize::MAX` bytes; one that would outgrow this panics. -/
def Outcome.vector {ε : Type} (bytes : List UInt8) : Outcome ε (List UInt8) :=
  if bytes.length < 2 ^ 63 then .ok bytes else .panic

theorem checkedAdd_of_lt (hlt : left + right < 2 ^ bits) :
    checkedAdd bits left right = some (left + right) := if_pos hlt

theorem checkedMul_of_lt (hlt : left * right < 2 ^ bits) :
    checkedMul bits left right = some (left * right) := if_pos hlt

theorem checkedSub_of_le (hle : right ≤ left) :
    checkedSub left right = some (left - right) := if_pos hle

theorem tryInto_of_lt (hlt : value < 2 ^ bits) :
    tryInto bits value = some value := if_pos hlt

theorem checkedAdd_eq_some_iff :
    checkedAdd bits left right = some result ↔ left + right < 2 ^ bits ∧ left + right = result := by
  simp [checkedAdd]

theorem tryInto_eq_some_iff :
    tryInto bits value = some result ↔ value < 2 ^ bits ∧ value = result := by
  simp [tryInto]

theorem checkedMul_eq_some_iff :
    checkedMul bits left right = some result ↔ left * right < 2 ^ bits ∧ left * right = result := by
  simp [checkedMul]

theorem checkedAdd_eq_ok
    (hresult : Outcome.okOr (checkedAdd bits left right) error = .ok result) :
    left + right < 2 ^ bits ∧ left + right = result :=
  checkedAdd_eq_some_iff.mp (Outcome.okOr_eq_ok_iff.mp hresult)

theorem checkedMul_eq_ok
    (hresult : Outcome.okOr (checkedMul bits left right) error = .ok result) :
    left * right < 2 ^ bits ∧ left * right = result :=
  checkedMul_eq_some_iff.mp (Outcome.okOr_eq_ok_iff.mp hresult)

theorem tryInto_eq_ok (hresult : Outcome.okOr (tryInto bits value) error = .ok result) :
    value < 2 ^ bits ∧ value = result :=
  tryInto_eq_some_iff.mp (Outcome.okOr_eq_ok_iff.mp hresult)

theorem checkedSub_eq_some_iff :
    checkedSub left right = some result ↔ right ≤ left ∧ left - right = result := by
  simp [checkedSub]

/-- A running product of numbers fits when all its leading parts do. -/
theorem foldlM_checkedMul_iff {shape : List ℕ} {product numel : ℕ} (hproduct : product < 2 ^ 64) :
    shape.foldlM (checkedMul 64) product = some numel ↔
      (∀ leading, leading <+: shape → product * leading.prod < 2 ^ 64) ∧
        product * shape.prod = numel := by
  induction shape generalizing product with
  | nil =>
    rw [List.foldlM_nil, Option.pure_def, Option.some.injEq, List.prod_nil, mul_one]
    refine (and_iff_right fun leading hleading => ?_).symm
    rwa [List.eq_nil_of_prefix_nil hleading, List.prod_nil, mul_one]
  | cons dimension shape ih =>
    rw [List.foldlM_cons, Option.bind_eq_bind, Option.bind_eq_some_iff]
    simp only [checkedMul_eq_some_iff, List.prefix_cons_iff, List.prod_cons, ← mul_assoc]
    constructor
    · rintro ⟨_, ⟨hlt, rfl⟩, hrest⟩
      obtain ⟨hleading, hnumel⟩ := (ih hlt).mp hrest
      refine ⟨?_, hnumel⟩
      rintro leading (rfl | ⟨rest, rfl, hrest⟩)
      · simpa using hproduct
      · simpa [← mul_assoc] using hleading rest hrest
    · rintro ⟨hleading, rfl⟩
      have hlt : product * dimension < 2 ^ 64 := by
        simpa using hleading [dimension] (.inr ⟨[], rfl, List.nil_prefix⟩)
      refine ⟨_, ⟨hlt, rfl⟩, (ih hlt).mpr ⟨fun rest hrest => ?_, rfl⟩⟩
      simpa [← mul_assoc] using hleading _ (.inr ⟨rest, rfl, hrest⟩)

namespace Outcome

theorem vector_eq_ok_iff {bytes result : List UInt8} :
    (vector bytes : Outcome ε _) = ok result ↔ bytes.length < 2 ^ 63 ∧ bytes = result := by
  rw [vector]
  split_ifs with hlength
  · rw [ok.injEq, and_iff_right hlength]
  · exact ⟨fun hpanic => absurd hpanic (by simp), fun hboth => absurd hboth.1 hlength⟩

def add (bits left right : ℕ) : Outcome ε ℕ := expect (checkedAdd bits left right)

def mul (bits left right : ℕ) : Outcome ε ℕ := expect (checkedMul bits left right)

def sub (left right : ℕ) : Outcome ε ℕ := expect (checkedSub left right)

def div (left right : ℕ) : Outcome ε ℕ := if right = 0 then panic else ok (left / right)

def rem (left right : ℕ) : Outcome ε ℕ := if right = 0 then panic else ok (left % right)

theorem add_of_lt (hlt : left + right < 2 ^ bits) :
    (add bits left right : Outcome ε ℕ) = ok (left + right) := by
  rw [add, checkedAdd_of_lt hlt, expect_some]

theorem mul_of_lt (hlt : left * right < 2 ^ bits) :
    (mul bits left right : Outcome ε ℕ) = ok (left * right) := by
  rw [mul, checkedMul_of_lt hlt, expect_some]

theorem sub_of_le (hle : right ≤ left) : (sub left right : Outcome ε ℕ) = ok (left - right) := by
  rw [sub, checkedSub_of_le hle, expect_some]

theorem add_eq_ok_iff : (add bits left right : Outcome ε ℕ) = ok result ↔
    left + right < 2 ^ bits ∧ left + right = result :=
  expect_eq_ok_iff.trans checkedAdd_eq_some_iff

theorem sub_eq_ok_iff :
    (sub left right : Outcome ε ℕ) = ok result ↔ right ≤ left ∧ left - right = result := by
  rw [sub, expect_eq_ok_iff, checkedSub_eq_some_iff]

theorem div_of_pos (hright : 0 < right) :
    (div left right : Outcome ε ℕ) = ok (left / right) := if_neg (Nat.pos_iff_ne_zero.mp hright)

theorem rem_of_pos (hright : 0 < right) :
    (rem left right : Outcome ε ℕ) = ok (left % right) := if_neg (Nat.pos_iff_ne_zero.mp hright)

theorem foldlM_eq_add_sum {α : Type} {items : List α} {step : ℕ → α → Outcome ε ℕ} {size : α → ℕ}
    {start total : ℕ} (hloop : items.foldlM step start = ok total)
    (hstep : ∀ sum item next, step sum item = ok next → next = sum + size item) :
    total = start + (items.map size).sum := by
  induction items generalizing start with
  | nil => exact (ok.inj hloop).symm
  | cons item items ih =>
    obtain ⟨next, hnext, hrest⟩ := foldlM_cons_eq_ok hloop
    rw [ih hrest, hstep _ _ _ hnext, List.map_cons, List.sum_cons, Nat.add_assoc]

end Outcome

export Outcome (add_of_lt mul_of_lt sub_of_le add_eq_ok_iff sub_eq_ok_iff div_of_pos
  foldlM_eq_add_sum)

end Tritium
