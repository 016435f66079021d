import Mathlib.Tactic.Ring
import Mathlib.Tactic.Linarith

/-!
# Range asymmetric numeral systems

One symbol owns `frequency` of `scale` slots, from `start` on. Putting it into a number `x` maps `x`
to the `x`-th number whose residue is one of its slots, and getting it back is the inverse. A number
in `[unit * frequency, limit * frequency)` is put into `[unit * scale, limit * scale)`.
-/

namespace Tritium.Rans

variable {scale frequency start x : ℕ}

def put (scale frequency start x : ℕ) : ℕ := x / frequency * scale + x % frequency + start

def get (scale frequency start x : ℕ) : ℕ := frequency * (x / scale) + x % scale - start

theorem le_put (unit : ℕ) (hfrequency : 0 < frequency) (hx : unit * frequency ≤ x) :
    unit * scale ≤ put scale frequency start x := by
  have hdiv : unit ≤ x / frequency := (Nat.le_div_iff_mul_le hfrequency).mpr hx
  calc unit * scale ≤ x / frequency * scale := Nat.mul_le_mul_right scale hdiv
    _ ≤ put scale frequency start x := by
        rw [put, Nat.add_assoc]
        omega

variable (hfrequency : 0 < frequency) (hfits : start + frequency ≤ scale)

include hfrequency hfits

theorem slot_lt : x % frequency + start < scale := by
  have hmod := Nat.mod_lt x hfrequency
  omega

theorem put_mod : put scale frequency start x % scale = x % frequency + start := by
  rw [put, Nat.add_assoc, mul_comm, Nat.mul_add_mod, Nat.mod_eq_of_lt (slot_lt hfrequency hfits)]

theorem put_div : put scale frequency start x / scale = x / frequency := by
  have hslot : x % frequency + start < scale := slot_lt hfrequency hfits
  have hscale : 0 < scale := by omega
  rw [put, Nat.add_assoc, mul_comm, Nat.mul_add_div hscale, Nat.div_eq_of_lt hslot, add_zero]

theorem get_put : get scale frequency start (put scale frequency start x) = x := by
  rw [get, put_mod hfrequency hfits, put_div hfrequency hfits, ← Nat.add_assoc,
    Nat.add_sub_cancel, Nat.div_add_mod]

theorem put_lt (limit : ℕ) (hx : x < limit * frequency) :
    put scale frequency start x < limit * scale := by
  have hdiv : x / frequency + 1 ≤ limit := Nat.div_lt_of_lt_mul (by rwa [mul_comm])
  have hslot : x % frequency + start < scale := slot_lt hfrequency hfits
  calc put scale frequency start x < x / frequency * scale + scale := by
        rw [put, Nat.add_assoc]
        omega
    _ = (x / frequency + 1) * scale := by ring
    _ ≤ limit * scale := Nat.mul_le_mul_right scale hdiv

end Tritium.Rans
