import Mathlib.Data.List.Basic
import Mathlib.Order.MinMax

/-!
# Minima over ranges

`foldMin f start stop best` is the least of `best` and the values of `f` on `start .. stop`. A range
can be shortened from either end, and its values grouped into pairs or blocks, without changing the
minimum: this is all an iterative range-minimum tree does.
-/

namespace Tritium

variable {α : Type} [LinearOrder α]

def foldMin (f : ℕ → α) (start stop : ℕ) (best : α) : α :=
  (List.range' start (stop - start)).foldl (fun best k => min best (f k)) best

namespace foldMin

variable {f g : ℕ → α} {start stop : ℕ} {best : α}

theorem of_le (hle : stop ≤ start) : foldMin f start stop best = best := by
  rw [foldMin, Nat.sub_eq_zero_of_le hle]
  rfl

theorem shift_start (start : ℕ) (hlt : start < stop) :
    foldMin f start stop best = foldMin f (start + 1) stop (min best (f start)) := by
  rw [foldMin, show stop - start = stop - (start + 1) + 1 by omega]
  rfl

theorem append (middle : ℕ) (hstart : start ≤ middle) (hstop : middle ≤ stop) :
    foldMin f start stop best = foldMin f middle stop (foldMin f start middle best) := by
  rw [foldMin, foldMin, foldMin, ← List.foldl_append,
    show stop - start = (middle - start) + (stop - middle) by omega, ← List.range'_append_1,
    show start + (middle - start) = middle by omega]

theorem min_best (extra : α) :
    foldMin f start stop (min best extra) = min (foldMin f start stop best) extra := by
  unfold foldMin
  generalize List.range' start (stop - start) = ranks
  induction ranks generalizing best with
  | nil => rfl
  | cons rank ranks ih => rw [List.foldl_cons, List.foldl_cons, min_right_comm, ih]

theorem shift_stop (hlt : start < stop) :
    foldMin f start stop best = foldMin f start (stop - 1) (min best (f (stop - 1))) := by
  rw [append (stop - 1) (by omega) (by omega), min_best, shift_start (stop - 1) (by omega),
    of_le (by omega)]

theorem translate (offset : ℕ) :
    foldMin f (offset + start) (offset + stop) best =
      foldMin (fun k => f (offset + k)) start stop best := by
  rw [foldMin, foldMin, Nat.add_sub_add_left, ← List.map_add_range', List.foldl_map]

/-- Values that lower a running minimum as their blocks do. -/
theorem blocks {width : ℕ} (hblock : ∀ k, start ≤ k → k < stop → ∀ other ≤ best,
      min other (f k) = foldMin g (width * k) (width * (k + 1)) other) :
    foldMin f start stop best = foldMin g (width * start) (width * stop) best := by
  by_cases hle : stop ≤ start
  · rw [of_le hle, of_le (Nat.mul_le_mul_left width hle)]
  obtain ⟨count, rfl⟩ : ∃ count, stop = start + count := ⟨stop - start, by omega⟩
  clear hle
  induction count generalizing start best with
  | zero => rw [Nat.add_zero, of_le le_rfl, of_le le_rfl]
  | succ count ih =>
    rw [shift_start start (by omega), show start + (count + 1) = start + 1 + count by omega,
      ih fun k hk hlt other hother => hblock k (by omega) (by omega) other
        (hother.trans (min_le_left _ _)), hblock start le_rfl (by omega) best le_rfl]
    exact (append _ (Nat.mul_le_mul_left _ (by omega)) (Nat.mul_le_mul_left _ (by omega))).symm

theorem pairs (hpair : ∀ k, start ≤ k → k < stop → f k = min (f (2 * k)) (f (2 * k + 1))) :
    foldMin f start stop best = foldMin f (2 * start) (2 * stop) best := by
  refine blocks fun k hstart hstop other _ => ?_
  rw [hpair k hstart hstop, shift_start (2 * k) (by omega), shift_start (2 * k + 1) (by omega),
    of_le (by omega), min_assoc]

theorem blocks_of_bound {width : ℕ} {bound : α} (hbest : best ≤ bound)
    (hblock : ∀ k, start ≤ k → k < stop → f k = foldMin g (width * k) (width * (k + 1)) bound) :
    foldMin f start stop best = foldMin g (width * start) (width * stop) best := by
  refine blocks fun k hstart hstop other hother => ?_
  rw [hblock k hstart hstop, min_comm, ← min_best, min_comm, min_eq_left (hother.trans hbest)]

theorem le_best : foldMin f start stop best ≤ best := by
  have hmin := @min_best _ _ f start stop best best
  rw [min_self] at hmin
  exact hmin ▸ min_le_right _ _

theorem le_of_mem {k : ℕ} (hstart : start ≤ k) (hstop : k < stop) :
    foldMin f start stop best ≤ f k := by
  rw [append k hstart hstop.le, shift_start k hstop]
  exact le_best.trans (min_le_right _ _)

theorem eq_best_or_mem :
    foldMin f start stop best = best ∨
      ∃ k, start ≤ k ∧ k < stop ∧ foldMin f start stop best = f k := by
  by_cases hle : stop ≤ start
  · exact Or.inl (of_le hle)
  obtain ⟨count, rfl⟩ : ∃ count, stop = start + count := ⟨stop - start, by omega⟩
  clear hle
  induction count generalizing start best with
  | zero => exact Or.inl (of_le le_rfl)
  | succ count ih =>
    rw [shift_start start (by omega), show start + (count + 1) = start + 1 + count by omega]
    rcases @ih (start + 1) (min best (f start)) with heq | ⟨k, _, hlt, heq⟩
    · rw [heq]
      rcases min_choice best (f start) with hbest | hfirst
      · exact Or.inl hbest
      · exact Or.inr ⟨start, le_rfl, by omega, hfirst⟩
    · exact Or.inr ⟨k, by omega, hlt, heq⟩

end foldMin

end Tritium
