import Mathlib.Data.List.Nodup
import Mathlib.Data.List.Perm.Subperm

/-!
# Ancestors

Each node has at most one parent, and following the parents may come to a root or never end.
-/

namespace Tritium

open List

variable {α : Type} (parent : α → Option α) {node other : α} {nodes : List α} {steps round : ℕ}

/-- The ancestor some links up. -/
def climb : ℕ → α → Option α
  | 0, node => some node
  | steps + 1, node => (parent node).bind (climb steps)

variable {parent}

theorem climb_add (first second : ℕ) (node : α) :
    climb parent (first + second) node = (climb parent first node).bind (climb parent second) := by
  induction first generalizing node with
  | zero => rw [Nat.zero_add, climb, Option.bind_some]
  | succ first ih =>
    rw [Nat.succ_add, climb, climb, Option.bind_assoc]
    exact Option.bind_congr fun next _ => ih next

theorem climb_isSome_of_le {first second : ℕ} (hle : first ≤ second)
    (hsome : (climb parent second node).isSome) : (climb parent first node).isSome := by
  rw [← Nat.add_sub_cancel' hle, climb_add] at hsome
  exact Option.isSome_of_isSome_bind hsome

/-- From a node that is its own ancestor the links never end. -/
theorem climb_isSome_of_cycle (hround : 0 < round) (hcycle : climb parent round node = some node)
    (steps : ℕ) : (climb parent steps node).isSome := by
  have hturns : ∀ turns, climb parent (turns * round) node = some node := by
    intro turns
    induction turns with
    | zero => rw [Nat.zero_mul, climb]
    | succ turns ih => rw [Nat.succ_mul, climb_add, ih, Option.bind_some, hcycle]
  have hsome : (climb parent (steps * round) node).isSome := by rw [hturns, Option.isSome_some]
  exact climb_isSome_of_le (Nat.le_mul_of_pos_right steps hround) hsome

theorem not_cycle_of_root (hsteps : climb parent steps node = some other)
    (hroot : parent other = none) {first : ℕ} {ancestor : α}
    (hfirst : climb parent first node = some ancestor) (hround : 0 < round) :
    climb parent round ancestor ≠ some ancestor := by
  intro hcycle
  have hend : climb parent (steps + 1) node = none := by
    rw [climb_add, hsteps, Option.bind_some, climb, hroot, Option.bind_none]
  have hlater := climb_isSome_of_cycle hround hcycle (steps + 1)
  have hsome : (climb parent (first + (steps + 1)) node).isSome := by
    rwa [climb_add, hfirst]
  have hnone := climb_isSome_of_le (Nat.le_add_left (steps + 1) first) hsome
  rw [hend] at hnone
  cases hnone

theorem steps_lt_length (hnodes : ∀ first ancestor, climb parent first node = some ancestor →
    ancestor ∈ nodes) (hsteps : climb parent steps node = some other)
    (hroot : parent other = none) : steps < nodes.length := by
  have hsome : ∀ first ≤ steps, ∃ ancestor, climb parent first node = some ancestor :=
    fun first hle => Option.isSome_iff_exists.mp
      (climb_isSome_of_le hle (by rw [hsteps, Option.isSome_some]))
  have hdistinct : ((range (steps + 1)).map fun first => climb parent first node).Nodup := by
    refine nodup_range.map_on fun first hfirst second hsecond heq => ?_
    wlog hlt : first < second generalizing first second
    · rcases Nat.eq_or_lt_of_not_lt hlt with rfl | hgt
      · rfl
      · exact (this second hsecond first hfirst heq.symm hgt).symm
    obtain ⟨ancestor, hancestor⟩ := hsome first (Nat.le_of_lt_succ (mem_range.mp hfirst))
    refine absurd ?_ (not_cycle_of_root hsteps hroot hancestor (Nat.sub_pos_of_lt hlt))
    rw [← Nat.add_sub_cancel' (Nat.le_of_lt hlt), climb_add, hancestor] at heq
    exact heq.symm
  have hsubset : ((range (steps + 1)).map fun first => climb parent first node) ⊆
      nodes.map some := by
    intro item hitem
    obtain ⟨first, hfirst, rfl⟩ := mem_map.mp hitem
    obtain ⟨ancestor, hancestor⟩ := hsome first (Nat.le_of_lt_succ (mem_range.mp hfirst))
    rw [hancestor]
    exact mem_map_of_mem (hnodes first ancestor hancestor)
  have hle := (subperm_of_subset hdistinct hsubset).length_le
  rwa [length_map, length_map, length_range] at hle

end Tritium
