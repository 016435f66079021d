import Mathlib.Algebra.Order.BigOperators.Group.List
import Mathlib.Data.List.Infix
import Mathlib.Tactic.Linarith
import Mathlib.Tactic.Ring

/-!
# Prefix codes

A word of at most `width` bits stands for the interval of the `width`-bit numbers that start with
it. Words with disjoint intervals are not prefixes of each other, and the leaves of a full binary
tree have lengths whose intervals fill the whole range.
-/

namespace Tritium.PrefixCode

open List

variable {width : ℕ} {left right : List ℕ}

def value (bits : List ℕ) : ℕ := bits.foldl (fun total bit => 2 * total + bit) 0

def Binary (bits : List ℕ) : Prop := ∀ bit ∈ bits, bit < 2

theorem foldl_value (bits : List ℕ) (total : ℕ) :
    bits.foldl (fun total bit => 2 * total + bit) total = total * 2 ^ bits.length + value bits := by
  induction bits generalizing total with
  | nil => simp [value]
  | cons bit bits ih =>
    rw [value, foldl_cons, foldl_cons, ih, ih, length_cons]
    ring

theorem value_append (left right : List ℕ) :
    value (left ++ right) = value left * 2 ^ right.length + value right := by
  rw [value, foldl_append, foldl_value, ← value]

theorem value_concat (bits : List ℕ) (bit : ℕ) : value (bits ++ [bit]) = 2 * value bits + bit := by
  rw [value, foldl_append]
  rfl

theorem value_replicate_zero (length : ℕ) : value (replicate length 0) = 0 := by
  induction length with
  | zero => rfl
  | succ length ih => rw [replicate_succ', value_concat, ih]

theorem value_lt {bits : List ℕ} (hbits : Binary bits) : value bits < 2 ^ bits.length := by
  induction bits using reverseRecOn with
  | nil => exact one_pos
  | append_singleton bits bit ih =>
    obtain ⟨hinit, hlast⟩ := forall_mem_append.mp hbits
    have hbit : bit < 2 := hlast bit (mem_singleton_self bit)
    have hlt := ih hinit
    rw [value_concat, length_append, length_singleton]
    omega

theorem Binary.replicate_zero (length : ℕ) : Binary (replicate length 0) := by
  intro bit hbit
  rw [eq_of_mem_replicate hbit]
  decide

theorem Binary.append (hleft : Binary left) (hright : Binary right) :
    Binary (left ++ right) :=
  forall_mem_append.mpr ⟨hleft, hright⟩

def start (width : ℕ) (bits : List ℕ) : ℕ := value bits * 2 ^ (width - bits.length)

/-- The size of the interval of a word of a given length. -/
def weight (width length : ℕ) : ℕ := 2 ^ (width - length)

/-- The interval of the first word ends before that of the second starts. -/
def Before (width : ℕ) (first second : List ℕ) : Prop :=
  start width first + weight width first.length ≤ start width second

theorem weight_pos (width length : ℕ) : 0 < weight width length := Nat.two_pow_pos _

/-- A longer word's interval lies inside that of its prefixes. -/
theorem start_append (left right : List ℕ) (hwidth : (left ++ right).length ≤ width) :
    start width (left ++ right) =
      start width left + value right * weight width (left ++ right).length := by
  rw [length_append] at hwidth
  have hsplit : width - left.length = right.length + (width - (left ++ right).length) := by
    rw [length_append]
    omega
  rw [start, value_append, start, weight, hsplit]
  ring

theorem start_append_lt (hright : Binary right) (hwidth : (left ++ right).length ≤ width) :
    start width (left ++ right) < start width left + weight width left.length := by
  have hsplit : width - left.length = right.length + (width - (left ++ right).length) := by
    rw [length_append] at hwidth ⊢
    omega
  rw [start_append left right hwidth]
  apply Nat.add_lt_add_left
  rw [weight, weight, hsplit, pow_add]
  exact Nat.mul_lt_mul_of_pos_right (value_lt hright) (Nat.two_pow_pos _)

theorem Before.not_isPrefix {first second : List ℕ}
    (hbefore : Before width first second)
    (hfirst : first.length ≤ width) (hsecond : second.length ≤ width) (hbinary : Binary second) :
    ¬first <+: second ∧ ¬second <+: first := by
  rw [Before] at hbefore
  constructor
  · rintro ⟨rest, rfl⟩
    have hrest : Binary rest := fun bit hbit => hbinary bit (mem_append_right _ hbit)
    have hlt := start_append_lt hrest hsecond
    omega
  · rintro ⟨rest, rfl⟩
    have hpos := weight_pos width (second ++ rest).length
    rw [start_append second rest hfirst] at hbefore
    omega

/-! ### Canonical codes

Words handed out by increasing length have intervals that lie one behind the other.
-/

structure Slot (α : Type) where
  start : ℕ
  length : ℕ
  symbol : α

/-- The slots of symbols with the given lengths, from a start on. -/
def slots {α : Type} (width : ℕ) : ℕ → List (ℕ × α) → List (Slot α)
  | _, [] => []
  | used, (length, symbol) :: rest =>
    ⟨used, length, symbol⟩ :: slots width (used + weight width length) rest

section Slots

variable {α : Type} {used : ℕ} {order : List (ℕ × α)} {slot : Slot α}

theorem map_slots (width used : ℕ) (order : List (ℕ × α)) :
    ((slots width used order).map fun slot => (slot.length, slot.symbol)) = order := by
  induction order generalizing used with
  | nil => rfl
  | cons entry order ih => rw [slots, map_cons, ih]

theorem mem_of_mem_slots (hslot : slot ∈ slots width used order) :
    (slot.length, slot.symbol) ∈ order := by
  rw [← map_slots width used order]
  exact mem_map.mpr ⟨slot, hslot, rfl⟩

theorem exists_mem_slots {entry : ℕ × α} (hentry : entry ∈ order) :
    ∃ slot ∈ slots width used order, (slot.length, slot.symbol) = entry := by
  rw [← map_slots width used order] at hentry
  exact mem_map.mp hentry

theorem slots_bounds (hslot : slot ∈ slots width used order) :
    used ≤ slot.start ∧ slot.start + weight width slot.length ≤
      used + (order.map fun entry => weight width entry.1).sum := by
  induction order generalizing used with
  | nil => cases hslot
  | cons entry order ih =>
    rw [map_cons, sum_cons]
    obtain rfl | hslot := mem_cons.mp hslot
    · simp
    · have hbounds := ih hslot
      omega

theorem slots_pairwise (width used : ℕ) (order : List (ℕ × α)) :
    (slots width used order).Pairwise fun left right =>
      left.start + weight width left.length ≤ right.start := by
  induction order generalizing used with
  | nil => exact List.Pairwise.nil
  | cons entry order ih =>
    exact pairwise_cons.mpr ⟨fun slot hslot => (slots_bounds hslot).1, ih _⟩

theorem weight_dvd_weight {shorter longer : ℕ} (hle : shorter ≤ longer) :
    weight width longer ∣ weight width shorter :=
  Nat.pow_dvd_pow 2 (Nat.sub_le_sub_left hle width)

/-- By increasing length the slots start at multiples of their sizes. -/
theorem slots_dvd (hsorted : order.Pairwise fun left right => left.1 ≤ right.1)
    (hused : ∀ entry ∈ order, weight width entry.1 ∣ used) (hslot : slot ∈ slots width used order) :
    weight width slot.length ∣ slot.start := by
  induction order generalizing used with
  | nil => cases hslot
  | cons entry order ih =>
    obtain ⟨hle, hsorted⟩ := pairwise_cons.mp hsorted
    obtain ⟨hentry, hused⟩ := forall_mem_cons.mp hused
    obtain rfl | hslot := mem_cons.mp hslot
    · exact hentry
    · refine ih hsorted (fun later hlater => ?_) hslot
      exact Nat.dvd_add (hused later hlater) (weight_dvd_weight (hle later hlater))

end Slots

inductive CodeTree (α : Type) where
  | leaf (symbol : α)
  | node (left right : CodeTree α)

namespace CodeTree

variable {α : Type} {tree : CodeTree α} {depth : ℕ} {entry : α × ℕ}

def leaves : CodeTree α → List α
  | leaf symbol => [symbol]
  | node left right => left.leaves ++ right.leaves

/-- The leaves with their depths, the root being at `depth`. -/
def depths : ℕ → CodeTree α → List (α × ℕ)
  | depth, leaf symbol => [(symbol, depth)]
  | depth, node left right => left.depths (depth + 1) ++ right.depths (depth + 1)

def height : CodeTree α → ℕ
  | leaf _ => 0
  | node left right => max left.height right.height + 1

theorem map_fst_depths (depth : ℕ) (tree : CodeTree α) :
    (tree.depths depth).map Prod.fst = tree.leaves := by
  induction tree generalizing depth with
  | leaf symbol => rfl
  | node left right ihleft ihright => rw [depths, map_append, ihleft, ihright, leaves]

theorem leaves_length_pos (tree : CodeTree α) : 0 < tree.leaves.length := by
  induction tree with
  | leaf symbol => exact one_pos
  | node left right ihleft ihright =>
    rw [leaves, length_append]
    omega

theorem height_lt_leaves (tree : CodeTree α) : tree.height < tree.leaves.length := by
  induction tree with
  | leaf symbol => exact one_pos
  | node left right ihleft ihright =>
    rw [height, leaves, length_append]
    omega

theorem depths_bounds (hentry : entry ∈ tree.depths depth) :
    depth ≤ entry.2 ∧ entry.2 ≤ depth + tree.height := by
  induction tree generalizing depth with
  | leaf symbol =>
    rw [mem_singleton.mp hentry]
    omega
  | node left right ihleft ihright =>
    rw [height]
    obtain hmem | hmem := mem_append.mp hentry
    · have hbounds := ihleft hmem
      omega
    · have hbounds := ihright hmem
      omega

theorem mem_leaves_of_mem_depths (hentry : entry ∈ tree.depths depth) :
    entry.1 ∈ tree.leaves := by
  rw [← map_fst_depths depth]
  exact mem_map_of_mem hentry

theorem exists_mem_depths {symbol : α} (hsymbol : symbol ∈ tree.leaves) :
    ∃ depth, (symbol, depth) ∈ tree.depths 0 := by
  rw [← map_fst_depths 0] at hsymbol
  obtain ⟨entry, hentry, rfl⟩ := mem_map.mp hsymbol
  exact ⟨entry.2, hentry⟩

/-- In a tree with two leaves no leaf is the root. -/
theorem depths_pos (hleaves : 1 < tree.leaves.length) (hentry : entry ∈ tree.depths 0)
    : 0 < entry.2 := by
  cases tree with
  | leaf symbol => exact absurd hleaves (lt_irrefl 1)
  | node left right =>
    obtain hmem | hmem := mem_append.mp hentry
    · exact (depths_bounds hmem).1
    · exact (depths_bounds hmem).1

theorem height_le_of_depths (hdepths : ∀ entry ∈ tree.depths depth, entry.2 ≤ width) :
    depth + tree.height ≤ width := by
  induction tree generalizing depth with
  | leaf symbol => exact hdepths _ (mem_singleton_self _)
  | node left right ihleft ihright =>
    obtain ⟨hleft, hright⟩ := forall_mem_append.mp hdepths
    have hleftHeight := ihleft hleft
    have hrightHeight := ihright hright
    rw [height]
    omega

/-- **Kraft's equality.** The intervals of the leaves fill the interval of the root. -/
theorem sum_weight_depths (hwidth : depth + tree.height ≤ width) :
    ((tree.depths depth).map fun entry => weight width entry.2).sum = weight width depth := by
  induction tree generalizing depth with
  | leaf symbol => rw [depths, map_singleton, sum_singleton]
  | node left right ihleft ihright =>
    rw [height] at hwidth
    have hhalf : weight width depth = 2 * weight width (depth + 1) := by
      have hsplit : width - depth = width - (depth + 1) + 1 := by omega
      rw [weight, weight, hsplit]
      ring
    rw [depths, map_append, sum_append, ihleft (by omega), ihright (by omega), hhalf]
    ring

end CodeTree

end Tritium.PrefixCode
