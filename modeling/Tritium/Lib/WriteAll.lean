import Mathlib.Data.List.Nodup

/-!
# Writing entries into a table

A loop that stores one value at each of several positions, no position twice, and a loop that stores
one value all over each of several ranges that do not meet.
-/

namespace Tritium

open List

variable {α : Type} {items : List α} {position : ℕ} {entries : List (ℕ × α)}

def writeAll (items : List α) (entries : List (ℕ × α)) : List α :=
  entries.foldl (fun items entry => items.set entry.1 entry.2) items

theorem writeAll_cons (items : List α) (entry : ℕ × α) (entries : List (ℕ × α)) :
    writeAll items (entry :: entries) = writeAll (items.set entry.1 entry.2) entries := rfl

theorem writeAll_append (items : List α) (first second : List (ℕ × α)) :
    writeAll items (first ++ second) = writeAll (writeAll items first) second :=
  foldl_append

@[simp]
theorem writeAll_length (items : List α) (entries : List (ℕ × α)) :
    (writeAll items entries).length = items.length := by
  induction entries generalizing items with
  | nil => rfl
  | cons entry entries ih => rw [writeAll_cons, ih, length_set]

theorem writeAll_getElem?_of_notMem (hposition : position ∉ entries.map Prod.fst) :
    (writeAll items entries)[position]? = items[position]? := by
  induction entries generalizing items with
  | nil => rfl
  | cons entry entries ih =>
    rw [map_cons, mem_cons, not_or] at hposition
    rw [writeAll_cons, ih hposition.2, getElem?_set_ne (Ne.symm hposition.1)]

theorem writeAll_getElem?_of_mem (items : List α) {entry : ℕ × α}
    (hnodup : (entries.map Prod.fst).Nodup) (hentry : entry ∈ entries)
    (hposition : entry.1 < items.length) : (writeAll items entries)[entry.1]? = some entry.2 := by
  induction entries generalizing items with
  | nil => cases hentry
  | cons first entries ih =>
    rw [map_cons, nodup_cons] at hnodup
    rw [writeAll_cons]
    obtain rfl | hmem := mem_cons.mp hentry
    · rw [writeAll_getElem?_of_notMem hnodup.1, getElem?_set_self hposition]
    · apply ih _ hnodup.2 hmem
      rwa [length_set]

/-- `iter_mut().skip(first).take(count)`, storing a value. -/
def fillRange (items : List α) (first count : ℕ) (value : α) : List α :=
  items.mapIdx fun position item =>
    if first ≤ position ∧ position < first + count then value else item

@[simp]
theorem fillRange_length (items : List α) (first count : ℕ) (value : α) :
    (fillRange items first count value).length = items.length :=
  length_mapIdx

theorem fillRange_getElem? (items : List α) (first count : ℕ) (value : α) (position : ℕ) :
    (fillRange items first count value)[position]? = items[position]?.map fun item =>
      if first ≤ position ∧ position < first + count then value else item :=
  getElem?_mapIdx

structure Filling (α : Type) where
  first : ℕ
  count : ℕ
  value : α

def fillAll (items : List α) (fillings : List (Filling α)) : List α :=
  fillings.foldl (fun items filling => fillRange items filling.first filling.count filling.value)
    items

theorem fillAll_cons (items : List α) (filling : Filling α) (fillings : List (Filling α)) :
    fillAll items (filling :: fillings) =
      fillAll (fillRange items filling.first filling.count filling.value) fillings := rfl

theorem fillAll_getElem?_of_before {fillings : List (Filling α)}
    (hposition : ∀ filling ∈ fillings, position < filling.first) :
    (fillAll items fillings)[position]? = items[position]? := by
  induction fillings generalizing items with
  | nil => rfl
  | cons filling fillings ih =>
    obtain ⟨hfirst, hrest⟩ := forall_mem_cons.mp hposition
    rw [fillAll_cons, ih hrest, fillRange_getElem?]
    simp [Nat.not_le.mpr hfirst]

/-- In ranges that lie one behind the other every value stays where it was stored. -/
theorem fillAll_getElem? {fillings : List (Filling α)}
    (hordered : fillings.Pairwise fun left right => left.first + left.count ≤ right.first)
    {filling : Filling α} (hfilling : filling ∈ fillings) (hfirst : filling.first ≤ position)
    (hlast : position < filling.first + filling.count) (hinside : position < items.length) :
    (fillAll items fillings)[position]? = some filling.value := by
  induction fillings generalizing items with
  | nil => cases hfilling
  | cons next fillings ih =>
    obtain ⟨hnext, hrest⟩ := pairwise_cons.mp hordered
    rw [fillAll_cons]
    obtain rfl | hmem := mem_cons.mp hfilling
    · have hbefore : ∀ other ∈ fillings, position < other.first :=
        fun other hother => Nat.lt_of_lt_of_le hlast (hnext other hother)
      rw [fillAll_getElem?_of_before hbefore, fillRange_getElem?,
        getElem?_eq_getElem hinside, Option.map_some, if_pos ⟨hfirst, hlast⟩]
    · exact ih hrest hmem (by rwa [fillRange_length])

end Tritium
