import Tritium.Lib.Ordering
import Tritium.Lib.Outcome
import Mathlib.Algebra.Order.BigOperators.Group.List
import Mathlib.Algebra.Order.Ring.Nat
import Mathlib.Data.List.Induction

/-!
# Collecting a list into an ordered map

A loop that inserts one binding per item, and refuses a key that is bound to another value already,
succeeds exactly where the items bind no key twice differently. What it collects then depends on the
set of the items only, not on their order or number.
-/

namespace Tritium

open List

theorem nodup_of_pairwise_lt {α : Type} (cmp : α → α → Ordering) [Std.TransCmp cmp] {items : List α}
    (hitems : items.Pairwise fun first second => cmp first second = .lt) : items.Nodup := by
  refine hitems.imp ?_
  rintro first _ hlt rfl
  rw [@Std.ReflCmp.compare_self _ cmp] at hlt
  cases hlt

theorem eq_of_mem_iff {α : Type} (cmp : α → α → Ordering) [Std.TransCmp cmp] {left right : List α}
    (hleft : left.Pairwise fun first second => cmp first second = .lt)
    (hright : right.Pairwise fun first second => cmp first second = .lt)
    (hmem : ∀ item, item ∈ left ↔ item ∈ right) : left = right := by
  refine Perm.eq_of_pairwise ?_ hleft hright ((perm_ext_iff_of_nodup
    (nodup_of_pairwise_lt cmp hleft) (nodup_of_pairwise_lt cmp hright)).mpr hmem)
  intro first second _ _ hlt hgt
  have hself := Std.TransCmp.lt_trans hlt hgt
  rw [@Std.ReflCmp.compare_self _ cmp] at hself
  cases hself

/-- Items without repetition, taken from a list, weigh no more than the list. -/
theorem sum_map_le_of_subset {α : Type} {part items : List α} (hnodup : part.Nodup)
    (hsubset : part ⊆ items) (weight : α → ℕ) : (part.map weight).sum ≤ (items.map weight).sum := by
  obtain ⟨middle, hperm, hsublist⟩ := subperm_of_subset hnodup hsubset
  rw [← (hperm.map weight).sum_eq]
  exact (hsublist.map weight).sum_le_sum fun _ _ => Nat.zero_le _

section Collect

variable {κ ν α : Type} (cmp : κ → κ → Ordering) [Std.TransCmp cmp]
  (key : α → κ) (value : α → ν) {items left right : List α}

def collect (items : List α) : Std.ExtTreeMap κ ν cmp :=
  items.foldl (fun found item => found.insert (key item) (value item)) ∅

def Consistent (items : List α) : Prop :=
  ∀ left ∈ items, ∀ right ∈ items, key left = key right → value left = value right

theorem collect_concat (items : List α) (item : α) :
    collect cmp key value (items ++ [item]) =
      (collect cmp key value items).insert (key item) (value item) := by
  rw [collect, foldl_append]
  rfl

variable {key value}

theorem Consistent.of_append
    (hconsistent : Consistent key value (left ++ right)) : Consistent key value left :=
  fun first hfirst second hsecond =>
    hconsistent first (mem_append_left _ hfirst) second (mem_append_left _ hsecond)

theorem Consistent.congr (hconsistent : Consistent key value left)
    (hmem : ∀ item, item ∈ right ↔ item ∈ left) : Consistent key value right :=
  fun first hfirst second hsecond =>
    hconsistent first ((hmem first).mp hfirst) second ((hmem second).mp hsecond)

variable [Std.LawfulEqCmp cmp]

theorem getElem?_collect_iff (hconsistent : Consistent key value items) {k : κ}
    {v : ν} :
    (collect cmp key value items)[k]? = some v ↔ ∃ item ∈ items, key item = k ∧ value item = v := by
  induction items using reverseRecOn with
  | nil => simp [collect]
  | append_singleton items item ih =>
    rw [collect_concat, Std.ExtTreeMap.getElem?_insert]
    by_cases hkey : key item = k
    · rw [if_pos (Std.LawfulEqCmp.compare_eq_iff_eq.mpr hkey), Option.some.injEq]
      constructor
      · intro hvalue
        exact ⟨item, mem_append_right _ (mem_singleton_self item), hkey, hvalue⟩
      · rintro ⟨other, hother, hotherKey, rfl⟩
        exact hconsistent item (mem_append_right _ (mem_singleton_self item)) other
          hother (hkey.trans hotherKey.symm)
    · simp [ih hconsistent.of_append, hkey]

omit [Std.LawfulEqCmp cmp] in
theorem collect_map {β : Type} (f : β → α) (items : List β) :
    collect cmp key value (items.map f) =
      collect cmp (fun item => key (f item)) (fun item => value (f item)) items := by
  rw [collect, foldl_map]
  rfl

theorem map_collect {ν' : Type} (hconsistent : Consistent key value items)
    (f : ν → ν') :
    (collect cmp key value items).map (fun _ content => f content) =
      collect cmp key (fun item => f (value item)) items := by
  refine Std.ExtTreeMap.ext_getElem? fun k => Option.ext fun v => ?_
  rw [Std.ExtTreeMap.getElem?_map, Option.map_eq_some_iff, getElem?_collect_iff cmp]
  · simp only [getElem?_collect_iff cmp hconsistent]
    constructor
    · rintro ⟨_, ⟨item, hitem, hkey, rfl⟩, rfl⟩
      exact ⟨item, hitem, hkey, rfl⟩
    · rintro ⟨item, hitem, hkey, rfl⟩
      exact ⟨_, ⟨item, hitem, hkey, rfl⟩, rfl⟩
  · intro left hleft right hright hkey
    exact congrArg f (hconsistent left hleft right hright hkey)

theorem nodup_keys_toList (map : Std.ExtTreeMap κ ν cmp) : (map.toList.map Prod.fst).Nodup := by
  rw [nodup_iff_pairwise_ne, pairwise_map]
  refine Std.ExtTreeMap.distinct_keys_toList.imp ?_
  intro first second hne heq
  exact hne (Std.LawfulEqCmp.compare_eq_iff_eq.mpr heq)

/-- The collection depends on the set of the items only. -/
theorem collect_congr (hconsistent : Consistent key value left)
    (hmem : ∀ item, item ∈ right ↔ item ∈ left) :
    collect cmp key value right = collect cmp key value left := by
  refine Std.ExtTreeMap.ext_getElem? fun k => Option.ext fun v => ?_
  rw [getElem?_collect_iff cmp (hconsistent.congr hmem), getElem?_collect_iff cmp hconsistent]
  simp only [hmem]

theorem consistent_concat_iff {item : α} :
    Consistent key value (items ++ [item]) ↔ Consistent key value items ∧
        ∀ old ∈ (collect cmp key value items)[key item]?, old = value item := by
  constructor
  · intro hconsistent
    refine ⟨hconsistent.of_append, fun old hold => ?_⟩
    obtain ⟨other, hother, hkey, rfl⟩ := (getElem?_collect_iff cmp hconsistent.of_append).mp hold
    exact hconsistent other (mem_append_left _ hother) item
      (mem_append_right _ (mem_singleton_self item)) hkey
  · rintro ⟨hconsistent, hold⟩
    have hlast : ∀ other ∈ items, key other = key item → value other = value item :=
      fun other hother hkey => hold _ ((getElem?_collect_iff cmp hconsistent).mpr
        ⟨other, hother, hkey, rfl⟩)
    intro left hleft right hright hkey
    rw [mem_append, mem_singleton] at hleft hright
    obtain hleft | rfl := hleft
    · obtain hright | rfl := hright
      · exact hconsistent left hleft right hright hkey
      · exact hlast left hleft hkey
    · obtain hright | rfl := hright
      · exact (hlast right hright hkey.symm).symm
      · rfl

/-- **The collecting loop.** -/
theorem foldlM_collect_iff {ε : Type} {admitted : α → Prop}
    {step : Std.ExtTreeMap κ ν cmp → α → Outcome ε (Std.ExtTreeMap κ ν cmp)}
    (hstep : ∀ found item found', step found item = .ok found' ↔
      admitted item ∧ (∀ old ∈ found[key item]?, old = value item) ∧
        found.insert (key item) (value item) = found')
    {found : Std.ExtTreeMap κ ν cmp} :
    items.foldlM step ∅ = .ok found ↔ (∀ item ∈ items, admitted item) ∧ Consistent key value items ∧
        collect cmp key value items = found := by
  induction items using reverseRecOn generalizing found with
  | nil => simp [collect, Consistent]
  | append_singleton items item ih =>
    rw [foldlM_append, bind_eq_ok_iff]
    simp only [foldlM_cons, foldlM_nil, bind_pure, ih, hstep]
    rw [consistent_concat_iff cmp, forall_mem_append, forall_mem_singleton, collect_concat]
    constructor
    · rintro ⟨_, ⟨hall, hconsistent, rfl⟩, hitem, hold, hfound⟩
      exact ⟨⟨hall, hitem⟩, ⟨hconsistent, hold⟩, hfound⟩
    · rintro ⟨⟨hall, hitem⟩, ⟨hconsistent, hold⟩, hfound⟩
      exact ⟨_, ⟨hall, hconsistent, rfl⟩, hitem, hold, hfound⟩

end Collect

theorem find?_key_of_nodup {α κ : Type} [DecidableEq κ] (key : α → κ) {items : List α}
    (hkeys : (items.map key).Nodup) {item : α} (hitem : item ∈ items) :
    items.find? (fun other => key other = key item) = some item := by
  have hsome : (items.find? fun other => key other = key item).isSome :=
    find?_isSome.mpr ⟨item, hitem, decide_eq_true rfl⟩
  obtain ⟨found, hfound⟩ := Option.isSome_iff_exists.mp hsome
  have hsame := find?_some hfound
  rw [hfound, inj_on_of_nodup_map hkeys (mem_of_find?_eq_some hfound) hitem
    (of_decide_eq_true hsame)]

end Tritium
