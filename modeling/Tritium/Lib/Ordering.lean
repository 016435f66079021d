import Mathlib.Data.List.Destutter
import Mathlib.Data.List.Lex
import Mathlib.Data.List.Sort

/-!
# Sorting and selecting by a comparator

The comparators are functions to `Ordering`, and all that is asked of them is that they order
transitively.
-/

namespace Tritium

open List

variable {α : Type} (cmp : α → α → Ordering) {items : List α} {right left : α}

/-- `sort_by`, and `sort_unstable_by` for comparators that never tie two different elements. -/
def sortBy (items : List α) : List α :=
  items.insertionSort fun left right => (cmp left right).isLE

def keepLeast (best next : α) : α := if cmp best next = .gt then next else best

/-- `min_by`: the first of the least elements. -/
def minBy : List α → Option α
  | [] => none
  | first :: rest => some (rest.foldl (keepLeast cmp) first)

theorem sortBy_perm (items : List α) : (sortBy cmp items).Perm items :=
  perm_insertionSort _ items

theorem sortBy_map {β : Type} (f : β → α) (items : List β) :
    sortBy cmp (items.map f) = (sortBy (fun left right => cmp (f left) (f right)) items).map f :=
  (map_insertionSort _ _ f items fun _ _ _ _ => Iff.rfl).symm

theorem sortBy_eq_self (hsorted : items.Pairwise fun left right => (cmp left right).isLE) :
    sortBy cmp items = items :=
  hsorted.insertionSort_eq

theorem foldl_keepLeast_mem (rest : List α) (first : α) :
    rest.foldl (keepLeast cmp) first ∈ first :: rest := by
  induction rest generalizing first with
  | nil => exact mem_singleton_self first
  | cons next rest ih =>
    rw [foldl_cons]
    rcases mem_cons.mp (ih (keepLeast cmp first next)) with heq | hmem
    · rw [heq, keepLeast]
      split <;> simp
    · simp [hmem]

theorem exists_minBy (hitems : items ≠ []) : ∃ best ∈ items, minBy cmp items = some best := by
  cases items with
  | nil => exact absurd rfl hitems
  | cons first rest => exact ⟨_, foldl_keepLeast_mem cmp rest first, rfl⟩

/-- `BinaryHeap::pop` takes a least element, by the reverse order, out of the heap. -/
theorem exists_pop [BEq α] [LawfulBEq α] (hitems : items ≠ []) :
    ∃ top rest, (minBy cmp items).map (fun top => (top, items.erase top)) = some (top, rest) ∧
      items.Perm (top :: rest) := by
  obtain ⟨top, hmem, htop⟩ := exists_minBy cmp hitems
  refine ⟨top, items.erase top, ?_, perm_cons_erase hmem⟩
  rw [htop, Option.map_some]

/-- Comparators that agree on what comes later in the list select the same element. -/
theorem minBy_congr {cmp' : α → α → Ordering} (hsame : items.Pairwise fun left right =>
      cmp left right = .gt ↔ cmp' left right = .gt) : minBy cmp items = minBy cmp' items := by
  cases items with
  | nil => rfl
  | cons first rest =>
    rw [minBy, minBy]
    congr 1
    induction rest generalizing first with
    | nil => rfl
    | cons next rest ih =>
      obtain ⟨hfirst, hnext⟩ := pairwise_cons.mp hsame
      obtain ⟨hhead, hfirst⟩ := forall_mem_cons.mp hfirst
      rw [foldl_cons, foldl_cons, keepLeast, keepLeast]
      by_cases hgt : cmp first next = .gt
      · rw [if_pos hgt, if_pos (hhead.mp hgt)]
        exact ih next hnext
      · rw [if_neg hgt, if_neg (mt hhead.mpr hgt)]
        exact ih first (pairwise_cons.mpr ⟨hfirst, (pairwise_cons.mp hnext).2⟩)

variable [Std.TransCmp cmp] {kept item : α} (same : α → α → Bool)

theorem isLE_of_eq_gt (hgt : cmp left right = .gt) : (cmp right left).isLE :=
  Ordering.isLE_of_eq_lt (Std.OrientedCmp.gt_iff_lt.mp hgt)

theorem sortBy_pairwise (items : List α) :
    (sortBy cmp items).Pairwise fun left right => (cmp left right).isLE := by
  have htotal : Std.Total fun left right : α => (cmp left right).isLE := by
    refine ⟨fun left right => ?_⟩
    by_cases hgt : cmp left right = .gt
    · exact Or.inr (isLE_of_eq_gt cmp hgt)
    · exact Or.inl (Ordering.isLE_iff_ne_gt.mpr hgt)
  have htrans : IsTrans α fun left right => (cmp left right).isLE :=
    ⟨fun _ _ _ => Std.TransCmp.isLE_trans⟩
  exact pairwise_insertionSort _ items

omit [Std.TransCmp cmp] in
theorem eq_lt_of_isLE_of_ne_eq (hle : (cmp left right).isLE) (hne : cmp left right ≠ .eq) :
    cmp left right = .lt :=
  (Ordering.isLE_iff_eq_lt_or_eq_eq.mp hle).resolve_right hne

/-- Without ties the sorted list is strictly increasing. -/
theorem sortBy_pairwise_lt (hne : items.Pairwise fun left right => cmp left right ≠ .eq) :
    (sortBy cmp items).Pairwise fun left right => cmp left right = .lt := by
  have hne : (sortBy cmp items).Pairwise fun left right => cmp left right ≠ .eq :=
    hne.perm (sortBy_perm cmp items).symm (mt Std.OrientedCmp.eq_symm)
  refine (List.Pairwise.and (sortBy_pairwise cmp items) hne).imp ?_
  rintro _ _ ⟨hle, hne⟩
  exact eq_lt_of_isLE_of_ne_eq cmp hle hne

theorem keepLeast_isLE (best next : α) :
    (cmp (keepLeast cmp best next) best).isLE ∧ (cmp (keepLeast cmp best next) next).isLE := by
  by_cases hgt : cmp best next = .gt
  · rw [keepLeast, if_pos hgt]
    exact ⟨isLE_of_eq_gt cmp hgt, Std.ReflCmp.isLE_rfl⟩
  · rw [keepLeast, if_neg hgt]
    exact ⟨Std.ReflCmp.isLE_rfl, Ordering.isLE_iff_ne_gt.mpr hgt⟩

theorem foldl_keepLeast_isLE (rest : List α) (first : α) :
    ∀ item ∈ first :: rest, (cmp (rest.foldl (keepLeast cmp) first) item).isLE := by
  induction rest generalizing first with
  | nil => exact forall_mem_singleton.mpr Std.ReflCmp.isLE_rfl
  | cons next rest ih =>
    have hall := ih (keepLeast cmp first next)
    have hkept := hall _ mem_cons_self
    obtain ⟨hfirst, hnext⟩ := keepLeast_isLE cmp first next
    intro item hitem
    rcases mem_cons.mp hitem with rfl | hitem
    · exact Std.TransCmp.isLE_trans hkept hfirst
    · rcases mem_cons.mp hitem with rfl | hitem
      · exact Std.TransCmp.isLE_trans hkept hnext
      · exact hall item (mem_cons_of_mem _ hitem)

theorem minBy_spec {best : α} (hbest : minBy cmp items = some best) :
    best ∈ items ∧ ∀ item ∈ items, (cmp best item).isLE := by
  cases items with
  | nil => cases hbest
  | cons first rest =>
    rw [minBy, Option.some.injEq] at hbest
    rw [← hbest]
    exact ⟨foldl_keepLeast_mem cmp rest first, foldl_keepLeast_isLE cmp rest first⟩

/-- `windows(2).any(test)`. -/
def neighboursAny (test : α → α → Bool) : List α → Bool
  | first :: second :: rest => test first second || neighboursAny test (second :: rest)
  | _ => false

omit [Std.TransCmp cmp] in
theorem neighboursAny_eq_false_iff (test : α → α → Bool) (items : List α) :
    neighboursAny test items = false ↔ items.IsChain fun left right => test left right = false := by
  fun_induction neighboursAny test items with
  | case1 first second rest ih => rw [Bool.or_eq_false_iff, ih, isChain_cons_cons]
  | case2 items hshort =>
    refine iff_of_true rfl ?_
    match items, hshort with
    | [], _ => exact List.IsChain.nil
    | [item], _ => exact List.IsChain.singleton item
    | first :: second :: rest, hshort => exact absurd rfl (hshort first second rest)

theorem pairwise_lt_of_isChain (hchain : items.IsChain fun left right => cmp left right = .lt) :
    items.Pairwise fun left right => cmp left right = .lt := by
  have htrans : Trans (fun left right : α => cmp left right = .lt)
      (fun left right => cmp left right = .lt) (fun left right => cmp left right = .lt) :=
    ⟨fun hleft hright => Std.TransCmp.lt_trans hleft hright⟩
  exact isChain_iff_pairwise.mp hchain

section

variable (hsorted : items.Pairwise fun left right => (cmp left right).isLE)
  (hchain : items.IsChain fun left right => cmp left right ≠ .eq)

include hsorted hchain

/-- In a sorted list all ties are between neighbours. -/
theorem pairwise_lt_of_neighbours :
    items.Pairwise fun left right => cmp left right = .lt := by
  apply pairwise_lt_of_isChain
  induction hchain with
  | nil => exact List.IsChain.nil
  | singleton item => exact List.IsChain.singleton item
  | cons_cons hne _ ih =>
    obtain ⟨hle, hsorted⟩ := pairwise_cons.mp hsorted
    exact .cons_cons (eq_lt_of_isLE_of_ne_eq cmp (hle _ mem_cons_self) hne) (ih hsorted)

theorem pairwise_ne_eq_of_neighbours :
    items.Pairwise fun left right => cmp left right ≠ .eq := by
  refine (pairwise_lt_of_neighbours cmp hsorted hchain).imp ?_
  intro left right hlt heq
  rw [hlt] at heq
  cases heq

end

section Search

variable (items : List α) (order : α → Ordering)

/-- The loop of `binary_search_by`: what is sought, if anywhere, is among `size` items from `base`. -/
def narrow : ℕ → ℕ → ℕ → ℕ
  | 0, base, _ => base
  | fuel + 1, base, size =>
    if 1 < size then
      let mid := base + size / 2
      narrow fuel (if items[mid]?.map order = some .gt then base else mid) (size - size / 2)
    else
      base

def binarySearchBy : Option ℕ :=
  let base := narrow items order items.length 0 items.length
  if items[base]?.map order = some .eq then some base else none

variable {items order} {index : ℕ}
  (hsorted : items.Pairwise fun left right => order left ≠ .lt → order right = .gt)

include hsorted

theorem narrow_eq (hlt : index < items.length) (hequal : order items[index] = .eq)
    {fuel base size : ℕ} (hfuel : size ≤ fuel) (hinside : base + size ≤ items.length)
    (hbase : base ≤ index) (hsize : index < base + size) :
    narrow items order fuel base size = index := by
  rw [pairwise_iff_getElem] at hsorted
  induction fuel generalizing base size with
  | zero => omega
  | succ fuel ih =>
    rw [narrow]
    split
    · have hmid : base + size / 2 < items.length := by omega
      simp only [getElem?_eq_getElem hmid, Option.map_some, Option.some.injEq]
      split
      next hgt =>
        have hbelow : index < base + size / 2 := by
          by_contra hnot
          rcases Nat.eq_or_lt_of_not_lt hnot with rfl | habove
          · simp [hequal] at hgt
          · simpa [hequal] using hsorted _ _ hmid hlt habove (by simp [hgt])
        exact ih (by omega) (by omega) hbase (by omega)
      next hgt =>
        have habove : base + size / 2 ≤ index := by
          by_contra hnot
          exact hgt (hsorted _ _ hlt hmid (by omega) (by simp [hequal]))
        exact ih (by omega) (by omega) habove (by omega)
    · omega

theorem binarySearchBy_eq_some_iff :
    binarySearchBy items order = some index ↔ items[index]?.map order = some .eq := by
  constructor
  · intro hfound
    rw [binarySearchBy] at hfound
    split at hfound
    next hequal => rwa [Option.some.inj hfound] at hequal
    next => cases hfound
  · intro hindex
    obtain ⟨_, hitem, hequal⟩ := Option.map_eq_some_iff.mp hindex
    obtain ⟨hlt, rfl⟩ := List.getElem?_eq_some_iff.mp hitem
    have hbase := narrow_eq hsorted hlt hequal (le_refl items.length) (Nat.zero_add _).le
      (Nat.zero_le _) (by omega)
    simp only [binarySearchBy, hbase, if_pos hindex]

end Search

/-- `dedup_by`, behind an element that is kept. -/
def dedupFrom (same : α → α → Bool) (kept : α) : List α → List α
  | [] => [kept]
  | next :: rest =>
    if same next kept then dedupFrom same kept rest else kept :: dedupFrom same next rest

def dedupBy (same : α → α → Bool) : List α → List α
  | [] => []
  | first :: rest => dedupFrom same first rest

omit [Std.TransCmp cmp] in
theorem dedupBy_eq_destutter (items : List α) :
    dedupBy same items = items.destutter fun kept next => ¬same next kept := by
  cases items with
  | nil => rfl
  | cons first items =>
    change dedupFrom same first items = items.destutter' _ first
    induction items generalizing first with
    | nil => rfl
    | cons next items ih => rw [dedupFrom, destutter', ih, ih, ite_not]

omit [Std.TransCmp cmp] in
theorem dedupBy_sublist (items : List α) :
    (dedupBy same items).Sublist items := by
  rw [dedupBy_eq_destutter]
  exact destutter_sublist _ items

variable {same : α → α → Bool} (hsame : ∀ left right, same right left = true ↔ cmp left right = .eq)

include hsame in
theorem dedupBy_pairwise_lt (hsorted : items.Pairwise fun left right => (cmp left right).isLE) :
    (dedupBy same items).Pairwise fun left right => cmp left right = .lt := by
  apply pairwise_lt_of_neighbours cmp (hsorted.sublist (dedupBy_sublist same items))
  rw [dedupBy_eq_destutter]
  refine (isChain_destutter _ items).imp ?_
  intro left right hdifferent heq
  exact hdifferent ((hsame left right).mpr heq)

include hsame in
theorem exists_mem_dedupFrom (hitem : item ∈ kept :: items) :
    ∃ other ∈ dedupFrom same kept items, cmp other item = .eq := by
  induction items generalizing kept item with
  | nil =>
    rw [mem_singleton.mp hitem]
    exact ⟨kept, mem_singleton_self kept, Std.ReflCmp.compare_self⟩
  | cons next items ih =>
    rw [dedupFrom]
    split
    · rename_i heq
      obtain rfl | hitem := mem_cons.mp hitem
      · exact ih mem_cons_self
      · obtain rfl | hitem := mem_cons.mp hitem
        · obtain ⟨other, hother, hcmp⟩ := ih mem_cons_self
          exact ⟨other, hother, Std.TransCmp.eq_trans hcmp ((hsame kept _).mp heq)⟩
        · exact ih (mem_cons_of_mem _ hitem)
    · obtain rfl | hitem := mem_cons.mp hitem
      · exact ⟨_, mem_cons_self, Std.ReflCmp.compare_self⟩
      · obtain ⟨other, hother, hcmp⟩ := ih hitem
        exact ⟨other, mem_cons_of_mem _ hother, hcmp⟩

include hsame in
theorem mem_dedupBy_iff
    (hties : ∀ left ∈ items, ∀ right ∈ items, cmp left right = .eq → left = right) :
    item ∈ dedupBy same items ↔ item ∈ items := by
  cases items with
  | nil => rfl
  | cons first items =>
    have hsubset := (dedupBy_sublist same (first :: items)).subset
    refine ⟨fun hitem => hsubset hitem, fun hitem => ?_⟩
    obtain ⟨other, hother, hcmp⟩ := exists_mem_dedupFrom cmp hsame hitem
    rw [← hties other (hsubset hother) item hitem hcmp]
    exact hother

theorem transCmp_comap {β : Type} (project : β → α) :
    Std.TransCmp fun left right : β => cmp (project left) (project right) where
  eq_swap := Std.OrientedCmp.eq_swap
  isLE_trans := Std.TransCmp.isLE_trans

theorem list_cons_le_cons_iff {first other : Nat} {rest others : List Nat} :
    first :: rest ≤ other :: others ↔ first < other ∨ first = other ∧ rest ≤ others := by
  rw [le_iff_lt_or_eq, le_iff_lt_or_eq, cons_lt_cons_iff, cons.injEq]
  tauto

theorem append_le_append_iff {left right : List Nat} (hlength : left.length = right.length)
    (suffix : List Nat) : left ++ suffix ≤ right ++ suffix ↔ left ≤ right := by
  induction left generalizing right with
  | nil =>
    simp [eq_nil_of_length_eq_zero hlength.symm]
  | cons first rest ih =>
    cases right with
    | nil => simp at hlength
    | cons other right =>
      simp [list_cons_le_cons_iff, ih (Nat.succ.inj hlength)]

theorem compare_list_eq_lt_iff {β : Type} [Ord β] [LT β] [LE β] [Std.LawfulOrderOrd β]
    [Std.LawfulOrderLT β] [Std.LawfulEqOrd β] (left right : List β) :
    compare left right = .lt ↔ left < right := by
  induction left generalizing right with
  | nil =>
    cases right with
    | nil => simp
    | cons other right => simp [List.compare_nil_cons]
  | cons first left ih =>
    cases right with
    | nil => simp [List.compare_cons_nil]
    | cons other right =>
      rw [List.compare_cons_cons, Ordering.then_eq_lt, ih, List.cons_lt_cons_iff,
        Std.compare_eq_lt, Std.compare_eq_iff_eq]

theorem compareLex_isLE_iff (left right : List Nat) :
    (List.compareLex compare left right).isLE ↔ left ≤ right := by
  change (compare left right).isLE ↔ _
  rw [← not_lt, ← compare_list_eq_lt_iff, ← Std.OrientedCmp.gt_iff_lt]
  cases compare left right <;> decide

/-- Shorter strings first, strings of one length in lexicographic order. -/
def shortlex (left right : List UInt8) : Ordering :=
  (compare left.length right.length).then (compare left right)

theorem shortlex_eq_lt_iff (left right : List UInt8) :
    shortlex left right = .lt ↔
      left.length < right.length ∨ left.length = right.length ∧ left < right := by
  rw [shortlex, Ordering.then_eq_lt, compare_list_eq_lt_iff, Std.compare_eq_lt,
    Std.compare_eq_iff_eq]

instance : Std.TransCmp shortlex :=
  inferInstanceAs (Std.TransCmp (compareLex (compareOn length) compare))

instance : Std.LawfulEqCmp shortlex where
  eq_of_compare {left right} heq := by
    rw [shortlex, Ordering.then_eq_eq] at heq
    exact Std.LawfulEqCmp.eq_of_compare heq.2

end Tritium
