import Tritium.Lib.Cbor

/-!
# Bringing the maps of a value into key order

The pass sorts the entries of every map by their encoded keys and refuses a map that repeats a key.
Its result is the one deterministic value that differs from its input in the order of map entries
only.
-/

namespace Tritium.Cbor

open List

variable {items : List Value} {entries entries' : List (Scalar × Value)} {value value' : Value}
  {α β : Type} {R : α → β → Prop} {limit depth : ℕ}

def KeysDistinct (keys : List Scalar) : Prop := (keys.map Scalar.encode).Nodup

instance (keys : List Scalar) : Decidable (KeysDistinct keys) :=
  inferInstanceAs (Decidable (keys.map Scalar.encode).Nodup)

def compareByKey (left right : Scalar × Value) : Ordering :=
  shortlex left.1.encode right.1.encode

instance : Std.TransCmp compareByKey :=
  transCmp_comap shortlex fun entry : Scalar × Value => entry.1.encode

mutual

def Value.reorder : Value → Option Value
  | .scalar value => some (.scalar value)
  | .array items => (reorderItems items).map .array
  | .map entries => do
    let entries ← reorderEntries entries
    if KeysDistinct (entries.map Prod.fst) then
      return .map (sortBy compareByKey entries)
    else
      none

def reorderItems : List Value → Option (List Value)
  | [] => some []
  | item :: items => do
    let item ← item.reorder
    let items ← reorderItems items
    return item :: items

def reorderEntries : List (Scalar × Value) → Option (List (Scalar × Value))
  | [] => some []
  | (key, value) :: entries => do
    let value ← value.reorder
    let entries ← reorderEntries entries
    return (key, value) :: entries

end

/-- The two values differ in the order of map entries only. -/
inductive Reordered : Value → Value → Prop
  | scalar (value : Scalar) : Reordered (.scalar value) (.scalar value)
  | array {items items' : List Value} (hitems : Forall₂ Reordered items items') :
      Reordered (.array items) (.array items')
  | map {entries middle entries' : List (Scalar × Value)}
      (hkeys : entries.map Prod.fst = middle.map Prod.fst)
      (hvalues : Forall₂ Reordered (entries.map Prod.snd) (middle.map Prod.snd))
      (hperm : middle.Perm entries') : Reordered (.map entries) (.map entries')

def ReordersEntry (entry entry' : Scalar × Value) : Prop :=
  entry.1 = entry'.1 ∧ entry.2.reorder = some entry'.2

theorem reorderItems_eq_some_iff {items' : List Value} :
    reorderItems items = some items' ↔
      Forall₂ (fun item item' => item.reorder = some item') items items' := by
  induction items generalizing items' with
  | nil =>
    simp [reorderItems]
  | cons item items ih =>
    simp only [reorderItems, Option.bind_eq_bind, Option.bind_eq_some_iff, Option.pure_def,
      Option.some.injEq, forall₂_cons_left_iff, ih]
    constructor
    · rintro ⟨item', hitem, items', hitems, rfl⟩
      exact ⟨item', items', hitem, hitems, rfl⟩
    · rintro ⟨item', items', hitem, hitems, rfl⟩
      exact ⟨item', hitem, items', hitems, rfl⟩

theorem reorderEntries_eq_some_iff :
    reorderEntries entries = some entries' ↔ Forall₂ ReordersEntry entries entries' := by
  induction entries generalizing entries' with
  | nil =>
    simp [reorderEntries]
  | cons entry entries ih =>
    obtain ⟨key, value⟩ := entry
    simp only [reorderEntries, Option.bind_eq_bind, Option.bind_eq_some_iff, Option.pure_def,
      Option.some.injEq, forall₂_cons_left_iff, ih]
    constructor
    · rintro ⟨value', hvalue, entries', hentries, rfl⟩
      exact ⟨(key, value'), entries', ⟨rfl, hvalue⟩, hentries, rfl⟩
    · rintro ⟨⟨_, value'⟩, entries', ⟨rfl, hvalue⟩, hentries, rfl⟩
      exact ⟨value', hvalue, entries', hentries, rfl⟩

theorem reorder_array_eq_some_iff :
    (Value.array items).reorder = some value ↔
      ∃ items', Forall₂ (fun item item' => item.reorder = some item') items items' ∧
        Value.array items' = value := by
  simp [Value.reorder, reorderItems_eq_some_iff]

theorem reorder_map_eq_some_iff :
    (Value.map entries).reorder = some value ↔ ∃ middle, Forall₂ ReordersEntry entries middle ∧
        KeysDistinct (middle.map Prod.fst) ∧ Value.map (sortBy compareByKey middle) = value := by
  simp only [Value.reorder, Option.bind_eq_bind, Option.bind_eq_some_iff, Option.pure_def,
    Option.ite_none_right_eq_some, Option.some.injEq, reorderEntries_eq_some_iff]

theorem map_fst_of_reorders {middle : List (Scalar × Value)}
    (hmiddle : Forall₂ ReordersEntry entries middle) :
    entries.map Prod.fst = middle.map Prod.fst := by
  induction hmiddle with
  | nil => rfl
  | cons hentry _ ih => rw [map_cons, map_cons, hentry.1, ih]

theorem forall₂_imp_of_mem {S : α → β → Prop} {left : List α} {right : List β}
    (himp : ∀ item ∈ left, ∀ item', R item item' → S item item')
    (hitems : Forall₂ R left right) : Forall₂ S left right :=
  ((forall₂_and_left left right).mpr ⟨himp, hitems⟩).imp fun _ item' ⟨himp, hitem⟩ => himp item' hitem

theorem reordered_of_reorder (hvalue : value.reorder = some value') : Reordered value value' := by
  induction value generalizing value' with
  | scalar value =>
    rw [Value.reorder, Option.some.injEq] at hvalue
    rw [← hvalue]
    exact .scalar value
  | array items ih =>
    obtain ⟨items', hitems, rfl⟩ := reorder_array_eq_some_iff.mp hvalue
    exact .array (forall₂_imp_of_mem (fun item hitem item' => ih item hitem) hitems)
  | map entries ih =>
    obtain ⟨middle, hmiddle, _, rfl⟩ := reorder_map_eq_some_iff.mp hvalue
    refine .map (map_fst_of_reorders hmiddle) ?_ (sortBy_perm compareByKey middle).symm
    rw [forall₂_map_left_iff, forall₂_map_right_iff]
    exact forall₂_imp_of_mem (fun entry hentry _ hreorders => ih entry hentry hreorders.2) hmiddle

theorem length_flatMap_of_forall₂ {f : α → List β} {left right : List α}
    (hitems : Forall₂ (fun item item' => (f item').length = (f item).length) left right) :
    (right.flatMap f).length = (left.flatMap f).length := by
  induction hitems with
  | nil => rfl
  | cons hitem _ ih => rw [flatMap_cons, flatMap_cons, length_append, length_append, hitem, ih]

/-- The pass moves bytes and neither adds nor drops any. -/
theorem encode_length_of_reorder (hvalue : value.reorder = some value') :
    value'.encode.length = value.encode.length := by
  induction value generalizing value' with
  | scalar value =>
    rw [Value.reorder, Option.some.injEq] at hvalue
    rw [hvalue]
  | array items ih =>
    obtain ⟨items', hitems, rfl⟩ := reorder_array_eq_some_iff.mp hvalue
    have hlengths : Forall₂ (fun item item' : Value =>
        item'.encode.length = item.encode.length) items items' :=
      forall₂_imp_of_mem (fun item hitem item' => ih item hitem) hitems
    rw [Value.encode, Value.encode, length_append, length_append, encodeItems_eq, encodeItems_eq,
      length_flatMap_of_forall₂ hlengths, hitems.length_eq]
  | map entries ih =>
    obtain ⟨middle, hmiddle, _, rfl⟩ := reorder_map_eq_some_iff.mp hvalue
    have hlengths : Forall₂ (fun entry entry' =>
        (encodeEntry entry').length = (encodeEntry entry).length) entries middle := by
      refine forall₂_imp_of_mem (fun entry hentry entry' hreorders => ?_) hmiddle
      simp [encodeEntry, hreorders.1, ih entry hentry hreorders.2]
    have hperm := sortBy_perm compareByKey middle
    rw [Value.encode, Value.encode, length_append, length_append, encodeEntries_eq,
      encodeEntries_eq, (hperm.flatMap_right _).length_eq, length_flatMap_of_forall₂ hlengths,
      hperm.length_eq, hmiddle.length_eq]

theorem sortBy_keys_increasing (hkeys : KeysDistinct (entries.map Prod.fst)) :
    ((sortBy compareByKey entries).map Prod.fst).Pairwise KeyBefore := by
  have hne : entries.Pairwise fun left right => compareByKey left right ≠ .eq := by
    rw [KeysDistinct, map_map, Nodup, pairwise_map] at hkeys
    exact hkeys.imp fun hne heq => hne (Std.LawfulEqCmp.eq_of_compare heq)
  rw [pairwise_map]
  exact (sortBy_pairwise_lt compareByKey hne).imp fun hlt => (keyBefore_iff_shortlex _ _).mpr hlt

/-- Every map of the result is in key order. -/
theorem nested_of_reorder {keysOk : List Scalar → Prop}
    (hnested : Nested keysOk limit depth value) (hvalue : value.reorder = some value') :
    Nested (List.Pairwise KeyBefore) limit depth value' := by
  induction hnested generalizing value' with
  | scalar value hdepth =>
    rw [Value.reorder, Option.some.injEq] at hvalue
    rw [← hvalue]
    exact .scalar value hdepth
  | array hdepth _ ih =>
    obtain ⟨items', hitems, rfl⟩ := reorder_array_eq_some_iff.mp hvalue
    refine .array hdepth fun item' hitem' => ?_
    obtain ⟨item, hitem, hreorder⟩ := exists_mem_of_forall₂ hitems hitem'
    exact ih item hitem hreorder
  | map hdepth hkeyDepth _ _ ih =>
    obtain ⟨middle, hmiddle, hkeys, rfl⟩ := reorder_map_eq_some_iff.mp hvalue
    have hsource : ∀ entry' ∈ sortBy compareByKey middle, _ := fun entry' hentry' =>
      exists_mem_of_forall₂ hmiddle ((sortBy_perm compareByKey middle).mem_iff.mp hentry')
    refine .map hdepth (fun entry' hentry' => ?_) (fun entry' hentry' => ?_)
      (sortBy_keys_increasing hkeys)
    · obtain ⟨entry, hentry, _⟩ := hsource entry' hentry'
      exact hkeyDepth entry hentry
    · obtain ⟨entry, hentry, hreorders⟩ := hsource entry' hentry'
      exact ih entry hentry hreorders.2

theorem exists_reordersEntry_iff {entry : Scalar × Value} :
    (∃ entry', ReordersEntry entry entry') ↔ ∃ value', entry.2.reorder = some value' := by
  constructor
  · rintro ⟨entry', _, hvalue⟩
    exact ⟨entry'.2, hvalue⟩
  · rintro ⟨value', hvalue⟩
    exact ⟨(entry.1, value'), rfl, hvalue⟩

/-- The pass succeeds exactly where no map repeats a key. -/
theorem exists_reorder_iff (hnested : Nested (fun _ => True) limit depth value) :
    (∃ value', value.reorder = some value') ↔ Nested KeysDistinct limit depth value := by
  induction hnested with
  | scalar value hdepth =>
    exact iff_of_true ⟨.scalar value, by rw [Value.reorder]⟩ (.scalar value hdepth)
  | @array _ items hdepth _ ih =>
    constructor
    · rintro ⟨_, hvalue⟩
      obtain ⟨items', hitems, _⟩ := reorder_array_eq_some_iff.mp hvalue
      have hall := (exists_forall₂_iff items).mp ⟨items', hitems⟩
      exact .array hdepth fun item hitem => (ih item hitem).mp (hall item hitem)
    · intro hnested
      cases hnested with
      | array _ hdistinct =>
        obtain ⟨items', hitems⟩ := (exists_forall₂_iff items).mpr fun item hitem =>
          (ih item hitem).mpr (hdistinct item hitem)
        exact ⟨.array items', reorder_array_eq_some_iff.mpr ⟨items', hitems, rfl⟩⟩
  | @map _ entries hdepth hkeyDepth _ _ ih =>
    constructor
    · rintro ⟨_, hvalue⟩
      obtain ⟨middle, hmiddle, hkeys, _⟩ := reorder_map_eq_some_iff.mp hvalue
      have hall := (exists_forall₂_iff entries).mp ⟨middle, hmiddle⟩
      rw [← map_fst_of_reorders hmiddle] at hkeys
      exact .map hdepth hkeyDepth (fun entry hentry =>
        (ih entry hentry).mp (exists_reordersEntry_iff.mp (hall entry hentry))) hkeys
    · intro hnested
      cases hnested with
      | map _ _ hdistinct hkeys =>
        obtain ⟨middle, hmiddle⟩ := (exists_forall₂_iff entries).mpr fun entry hentry =>
          exists_reordersEntry_iff.mpr ((ih entry hentry).mpr (hdistinct entry hentry))
        rw [map_fst_of_reorders hmiddle] at hkeys
        exact ⟨_, reorder_map_eq_some_iff.mpr ⟨middle, hmiddle, hkeys, rfl⟩⟩

theorem keysDistinct_of_increasing {keys : List Scalar} (hkeys : keys.Pairwise KeyBefore) :
    KeysDistinct keys := by
  rw [KeysDistinct, Nodup, pairwise_map]
  refine hkeys.imp ?_
  intro left right hbefore heq
  rw [keyBefore_iff_shortlex, heq, @Std.ReflCmp.compare_self _ shortlex] at hbefore
  cases hbefore

theorem reorder_eq_self
    (hnested : Nested (List.Pairwise KeyBefore) limit depth value) : value.reorder = some value := by
  induction hnested with
  | scalar value _ => rw [Value.reorder]
  | array _ _ ih => exact reorder_array_eq_some_iff.mpr ⟨_, forall₂_same.mpr ih, rfl⟩
  | @map _ entries _ _ _ hkeys ih =>
    have hsorted : entries.Pairwise fun left right => (compareByKey left right).isLE := by
      refine (pairwise_map.mp hkeys).imp fun hbefore => ?_
      rw [compareByKey, (keyBefore_iff_shortlex _ _).mp hbefore]
      rfl
    refine reorder_map_eq_some_iff.mpr ⟨entries, ?_, keysDistinct_of_increasing hkeys, ?_⟩
    · exact forall₂_same.mpr fun entry hentry => ⟨rfl, ih entry hentry⟩
    · rw [sortBy_eq_self compareByKey hsorted]

end Tritium.Cbor
