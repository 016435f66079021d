import Tritium.Lib.CborOrder
import Tritium.Package.Proof.Scanner

/-!
# Ordering in place carries out the abstract pass

Each entry that is still to be placed keeps a span. The invariant of the placing loop gives these
spans a layout: the entries stand one behind the other from the cursor on, and the pending spans are
those of the layout in another order. One rotation takes an entry out of the layout and appends it
to the part that is finished.
-/

namespace Tritium.Package

open List
open Cbor

variable {position start length cursor levels : ℕ} {entries : List (Scalar × Value)}
  {bytes : List UInt8} {items : List Value} (pieces : List (Entry × (Scalar × Value)))

def spanOf (position : ℕ) (entry : Scalar × Value) : Entry :=
  ⟨position, position + entry.1.encode.length, position + (encodeEntry entry).length⟩

/-- The entries of a map with their spans, where the first one starts at `position`. -/
def located : ℕ → List (Scalar × Value) → List (Entry × (Scalar × Value))
  | _, [] => []
  | position, entry :: entries =>
    (spanOf position entry, entry) :: located (position + (encodeEntry entry).length) entries

theorem encodeEntries_cons (entry : Scalar × Value) (entries : List (Scalar × Value)) :
    encodeEntries (entry :: entries) = encodeEntry entry ++ encodeEntries entries := by
  rw [encodeEntries_eq, encodeEntries_eq, flatMap_cons]

theorem encodeEntries_append (left right : List (Scalar × Value)) :
    encodeEntries (left ++ right) = encodeEntries left ++ encodeEntries right := by
  rw [encodeEntries_eq, encodeEntries_eq, encodeEntries_eq, flatMap_append]

theorem located_append (position : ℕ) (left right : List (Scalar × Value)) :
    located position (left ++ right) =
      located position left ++ located (position + (encodeEntries left).length) right := by
  induction left generalizing position with
  | nil => rfl
  | cons entry left ih =>
    rw [cons_append, located, located, ih, encodeEntries_cons, length_append,
      cons_append, add_assoc]

theorem located_map_snd (position : ℕ) (entries : List (Scalar × Value)) :
    (located position entries).map Prod.snd = entries := by
  induction entries generalizing position with
  | nil => rfl
  | cons entry entries ih => rw [located, map_cons, ih]

theorem encodeEntry_length_pos (entry : Scalar × Value) : 0 < (encodeEntry entry).length := by
  rw [encodeEntry, length_append]
  exact Nat.add_pos_left entry.1.encode_length_pos _

theorem mem_located {piece : Entry × (Scalar × Value)} (hpiece : piece ∈ located position entries) :
    ∃ left right, entries = left ++ piece.2 :: right ∧
      piece.1 = spanOf (position + (encodeEntries left).length) piece.2 := by
  induction entries generalizing position with
  | nil => cases hpiece
  | cons entry entries ih =>
    rw [located] at hpiece
    obtain rfl | hpiece := mem_cons.mp hpiece
    · exact ⟨[], entries, rfl, rfl⟩
    · obtain ⟨left, right, heq, hspan⟩ := ih hpiece
      refine ⟨entry :: left, right, by rw [heq, cons_append], ?_⟩
      rw [hspan, encodeEntries_cons, length_append, add_assoc]

/-- Spans in front of the moved entry go up by its length. -/
theorem shift_located_before (hstart : position + (encodeEntries entries).length ≤ start)
    (hcursor : cursor ≤ position) :
    (located position entries).map (Prod.map (Entry.shift cursor start length) id) =
      located (position + length) entries := by
  induction entries generalizing position with
  | nil => rfl
  | cons entry entries ih =>
    rw [encodeEntries_cons, length_append] at hstart
    have hshift : Entry.shift cursor start length (spanOf position entry) =
        spanOf (position + length) entry := by
      rw [Entry.shift, spanOf, if_pos ⟨hcursor, by dsimp only; omega⟩, spanOf]
      simp only [Nat.add_right_comm]
    rw [located, map_cons, ih (by omega) (by omega), Nat.add_right_comm]
    rw [Prod.map, hshift]
    rfl

/-- Spans behind the moved entry stay where they are. -/
theorem shift_located_behind (hstart : start ≤ position) :
    (located position entries).map (Prod.map (Entry.shift cursor start length) id) =
      located position entries := by
  induction entries generalizing position with
  | nil => rfl
  | cons entry entries ih =>
    have hpos := encodeEntry_length_pos entry
    have hshift : Entry.shift cursor start length (spanOf position entry) =
        spanOf position entry := by
      rw [Entry.shift, if_neg]
      rw [spanOf]
      dsimp only
      omega
    rw [located, map_cons, ih (by omega)]
    rw [Prod.map, hshift]
    rfl

theorem slice_append {front part after : List UInt8} (hbytes : bytes = front ++ part ++ after)
    {stop : ℕ} (hstart : start = front.length) (hstop : stop = front.length + part.length) :
    (slice bytes start stop : Outcome ScanError (List UInt8)) = .ok part := by
  subst hbytes hstart hstop
  rw [slice_of_le (Nat.le_add_right _ _) (by simp), ← length_append, take_left, drop_left]

theorem rotateRight_append (front left part after : List UInt8) :
    rotateRight (front ++ (left ++ part) ++ after) front.length
      (front.length + (left ++ part).length) part.length =
        .ok (front ++ (part ++ left) ++ after) := by
  have hkept : (left ++ part).length - part.length = left.length := by
    simp
  have hfront : (front ++ (left ++ part) ++ after).take front.length = front := by
    rw [append_assoc, take_left]
  have hafter : (front ++ (left ++ part) ++ after).drop
      (front.length + (left ++ part).length) = after := by
    simp
  rw [rotateRight, slice_append rfl rfl rfl, ok_bind,
    sub_of_le (by rw [length_append]; exact Nat.le_add_left _ _), ok_bind,
    hkept, drop_left, take_left, hfront, hafter]
  rfl

theorem placeNext_stay {selected : Entry} {pending : List Entry}
    (hstop : selected.stop = selected.start + length) :
    placeNext ⟨bytes, selected :: pending, selected.start⟩ =
      .ok ⟨bytes, pending, selected.start + length⟩ := by
  simp [placeNext, hstop, sub_of_le (Nat.le_add_right _ _)]

theorem placeNext_move {rotated : List UInt8} (selected : Entry) (pending : List Entry)
    (hstop : selected.stop = selected.start + length) (hcursor : cursor ≠ selected.start)
    (hrotate : rotateRight bytes cursor selected.stop length = .ok rotated) :
    placeNext ⟨bytes, selected :: pending, cursor⟩ =
      .ok ⟨rotated, pending.map (Entry.shift cursor selected.start length), cursor + length⟩ := by
  have hlength : selected.stop - selected.start = length := by
    simp [hstop]
  rw [placeNext]
  dsimp only
  rw [sub_of_le (by omega), ok_bind, hlength, if_pos hcursor, hrotate]
  rfl

/-- One pass of the loop moves the selected entry to the cursor. -/
theorem placeNext_located (front after : List UInt8) (piece : Scalar × Value)
    (left right : List (Scalar × Value)) (rest : List (Entry × (Scalar × Value)))
    (hrest : rest.Perm (located front.length left ++
      located (front.length + (encodeEntries left).length + (encodeEntry piece).length) right)) :
    ∃ pending : List (Entry × (Scalar × Value)),
      pending.map Prod.snd = rest.map Prod.snd ∧
      pending.Perm (located (front ++ encodeEntry piece).length (left ++ right)) ∧
      placeNext ⟨front ++ encodeEntries (left ++ piece :: right) ++ after,
        spanOf (front.length + (encodeEntries left).length) piece :: rest.map Prod.fst,
        front.length⟩ = .ok ⟨front ++ encodeEntry piece ++ encodeEntries (left ++ right) ++ after,
        pending.map Prod.fst, (front ++ encodeEntry piece).length⟩ := by
  cases left with
  | nil =>
    refine ⟨rest, rfl, ?_, ?_⟩
    · rw [length_append]
      exact hrest
    · rw [nil_append, encodeEntries_cons, length_append, ← append_assoc front]
      exact placeNext_stay rfl
  | cons first left =>
    have hpos : 0 < (encodeEntries (first :: left)).length := by
      rw [encodeEntries_cons, length_append]
      exact Nat.add_pos_left (encodeEntry_length_pos first) _
    generalize first :: left = left at hpos hrest ⊢
    refine ⟨rest.map (Prod.map (Entry.shift front.length
      (front.length + (encodeEntries left).length) (encodeEntry piece).length) id), ?_, ?_, ?_⟩
    · rw [map_map]
      rfl
    · refine (hrest.map _).trans (Perm.of_eq ?_)
      rw [map_append, shift_located_before le_rfl le_rfl,
        shift_located_behind (Nat.le_add_right _ _), located_append, length_append,
        Nat.add_right_comm]
    · have hrotate := rotateRight_append front (encodeEntries left) (encodeEntry piece)
        (encodeEntries right ++ after)
      rw [length_append, ← add_assoc] at hrotate
      have hcursor : front.length ≠ front.length + (encodeEntries left).length := by omega
      have hmove := placeNext_move (spanOf (front.length + (encodeEntries left).length) piece)
        (rest.map Prod.fst) rfl hcursor hrotate
      rw [map_map] at hmove ⊢
      simp only [encodeEntries_append, encodeEntries_cons, append_assoc, length_append] at hmove ⊢
      exact hmove

/-- **The placing loop.** From a layout of the pending entries it leaves them in the order in which
they were pending. -/
theorem timesM_placeNext (pending : List (Entry × (Scalar × Value)))
    (layout : List (Scalar × Value)) (front after : List UInt8)
    (hpending : pending.Perm (located front.length layout)) :
    timesM placeNext pending.length ⟨front ++ encodeEntries layout ++ after,
      pending.map Prod.fst, front.length⟩ =
    .ok ⟨front ++ encodeEntries (pending.map Prod.snd) ++ after, [],
      front.length + (encodeEntries layout).length⟩ := by
  generalize hcount : pending.length = count
  induction count generalizing pending layout front with
  | zero =>
    obtain rfl := eq_nil_of_length_eq_zero hcount
    have hlayout : layout = [] := by
      rw [← located_map_snd front.length layout, hpending.symm.eq_nil, map_nil]
    rw [hlayout]
    rfl
  | succ count ih =>
    cases pending with
    | nil => cases hcount
    | cons selected rest =>
      obtain ⟨left, right, rfl, hspan⟩ := mem_located (hpending.mem_iff.mp mem_cons_self)
      obtain ⟨span, piece⟩ := selected
      dsimp only at hspan hpending
      subst hspan
      rw [located_append] at hpending
      have hrest := (hpending.trans perm_middle).cons_inv
      obtain ⟨pending, hsame, hpending, hnext⟩ :=
        placeNext_located front after piece left right rest hrest
      have hlength : pending.length = count := by
        rw [← length_map Prod.snd, hsame, length_map]
        exact Nat.succ.inj hcount
      rw [timesM, map_cons, hnext, ok_bind, ih pending (left ++ right) _ hpending
        hlength, hsame, map_cons, encodeEntries_cons, encodeEntries_append,
        encodeEntries_append, encodeEntries_cons]
      simp only [append_assoc, length_append, add_assoc, add_left_comm]

theorem mapM_keys (entries : List (Scalar × Value)) (front after : List UInt8) :
    ((located front.length entries).map Prod.fst).mapM (fun entry => do
      let key ← slice (front ++ encodeEntries entries ++ after) entry.start entry.keyStop
      return (key, entry) : Entry → Outcome ScanError (List UInt8 × Entry)) =
    .ok ((located front.length entries).map fun piece => (piece.2.1.encode, piece.1)) := by
  induction entries generalizing front with
  | nil => rfl
  | cons entry entries ih =>
    have hfirst : front ++ encodeEntries (entry :: entries) ++ after =
        front ++ entry.1.encode ++ (entry.2.encode ++ encodeEntries entries ++ after) := by
      simp [encodeEntries_cons, encodeEntry]
    have hrest : front ++ encodeEntries (entry :: entries) ++ after =
        front ++ encodeEntry entry ++ encodeEntries entries ++ after := by
      simp [encodeEntries_cons]
    have ih := ih (front ++ encodeEntry entry)
    rw [← hrest, length_append] at ih
    have hkey : (slice (front ++ encodeEntries (entry :: entries) ++ after)
        (spanOf front.length entry).start (spanOf front.length entry).keyStop :
        Outcome ScanError (List UInt8)) = .ok entry.1.encode := slice_append hfirst rfl rfl
    rw [located, map_cons, mapM_cons]
    rw [hkey, ih]
    rfl

def comparePieces (left right : Entry × (Scalar × Value)) : Ordering :=
  compareByKey left.2 right.2

instance : Std.TransCmp comparePieces := transCmp_comap compareByKey Prod.snd

theorem comparePieces_eq_iff (left right : Entry × (Scalar × Value)) :
    comparePieces left right = .eq ↔ left.2.1.encode = right.2.1.encode := by
  simp [comparePieces, compareByKey]

theorem pairwise_pieces_iff :
    pieces.Pairwise (fun left right => comparePieces left right ≠ .eq) ↔
      KeysDistinct ((pieces.map Prod.snd).map Prod.fst) := by
  rw [KeysDistinct, Nodup, pairwise_map, pairwise_map, pairwise_map]
  exact List.Pairwise.iff fun left right => not_congr (comparePieces_eq_iff left right)

/-- Equal keys become neighbours, so the check finds every repeated key. -/
theorem neighboursAny_pieces_iff :
    neighboursAny (fun left right => left.1 == right.1)
        ((sortBy comparePieces pieces).map fun piece => (piece.2.1.encode, piece.1)) = false ↔
      KeysDistinct ((pieces.map Prod.snd).map Prod.fst) := by
  have hperm := sortBy_perm comparePieces pieces
  rw [neighboursAny_eq_false_iff, isChain_map, ← pairwise_pieces_iff,
    ← hperm.pairwise_iff (mt Std.OrientedCmp.eq_symm)]
  simp only [beq_eq_false_iff_ne, ne_eq, ← comparePieces_eq_iff]
  exact ⟨fun hchain => pairwise_ne_eq_of_neighbours comparePieces
    (sortBy_pairwise comparePieces pieces) hchain, List.Pairwise.isChain⟩

theorem sortEntries_located (entries : List (Scalar × Value)) (front after : List UInt8) :
    sortEntries (front ++ encodeEntries entries ++ after)
      ((located front.length entries).map Prod.fst) = if KeysDistinct (entries.map Prod.fst) then
      .ok ((sortBy comparePieces (located front.length entries)).map Prod.fst)
    else
      .err .invalid := by
  have hcheck := neighboursAny_pieces_iff (located front.length entries)
  rw [located_map_snd] at hcheck
  rw [sortEntries, mapM_keys, ok_bind, sortBy_map]
  change (if neighboursAny _ ((sortBy comparePieces _).map _) = true then _ else _) = _
  by_cases hdistinct : KeysDistinct (entries.map Prod.fst)
  · rw [if_pos hdistinct, hcheck.mpr hdistinct, map_map]
    rfl
  · rw [if_neg hdistinct, if_pos (Bool.eq_true_of_not_eq_false fun hfalse =>
      hdistinct (hcheck.mp hfalse))]

theorem sortBy_pieces_snd (position : ℕ) (entries : List (Scalar × Value)) :
    (sortBy comparePieces (located position entries)).map Prod.snd =
      sortBy compareByKey entries := by
  have hmap := sortBy_map compareByKey Prod.snd (located position entries)
  rw [located_map_snd] at hmap
  exact hmap.symm

/-- Sorting the spans and placing the entries sorts the entries. -/
theorem sortEntries_place (entries : List (Scalar × Value)) (front after : List UInt8) (stop : ℕ) :
    (do
      let spans ← sortEntries (front ++ encodeEntries entries ++ after)
        ((located front.length entries).map Prod.fst)
      let placed ← timesM placeNext spans.length
        ⟨front ++ encodeEntries entries ++ after, spans, front.length⟩
      return (placed.bytes, stop) : Outcome ScanError (List UInt8 × ℕ)) =
    if KeysDistinct (entries.map Prod.fst) then
      .ok (front ++ encodeEntries (sortBy compareByKey entries) ++ after, stop)
    else
      .err .invalid := by
  rw [sortEntries_located]
  by_cases hdistinct : KeysDistinct (entries.map Prod.fst)
  · rw [if_pos hdistinct, if_pos hdistinct, ok_bind, length_map,
      timesM_placeNext _ entries front after (sortBy_perm comparePieces _), sortBy_pieces_snd]
    rfl
  · rw [if_neg hdistinct, if_neg hdistinct]
    rfl

/-- What ordering one value in the middle of a buffer amounts to. -/
def Orders (levels : ℕ) (value : Value) : Prop :=
  ∀ before after : List UInt8, (before ++ value.encode ++ after).length < 2 ^ 64 →
    order levels (before ++ value.encode ++ after, before.length) =
      okOr (value.reorder.map fun value' =>
        (before ++ value'.encode ++ after, before.length + value.encode.length)) .invalid

theorem timesM_order (hitems : ∀ item ∈ items, Orders levels item) (before after : List UInt8)
    (hsmall : (before ++ encodeItems items ++ after).length < 2 ^ 64) :
    timesM (order levels) items.length (before ++ encodeItems items ++ after, before.length) =
      okOr ((reorderItems items).map fun items' =>
        (before ++ encodeItems items' ++ after, before.length + (encodeItems items).length))
        .invalid := by
  induction items generalizing before with
  | nil => rfl
  | cons item items ih =>
    obtain ⟨hitem, hitems⟩ := forall_mem_cons.mp hitems
    have hbytes : before ++ encodeItems (item :: items) ++ after =
        before ++ item.encode ++ (encodeItems items ++ after) := by
      rw [encodeItems]
      simp only [append_assoc]
    rw [hbytes] at hsmall ⊢
    rw [length_cons, timesM, hitem before _ hsmall, reorderItems]
    cases hreorder : item.reorder with
    | none => rfl
    | some item' =>
      have hlength := encode_length_of_reorder hreorder
      rw [Option.map_some, okOr_bind, ← append_assoc, ← hlength, ← length_append, ih hitems]
      · cases reorderItems items with
        | none => rfl
        | some items' =>
          change Outcome.ok _ = Outcome.ok (_, _)
          rw [encodeItems, encodeItems]
          simp only [append_assoc, length_append, hlength, add_assoc]
      · simp only [length_append] at hsmall ⊢
        omega

theorem timesM_orderEntry (hlevels : ∀ entry ∈ entries, 0 < levels)
    (hentries : ∀ entry ∈ entries, Orders levels entry.2) (before after : List UInt8)
    (found : List Entry) (hsmall : (before ++ encodeEntries entries ++ after).length < 2 ^ 64) :
    timesM (orderEntry levels (order levels)) entries.length
        ((before ++ encodeEntries entries ++ after, before.length), found) =
      okOr ((reorderEntries entries).map fun entries' =>
        ((before ++ encodeEntries entries' ++ after,
          before.length + (encodeEntries entries).length),
          found ++ (located before.length entries').map Prod.fst)) .invalid := by
  induction entries generalizing before found with
  | nil =>
    rw [reorderEntries, Option.map_some, located, map_nil, append_nil]
    rfl
  | cons entry entries ih =>
    obtain ⟨key, value⟩ := entry
    obtain ⟨hpositive, hlevels⟩ := forall_mem_cons.mp hlevels
    obtain ⟨hvalue, hentries⟩ := forall_mem_cons.mp hentries
    have hbytes : before ++ encodeEntries ((key, value) :: entries) ++ after =
        before ++ key.encode ++ (value.encode ++ (encodeEntries entries ++ after)) := by
      rw [encodeEntries]
      simp only [append_assoc]
    rw [hbytes] at hsmall ⊢
    have hkey := (key_eq_ok_iff hsmall).mpr ⟨hpositive, key, subslice_append before key.encode _⟩
    rw [← append_assoc (before ++ key.encode), ← length_append] at hkey
    rw [← append_assoc (before ++ key.encode)] at hsmall ⊢
    rw [length_cons, timesM, orderEntry]
    dsimp only
    rw [hkey, ok_bind, hvalue (before ++ key.encode) _ hsmall, reorderEntries]
    cases hreorder : value.reorder with
    | none => rfl
    | some value' =>
      have hlength := encode_length_of_reorder hreorder
      rw [Option.map_some, okOr_bind, pure_eq_ok,
        ok_bind, ← append_assoc (before ++ key.encode ++ value'.encode), ← hlength,
        ← length_append, ih hlevels hentries]
      · cases reorderEntries entries with
        | none => rfl
        | some entries' =>
          change Outcome.ok _ = Outcome.ok (_, _)
          rw [encodeEntries, encodeEntries, located, map_cons, spanOf, encodeEntry]
          simp only [append_assoc, length_append, hlength, add_assoc, singleton_append]
      · simp only [length_append] at hsmall ⊢
        omega

theorem order_scalar (levels : ℕ) (value : Scalar) : Orders (levels + 1) (.scalar value) := by
  intro before after hsmall
  rw [Value.encode] at hsmall ⊢
  obtain ⟨_, middle, hhead, hscalar⟩ :=
    (scalar_iff_encode hsmall).mpr ⟨value, subslice_append before value.encode after⟩
  rw [order, hhead, ok_bind]
  dsimp only
  rw [hscalar]
  rfl

theorem order_array (hitems : ∀ item ∈ items, Orders levels item) :
    Orders (levels + 1) (.array items) := by
  intro before after hsmall
  have hbytes : before ++ (Value.array items).encode ++ after =
      before ++ headBytes 4 items.length ++ (encodeItems items ++ after) := by
    rw [Value.encode]
    simp only [append_assoc]
  have hroom := length_le_encodeItems items
  rw [hbytes] at hsmall ⊢
  have hlength : items.length < 2 ^ 64 := by
    simp only [length_append] at hsmall
    omega
  obtain ⟨hhead, hscalar, hsub, hcount⟩ := head_of_compound hsmall (.inl rfl) one_pos hlength
    (subslice_append before _ _) (by simp only [length_append]; omega)
  rw [order, hhead, ok_bind]
  dsimp only
  rw [hscalar, ok_bind]
  rw [hsub, ok_bind, hcount, ok_bind, ← append_assoc, ← length_append, timesM_order hitems,
    Value.reorder]
  · cases hreorder : reorderItems items with
    | none => rfl
    | some items' =>
      have hsame := (reorderItems_eq_some_iff.mp hreorder).length_eq
      change Outcome.ok _ = Outcome.ok (_, _)
      rw [Value.encode, Value.encode, hsame]
      simp only [append_assoc, length_append, add_assoc]
  · rwa [append_assoc _ (encodeItems items)]

theorem order_map (hlevels : ∀ entry ∈ entries, 0 < levels)
    (hentries : ∀ entry ∈ entries, Orders levels entry.2) : Orders (levels + 1) (.map entries) := by
  intro before after hsmall
  have hbytes : before ++ (Value.map entries).encode ++ after =
      before ++ headBytes 5 entries.length ++ (encodeEntries entries ++ after) := by
    rw [Value.encode]
    simp only [append_assoc]
  have hroom := length_mul_two_le_encodeEntries entries
  rw [hbytes] at hsmall ⊢
  have hlength : entries.length < 2 ^ 64 := by
    simp only [length_append] at hsmall
    omega
  obtain ⟨hhead, hscalar, hsub, hcount⟩ := head_of_compound hsmall (.inr rfl) Nat.two_pos hlength
    (subslice_append before _ _) (by simp only [length_append]; omega)
  rw [order, hhead, ok_bind]
  dsimp only
  rw [hscalar, ok_bind]
  rw [if_neg Bool.false_ne_true, if_neg (by decide), hsub, ok_bind, hcount, ok_bind, ← append_assoc,
    ← length_append, timesM_orderEntry hlevels hentries, Value.reorder]
  · cases hreorder : reorderEntries entries with
    | none => rfl
    | some middle =>
      have hsame := (reorderEntries_eq_some_iff.mp hreorder).length_eq
      rw [Option.map_some, okOr_bind]
      rw [nil_append, sortEntries_place, Option.bind_eq_bind, Option.bind_some]
      by_cases hdistinct : KeysDistinct (middle.map Prod.fst)
      · rw [if_pos hdistinct, if_pos hdistinct]
        change Outcome.ok _ = Outcome.ok (_, _)
        rw [Value.encode, Value.encode, (sortBy_perm compareByKey middle).length_eq, hsame]
        simp only [append_assoc, length_append, add_assoc]
      · rw [if_neg hdistinct, if_neg hdistinct]
        rfl
  · rwa [append_assoc _ (encodeEntries entries)]

/-- **Refinement.** Ordering in place is the abstract pass on the value in the buffer. -/
theorem orders_of_nested {depth : ℕ} {value : Value}
    (hnested : Nested (fun _ => True) 64 depth value)
    (hlevels : depth + levels = rootLevels) : Orders levels value := by
  induction hnested generalizing levels with
  | scalar value hdepth =>
    cases levels with
    | zero => exact absurd hdepth (by rw [rootLevels] at hlevels; omega)
    | succ levels => exact order_scalar levels value
  | array hdepth _ ih =>
    cases levels with
    | zero => exact absurd hdepth (by rw [rootLevels] at hlevels; omega)
    | succ levels => exact order_array fun item hitem => ih item hitem (by omega)
  | map hdepth hkeyDepth _ _ ih =>
    cases levels with
    | zero => exact absurd hdepth (by rw [rootLevels] at hlevels; omega)
    | succ levels =>
      refine order_map (fun entry hentry => ?_) fun entry hentry => ih entry hentry (by omega)
      have hdepth := hkeyDepth entry hentry
      rw [rootLevels] at hlevels
      omega

theorem canonicalizeWithLimit_eq {value : Value} {limit : UInt64}
    (hnested : Nested (fun _ => True) 64 0 value) (hlimit : value.encode.length ≤ limit.toNat) :
    canonicalizeWithLimit value.encode limit = okOr (value.reorder.map Value.encode) .invalid := by
  have hpos := value.encode_length_pos
  have hsmall : ([] ++ value.encode ++ []).length < 2 ^ 64 := by
    rw [append_nil]
    exact lt_of_le_of_lt hlimit limit.toNat_lt
  have horder := orders_of_nested hnested (zero_add rootLevels) [] [] hsmall
  simp only [nil_append, append_nil, length_nil, zero_add] at horder
  rw [canonicalizeWithLimit, if_neg (not_or.mpr ⟨length_pos_iff_ne_nil.mp hpos, not_lt.mpr
    hlimit⟩), horder]
  cases hreorder : value.reorder with
  | none => rfl
  | some value' =>
    exact if_neg (not_not.mpr (encode_length_of_reorder hreorder).symm)

/-- **Canonicalisation in place.** On an encoding of the profile within the limit the pass succeeds
if and only if no map repeats a key. It then leaves a buffer of the same length that the scanner
accepts, the encoding of a value that differs in the order of map entries only, and it leaves a
buffer the scanner accepts as it is. A repeated key at any level, or a buffer beyond the limit, is
refused as invalid. -/
theorem canonicalizeWithLimit_spec (value : Value) (limit : UInt64)
    (hnested : Nested (fun _ => True) 64 0 value) :
    (value.encode.length ≤ limit.toNat → Nested KeysDistinct 64 0 value →
      ∃ value', canonicalizeWithLimit value.encode limit = .ok value'.encode ∧
        value'.encode.length = value.encode.length ∧
        validateWithLimit value'.encode limit = .ok () ∧ Reordered value value' ∧
        (validateWithLimit value.encode limit = .ok () → value'.encode = value.encode)) ∧
    (¬ Nested KeysDistinct 64 0 value ∨ limit.toNat < value.encode.length →
      canonicalizeWithLimit value.encode limit = .err .invalid) := by
  refine ⟨fun hlimit hdistinct => ?_, ?_⟩
  · obtain ⟨value', hreorder⟩ := (exists_reorder_iff hnested).mpr hdistinct
    have hlength := encode_length_of_reorder hreorder
    refine ⟨value', ?_, hlength, ?_, reordered_of_reorder hreorder, fun hvalid => ?_⟩
    · rw [canonicalizeWithLimit_eq hnested hlimit, hreorder]
      rfl
    · rw [validateWithLimit_iff_encoding, hlength]
      exact ⟨value.encode_length_pos, hlimit, value', nested_of_reorder hnested hreorder, rfl⟩
    · obtain ⟨_, _, other, hother, hencode⟩ := (validateWithLimit_iff_encoding _ _).mp hvalid
      have hsmall : value.encode.length < 2 ^ 64 := lt_of_le_of_lt hlimit limit.toNat_lt
      obtain rfl : value = other := encode_inj hsmall hencode.symm
      rw [reorder_eq_self hother, Option.some.injEq] at hreorder
      rw [hreorder]
  · intro hrefused
    by_cases hlimit : value.encode.length ≤ limit.toNat
    · have hrepeats := hrefused.resolve_right (not_lt.mpr hlimit)
      rw [← exists_reorder_iff hnested, ← Option.isSome_iff_exists, Option.not_isSome_iff_eq_none]
        at hrepeats
      rw [canonicalizeWithLimit_eq hnested hlimit, hrepeats]
      rfl
    · exact if_pos (.inr (not_le.mp hlimit))

theorem canonicalizeWithLimit_spec_swapped :
    ∃ value' : Value, canonicalizeWithLimit [0xa2, 0xf5, 0xf6, 0xf4, 0xa0] 5 = .ok value'.encode ∧
      validateWithLimit value'.encode 5 = .ok () := by
  have hnested : ∀ keysOk : List Scalar → Prop, keysOk [] →
      keysOk [.bool true, .bool false] → Nested keysOk 64 0
        (.map [(.bool true, .scalar .null), (.bool false, .map [])]) := by
    intro keysOk hempty hkeys
    refine .map (by decide) (by decide) ?_ hkeys
    simp only [forall_mem_cons]
    exact ⟨.scalar .null (by decide), .map (by decide) (by decide) (by simp) hempty, by simp⟩
  obtain ⟨value', hok, _, hvalid, _⟩ := (canonicalizeWithLimit_spec _ 5
    (hnested _ trivial trivial)).1 (by decide) (hnested KeysDistinct (by decide) (by decide))
  exact ⟨value', hok, hvalid⟩

end Tritium.Package
