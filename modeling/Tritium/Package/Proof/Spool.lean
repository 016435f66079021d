import Tritium.Package.Spool
import Tritium.Package.Proof.RoundTrip

/-!
# The writers are one function

Over a spool that stores the blobs and a destination that takes what it is given, every check of the
spool writer comes out as the one of the writer in memory, and carrying out the plan puts out the
same bytes. All refusals happen before the destination is touched.
-/

namespace Tritium.Package

open List
open Cbor Packing
open Seekable (Ready)
open Stateful (Implements Appends)

variable {σ δ ρ ι : Type} {codec : Codec} {digest packageId : List UInt8 → Digest}

section Source

variable {source : Seekable ρ ι} {content : List UInt8} {stands : ℕ → ρ → Prop}

theorem seekSpool_ok (hserves : source.Serves content stands) {position offset : ℕ} {state : ρ}
    (hstate : stands position state) (hoffset : offset ≤ content.length) :
    ∃ after, seekSpool source offset state = (.ok (), after) ∧ stands offset after := by
  obtain ⟨after, hcall, hafter⟩ := hserves.seekStart hstate hoffset
  refine ⟨after, ?_, hafter⟩
  rw [seekSpool, bind_apply_ok (mapErr_apply_ok hcall _), if_neg (not_not.mpr rfl)]
  rfl

theorem readSpool_ok (hserves : source.Serves content stands) {position count : ℕ} {state : ρ}
    {bytes : List UInt8} (hstate : stands position state)
    (hbytes : subslice content position (position + count) = some bytes) :
    ∃ after, readSpool source count state = (.ok bytes, after) ∧
      stands (position + count) after := by
  obtain ⟨after, hcall, hafter⟩ := hserves.readExact hstate hbytes
  exact ⟨after, mapErr_apply_ok hcall _, hafter⟩

/-- A visit hands the bytes of the blob to the chunks, window by window. The relation says where the
source stands and what the chunks have put out. -/
theorem visitSpoolBlob_ok {reached : ℕ → List UInt8 → ρ → Prop}
    {chunk : List UInt8 → Stateful ρ (TritPackageWriteError ι) Unit}
    (hserves : ∀ output, source.Serves content fun position => reached position output)
    (hchunk : ∀ bytes position output state, reached position output state →
      ∃ after, chunk bytes state = (.ok (), after) ∧ reached position (output ++ bytes) after)
    {blob : TritSpoolBlob} {bytes : List UInt8}
    (hbytes : subslice content blob.offset.toNat (blob.offset.toNat + blob.length.toNat) =
      some bytes)
    (hdigest : digest bytes = blob.id) {position : ℕ} {output : List UInt8} {state : ρ}
    (hstate : reached position output state) :
    ∃ after, visitSpoolBlob digest source blob chunk state = (.ok (), after) ∧
      reached (blob.offset.toNat + blob.length.toNat) (output ++ bytes) after := by
  have hlength := add_length_of_subslice hbytes
  have hbody : ∀ position hashed state, position < blob.length.toNat →
      (reached (blob.offset.toNat + position) (output ++ hashed) state ∧
        hashed = bytes.take position) →
      ∃ hashed' after, visitSpoolWindow source chunk hashed position
          (min (blob.length.toNat - position) spoolChunkBytes) state = (.ok hashed', after) ∧
        (reached (blob.offset.toNat +
            (position + min (blob.length.toNat - position) spoolChunkBytes))
          (output ++ hashed') after ∧
          hashed' = bytes.take (position + min (blob.length.toNat - position) spoolChunkBytes)) := by
    rintro position hashed state _ ⟨hstate, rfl⟩
    generalize hcount : min (blob.length.toNat - position) spoolChunkBytes = count
    have hwindow := @subslice_of_subslice _ _ _ _ _ position count hbytes (by omega)
    obtain ⟨middle, hread, hmiddle⟩ := readSpool_ok (hserves _) hstate hwindow
    obtain ⟨after, hput, _⟩ := hchunk ((bytes.drop position).take count) _ _ middle hmiddle
    refine ⟨bytes.take (position + count), after, ?_, ?_, rfl⟩
    · rw [visitSpoolWindow, bind_apply_ok hread, bind_apply_ok hput, take_add]
      rfl
    · rwa [take_add, ← append_assoc, ← add_assoc]
  obtain ⟨start, hseek, _⟩ := seekSpool_ok (hserves output) hstate (start_le_of_subslice hbytes)
  rw [visitSpoolBlob, bind_apply_ok hseek]
  have hinitial : reached (blob.offset.toNat + 0) (output ++ []) start ∧ [] = bytes.take 0 :=
    ⟨by rwa [append_nil], rfl⟩
  obtain ⟨_, after, hloop, hreached, hhashed⟩ :=
    foldWindows_ok (by decide) hbody (Nat.le_of_eq (Nat.sub_zero _)) (Nat.zero_le _) hinitial
  rw [take_of_length_le (by omega)] at hhashed
  rw [hhashed] at hloop hreached
  rw [bind_apply_ok hloop, if_neg (not_not.mpr hdigest)]
  exact ⟨after, rfl, hreached⟩

variable (hserves : source.Serves content stands) (hsmall : content.length < 2 ^ 64)
  {blob : TritBlob}

include hserves hsmall

theorem compareSpoolWindow_implements {other blob : TritSpoolBlob} {left right : List UInt8}
    (hleft : subslice content other.offset.toNat (other.offset.toNat + other.length.toNat) =
      some left)
    (hright : subslice content blob.offset.toNat (blob.offset.toNat + blob.length.toNat) =
      some right) {position count : ℕ} (hleftWindow : position + count ≤ left.length)
    (hrightWindow : position + count ≤ right.length) :
    Implements (Ready stands) (compareSpoolWindow source other blob position count)
      (if (left.drop position).take count ≠ (right.drop position).take count then
        .err (.package .blobIdentityCollision)
      else .ok ()) := by
  have hleftSlice := subslice_of_subslice hleft hleftWindow
  have hrightSlice := subslice_of_subslice hright hrightWindow
  have hleftStop := (subslice_eq_some_iff.mp hleftSlice).2.1
  have hrightStop := (subslice_eq_some_iff.mp hrightSlice).2.1
  rintro state ⟨_, hstate⟩
  obtain ⟨state₁, hseek₁, hstate₁⟩ := seekSpool_ok hserves hstate (start_le_of_subslice hleftSlice)
  obtain ⟨state₂, hread₁, hstate₂⟩ := readSpool_ok hserves hstate₁ hleftSlice
  obtain ⟨state₃, hseek₂, hstate₃⟩ :=
    seekSpool_ok hserves hstate₂ (start_le_of_subslice hrightSlice)
  obtain ⟨state₄, hread₂, hstate₄⟩ := readSpool_ok hserves hstate₃ hrightSlice
  rw [compareSpoolWindow, add_of_lt (by omega), lift_ok_bind,
    bind_apply_ok hseek₁, bind_apply_ok hread₁, add_of_lt (by omega),
    lift_ok_bind, bind_apply_ok hseek₂, bind_apply_ok hread₂]
  split
  · exact ⟨rfl, _, hstate₄⟩
  · exact ⟨rfl, _, hstate₄⟩

omit hserves hsmall in
theorem foldWindows_compare {ε : Type} (error : ε) {left right : List UInt8} {limit : ℕ}
    (hlimit : 0 < limit) (hlength : left.length = right.length) {turns position : ℕ}
    (hturns : right.length - position ≤ turns) :
    foldWindows limit (fun _ position count =>
        if (left.drop position).take count ≠ (right.drop position).take count then
          (.err error : Outcome ε Unit)
        else .ok ()) turns () position right.length =
      if left.drop position = right.drop position then .ok () else .err error := by
  induction turns generalizing position with
  | zero =>
    rw [drop_eq_nil_of_le (by omega), drop_eq_nil_of_le (by omega)]
    rfl
  | succ turns ih =>
    rw [foldWindows]
    by_cases hlt : position < right.length
    · rw [if_pos hlt]
      generalize hcount : min (right.length - position) limit = count
      have hsplit : left.drop position = right.drop position ↔
          (left.drop position).take count = (right.drop position).take count ∧
            left.drop (position + count) = right.drop (position + count) := by
        rw [← drop_drop, ← drop_drop]
        constructor
        · intro heq
          rw [heq]
          exact ⟨rfl, rfl⟩
        · rintro ⟨htake, hdrop⟩
          rw [← take_append_drop count (left.drop position), htake, hdrop, take_append_drop]
      by_cases hwindow : (left.drop position).take count = (right.drop position).take count
      · rw [if_neg (not_not.mpr hwindow), ok_bind, ih (by omega)]
        simp only [hsplit, hwindow, true_and]
      · rw [if_pos hwindow, Outcome.err_bind, if_neg fun heq => hwindow (hsplit.mp heq).1]
    · rw [if_neg hlt, drop_eq_nil_of_le (by omega), drop_eq_nil_of_le (by omega)]
      rfl

/-- The spool holds the blob where its record says. -/
structure Stores (digest : List UInt8 → Digest) (content : List UInt8) (spooled : TritSpoolBlob)
    (blob : TritBlob) : Prop where
  id_eq : spooled.id = digest blob.bytes
  kind_eq : spooled.kind = blob.kind
  slice : subslice content spooled.offset.toNat (spooled.offset.toNat + spooled.length.toNat) =
    some blob.bytes

omit hserves hsmall in
theorem Stores.length_eq {spooled : TritSpoolBlob} (hstores : Stores digest content spooled blob) :
    spooled.length.toNat = blob.bytes.length := by
  have hlength := add_length_of_subslice hstores.slice
  omega

/-- The comparison of a blob with the first one of its digest, in memory. -/
def compareWithFirst (digest : List UInt8 → Digest) (blobs : List TritBlob) (unique : DigestMap ℕ)
    (entry : TritBlob × ℕ) : Outcome (TritPackageWriteError ι) (DigestMap ℕ) :=
  match unique[digest entry.1.bytes]? with
  | some other => do
    let other ← Outcome.index blobs other
    if other.bytes = entry.1.bytes then .ok unique else .err (.package .blobIdentityCollision)
  | none => .ok (unique.insert (digest entry.1.bytes) entry.2)

omit hserves hsmall in
theorem getElem?_of_forall₂ {α β : Type} {related : α → β → Prop} {items : List α}
    {items' : List β} (hitems : Forall₂ related items items') (index : ℕ) :
    (items[index]? = none ∧ items'[index]? = none) ∨
      ∃ item item', items[index]? = some item ∧ items'[index]? = some item' ∧
        related item item' := by
  induction hitems generalizing index with
  | nil => exact .inl ⟨rfl, rfl⟩
  | cons hitem _ ih =>
    cases index with
    | zero => exact .inr ⟨_, _, rfl, rfl, hitem⟩
    | succ index => exact ih index

variable {spooled : List TritSpoolBlob} {blobs front : List TritBlob}
  (hspooled : Forall₂ (Stores digest content) spooled blobs) {entry : TritSpoolBlob}

include hspooled

omit hspooled in
/-- The comparison of two blobs of one length, window by window. -/
theorem compareSpool_implements {first : TritSpoolBlob} {first' : TritBlob}
    (hfirst : Stores digest content first first') (hstores : Stores digest content entry blob)
    (hlength : first.length = entry.length) :
    Implements (Ready stands)
      (foldWindows spoolChunkBytes
        (fun _ position count => compareSpoolWindow source first entry position count)
        entry.length.toNat () 0 entry.length.toNat)
      (if first'.bytes = blob.bytes then .ok () else .err (.package .blobIdentityCollision)) := by
  have hlengths : first'.bytes.length = blob.bytes.length := by
    rw [← hfirst.length_eq, ← hstores.length_eq, hlength]
  have hcompare := @foldWindows_compare (TritPackageWriteError ι) (.package .blobIdentityCollision)
    _ _ spoolChunkBytes (by decide) hlengths _ _ (Nat.le_of_eq (Nat.sub_zero _))
  rw [drop_zero, drop_zero] at hcompare
  rw [← hcompare, hstores.length_eq]
  apply Implements.foldWindows
  intro _ position hlt
  exact compareSpoolWindow_implements hserves hsmall hfirst.slice hstores.slice (by omega) (by omega)

theorem verifySpoolBlob_implements (unique : DigestMap ℕ)
    (hstores : Stores digest content entry blob) (index : ℕ) :
    Implements (Ready stands)
      (verifySpoolBlob digest source spooled unique (entry, index))
      (compareWithFirst digest blobs unique (blob, index)) := by
  rintro state ⟨position, hstate⟩
  have hquiet : ∀ (bytes : List UInt8) (position : ℕ) (output : List UInt8) (state : ρ),
      stands position state → ∃ after,
        (pure () : Stateful ρ (TritPackageWriteError ι) Unit) state = (.ok (), after) ∧
          stands position after := fun _ _ _ state hstate => ⟨state, rfl, hstate⟩
  obtain ⟨visited, hvisit, hvisited⟩ := @visitSpoolBlob_ok _ _ _ _ _ (fun position _ => stands position)
    (fun _ => pure ()) (fun _ => hserves) hquiet _ _ hstores.slice hstores.id_eq.symm _ [] _ hstate
  rw [verifySpoolBlob, compareWithFirst]
  rw [bind_apply_ok hvisit, hstores.id_eq]
  cases unique[digest blob.bytes]? with
  | none => exact ⟨rfl, _, hvisited⟩
  | some other =>
    dsimp only
    rcases getElem?_of_forall₂ hspooled other with
      ⟨hnone, hnone'⟩ | ⟨first, first', hfirst, hfirst', hrelated⟩
    · rw [Outcome.index, Outcome.index, hnone, hnone']
      exact ⟨rfl, _, hvisited⟩
    rw [index_eq_ok_iff.mpr hfirst, index_eq_ok_iff.mpr hfirst', lift_ok_bind, ok_bind]
    by_cases hlength : first.length = entry.length
    · rw [if_neg (not_not.mpr hlength)]
      by_cases hoffset : first.offset = entry.offset
      · have hbytes : first'.bytes = blob.bytes := by
          have hslice := hrelated.slice
          rw [hoffset, hlength, hstores.slice, Option.some.injEq] at hslice
          exact hslice.symm
        rw [if_pos hoffset, if_pos hbytes]
        exact ⟨rfl, _, hvisited⟩
      · rw [if_neg hoffset]
        have hloop := (compareSpool_implements hserves hsmall hrelated hstores hlength).bind
          fun _ _ => Implements.pure unique
        have hanswer : ((if first'.bytes = blob.bytes then .ok () else
              .err (.package .blobIdentityCollision) : Outcome (TritPackageWriteError ι) Unit) >>=
            fun _ => pure unique) = if first'.bytes = blob.bytes then .ok unique else
              .err (.package .blobIdentityCollision) := by
          split <;> rfl
        rw [← hanswer]
        exact hloop visited ⟨_, hvisited⟩
    · have hbytes : ¬ first'.bytes = blob.bytes := by
        intro heq
        apply hlength
        rw [← UInt64.toNat_inj, hrelated.length_eq, hstores.length_eq, heq]
      rw [if_pos hlength, if_neg hbytes]
      exact ⟨rfl, _, hvisited⟩

omit hserves hsmall hspooled

/-- The first blob of every digest met so far is known by its position. -/
def KnowsFirst (digest : List UInt8 → Digest) (blobs front : List TritBlob)
    (unique : DigestMap ℕ) : Prop :=
  ∀ id : Digest, Option.Rel
    (fun index bytes => ∃ blob : TritBlob, blobs[index]? = some blob ∧ blob.bytes = bytes)
    unique[id]? (collect Digest.compare (fun blob => digest blob.bytes) TritBlob.bytes front)[id]?

theorem KnowsFirst.concat {unique unique' : DigestMap ℕ} {index : ℕ} {first : TritBlob}
    (hknows : KnowsFirst digest blobs front unique) (hindex : blobs[index]? = some first)
    (hsame : first.bytes = blob.bytes)
    (hunique : ∀ id, unique'[id]? = if digest blob.bytes = id then some index else unique[id]?) :
    KnowsFirst digest blobs (front ++ [blob]) unique' := by
  intro id
  rw [hunique, collect_concat, Std.ExtTreeMap.getElem?_insert]
  simp only [Std.LawfulEqCmp.compare_eq_iff_eq]
  split_ifs
  · exact .some ⟨first, hindex, hsame⟩
  · exact hknows id

theorem foldlM_compareWithFirst (front rest : List TritBlob) :
    (CollisionFree digest front ∧ ∃ unique,
      front.zipIdx.foldlM (compareWithFirst digest (front ++ rest)) ∅ =
        (.ok unique : Outcome (TritPackageWriteError ι) _) ∧
      KnowsFirst digest (front ++ rest) front unique) ∨ ¬CollisionFree digest front ∧
      front.zipIdx.foldlM (compareWithFirst digest (front ++ rest)) ∅ =
        (.err (.package .blobIdentityCollision) : Outcome (TritPackageWriteError ι) _) := by
  induction front using reverseRecOn generalizing rest with
  | nil => exact .inl ⟨forall_mem_nil _, ∅, rfl, fun _ => .none⟩
  | append_singleton front blob ih =>
    rw [append_assoc, singleton_append, zipIdx_append, foldlM_append, zero_add, CollisionFree,
      consistent_concat_iff Digest.compare]
    simp only [zipIdx_cons, zipIdx_nil, foldlM_cons, foldlM_nil, bind_pure]
    obtain ⟨hfree, unique, hloop, hknows⟩ | ⟨hcollision, hloop⟩ := ih (blob :: rest)
    · rw [hloop, ok_bind, compareWithFirst]
      have hfirst := hknows (digest blob.bytes)
      generalize (collect Digest.compare (fun blob => digest blob.bytes) TritBlob.bytes
        front)[digest blob.bytes]? = old at hfirst ⊢
      generalize hfound : unique[digest blob.bytes]? = found at hfirst ⊢
      cases hfirst with
      | none =>
        have hindex : (front ++ blob :: rest)[front.length]? = some blob := by simp
        refine .inl ⟨⟨hfree, by simp⟩, _, rfl, hknows.concat hindex rfl fun id => ?_⟩
        rw [Std.ExtTreeMap.getElem?_insert]
        simp
      | some hold =>
        obtain ⟨first, hindex, rfl⟩ := hold
        dsimp only
        rw [index_eq_ok_iff.mpr hindex, ok_bind]
        by_cases hsame : first.bytes = blob.bytes
        · refine .inl ⟨⟨hfree, by simpa using hsame⟩, unique, if_pos hsame,
            hknows.concat hindex hsame fun id => ?_⟩
          split_ifs with hid
          · rw [← hid, hfound]
          · rfl
        · exact .inr ⟨fun hall => hsame (hall.2 _ rfl), if_neg hsame⟩
    · rw [hloop]
      exact .inr ⟨fun hall => hcollision hall.1, rfl⟩

theorem forall₂_zipIdx {spooled : List TritSpoolBlob} {blobs : List TritBlob}
    (hspooled : Forall₂ (Stores digest content) spooled blobs) (start : ℕ) :
    Forall₂ (fun entry entry' => Stores digest content entry.1 entry'.1 ∧ entry.2 = entry'.2)
      (spooled.zipIdx start) (blobs.zipIdx start) := by
  induction hspooled generalizing start with
  | nil => exact Forall₂.nil
  | cons hstores _ ih => exact .cons ⟨hstores, rfl⟩ (ih _)

/-- The verification of a spool finds exactly the collisions. -/
theorem verifySpool_implements (hserves : source.Serves content stands)
    (hsmall : content.length < 2 ^ 64)
    (hspooled : Forall₂ (Stores digest content) spooled blobs) :
    (CollisionFree digest blobs →
      Implements (Ready stands) (verifySpool digest source spooled) (.ok ())) ∧
    (¬ CollisionFree digest blobs → Implements (Ready stands) (verifySpool digest source spooled)
        (.err (.package .blobIdentityCollision))) := by
  have hloop : Implements (Ready stands)
      (spooled.zipIdx.foldlM (verifySpoolBlob digest source spooled) ∅)
      (blobs.zipIdx.foldlM (compareWithFirst digest blobs) ∅) := by
    refine Implements.foldlM_forall₂ ?_ (forall₂_zipIdx hspooled 0) ∅
    rintro unique ⟨entry, index⟩ ⟨blob, _⟩ ⟨hstores, rfl⟩
    exact verifySpoolBlob_implements hserves hsmall hspooled unique hstores index
  have hverify := hloop.bind fun unique _ => Implements.pure ()
  obtain ⟨hfree, unique, hunique, _⟩ | ⟨hcollision, hunique⟩ :=
    @foldlM_compareWithFirst ι digest blobs []
  · rw [append_nil] at hunique
    rw [hunique] at hverify
    exact ⟨fun _ => hverify, fun hcollision => absurd hfree hcollision⟩
  · rw [append_nil] at hunique
    rw [hunique] at hverify
    exact ⟨fun hfree => absurd hfree hcollision, fun _ => hverify⟩

end Source

section Admission

theorem blobMetadata_congr {β β' : Type} {manifest : List UInt8} {left : List β}
    {right : List β'} {entry : β → BlobMetadata} {entry' : β' → BlobMetadata}
    (hentries : left.map entry = right.map entry') :
    blobMetadata codec manifest left entry = blobMetadata codec manifest right entry' := by
  have hlength : left.length = right.length := by
    rw [← length_map entry, hentries, length_map]
  have hnames : left.mapM (fun blob => checkName (entry blob)) =
      right.mapM fun blob => checkName (entry' blob) := calc
    left.mapM (fun blob => checkName (entry blob)) = (left.map entry).mapM checkName :=
      (mapM_map (f := entry) (g := checkName)).symm
    _ = (right.map entry').mapM checkName := by rw [hentries]
    _ = right.mapM fun blob => checkName (entry' blob) :=
      mapM_map (f := entry') (g := checkName)
  rw [blobMetadata, blobMetadata, hlength, hnames]

theorem map_spoolMetadata {content : List UInt8} {spooled : List TritSpoolBlob}
    {blobs : List TritBlob} (hspooled : Forall₂ (Stores digest content) spooled blobs) :
    spooled.map spoolMetadata = blobs.map (metadataOf digest) := by
  induction hspooled with
  | nil => rfl
  | cons hstores _ ih =>
    rw [map_cons, map_cons, ih, spoolMetadata, metadataOf, hstores.id_eq,
      hstores.kind_eq, hstores.length_eq]

variable {source : Seekable ρ ι} {content manifest : List UInt8} {stands : ℕ → ρ → Prop}
  {spooled : List TritSpoolBlob} {blobs : List TritBlob} {maxBytes : ℕ}
  (hwrites : codec.WritesMinimal) (hserves : source.Serves content stands)
  (hsmall : content.length < 2 ^ 64)
  (hspooled : Forall₂ (Stores digest content) spooled blobs)

include hsmall hspooled in
theorem forM_checkSpoolRange :
    spooled.forM (checkSpoolRange content.length) =
      (.ok () : Outcome (TritPackageWriteError ι) Unit) := by
  induction hspooled with
  | nil => rfl
  | cons hstores _ ih =>
    have hstop := (subslice_eq_some_iff.mp hstores.slice).2.1
    rw [List.forM, checkSpoolRange, checkedAdd_of_lt (lt_of_le_of_lt hstop hsmall), okOr_bind,
      if_neg (not_lt.mpr hstop)]
    exact ih

include hwrites hserves hsmall hspooled in
/-- The checks of the spool writer come out as those of the writer in memory. -/
theorem prepareSpool_spec {state : ρ} (hstate : Ready stands state) :
    (Writable codec digest manifest blobs maxBytes → ∃ after,
      prepareSpool codec digest source manifest spooled maxBytes state =
        (.ok (planOf digest manifest (blobs.map (metadataOf digest))), after) ∧
      Ready stands after) ∧ (¬ Writable codec digest manifest blobs maxBytes → ∃ error after,
      prepareSpool codec digest source manifest spooled maxBytes state = (.err error, after)) := by
  obtain ⟨position, hposition⟩ := hstate
  obtain ⟨measured, hmeasure, hmeasured⟩ := hserves.seekEnd hposition
  obtain ⟨hfreeVerify, hcollisionVerify⟩ := verifySpool_implements hserves hsmall hspooled
  rw [prepareSpool, blobMetadata_congr (map_spoolMetadata hspooled)]
  have hrest (plan : PackageWritePlan) : (do
      let sourceLength ← source.seekEnd.mapErr .source
      lift (spooled.forM (checkSpoolRange sourceLength))
      verifySpool digest source spooled
      return plan : Stateful ρ (TritPackageWriteError ι) PackageWritePlan) state =
      (do
        verifySpool digest source spooled
        return plan : Stateful ρ (TritPackageWriteError ι) PackageWritePlan) measured := by
    rw [bind_apply_ok (mapErr_apply_ok hmeasure _),
      forM_checkSpoolRange hsmall hspooled, lift_ok_bind]
  constructor
  · intro hwritable
    rw [blobMetadata_eq_ok_iff.mpr ⟨hwritable.admitted, rfl⟩, mapErr_ok,
      lift_ok_bind, (prepareLayout_eq_ok_iff hwrites).mpr
        ⟨hwritable.collision_free.lengths, hwritable.directory_limit, hwritable.small,
          hwritable.size_le, rfl⟩, mapErr_ok, lift_ok_bind, hrest]
    obtain ⟨hanswer, hready⟩ := hfreeVerify hwritable.collision_free measured ⟨_, hmeasured⟩
    refine ⟨_, bind_apply_ok (Prod.ext hanswer rfl) _, hready⟩
  · intro hnot
    cases hentries : blobMetadata codec manifest blobs (metadataOf digest) with
    | panic => exact absurd hentries (blobMetadata_returns blobs _).ne_panic
    | err error => exact ⟨_, _, rfl⟩
    | ok entries =>
      obtain ⟨hadmitted, rfl⟩ := blobMetadata_eq_ok_iff.mp hentries
      rw [mapErr_ok, lift_ok_bind]
      cases hplan : prepareLayout codec digest manifest (blobs.map (metadataOf digest))
          maxBytes with
      | panic => exact absurd hplan (prepareLayout_returns _).ne_panic
      | err error => exact ⟨_, _, rfl⟩
      | ok plan =>
        obtain ⟨_, hdirectory, hsize, hlimit, _⟩ := (prepareLayout_eq_ok_iff hwrites).mp hplan
        have hcollision : ¬ CollisionFree digest blobs := fun hfree =>
          hnot ⟨hadmitted, hfree, hdirectory, hsize, hlimit⟩
        obtain ⟨hanswer, _⟩ := hcollisionVerify hcollision measured ⟨_, hmeasured⟩
        rw [mapErr_ok, lift_ok_bind, hrest]
        exact ⟨_, _, bind_apply_err (Prod.ext hanswer rfl) _⟩

end Admission

section Emission

variable {ε : Type} {wrote : List UInt8 → ρ → Prop}

/-- What was put out was also hashed. -/
def Hashed (wrote : List UInt8 → ρ → Prop) (output : List UInt8) (state : ρ × List UInt8) : Prop :=
  wrote output state.1 ∧ state.2 = output

theorem hashedChunk_appends {write : List UInt8 → Stateful ρ ε Unit}
    (hwrite : ∀ bytes, Appends wrote (write bytes) bytes) (bytes : List UInt8) :
    Appends (Hashed wrote) (hashedChunk write bytes) bytes := by
  rintro output state ⟨hstate, hhash⟩
  obtain ⟨after, hcall, hafter⟩ := hwrite bytes output state.1 hstate
  refine ⟨(after, state.2 ++ bytes), ?_, hafter, by rw [hhash]⟩
  rw [hashedChunk, bind_apply_ok (left_apply hcall)]
  rfl

theorem withHash_ok {emission : Stateful (ρ × List UInt8) ε Unit} {bytes : List UInt8}
    (hemission : Appends (Hashed wrote) emission bytes) {state : ρ} (hstate : wrote [] state) :
    ∃ after, withHash packageId emission state = (.ok (packageId bytes), after) ∧
      wrote bytes after := by
  obtain ⟨⟨after, _⟩, hcall, hafter, hhash⟩ := hemission [] (state, []) ⟨hstate, rfl⟩
  rw [nil_append] at hafter hhash
  dsimp only at hafter hhash
  refine ⟨after, ?_, hafter⟩
  rw [withHash, hcall, hhash]

end Emission

/-- The destination takes what it is given. -/
def Accepts (writeAll : List UInt8 → Stateful δ ι Unit) (written : δ → List UInt8) : Prop :=
  ∀ bytes destination, ∃ after, writeAll bytes destination = (.ok (), after) ∧
    written after = written destination ++ bytes

variable {writeAll : List UInt8 → Stateful δ ι Unit} {written : δ → List UInt8}
  (haccepts : Accepts writeAll written) {manifest : List UInt8} {blobs : List TritBlob}
  {maxBytes : ℕ}

include haccepts in
theorem writeAll_appends (base bytes : List UInt8) :
    Appends (fun output destination => written destination = base ++ output)
      (writeAll bytes) bytes := by
  intro output destination hwritten
  obtain ⟨after, hcall, hafter⟩ := haccepts bytes destination
  refine ⟨after, hcall, ?_⟩
  dsimp only at hwritten ⊢
  rw [hafter, hwritten, append_assoc]

include haccepts in
theorem writeTritPackageTo_ok (hwrites : codec.WritesMinimal)
    (hwritable : Writable codec digest manifest blobs maxBytes) (destination : δ) :
    ∃ after, writeTritPackageTo codec digest packageId writeAll manifest blobs maxBytes
        destination = (.ok (packageId (packageOf digest manifest blobs)), after) ∧
      written after = written destination ++ packageOf digest manifest blobs := by
  have hchunk := hashedChunk_appends (writeAll_appends haccepts (written destination))
  have hpayload : ∀ entry ∈ (planOf digest manifest (blobs.map (metadataOf digest))).payloads,
      Appends (Hashed fun output state => written state = written destination ++ output)
        (memoryPayload writeAll blobs entry.index) (contentAt blobs entry.index) := by
    intro entry hentry
    obtain ⟨blob, hblob, hcontent⟩ := contentAt_eq_ok hentry
    rw [memoryPayload, hblob, hcontent]
    exact hchunk blob.bytes
  have hemission := emit_appends hchunk (fun entry hentry => payloadPlans_padding hentry) hpayload
    Appends.pure
  rw [bytes_planOf hwritable.collision_free] at hemission
  have hinitial : written destination = written destination ++ [] := (append_nil _).symm
  obtain ⟨after, hcall, hafter⟩ := @withHash_ok _ packageId _
    (fun output destination' => written destination' = written destination ++ output) _ _ hemission
    destination hinitial
  refine ⟨after, ?_, hafter⟩
  rw [writeTritPackageTo, (prepareWrite_eq_ok_iff hwrites).mpr ⟨hwritable, rfl⟩]
  exact mapErr_apply_ok hcall _

section Spool

variable {source : Seekable σ ι} {content : List UInt8} {stands : ℕ → σ → Prop}
  {spooled : List TritSpoolBlob}
  (hserves : source.Serves content stands) (hsmall : content.length < 2 ^ 64)
  (hspooled : Forall₂ (Stores digest content) spooled blobs)

/-- Where the source stands and what the destination and the hash were given. -/
def SpoolReached (stands : ℕ → σ → Prop) (written : δ → List UInt8) (base : List UInt8)
    (position : ℕ) (output : List UInt8) (state : (σ × δ) × List UInt8) : Prop :=
  (stands position state.1.1 ∧ written state.1.2 = base ++ output) ∧ state.2 = output

def SpoolWrote (stands : ℕ → σ → Prop) (written : δ → List UInt8) (base output : List UInt8)
    (state : σ × δ) : Prop :=
  Ready stands state.1 ∧ written state.2 = base ++ output

theorem spoolWrote_iff {base output : List UInt8} {state : (σ × δ) × List UInt8} :
    Hashed (SpoolWrote stands written base) output state ↔
      ∃ position, SpoolReached stands written base position output state := by
  constructor
  · rintro ⟨⟨⟨position, hstate⟩, hwritten⟩, hhash⟩
    exact ⟨position, ⟨hstate, hwritten⟩, hhash⟩
  · rintro ⟨position, ⟨hstate, hwritten⟩, hhash⟩
    exact ⟨⟨⟨position, hstate⟩, hwritten⟩, hhash⟩

include hserves in
theorem serves_spool (base output : List UInt8) :
    source.left.left.Serves content
      fun position => SpoolReached stands written base position output :=
  (hserves.left fun destination => written destination = base ++ output).left
    fun hashed => hashed = output

include haccepts in
theorem spoolChunk_reached (base bytes : List UInt8) (position : ℕ) (output : List UInt8)
    (state : (σ × δ) × List UInt8)
    (hstate : SpoolReached stands written base position output state) :
    ∃ after, spoolChunk writeAll bytes state = (.ok (), after) ∧
      SpoolReached stands written base position (output ++ bytes) after := by
  obtain ⟨⟨hsource, hwritten⟩, hhash⟩ := hstate
  obtain ⟨destination, hcall, hdestination⟩ := haccepts bytes state.1.2
  refine ⟨((state.1.1, destination), state.2 ++ bytes), ?_, ⟨hsource, ?_⟩, ?_⟩
  · rw [spoolChunk, hashedChunk, bind_apply_ok (left_apply
      (Stateful.right_apply (mapErr_apply_ok hcall _)))]
    rfl
  · rw [hdestination, hwritten, append_assoc]
  · rw [hhash]

include haccepts in
theorem spoolChunk_appends (base bytes : List UInt8) :
    Appends (Hashed (SpoolWrote stands written base))
      (spoolChunk writeAll bytes) bytes := by
  intro output state hstate
  obtain ⟨position, hreached⟩ := spoolWrote_iff.mp hstate
  obtain ⟨after, hcall, hafter⟩ := spoolChunk_reached haccepts base bytes position output state
    hreached
  exact ⟨after, hcall, spoolWrote_iff.mpr ⟨position, hafter⟩⟩

include haccepts hserves hspooled in
theorem spoolPayload_appends (base : List UInt8) {entry : PayloadPlan}
    (hentry : entry ∈ (planOf digest manifest (blobs.map (metadataOf digest))).payloads) :
    Appends (Hashed (SpoolWrote stands written base))
      (spoolPayload digest source writeAll spooled entry.index) (contentAt blobs entry.index) := by
  intro output state hstate
  obtain ⟨position, hreached⟩ := spoolWrote_iff.mp hstate
  obtain ⟨blob, hblob, hcontent⟩ := @contentAt_eq_ok digest manifest blobs _ Empty hentry
  have hblob' := index_eq_ok_iff.mp hblob
  rcases getElem?_of_forall₂ hspooled entry.index with ⟨_, hnone⟩ | ⟨first, _, hfirst, hblob'', hstores⟩
  · rw [hblob'] at hnone
    cases hnone
  · rw [hblob', Option.some.injEq] at hblob''
    subst hblob''
    obtain ⟨after, hcall, hafter⟩ := visitSpoolBlob_ok (serves_spool hserves base)
      (spoolChunk_reached haccepts base) hstores.slice hstores.id_eq.symm hreached
    refine ⟨after, ?_, ?_⟩
    · rw [spoolPayload, index_eq_ok_iff.mpr hfirst]
      exact hcall
    · rw [hcontent]
      exact spoolWrote_iff.mpr ⟨_, hafter⟩

include hserves hsmall hspooled in
theorem verifySpool_appends (hfree : CollisionFree digest blobs) (base : List UInt8) :
    Appends (Hashed (SpoolWrote stands written base))
      (verifySpool digest source.left.left spooled) [] := by
  intro output state hstate
  obtain ⟨hanswer, hready⟩ := (verifySpool_implements (serves_spool hserves base output) hsmall
    hspooled).1 hfree state (spoolWrote_iff.mp hstate)
  refine ⟨_, Prod.ext hanswer rfl, ?_⟩
  rw [append_nil]
  exact spoolWrote_iff.mpr hready

include haccepts hserves hsmall hspooled in
theorem writeTritPackageFromSpool_ok (hwrites : codec.WritesMinimal)
    (hwritable : Writable codec digest manifest blobs maxBytes) {state : σ}
    (hstate : Ready stands state) (destination : δ) :
    ∃ after, writeTritPackageFromSpool codec digest packageId source writeAll manifest spooled
        maxBytes (state, destination) = (.ok (packageId (packageOf digest manifest blobs)), after) ∧
      written after.2 = written destination ++ packageOf digest manifest blobs := by
  obtain ⟨admitted, hprepare, hready⟩ :=
    (prepareSpool_spec hwrites hserves hsmall hspooled hstate).1 hwritable
  have hpayload : ∀ entry ∈ (planOf digest manifest (blobs.map (metadataOf digest))).payloads, _ :=
    fun _ => spoolPayload_appends haccepts hserves hspooled (written destination)
  have hemission := emit_appends (spoolChunk_appends haccepts (written destination))
    (fun entry hentry => payloadPlans_padding hentry) hpayload
    (verifySpool_appends hserves hsmall hspooled hwritable.collision_free (written destination))
  rw [bytes_planOf hwritable.collision_free] at hemission
  have hinitial : SpoolWrote stands written (written destination) [] (admitted, destination) :=
    ⟨hready, (append_nil _).symm⟩
  obtain ⟨after, hcall, hafter⟩ := @withHash_ok _ packageId _ _ _ _ hemission _ hinitial
  refine ⟨after, ?_, hafter.2⟩
  rw [writeTritPackageFromSpool, bind_apply_ok (left_apply hprepare)]
  exact hcall

end Spool

variable {source : Seekable σ ι} {spooled : List TritSpoolBlob}

theorem writeTritPackageTo_refused {error : TritPackageError}
    (hrefused : prepareWrite codec digest manifest blobs maxBytes = .err error) (destination : δ) :
    writeTritPackageTo codec digest packageId writeAll manifest blobs maxBytes destination =
      (.err (.package error), destination) := by
  rw [writeTritPackageTo, hrefused]
  rfl

theorem writeTritPackageFromSpool_refused {error : TritPackageWriteError ι} {state after : σ}
    (hrefused : prepareSpool codec digest source manifest spooled maxBytes state =
      (.err error, after)) (destination : δ) :
    writeTritPackageFromSpool codec digest packageId source writeAll manifest spooled maxBytes
      (state, destination) = (.err error, (after, destination)) := by
  rw [writeTritPackageFromSpool]
  exact bind_apply_err (left_apply hrefused) _

/-- **The three writers are one function.** A refusal of the plan leaves any destination as it was.
Over a spool that stores the blobs and a destination that takes what it is given, the writers all
put out the same bytes, as many as planned, or all fail and write nothing. -/
theorem tritPackageWriters_agree (codec : Codec) (digest packageId : List UInt8 → Digest)
    (source : Seekable σ ι) (writeAll : List UInt8 → Stateful δ ι Unit) (manifest : List UInt8)
    (blobs : List TritBlob) (spooled : List TritSpoolBlob) (maxBytes : ℕ) (state : σ)
    (destination : δ) :
    (∀ error, prepareWrite codec digest manifest blobs maxBytes = .err error →
      writeTritPackageTo codec digest packageId writeAll manifest blobs maxBytes destination =
        (.err (.package error), destination)) ∧
    (∀ error after, prepareSpool codec digest source manifest spooled maxBytes state =
        (.err error, after) →
      writeTritPackageFromSpool codec digest packageId source writeAll manifest spooled maxBytes
        (state, destination) = (.err error, (after, destination))) ∧
    ∀ (content : List UInt8) (stands : ℕ → σ → Prop) (written : δ → List UInt8),
      codec.WritesMinimal → Accepts writeAll written → source.Serves content stands →
      content.length < 2 ^ 64 → Forall₂ (Stores digest content) spooled blobs → Ready stands state →
      (∃ plan bytes, prepareWrite codec digest manifest blobs maxBytes = .ok plan ∧
        bytes.length = plan.size ∧
        writeTritPackageBounded codec digest manifest blobs maxBytes = .ok bytes ∧ (∃ after,
          writeTritPackageTo codec digest packageId writeAll manifest blobs maxBytes destination =
            (.ok (packageId bytes), after) ∧ written after = written destination ++ bytes) ∧
        ∃ after, writeTritPackageFromSpool codec digest packageId source writeAll manifest spooled
          maxBytes (state, destination) = (.ok (packageId bytes), after) ∧
          written after.2 = written destination ++ bytes) ∨
      ((∃ error, writeTritPackageBounded codec digest manifest blobs maxBytes = .err error) ∧
        (∃ error,
          writeTritPackageTo codec digest packageId writeAll manifest blobs maxBytes destination =
            (.err error, destination)) ∧
        ∃ error after, writeTritPackageFromSpool codec digest packageId source writeAll manifest
          spooled maxBytes (state, destination) = (.err error, (after, destination))) := by
  refine ⟨fun _ hrefused => writeTritPackageTo_refused hrefused destination,
    fun _ _ hrefused => writeTritPackageFromSpool_refused hrefused destination, ?_⟩
  intro content stands written hwrites haccepts hserves hsmall hspooled hstate
  by_cases hwritable : Writable codec digest manifest blobs maxBytes
  · left
    refine ⟨_, packageOf digest manifest blobs,
      (prepareWrite_eq_ok_iff hwrites).mpr ⟨hwritable, rfl⟩,
      packageOf_length hwritable.collision_free,
      (writeTritPackageBounded_eq_ok_iff hwrites).mpr ⟨hwritable, rfl⟩, ?_, ?_⟩
    · exact writeTritPackageTo_ok haccepts hwrites hwritable destination
    · exact writeTritPackageFromSpool_ok haccepts hserves hsmall hspooled hwrites hwritable hstate
        destination
  · right
    obtain ⟨error, hplan⟩ := prepareWrite_eq_err_of_not hwrites hwritable
    obtain ⟨spoolError, after, hspool⟩ :=
      (prepareSpool_spec hwrites hserves hsmall hspooled hstate).2 hwritable
    exact ⟨writeTritPackageBounded_eq_err_of_not hwrites hwritable,
      ⟨_, writeTritPackageTo_refused hplan destination⟩,
      spoolError, after, writeTritPackageFromSpool_refused hspool destination⟩

def appendAll (bytes : List UInt8) : Stateful (List UInt8) Unit Unit := fun output =>
  (.ok (), output ++ bytes)

def sampleSpool : List TritSpoolBlob :=
  [⟨headDigest [1, 2], .asset "x", 1, 2⟩, ⟨headDigest [3], .additiveTensor, 0, 1⟩,
    ⟨headDigest [1, 2], .additiveTensor, 1, 2⟩]

theorem tritPackageWriters_agree_sample :
    ∃ bytes, writeTritPackageBounded profileCodec headDigest sampleManifest sampleBlobs usizeMax =
        .ok bytes ∧
      ∃ after, writeTritPackageFromSpool profileCodec headDigest headDigest Seekable.cursor
        appendAll sampleManifest sampleSpool usizeMax (([3, 1, 2], 0), [9]) =
          (.ok (headDigest bytes), after) ∧ after.2 = [9] ++ bytes := by
  have hagree := (tritPackageWriters_agree profileCodec headDigest headDigest Seekable.cursor
    appendAll sampleManifest sampleBlobs sampleSpool usizeMax ([3, 1, 2], 0) [9]).2.2 [3, 1, 2]
    (fun position state => state = ([3, 1, 2], position)) id profileCodec_writesMinimal
    (fun _ _ => ⟨_, rfl, rfl⟩) (Seekable.cursor_serves [3, 1, 2]) (by decide)
    (.cons ⟨rfl, rfl, rfl⟩ (.cons ⟨rfl, rfl, rfl⟩ (.cons ⟨rfl, rfl, rfl⟩ .nil))) ⟨0, rfl⟩
  rcases hagree with ⟨_, bytes, _, _, hbytes, _, hspool⟩ | ⟨⟨error, hrefused⟩, _⟩
  · exact ⟨bytes, hbytes, hspool⟩
  · rw [(writeTritPackageBounded_eq_ok_iff profileCodec_writesMinimal).mpr
      ⟨sample_writable, rfl⟩] at hrefused
    cases hrefused

end Tritium.Package
