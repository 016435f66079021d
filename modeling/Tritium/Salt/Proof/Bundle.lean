import Tritium.Lib.Collect
import Tritium.Lib.Seekable
import Tritium.Salt.Bundle
import Tritium.Salt.Proof.Row

/-!
# SALT bundles come back

The rows of a tensor are found by walking them, whatever the visitor does with them. A bundle is read
front to back, and every piece of it is written in the order it is read.
-/

namespace Tritium.Salt

open List
open Cbor (utf8 fromUtf8 fromUtf8_eq_some_iff)

variable {tensors : List (String × List SaltRow)} {piece : List UInt8} {item : BundleItem}
  {rotationGroup : Option UInt16} {bytes : List UInt8}

def SaltTensor.firstPlanes (maxPlanes : ℕ) (tensor : SaltTensor) : SaltTensor :=
  { tensor with saltRows := tensor.saltRows.map (SaltRow.firstPlanes maxPlanes) }

section Walk

variable {α β : Type} {blob : List UInt8} {visit : α → List UInt8 → Outcome FormatError α}
  {visit' : β → List UInt8 → Outcome FormatError β} {f : α → β}

section

variable (hvisit : ∀ value encoded, visit' (f value) encoded = f <$> visit value encoded)

include hvisit

theorem walkRow_map (state : ℕ × α) :
    walkRow blob visit' (Prod.map id f state) = Prod.map id f <$> walkRow blob visit state := by
  rw [walkRow, walkRow]
  dsimp only [Prod.map_fst, Prod.map_snd, id]
  rw [map_bind]
  apply bind_congr
  intro headerEnd
  split_ifs with hheader
  · rfl
  simp [hvisit]

theorem timesM_walkRow_map (rows : ℕ) (state : ℕ × α) :
    timesM (walkRow blob visit') rows (Prod.map id f state) =
      Prod.map id f <$> timesM (walkRow blob visit) rows state := by
  induction rows generalizing state with
  | zero => rfl
  | succ rows ih =>
    rw [timesM, timesM, walkRow_map hvisit, map_bind, bind_map_left]
    apply bind_congr
    intro next
    exact ih next

/-- What a visitor keeps in another form. -/
theorem walkTensorRows_map (rows : ℕ) (value : α) :
    walkTensorRows blob rows visit' (f value) = f <$> walkTensorRows blob rows visit value := by
  rw [walkTensorRows, walkTensorRows]
  change (timesM (walkRow blob visit') rows (Prod.map id f (0, value)) >>= _) = _
  rw [timesM_walkRow_map hvisit]
  cases timesM (walkRow blob visit) rows (0, value) with
  | err error => rfl
  | panic => rfl
  | ok state =>
    rw [map_ok, ok_bind, ok_bind]
    dsimp only [Prod.map_fst, Prod.map_snd, id]
    split_ifs with hend
    · rfl
    · rfl

end

/-- What holds of all that a visitor keeps. -/
theorem walkTensorRows_kept {kept : α → Prop}
    (hvisit : ∀ value encoded next, kept value → visit value encoded = .ok next → kept next)
    {rows : ℕ} {value result : α} (hvalue : kept value)
    (hwalk : walkTensorRows blob rows visit value = .ok result) : kept result := by
  rw [walkTensorRows] at hwalk
  obtain ⟨⟨offset, last⟩, hloop, hresult⟩ := bind_eq_ok hwalk
  obtain ⟨_, hresult⟩ := refuse_eq_ok hresult
  obtain rfl := ok.inj hresult
  apply @Outcome.timesM_kept _ _ (fun state => kept state.2) _ _ _ _ _ hvalue hloop
  intro state hstate next hnext
  rw [walkRow] at hnext
  obtain ⟨_, _, hnext⟩ := bind_eq_ok hnext
  obtain ⟨_, hnext⟩ := refuse_eq_ok hnext
  obtain ⟨rest, _, hnext⟩ := bind_eq_ok hnext
  obtain ⟨rowLen, _, hnext⟩ := bind_eq_ok hnext
  obtain ⟨stop, _, hnext⟩ := bind_eq_ok hnext
  obtain ⟨encoded, _, hnext⟩ := bind_eq_ok hnext
  obtain ⟨visited, hvisited, rfl⟩ := bind_pure_eq_ok hnext
  exact hvisit _ _ _ hstate hvisited

end Walk

theorem keepRow_firstPlanes (k maxPlanes : ℕ) (saltRows : List PackedSaltRow)
    (encoded : List UInt8) :
    keepRow k maxPlanes (saltRows.map (PackedSaltRow.firstPlanes maxPlanes)) encoded =
      map (PackedSaltRow.firstPlanes maxPlanes) <$>
        keepRow k (2 ^ 64 - 1) saltRows encoded := by
  rw [keepRow, keepRow, unpackPackedSaltRowPrefix_eq, map_bind, bind_map_left]
  apply bind_congr
  intro row
  by_cases hk : row.k = k
  · have hfirst : ¬ (row.firstPlanes maxPlanes).k ≠ k := not_not.mpr hk
    rw [if_neg hfirst, if_neg (not_not.mpr hk), map_pure, map_append, map_singleton]
  · have hfirst : (row.firstPlanes maxPlanes).k ≠ k := hk
    rw [if_pos hfirst, if_pos hk]
    rfl

theorem SaltTensorView.decodePackedPrefix_eq (view : SaltTensorView) (maxPlanes : ℕ) :
    view.decodePackedPrefix maxPlanes = do
      let packed ← view.decodePackedPrefix (2 ^ 64 - 1)
      return { packed with saltRows := packed.saltRows.map (PackedSaltRow.firstPlanes maxPlanes) } := by
  rw [decodePackedPrefix, decodePackedPrefix]
  have hwalk := @walkTensorRows_map _ _ view.blob _ _ _ (keepRow_firstPlanes view.k maxPlanes)
    view.rows []
  rw [map_nil] at hwalk
  rw [hwalk, bind_map_left, bind_assoc]
  rfl

/-- **Prefixes of a tensor.** Decoding the first planes is decoding all of them and keeping the first
ones. -/
theorem SaltTensorView.decodePrefix_eq (view : SaltTensorView) (maxPlanes : ℕ) :
    view.decodePrefix maxPlanes =
      SaltTensor.firstPlanes maxPlanes <$> view.decodePrefix (2 ^ 64 - 1) := by
  rw [decodePrefix, decodePrefix, decodePackedPrefix_eq]
  cases hpacked : view.decodePackedPrefix (2 ^ 64 - 1) with
  | err error => rfl
  | panic => rfl
  | ok packed =>
    have hexpand : ∀ row ∈ packed.saltRows, ∃ dense, row.intoDense = .ok dense := by
      rw [decodePackedPrefix] at hpacked
      obtain ⟨saltRows, hwalk, rfl⟩ := bind_pure_eq_ok hpacked
      apply @walkTensorRows_kept _ _ _
        (fun saltRows => ∀ row ∈ saltRows, ∃ dense, PackedSaltRow.intoDense row = .ok dense)
        _ _ _ _ _ hwalk
      · intro saltRows encoded next hkept hkeep
        rw [keepRow] at hkeep
        obtain ⟨row, hrow, hkeep⟩ := bind_eq_ok hkeep
        obtain ⟨_, hresult⟩ := refuse_eq_ok hkeep
        obtain rfl := ok.inj hresult
        rw [forall_mem_append, forall_mem_singleton]
        exact ⟨hkept, exists_intoDense hrow⟩
      · simp
    obtain ⟨dense, hdense⟩ := exists_mapM hexpand
    have hfirst : (packed.saltRows.map (PackedSaltRow.firstPlanes maxPlanes)).mapM
        PackedSaltRow.intoDense = .ok (dense.map (SaltRow.firstPlanes maxPlanes)) := by
      rw [mapM_eq_ok_iff, forall₂_map_left_iff, forall₂_map_right_iff]
      exact (mapM_eq_ok_iff.mp hdense).imp fun row expanded hexpanded =>
        PackedSaltRow.intoDense_firstPlanes hexpanded maxPlanes
    rw [ok_bind, pure_eq_ok, ok_bind, ok_bind]
    rw [hfirst, hdense]
    rfl

theorem readSaltBundlePrefix_eq (bytes : List UInt8) (maxPlanes : ℕ) :
    readSaltBundlePrefix bytes maxPlanes =
      map (SaltTensor.firstPlanes maxPlanes) <$> readSaltBundle bytes := by
  rw [readSaltBundle, readSaltBundlePrefix, readSaltBundlePrefix, map_bind]
  apply bind_congr
  intro index
  induction index.tensors with
  | nil => rfl
  | cons view views ih =>
    rw [mapM_cons, mapM_cons, view.decodePrefix_eq, ih, bind_map_left, map_bind]
    apply bind_congr
    intro tensor
    rw [bind_map_left, map_bind]
    rfl

/-! ### Rows one behind the other -/

def Ends (piece : List UInt8) : Prop :=
  ∀ rest, packedSaltRowLen (piece ++ rest) = .ok piece.length

theorem Ends.header_le (hends : Ends piece) : saltHeaderBytes ≤ piece.length := by
  have hself := hends []
  rw [append_nil] at hself
  obtain ⟨layout, hlayout, _⟩ := bind_eq_ok hself
  rw [parseSaltRowLayout] at hlayout
  obtain ⟨_, hheader, _⟩ := bind_eq_ok hlayout
  rw [readHeader] at hheader
  exact not_lt.mp (refuse_eq_ok hheader).1

section Pieces

variable {α : Type} {visit : α → List UInt8 → Outcome FormatError α} {pieces : List (List UInt8)}

theorem timesM_walkRow (hends : ∀ piece ∈ pieces, Ends piece) {before : List UInt8}
    (hbound : (before ++ pieces.flatten).length < 2 ^ 64) (value : α) :
    timesM (walkRow (before ++ pieces.flatten) visit) pieces.length (before.length, value) =
      (fun value => ((before ++ pieces.flatten).length, value)) <$> pieces.foldlM visit value := by
  induction pieces generalizing before value with
  | nil =>
    rw [flatten_nil, append_nil]
    rfl
  | cons piece pieces ih =>
    obtain ⟨hpiece, hpieces⟩ := forall_mem_cons.mp hends
    have hheader := hpiece.header_le
    have hlength : (before ++ (piece ++ pieces.flatten)).length =
        before.length + (piece.length + pieces.flatten.length) := by
      simp
    rw [flatten_cons] at hbound ⊢
    have hrest : (slice (before ++ (piece ++ pieces.flatten)) before.length
        (before ++ (piece ++ pieces.flatten)).length : Outcome FormatError _) =
          .ok (piece ++ pieces.flatten) := by
      rw [slice_eq_ok_iff, length_append, ← subslice_append before _ [], append_nil]
    have hencoded : subslice (before ++ (piece ++ pieces.flatten)) before.length
        (before.length + piece.length) = some piece := by
      rw [← append_assoc]
      exact subslice_append before piece pieces.flatten
    have hstep : walkRow (before ++ (piece ++ pieces.flatten)) visit (before.length, value) =
        (fun value => ((before ++ piece).length, value)) <$> visit value piece := by
      rw [walkRow, checkedAdd_of_lt (by omega), okOr_bind,
        if_neg (by omega), hrest, ok_bind, hpiece, ok_bind,
        checkedAdd_of_lt (by omega), okOr_bind, hencoded,
        okOr_bind, length_append, map_eq_pure_bind]
    rw [length_cons, timesM, hstep, bind_map_left, foldlM_cons, map_bind]
    apply bind_congr
    intro next
    rw [← append_assoc] at hbound ⊢
    exact ih hpieces hbound next

theorem walkTensorRows_flatten (hends : ∀ piece ∈ pieces, Ends piece)
    (hbound : pieces.flatten.length < 2 ^ 64) (value : α) :
    walkTensorRows pieces.flatten pieces.length visit value = pieces.foldlM visit value := by
  have hloop := @timesM_walkRow _ visit pieces hends [] hbound value
  rw [nil_append, length_nil] at hloop
  rw [walkTensorRows, hloop, bind_map_left]
  dsimp only
  cases pieces.foldlM visit value with
  | err error => rfl
  | panic => rfl
  | ok result => rw [ok_bind, if_neg (not_not.mpr rfl), pure_eq_ok]

end Pieces

theorem Encodes.packed {row : SaltRow} (hencodes : Encodes row piece) :
    ∃ packed, unpackPackedSaltRowPrefix piece (2 ^ 64 - 1) = .ok packed ∧
      packed.intoDense = .ok row ∧ packed.k = row.k := by
  have hreads := hencodes.reads
  obtain ⟨packed, hpacked, hdense⟩ := bind_eq_ok hreads
  refine ⟨packed, hpacked, hdense, ?_⟩
  rw [PackedSaltRow.intoDense] at hdense
  obtain ⟨planes, _, hresult⟩ := bind_eq_ok hdense
  exact congrArg SaltRow.k (ok.inj hresult)

section Rows

variable {rows : List SaltRow} {pieces : List (List UInt8)} {k : ℕ}

section

variable (hpieces : Forall₂ Encodes rows pieces)

include hpieces

theorem ends_of_encodes : ∀ piece ∈ pieces, Ends piece := by
  induction hpieces with
  | nil => exact forall_mem_nil _
  | cons hpiece _ ih => exact forall_mem_cons.mpr ⟨hpiece.ends, ih⟩

theorem foldlM_checkRowWidth (hk : ∀ row ∈ rows, row.k = k) :
    pieces.foldlM (checkRowWidth k) () = .ok () := by
  induction hpieces with
  | nil => rfl
  | cons hpiece _ ih =>
    obtain ⟨hwidth, hrest⟩ := forall_mem_cons.mp hk
    obtain ⟨packed, hpacked, _, hpackedK⟩ := hpiece.packed
    have hfirst : (packed.firstPlanes 0).k = k := hpackedK.trans hwidth
    rw [foldlM_cons, checkRowWidth, unpackPackedSaltRowPrefix_eq, hpacked, map_ok,
      ok_bind, if_neg (not_not.mpr hfirst), pure_eq_ok, ok_bind, ih hrest]

theorem foldlM_keepRow (hk : ∀ row ∈ rows, row.k = k) (kept : List PackedSaltRow) :
    ∃ packed, pieces.foldlM (keepRow k (2 ^ 64 - 1)) kept = .ok (kept ++ packed) ∧
      packed.mapM PackedSaltRow.intoDense = .ok rows := by
  induction hpieces generalizing kept with
  | nil => exact ⟨[], by rw [append_nil]; rfl, rfl⟩
  | cons hpiece _ ih =>
    obtain ⟨hwidth, hrest⟩ := forall_mem_cons.mp hk
    obtain ⟨packed, hpacked, hdense, hpackedK⟩ := hpiece.packed
    obtain ⟨others, hothers, hexpand⟩ := ih hrest (kept ++ [packed])
    refine ⟨packed :: others, ?_, ?_⟩
    · rw [foldlM_cons, keepRow, hpacked, ok_bind,
        if_neg (not_not.mpr (hpackedK.trans hwidth)), pure_eq_ok, ok_bind, hothers,
        append_assoc, singleton_append]
    · rw [mapM_cons, hdense, ok_bind, hexpand, ok_bind, pure_eq_ok]

theorem walkTensorRows_encoded (hbound : pieces.flatten.length < 2 ^ 64) {α : Type}
    (visit : α → List UInt8 → Outcome FormatError α) (value : α) :
    walkTensorRows pieces.flatten rows.length visit value = pieces.foldlM visit value := by
  rw [hpieces.length_eq, walkTensorRows_flatten (ends_of_encodes hpieces) hbound]

theorem decodePrefix_encoded (hk : ∀ row ∈ rows, row.k = k)
    (hbound : pieces.flatten.length < 2 ^ 64) (name : String) :
    SaltTensorView.decodePrefix ⟨name, rows.length, k, pieces.flatten⟩ (2 ^ 64 - 1) =
      .ok ⟨name, rows.length, k, rows⟩ := by
  obtain ⟨packed, hpacked, hdense⟩ := foldlM_keepRow hpieces hk []
  rw [SaltTensorView.decodePrefix, SaltTensorView.decodePackedPrefix]
  rw [walkTensorRows_encoded hpieces hbound, hpacked, nil_append, ok_bind, pure_eq_ok, ok_bind]
  rw [hdense, ok_bind, pure_eq_ok]

end

end Rows

/-! ### What a writer accepts -/

abbrev BundleItem : Type := (String × List SaltRow) × PackedTensor

structure Packed (item : BundleItem) : Prop where
  name_lt : (utf8 item.1.1).length < 2 ^ 16
  rows_lt : item.1.2.length < 2 ^ 32
  width_lt : widthOf item.1.2 < 2 ^ 32
  widths : ∀ row ∈ item.1.2, row.k = widthOf item.1.2
  blob_lt : item.2.blob.length < 2 ^ 64
  encoded : ∃ pieces, Forall₂ Encodes item.1.2 pieces ∧ item.2.blob = pieces.flatten
  fields : item.2 = ⟨(utf8 item.1.1).length, item.1.2.length, widthOf item.1.2,
    item.2.blob.length, item.2.blob⟩

section Writing

variable {packRow : SaltRow → Outcome FormatError (List UInt8)}
  (hencodes : ∀ row bytes, packRow row = .ok bytes → Encodes row bytes)

include hencodes

theorem foldlM_appendRow {k : ℕ} {rows : List SaltRow} {start blob : List UInt8}
    (hfold : rows.foldlM (appendRow packRow k) start = .ok blob) :
    (∀ row ∈ rows, row.k = k) ∧
      ∃ pieces, Forall₂ Encodes rows pieces ∧ blob = start ++ pieces.flatten := by
  induction rows generalizing start with
  | nil =>
    refine ⟨forall_mem_nil _, [], .nil, ?_⟩
    rw [flatten_nil, append_nil]
    exact (ok.inj hfold).symm
  | cons row rows ih =>
    obtain ⟨next, happend, hfold⟩ := foldlM_cons_eq_ok hfold
    rw [appendRow] at happend
    obtain ⟨hk, happend⟩ := refuse_eq_ok happend
    obtain ⟨piece, hpiece, rfl⟩ := bind_pure_eq_ok happend
    obtain ⟨hwidths, pieces, hpieces, hblob⟩ := ih hfold
    refine ⟨forall_mem_cons.mpr ⟨not_not.mp hk, hwidths⟩, piece :: pieces,
      .cons (hencodes row piece hpiece) hpieces, ?_⟩
    simp [hblob]

theorem packTensor_eq_ok {state next : List String × List PackedTensor}
    {tensor : String × List SaltRow} (hpack : packTensor packRow state tensor = .ok next) :
    tensor.1 ∉ state.1 ∧ ∃ packed, next = (tensor.1 :: state.1, state.2 ++ [packed]) ∧
      Packed (tensor, packed) := by
  obtain ⟨name, rows⟩ := tensor
  rw [packTensor] at hpack
  obtain ⟨hname, hpack⟩ := refuse_eq_ok hpack
  obtain ⟨nameLen, hnameLen, hpack⟩ := bind_eq_ok hpack
  obtain ⟨rowCount, hrowCount, hpack⟩ := bind_eq_ok hpack
  obtain ⟨k, hk, hpack⟩ := bind_eq_ok hpack
  obtain ⟨encodedK, hencodedK, hpack⟩ := bind_eq_ok hpack
  obtain ⟨blob, hblob, hpack⟩ := bind_eq_ok hpack
  obtain ⟨dataLen, hdataLen, hresult⟩ := bind_eq_ok hpack
  obtain ⟨hnameLt, rfl⟩ := tryInto_eq_ok hnameLen
  obtain ⟨hrowsLt, rfl⟩ := tryInto_eq_ok hrowCount
  obtain ⟨hwidthLt, rfl⟩ := tryInto_eq_ok hencodedK
  obtain ⟨hblobLt, rfl⟩ := tryInto_eq_ok hdataLen
  have hwidth : widthOf rows = k := by
    rw [widthOf, okOr_eq_ok_iff.mp hk, Option.getD_some]
  obtain ⟨hwidths, pieces, hpieces, hflat⟩ := foldlM_appendRow hencodes hblob
  obtain rfl := hwidth
  refine ⟨hname, _, (ok.inj hresult).symm, hnameLt, hrowsLt, hwidthLt, hwidths, hblobLt,
    ⟨pieces, hpieces, hflat⟩, rfl⟩

theorem foldlM_packTensor {state result : List String × List PackedTensor}
    (hpack : tensors.foldlM (packTensor packRow) state = .ok result) :
    (tensors.map Prod.fst).Nodup ∧ (∀ tensor ∈ tensors, tensor.1 ∉ state.1) ∧
      ∃ packed, result.2 = state.2 ++ packed ∧ packed.length = tensors.length ∧
        ∀ item ∈ tensors.zip packed, Packed item := by
  induction tensors generalizing state with
  | nil =>
    obtain rfl := ok.inj hpack
    refine ⟨nodup_nil, forall_mem_nil _, [], ?_, rfl, forall_mem_nil _⟩
    rw [append_nil]
  | cons tensor tensors ih =>
    obtain ⟨next, hnext, hpack⟩ := foldlM_cons_eq_ok hpack
    obtain ⟨hfresh, packed, rfl, hpacked⟩ := packTensor_eq_ok hencodes hnext
    obtain ⟨hnodup, hnames, others, hresult, hlength, hothers⟩ := ih hpack
    refine ⟨?_, forall_mem_cons.mpr ⟨hfresh, fun other hother hmem =>
      hnames other hother (mem_cons_of_mem _ hmem)⟩, packed :: others, ?_, ?_, ?_⟩
    · rw [map_cons, nodup_cons]
      refine ⟨fun hmem => ?_, hnodup⟩
      obtain ⟨other, hother, hname⟩ := mem_map.mp hmem
      exact hnames other hother (hname ▸ mem_cons_self)
    · simp [hresult]
    · simp [hlength]
    · rw [zip_cons_cons, forall_mem_cons]
      exact ⟨hpacked, hothers⟩

end Writing

/-! ### Reading a bundle front to back -/

def BundleItem.entry (item : BundleItem) : BundleEntry :=
  ⟨item.1.1, item.2.rows, item.2.k, item.2.dataLen⟩

def BundleItem.view (item : BundleItem) : SaltTensorView :=
  ⟨item.1.1, item.2.rows, item.2.k, item.2.blob⟩

section Reading

variable {bytes : List UInt8}

/-- From in front of the piece the cursor reads the value and stands behind the piece. -/
def Reads {α : Type} (bytes : List UInt8) (x : Stateful ℕ FormatError α) (piece : List UInt8)
    (value : α) : Prop :=
  Seekable.Parses bytes (fun position offset => offset = position) x piece value

variable (hbound : bytes.length < 2 ^ 64)

include hbound

theorem take_reads (piece : List UInt8) :
    Reads bytes (Cursor.take bytes piece.length) piece piece := by
  intro before after offset hbytes hoffset
  have hlength := congrArg length hbytes
  rw [length_append, length_append] at hlength
  have hslice : (slice bytes before.length (before.length + piece.length) :
      Outcome FormatError _) = .ok piece := by
    rw [slice_eq_ok_iff, hbytes, ← append_assoc]
    exact subslice_append before piece after
  refine ⟨before.length + piece.length, ?_, length_append.symm⟩
  rw [Cursor.take, hoffset, checkedAdd_of_lt (by omega)]
  dsimp only
  rw [if_neg (by omega), hslice]

theorem take_reads_of_length {count : ℕ} (hcount : piece.length = count) :
    Reads bytes (Cursor.take bytes count) piece piece := by
  rw [← hcount]
  exact take_reads hbound piece

theorem unsigned_reads {width value : ℕ} (hvalue : value < 256 ^ width) :
    Reads bytes (Cursor.unsigned width bytes) (leBytes width value) value := by
  have hread := (take_reads_of_length hbound (leBytes_length width value)).map ofLeBytes
  rw [ofLeBytes_leBytes width hvalue] at hread
  exact hread

theorem readRotationGroup_reads (group : UInt16)
    (hgroup : ¬ (group = 0 ∨ isPowerOfTwo group.toNat = false)) :
    Reads bytes (readRotationGroup bytes saltBundleVersionRotated) (leBytes 2 group.toNat)
      (some group) := by
  have hvalid : ¬ (group.toNat = 0 ∨ isPowerOfTwo group.toNat = false) := by
    rintro (hzero | hpower)
    · exact hgroup (.inl (UInt16.toNat_inj.mp hzero))
    · exact hgroup (.inr hpower)
  apply (unsigned_reads hbound group.toNat_lt).bind
  rw [if_neg hvalid, UInt16.ofNat_toNat]
  exact Seekable.Parses.lift _

theorem readBundleEntry_reads (hitem : Packed item) (entries : List BundleEntry) :
    Reads bytes (readBundleEntry bytes entries) (indexEntry item) (entries ++ [item.entry]) := by
  have hfields := hitem.fields
  have hname : item.2.nameLen = (utf8 item.1.1).length := by rw [hfields]
  have hrows : item.2.rows < 2 ^ 32 := by
    rw [hfields]
    exact hitem.rows_lt
  have hk : item.2.k < 2 ^ 32 := by
    rw [hfields]
    exact hitem.width_lt
  have hdata : item.2.dataLen < 2 ^ 64 := by
    rw [hfields]
    exact hitem.blob_lt
  rw [indexEntry, hname]
  simp only [append_assoc]
  apply (unsigned_reads hbound hitem.name_lt).bind
  apply (take_reads hbound _).bind
  rw [fromUtf8_eq_some_iff.mpr rfl]
  apply (unsigned_reads hbound hrows).bind
  apply (unsigned_reads hbound hk).bind
  exact (unsigned_reads hbound hdata).map _

theorem indexTensor_reads (hitem : Packed item) {views : List SaltTensorView}
    (hname : item.entry.name ∉ views.map SaltTensorView.name) :
    Reads bytes (indexTensor bytes views item.entry) item.2.blob (views ++ [item.view]) := by
  obtain ⟨pieces, hpieces, hblob⟩ := hitem.encoded
  have hfields := hitem.fields
  have hlength : item.2.blob.length = item.2.dataLen := by rw [hfields]
  have hsmall := hitem.blob_lt
  have hwalk : walkTensorRows item.2.blob item.2.rows (checkRowWidth item.2.k) () = .ok () := by
    have hrows : item.2.rows = item.1.2.length := by rw [hfields]
    have hk : item.2.k = widthOf item.1.2 := by rw [hfields]
    rw [hblob] at hsmall
    rw [hrows, hk, hblob, walkTensorRows_encoded hpieces hsmall,
      foldlM_checkRowWidth hpieces hitem.widths]
  rw [← append_nil item.2.blob]
  apply (take_reads_of_length hbound hlength).bind
  change Reads bytes (lift (walkTensorRows item.2.blob item.2.rows
    (checkRowWidth item.2.k) ()) >>= _) _ _
  rw [hwalk, if_neg hname]
  exact Seekable.Parses.lift _

section Items

variable {items : List BundleItem} (hitems : ∀ item ∈ items, Packed item)

include hitems

theorem readBundleEntries_reads :
    Reads bytes (timesM (readBundleEntry bytes) items.length []) (items.flatMap indexEntry)
      (items.map BundleItem.entry) := by
  apply Seekable.Parses.timesM (map BundleItem.entry) _ [] items rfl
  intro done item rest hsplit
  rw [nil_append] at hsplit
  rw [map_append]
  apply readBundleEntry_reads hbound
  apply hitems
  rw [← hsplit]
  simp

theorem indexTensors_reads (hnames : (items.map fun item => item.1.1).Nodup) :
    Reads bytes ((items.map BundleItem.entry).foldlM (indexTensor bytes) [])
      (items.flatMap fun item => item.2.blob) (items.map BundleItem.view) := by
  rw [foldlM_map]
  apply Seekable.Parses.foldlM (map BundleItem.view) _ [] items rfl
  intro done item rest hsplit
  rw [nil_append] at hsplit
  rw [map_append]
  apply indexTensor_reads hbound
  · apply hitems
    rw [← hsplit]
    simp
  · rw [map_map]
    intro hmem
    rw [← hsplit, map_append, nodup_append] at hnames
    exact hnames.2.2 _ hmem _ mem_cons_self rfl

/-- **The index of a bundle.** It names the tensors in order and holds what was written for each. -/
theorem readIndex_reads
    (hgroup : ∀ group ∈ rotationGroup, ¬ (group = 0 ∨ isPowerOfTwo group.toNat = false))
    (hnames : (items.map fun item => item.1.1).Nodup) (hcount : items.length < 2 ^ 32) :
    Reads bytes (readIndex bytes) (saltBundleHeader rotationGroup ++ (leBytes 4 items.length ++
      (items.flatMap indexEntry ++ items.flatMap fun item => item.2.blob)))
      ⟨items.map BundleItem.view, rotationGroup⟩ := by
  have htail : Reads bytes (do
      let tensorCount ← Cursor.u32 bytes
      let entries ← timesM (readBundleEntry bytes) tensorCount []
      let tensors ← entries.foldlM (indexTensor bytes) []
      return SaltBundleIndex.mk tensors rotationGroup)
      (leBytes 4 items.length ++ (items.flatMap indexEntry ++ items.flatMap fun item => item.2.blob))
      ⟨items.map BundleItem.view, rotationGroup⟩ := by
    apply (unsigned_reads hbound hcount).bind
    apply (readBundleEntries_reads hbound hitems).bind
    exact (indexTensors_reads hbound hitems hnames).map
      fun tensors => SaltBundleIndex.mk tensors rotationGroup
  rw [readIndex]
  cases rotationGroup with
  | none =>
    rw [saltBundleHeader]
    simp only [append_assoc]
    apply (take_reads_of_length hbound rfl).bind
    apply (@unsigned_reads _ hbound 1 saltBundleVersion (by decide)).bind
    apply (take_reads_of_length hbound rfl).bind
    exact htail
  | some group =>
    rw [saltBundleHeader]
    simp only [append_assoc]
    apply (take_reads_of_length hbound rfl).bind
    apply (@unsigned_reads _ hbound 1 saltBundleVersionRotated (by decide)).bind
    apply (take_reads_of_length hbound rfl).bind
    apply (readRotationGroup_reads hbound group (hgroup group rfl)).bind
    exact htail

end Items

end Reading

/-! ### Bundles as they are written -/

def tensorOf (tensor : String × List SaltRow) : SaltTensor :=
  ⟨tensor.1, tensor.2.length, widthOf tensor.2, tensor.2⟩

/-- All readers agree that the bytes hold the tensors. -/
structure ReadsAs (bytes : List UInt8) (tensors : List (String × List SaltRow))
    (rotationGroup : Option UInt16) : Prop where
  whole : readSaltBundle bytes = .ok (tensors.map tensorOf)
  first : ∀ maxPlanes, readSaltBundlePrefix bytes maxPlanes =
    .ok (tensors.map fun tensor => (tensorOf tensor).firstPlanes maxPlanes)
  indexed : ∃ index, SaltBundleIndex.new bytes = .ok index ∧
    index.rotationGroup = rotationGroup ∧ index.tensors.length = tensors.length ∧
    ∀ (position : ℕ) view tensor, index.tensors[position]? = some view →
      tensors[position]? = some tensor → index.tensor tensor.1 = some view ∧
        ∀ maxPlanes, view.decodePrefix maxPlanes = .ok ((tensorOf tensor).firstPlanes maxPlanes)

theorem Packed.decodePrefix_eq (hitem : Packed item) :
    item.view.decodePrefix (2 ^ 64 - 1) = .ok (tensorOf item.1) := by
  obtain ⟨pieces, hpieces, hblob⟩ := hitem.encoded
  have hsmall := hitem.blob_lt
  have hview : item.view = ⟨item.1.1, item.1.2.length, widthOf item.1.2, pieces.flatten⟩ := by
    rw [BundleItem.view, hblob, hitem.fields]
  rw [hblob] at hsmall
  rw [hview, decodePrefix_encoded hpieces hitem.widths hsmall, tensorOf]

theorem readsAs_of_index {items : List BundleItem} (hitems : ∀ item ∈ items, Packed item)
    (hnames : (items.map fun item => item.1.1).Nodup)
    (hindex : SaltBundleIndex.new bytes = .ok ⟨items.map BundleItem.view, rotationGroup⟩) :
    ReadsAs bytes (items.map Prod.fst) rotationGroup := by
  have hwhole : readSaltBundle bytes = .ok ((items.map Prod.fst).map tensorOf) := by
    rw [readSaltBundle, readSaltBundlePrefix, hindex, ok_bind, map_map]
    rw [mapM_map]
    apply mapM_of_forall_mem
    intro item hitem
    exact (hitems item hitem).decodePrefix_eq
  refine ⟨hwhole, fun maxPlanes => ?_, _, hindex, rfl, ?_, ?_⟩
  · rw [readSaltBundlePrefix_eq, hwhole, map_ok, map_map]
    rfl
  · rw [length_map, length_map]
  · intro position view tensor hview htensor
    rw [getElem?_map, Option.map_eq_some_iff] at hview htensor
    obtain ⟨item, hitem, rfl⟩ := hview
    obtain ⟨same, hsame, rfl⟩ := htensor
    obtain rfl := Option.some.inj (hitem.symm.trans hsame)
    have hmem := mem_of_getElem? hitem
    refine ⟨?_, fun maxPlanes => ?_⟩
    · have hviews : ((items.map BundleItem.view).map SaltTensorView.name).Nodup := by
        rw [map_map]
        exact hnames
      exact find?_key_of_nodup SaltTensorView.name hviews (mem_map_of_mem hmem)
    · rw [SaltTensorView.decodePrefix_eq, (hitems item hmem).decodePrefix_eq, map_ok]

theorem writeSaltBundleWith_readsAs {packRow : SaltRow → Outcome FormatError (List UInt8)}
    (hencodes : ∀ row bytes, packRow row = .ok bytes → Encodes row bytes)
    (hgroup : ∀ group ∈ rotationGroup, ¬ (group = 0 ∨ isPowerOfTwo group.toNat = false))
    (hwrite : writeSaltBundleWith packRow tensors rotationGroup = .ok bytes) :
    ReadsAs bytes tensors rotationGroup := by
  rw [writeSaltBundleWith] at hwrite
  obtain ⟨tensorCount, htensorCount, hwrite⟩ := bind_eq_ok hwrite
  obtain ⟨_, rfl⟩ := tryInto_eq_ok htensorCount
  obtain ⟨⟨names, packed⟩, hpack, hwrite⟩ := bind_eq_ok hwrite
  obtain ⟨_, hbytes⟩ := Outcome.vector_eq_ok_iff.mp hwrite
  obtain ⟨hnodup, _, others, hothers, hsame, hitems⟩ := foldlM_packTensor hencodes hpack
  obtain rfl : packed = others := hothers
  have htensors : (tensors.zip packed).map Prod.fst = tensors := map_fst_zip hsame.ge
  have hpacked : (tensors.zip packed).map Prod.snd = packed := map_snd_zip hsame.le
  have hzip : (tensors.zip packed).length = tensors.length := by
    rw [← length_map, htensors]
  have hblobs : packed.flatMap PackedTensor.blob =
      (tensors.zip packed).flatMap fun item => item.2.blob := by
    nth_rewrite 1 [← hpacked]
    rw [flatMap_map]
  have hnames : ((tensors.zip packed).map fun item => item.1.1).Nodup := by
    rw [← htensors, map_map] at hnodup
    exact hnodup
  have hread := @readIndex_reads _ bytes (by rw [← hbytes]; omega) _ hitems hgroup hnames
    (by omega)
  obtain ⟨offset, hindex, hoffset⟩ := hread [] [] 0
    (by
      rw [nil_append, append_nil, ← hbytes, hblobs, hzip]
      simp only [append_assoc]) rfl
  have hend : offset = bytes.length := by
    rw [hoffset, nil_append, ← hbytes, hblobs, hzip]
    simp only [append_assoc]
  have hnew : SaltBundleIndex.new bytes =
      .ok ⟨(tensors.zip packed).map BundleItem.view, rotationGroup⟩ := by
    rw [SaltBundleIndex.new, hindex, hend]
    dsimp only
    simp
  rw [← htensors]
  exact readsAs_of_index hitems hnames hnew

/-- **Bundles come back.** Whichever writer made a bundle, all readers find the tensors, their rows and
the rotation group in it, and the first planes of any bytes are those of the whole. -/
theorem saltBundle_roundTrip {φ : Type} (arithmetic : DensityArithmetic φ) :
    (∀ tensors bytes, writeSaltBundle tensors = .ok bytes → ReadsAs bytes tensors none) ∧
    (∀ tensors maxSparseDensity bytes,
      writeProgressiveSaltBundle arithmetic tensors maxSparseDensity = .ok bytes →
        ReadsAs bytes tensors none) ∧
    (∀ tensors rotationGroup bytes, writeRotatedSaltBundle tensors rotationGroup = .ok bytes →
      ReadsAs bytes tensors (some rotationGroup)) ∧
    ∀ bytes maxPlanes, readSaltBundlePrefix bytes maxPlanes =
      map (SaltTensor.firstPlanes maxPlanes) <$> readSaltBundle bytes := by
  refine ⟨fun tensors bytes hwrite => ?_, fun tensors maxSparseDensity bytes hwrite => ?_,
    fun tensors rotationGroup bytes hwrite => ?_, readSaltBundlePrefix_eq⟩
  · exact writeSaltBundleWith_readsAs (fun _ _ => packSaltRow_encodes)
      (fun group hgroup => absurd hgroup (Option.not_mem_none group)) hwrite
  · exact writeSaltBundleWith_readsAs (fun _ _ => packProgressiveSaltRow_encodes)
      (fun group hgroup => absurd hgroup (Option.not_mem_none group)) hwrite
  · rw [writeRotatedSaltBundle] at hwrite
    split_ifs at hwrite with hrefused
    · obtain ⟨expected, _, hrefuse⟩ := bind_eq_ok hwrite
      cases hrefuse
    · apply writeSaltBundleWith_readsAs (fun _ _ => packSaltRow_encodes) _ hwrite
      intro group hgroup
      obtain rfl := Option.some.inj hgroup
      exact hrefused

def sampleBundleBytes : List UInt8 :=
  [0x54, 0x53, 0x4C, 0x42, 1, 0, 1, 0, 0, 0, 1, 0, 97, 1, 0, 0, 0, 0, 1, 0, 0, 106, 0, 0, 0, 0, 0, 0,
    0] ++ sampleRowBytes

theorem saltBundle_roundTrip_sample :
    writeProgressiveSaltBundle hundredths [("a", [sampleRow])] 50 = .ok sampleBundleBytes ∧
      ReadsAs sampleBundleBytes [("a", [sampleRow])] none := by
  have hwrite : writeProgressiveSaltBundle hundredths [("a", [sampleRow])] 50 =
      .ok sampleBundleBytes := by
    decide +kernel
  exact ⟨hwrite, (saltBundle_roundTrip hundredths).2.1 _ _ _ hwrite⟩

end Tritium.Salt
