import Tritium.SafeTensors.Proof.Layout

/-!
# Two readers of one safetensors file

From whatever state earlier calls have left, the reader of a source answers as the file in memory
does.
-/

namespace Tritium.Safetensors

open List Seekable
open Stateful (Implements)

variable {σ ι α φ : Type} {source : Seekable σ ι} {content : List UInt8} {stands : ℕ → σ → Prop}
  {json : List UInt8 → Except String Table} {widen : FloatDtype → ℕ → UInt32} {name : String}
  {layout : TensorLayout} {maxChunkBytes : ℕ} {float : FloatDtype}

/-- The reader that corresponds to a file in memory. -/
def readerOf (content : List UInt8) (file : SafeTensors) : SafeTensorsReader :=
  ⟨file.tensors, content.length - file.data.length, file.data.length⟩

/-- The reader opens like the file in memory, down to the errors. -/
theorem new_implements (hserves : source.Serves content stands) :
    Implements (Ready stands) (SafeTensorsReader.new source json) (do
      let file ← SafeTensors.parse json content
      return readerOf content file) := by
  rintro state ⟨position, hstate⟩
  obtain ⟨atEnd, hseekEnd, hatEnd⟩ := hserves.seekEnd hstate
  obtain ⟨atStart, hseekStart, hatStart⟩ := hserves.seekStart hatEnd (Nat.zero_le _)
  rw [SafeTensorsReader.new, bind_apply_ok (mapErr_apply_ok hseekEnd _),
    bind_apply_ok (mapErr_apply_ok hseekStart _), SafeTensors.parse]
  by_cases hshort : content.length < 8
  · rw [if_pos hshort, if_pos hshort]
    exact ⟨rfl, 0, hatStart⟩
  · have hdeclared : subslice content 0 (0 + 8) = some (content.take 8) :=
      subslice_eq_some_iff.mpr ⟨by omega, by omega, rfl⟩
    obtain ⟨atHeader, hread, hatHeader⟩ := hserves.readExact hatStart hdeclared
    rw [if_neg hshort, if_neg hshort, slice_eq_ok_iff.mpr hdeclared, ok_bind,
      bind_apply_ok (mapErr_apply_ok hread _)]
    simp only [checkedHeaderLen]
    generalize ofLeBytes (content.take 8) = headerLen
    by_cases hlarge : maxHeaderLen < headerLen
    · rw [if_pos hlarge]
      exact ⟨rfl, _, hatHeader⟩
    · rw [if_neg hlarge, ok_bind, lift_ok_bind]
      by_cases hlong : content.length < 8 + headerLen
      · rw [if_pos hlong, if_pos (by omega)]
        exact ⟨rfl, _, hatHeader⟩
      · have hheader : subslice content 8 (8 + headerLen) =
            some ((content.take (8 + headerLen)).drop 8) :=
          subslice_eq_some_iff.mpr ⟨by omega, by omega, rfl⟩
        obtain ⟨atData, hread, hatData⟩ := hserves.readExact hatHeader hheader
        have hlength : ((content.take content.length).drop (8 + headerLen)).length =
            content.length - (8 + headerLen) := by
          rw [take_length, length_drop]
        rw [if_neg hlong, if_neg (by omega), slice_eq_ok_iff.mpr hheader, bind_apply_ok (mapErr_apply_ok hread _), slice_of_le (by omega) le_rfl]
        simp only [bind_assoc, ok_bind, hlength]
        refine Implements.bind (Implements.lift _) (fun tensors _ => ?_) atData ⟨_, hatData⟩
        refine Implements.bind (Implements.lift _) fun _ _ => ?_
        rw [pure_bind, readerOf, hlength, Nat.sub_sub_self (by omega)]
        exact Implements.pure _

theorem parse_eq_ok {file : SafeTensors}
    (hparse : (SafeTensors.parse json content : Outcome (SafeTensorsError ι) _) = .ok file) :
    (∃ before, content = before ++ file.data) ∧
      (validateLayout file.tensors file.data.length : Outcome (SafeTensorsError ι) _) = .ok () := by
  rw [SafeTensors.parse, refuse_eq_ok_iff] at hparse
  obtain ⟨_, hparse⟩ := hparse
  simp only [bind_eq_ok_iff, refuse_eq_ok_iff] at hparse
  obtain ⟨_, _, headerLen, _, _, _, _, tensors, _, data, hdata, _, hvalid, hfile⟩ := hparse
  obtain rfl := ok.inj hfile
  obtain ⟨_, _, rfl⟩ := subslice_eq_some_iff.mp (slice_eq_ok_iff.mp hdata)
  refine ⟨⟨content.take (8 + headerLen), ?_⟩, hvalid⟩
  simp

def spanBytes (data : List UInt8) (tensor : RawTensor) : List UInt8 :=
  (data.take tensor.dataOffsets.2).drop tensor.dataOffsets.1

/-- The calls of a sink over the windows of a byte string. -/
def sinkChunks (maxChunkBytes : ℕ) (visit : α → List UInt8 → Outcome φ α) (value : α)
    (bytes : List UInt8) : Outcome (VisitTensorBytesError ι φ) α :=
  if maxChunkBytes = 0 then
    .err (.source (.invalidChunkSize maxChunkBytes))
  else
    visitChunks (min maxChunkBytes readChunkBytes)
      (fun value chunk => (visit value chunk).mapErr .sink) value bytes

theorem tryVisitReaderRange_implements (hserves : source.Serves content stands)
    {absolute byteLen : ℕ} {bytes : List UInt8}
    (hbytes : subslice content absolute (absolute + byteLen) = some bytes) (maxChunkBytes : ℕ)
    (visit : α → List UInt8 → Outcome φ α) (value : α) :
    Implements (Ready stands)
      (tryVisitReaderRange source absolute byteLen maxChunkBytes visit value)
      (sinkChunks maxChunkBytes visit value bytes) := by
  rw [tryVisitReaderRange, sinkChunks]
  by_cases hzero : maxChunkBytes = 0
  · rw [if_pos hzero, if_pos hzero]
    exact Implements.lift _
  · rw [if_neg hzero, if_neg hzero]
    by_cases hempty : byteLen = 0
    · obtain rfl : bytes = [] := by
        rw [← length_eq_zero_iff, length_of_subslice hbytes]
        omega
      rw [if_pos hempty]
      exact Implements.pure value
    · rw [if_neg hempty]
      rintro state ⟨position, hstate⟩
      obtain ⟨after, hseek, hafter⟩ := hserves.seekStart hstate (start_le_of_subslice hbytes)
      rw [bind_apply_ok (mapErr_apply_ok hseek _)]
      exact hserves.scan _ _ _ value hbytes hafter

section File

variable {file : SafeTensors} (hserves : source.Serves content stands)
  (hlength : content.length < 2 ^ 64)
  (hparse : (SafeTensors.parse json content : Outcome (SafeTensorsError ι) _) = .ok file)
  {tensor : RawTensor}

include hlength hparse in
/-- Where the span of a tensor stands in memory and in the source. -/
theorem span_located (htensor : file.tensors.lookup name = some tensor) :
    (tensor.dataOffsets.1 ≤ tensor.dataOffsets.2 ∧ tensor.dataOffsets.2 ≤ file.data.length) ∧
    checkedAdd 64 (readerOf content file).dataStart tensor.dataOffsets.1 =
      some ((readerOf content file).dataStart + tensor.dataOffsets.1) ∧
    subslice content ((readerOf content file).dataStart + tensor.dataOffsets.1)
      ((readerOf content file).dataStart + tensor.dataOffsets.1 +
        (tensor.dataOffsets.2 - tensor.dataOffsets.1)) = some (spanBytes file.data tensor) := by
  obtain ⟨⟨before, hcontent⟩, hvalid⟩ := parse_eq_ok hparse
  obtain ⟨first, last, htensors, _⟩ := lookup_eq_some_iff.mp htensor
  obtain ⟨hle, hbound⟩ := @span_le_of_validateLayout _ _ _ hvalid (name, tensor)
    (by simp [htensors])
  dsimp only at hle hbound
  have hsplit : content.length = before.length + file.data.length := by
    rw [hcontent, length_append]
  have hstart : (readerOf content file).dataStart = before.length := by
    rw [readerOf, hsplit, Nat.add_sub_cancel]
  refine ⟨⟨hle, hbound⟩, checkedAdd_of_lt (by omega), ?_⟩
  rw [hstart, subslice_eq_some_iff]
  refine ⟨by omega, by omega, ?_⟩
  rw [hcontent, spanBytes, add_assoc, Nat.add_sub_cancel' hle, take_length_add_append,
    drop_length_add_append]

include hparse in
theorem rawTensorLayout_eq (htensor : file.tensors.lookup name = some tensor) :
    (rawTensorLayout file.tensors name file.data.length : Outcome (SafeTensorsError ι) _) =
      .ok ⟨tensor.dataOffsets.1, tensor.dataOffsets.2 - tensor.dataOffsets.1,
        tensor.shape.prod⟩ := by
  obtain ⟨_, hvalid⟩ := parse_eq_ok hparse
  obtain ⟨first, last, htensors, _⟩ := lookup_eq_some_iff.mp htensor
  have hmem : (name, tensor) ∈ file.tensors := by simp [htensors]
  rw [rawTensorLayout, htensor, okOr_bind, rawTensorLayoutEntry_eq_ok_iff]
  exact ⟨span_le_of_validateLayout hvalid hmem, (validateLayout_eq_ok_iff.mp hvalid).1 _ hmem, rfl⟩

include hserves hlength hparse

theorem tryVisitTensorBytes_implements (name : String) (maxChunkBytes : ℕ)
    (visit : α → List UInt8 → Outcome φ α) (value : α) :
    Implements (Ready stands)
      ((readerOf content file).tryVisitTensorBytes source name maxChunkBytes visit value)
      (match file.tensors.lookup name with
        | none => .err (.source (.notFound name))
        | some tensor => sinkChunks maxChunkBytes visit value (spanBytes file.data tensor)) := by
  rw [SafeTensorsReader.tryVisitTensorBytes]
  cases htensor : file.tensors.lookup name with
  | none =>
    simp only [readerOf, rawTensorLayout, htensor]
    exact Implements.lift _
  | some tensor =>
    obtain ⟨_, hadd, hbytes⟩ := span_located hlength hparse htensor
    simp only [readerOf, rawTensorLayout_eq hparse htensor, mapErr_ok, lift_ok_bind]
    change Implements _ (lift (okOr (checkedAdd 64 (readerOf content file).dataStart _) _) >>= _) _
    rw [hadd]
    exact tryVisitReaderRange_implements hserves hbytes maxChunkBytes visit value

end File

theorem storageBits_of_floatDtype {dtype : String}
    (hfloat : (floatDtype name dtype : Outcome (SafeTensorsError ι) _) = .ok float) :
    storageBits dtype = some (8 * float.byteSize) := by
  rw [floatDtype] at hfloat
  split_ifs at hfloat with hbf16 hf16 hf32 <;> obtain rfl := ok.inj hfloat
  · rw [hbf16]
    decide
  · rw [hf16]
    decide
  · rw [hf32]
    decide

/-- A tensor that can be widened has whole elements. -/
theorem tensorLayout_eq_ok {tensors : Table} {dataLen : ℕ}
    (hlayout : (tensorLayout tensors name dataLen : Outcome (SafeTensorsError ι) _) = .ok layout) :
    ∃ tensor, tensors.lookup name = some tensor ∧ layout.offset = tensor.dataOffsets.1 ∧
      layout.byteLen = tensor.dataOffsets.2 - tensor.dataOffsets.1 ∧
      (floatDtype name tensor.dtype : Outcome (SafeTensorsError ι) _) = .ok layout.dtype ∧
      layout.dtype.byteSize ∣ tensor.dataOffsets.2 - tensor.dataOffsets.1 := by
  simp only [tensorLayout, bind_eq_ok_iff, okOr_eq_ok_iff, rawTensorLayoutEntry_eq_ok_iff] at hlayout
  obtain ⟨tensor, htensor, raw, ⟨_, hmeasured, rfl⟩, float, hfloat, _, _, hresult⟩ := hlayout
  obtain rfl := ok.inj hresult
  refine ⟨tensor, htensor, rfl, rfl, hfloat, tensor.shape.prod, ?_⟩
  obtain ⟨bits, hbits, _, _, hspan⟩ := hmeasured
  obtain rfl := Option.some.inj (hbits.symm.trans (storageBits_of_floatDtype hfloat))
  rw [mul_left_comm] at hspan
  rw [mul_comm]
  exact (Nat.eq_of_mul_eq_mul_left (by decide) hspan).symm

theorem byteSize_pos (float : FloatDtype) : 0 < float.byteSize := by
  cases float <;> decide

theorem foldlM_mapErr {β ψ ω : Type} (f : ψ → ω) (visit : α → β → Outcome ψ α) (items : List β)
    (value : α) :
    items.foldlM (fun value item => (visit value item).mapErr f) value =
      (items.foldlM visit value).mapErr f := by
  induction items generalizing value with
  | nil => rfl
  | cons item items ih =>
    rw [foldlM_cons, foldlM_cons, Outcome.mapErr_bind]
    exact bind_congr fun next => ih next

/-- The values of chunks of whole elements are those of the bytes altogether. -/
theorem foldlM_appendF32 (float : FloatDtype) (visit : α → List UInt8 → Outcome φ α)
    {chunks : List (List UInt8)} (hchunks : ∀ chunk ∈ chunks, float.byteSize ∣ chunk.length)
    (value : α) (output : List UInt32) :
    chunks.foldlM (fun seen raw => do
        let value ← visit seen.1 raw
        return (value, appendF32 widen seen.2 float raw)) (value, output) = do
      let value ← chunks.foldlM visit value
      return (value, appendF32 widen output float chunks.flatten) := by
  induction chunks generalizing value output with
  | nil => simp [appendF32]
  | cons chunk chunks ih =>
    obtain ⟨⟨count, hcount⟩, hchunks⟩ := forall_mem_cons.mp hchunks
    rw [foldlM_cons, foldlM_cons, bind_assoc, bind_assoc]
    apply bind_congr
    intro next
    rw [pure_bind, ih hchunks, flatten_cons, appendF32, appendF32, appendF32,
      asChunks_append_of_length (byteSize_pos float) (hcount.trans (mul_comm _ _)),
      map_append, append_assoc]

theorem exists_sinkChunks {width : ℕ} (hmax : 0 < maxChunkBytes)
    (hwidth : width ∣ min maxChunkBytes readChunkBytes) {bytes : List UInt8}
    (hbytes : width ∣ bytes.length) :
    ∃ chunks : List (List UInt8), chunks.flatten = bytes ∧
      (∀ chunk ∈ chunks, 0 < chunk.length ∧ chunk.length ≤ min maxChunkBytes readChunkBytes ∧
        width ∣ chunk.length) ∧ ∀ {α φ : Type} (visit : α → List UInt8 → Outcome φ α) (value : α),
        (sinkChunks maxChunkBytes visit value bytes : Outcome (VisitTensorBytesError ι φ) α) =
          (chunks.foldlM visit value).mapErr .sink := by
  obtain ⟨chunks, hflatten, hchunks, hfold⟩ := exists_chunks (lt_min hmax (by decide)) hwidth hbytes
  refine ⟨chunks, hflatten, hchunks, fun visit value => ?_⟩
  rw [sinkChunks, if_neg hmax.ne', hfold, foldlM_mapErr]

section File

variable {file : SafeTensors} (hserves : source.Serves content stands)
  (hlength : content.length < 2 ^ 64)
  (hparse : (SafeTensors.parse json content : Outcome (SafeTensorsError ι) _) = .ok file)

/-- The calls of a sink over the chunks of whole elements, with the values of the elements. -/
def widenChunks (widen : FloatDtype → ℕ → UInt32) (maxChunkBytes : ℕ)
    (visit : α → List UInt8 → Outcome φ α) (value : α) (float : FloatDtype) (bytes : List UInt8) :
    Outcome (VisitTensorBytesError ι φ) (α × List UInt32) :=
  let bounded := min maxChunkBytes readChunkBytes
  if bounded - bounded % float.byteSize = 0 then
    .err (.source (.invalidChunkSize maxChunkBytes))
  else
    sinkChunks (bounded - bounded % float.byteSize) (fun seen raw => do
      let value ← visit seen.1 raw
      return (value, appendF32 widen seen.2 float raw)) (value, []) bytes

theorem exists_widenChunks (hmax : float.byteSize ≤ maxChunkBytes) {bytes : List UInt8}
    (hbytes : float.byteSize ∣ bytes.length) :
    ∃ chunks : List (List UInt8), chunks.flatten = bytes ∧
      (∀ chunk ∈ chunks, 0 < chunk.length ∧ chunk.length ≤ min maxChunkBytes readChunkBytes) ∧
      ∀ {α φ : Type} (visit : α → List UInt8 → Outcome φ α) (value : α),
        (widenChunks widen maxChunkBytes visit value float bytes :
          Outcome (VisitTensorBytesError ι φ) _) = do
            let value ← (chunks.foldlM visit value).mapErr .sink
            return (value, appendF32 widen [] float bytes) := by
  have hpos := byteSize_pos float
  have hcapacity : float.byteSize ≤ min maxChunkBytes readChunkBytes :=
    le_min hmax (by cases float <;> decide)
  have hmod := Nat.mod_lt (min maxChunkBytes readChunkBytes) hpos
  have hdivides : float.byteSize ∣ min maxChunkBytes readChunkBytes -
      min maxChunkBytes readChunkBytes % float.byteSize := Nat.dvd_sub_mod _
  have hmin : min (min maxChunkBytes readChunkBytes -
      min maxChunkBytes readChunkBytes % float.byteSize) readChunkBytes =
        min maxChunkBytes readChunkBytes -
          min maxChunkBytes readChunkBytes % float.byteSize := by omega
  obtain ⟨chunks, hflatten, hchunks, hfold⟩ :=
    @exists_sinkChunks ι _ float.byteSize (by omega) (hmin.symm ▸ hdivides) bytes hbytes
  refine ⟨chunks, hflatten, fun chunk hchunk => ?_, fun visit value => ?_⟩
  · obtain ⟨hnonempty, _, _⟩ := hchunks chunk hchunk
    omega
  · rw [widenChunks, if_neg (by omega), hfold, foldlM_appendF32 float visit fun chunk hchunk =>
      (hchunks chunk hchunk).2.2, Outcome.mapErr_bind, hflatten]
    rfl

include hserves hlength hparse

theorem tryTensorF32WithRawChunks_implements (name : String) (maxChunkBytes : ℕ)
    (visit : α → List UInt8 → Outcome φ α) (value : α) :
    Implements (Ready stands)
      ((readerOf content file).tryTensorF32WithRawChunks source widen name maxChunkBytes visit value)
      (do
        let layout ← (tensorLayout file.tensors name file.data.length).mapErr .source
        widenChunks widen maxChunkBytes visit value layout.dtype
          ((file.data.take (layout.offset + layout.byteLen)).drop layout.offset)) := by
  rw [SafeTensorsReader.tryTensorF32WithRawChunks]
  apply Implements.bind (Implements.lift _)
  intro layout hlayout
  obtain ⟨tensor, htensor, hoffset, hbyteLen, _⟩ := tensorLayout_eq_ok (mapErr_eq_ok_iff.mp hlayout)
  obtain ⟨⟨hle, _⟩, hadd, hbytes⟩ := span_located hlength hparse htensor
  rw [hoffset, hbyteLen, hadd, okOr_some, lift_ok_bind, widenChunks, Nat.add_sub_cancel' hle]
  by_cases hzero : min maxChunkBytes readChunkBytes -
      min maxChunkBytes readChunkBytes % layout.dtype.byteSize = 0
  · rw [if_pos hzero, if_pos hzero]
    exact Implements.lift _
  · rw [if_neg hzero, if_neg hzero]
    exact tryVisitReaderRange_implements hserves hbytes _ _ _

section

variable (hlayout : (tensorLayout file.tensors name file.data.length :
  Outcome (SafeTensorsError ι) _) = .ok layout)

include hlayout

omit hserves in
/-- The bytes of a layout are the span of its tensor and consist of whole elements. -/
theorem exists_span : ∃ tensor, file.tensors.lookup name = some tensor ∧
      (floatDtype name tensor.dtype : Outcome (SafeTensorsError ι) _) = .ok layout.dtype ∧
      (file.data.take (layout.offset + layout.byteLen)).drop layout.offset =
        spanBytes file.data tensor ∧ layout.dtype.byteSize ∣ (spanBytes file.data tensor).length := by
  obtain ⟨tensor, htensor, hoffset, hbyteLen, hfloat, hwhole⟩ := tensorLayout_eq_ok hlayout
  obtain ⟨⟨hle, hbound⟩, _, _⟩ := span_located hlength hparse htensor
  refine ⟨tensor, htensor, hfloat, ?_, ?_⟩
  · rw [hoffset, hbyteLen, Nat.add_sub_cancel' hle, spanBytes]
  · rw [spanBytes, length_drop, length_take, min_eq_left hbound]
    exact hwhole

omit hserves in
theorem tensorF32_eq :
    (file.tensorF32 widen name : Outcome (SafeTensorsError ι) _) = .ok (appendF32 widen []
      layout.dtype ((file.data.take (layout.offset + layout.byteLen)).drop layout.offset)) := by
  obtain ⟨tensor, htensor, _, _, _⟩ := tensorLayout_eq_ok hlayout
  obtain ⟨⟨_, _⟩, _, _⟩ := span_located hlength hparse htensor
  obtain ⟨⟨before, hcontent⟩, _⟩ := parse_eq_ok hparse
  have hdata : file.data.length ≤ content.length := by simp [hcontent]
  have hbytes : subslice file.data layout.offset (layout.offset + layout.byteLen) =
      some ((file.data.take (layout.offset + layout.byteLen)).drop layout.offset) :=
    subslice_eq_some_iff.mpr ⟨Nat.le_add_right _ _, by omega, rfl⟩
  rw [SafeTensors.tensorF32, hlayout, ok_bind, checkedAdd_of_lt (by omega), okOr_bind,
    hbytes, okOr_bind, pure_eq_ok]

end

theorem tensorF32_implements (name : String) :
    Implements (Ready stands) ((readerOf content file).tensorF32 source widen name)
      (file.tensorF32 widen name) := by
  have hread := ((@tryTensorF32WithRawChunks_implements σ ι Unit Empty source content stands json
    widen file hserves hlength hparse name readChunkBytes (fun _ _ => .ok ()) ()).mapErr
      sourceError).bind fun seen _ => @Implements.pure σ (SafeTensorsError ι) _ _ seen.2
  cases hlayout : (tensorLayout file.tensors name file.data.length :
      Outcome (SafeTensorsError ι) _) with
  | ok layout =>
    obtain ⟨tensor, _, _, hspan, hbytes⟩ := exists_span hlength hparse hlayout
    obtain ⟨chunks, _, _, hfold⟩ := @exists_widenChunks ι widen readChunkBytes layout.dtype
      (by cases layout.dtype <;> decide) _ hbytes
    have hunit : ∀ chunks : List (List UInt8),
        chunks.foldlM (fun _ _ => (.ok () : Outcome Empty Unit)) () = .ok () := by
      intro chunks
      induction chunks with
      | nil => rfl
      | cons chunk chunks ih => exact ih
    rw [tensorF32_eq hlength hparse hlayout, hspan]
    rw [hlayout, mapErr_ok, ok_bind, hspan, hfold, hunit] at hread
    exact hread
  | _ =>
    rw [hlayout] at hread
    rw [SafeTensors.tensorF32, hlayout]
    exact hread

theorem ready_of_reached {opened state : σ} (hopened : Ready stands opened)
    (hstate : SafeTensorsReader.Reached source widen (readerOf content file) opened state) :
    Ready stands state := by
  induction hstate with
  | opened => exact hopened
  | visited _ name maxChunkBytes visit value ih =>
    exact (tryVisitTensorBytes_implements hserves hlength hparse name maxChunkBytes visit value
      _ ih).2
  | widened _ name maxChunkBytes visit value ih =>
    exact (tryTensorF32WithRawChunks_implements hserves hlength hparse name maxChunkBytes visit
      value _ ih).2

end File

/-- **The layout is admitted exactly when it tiles the data, both readers open the same files, and
from every state the reader of the source visits the spans and widens the tensors of the file in
memory.** -/
theorem safeTensors_readers_agree (source : Seekable σ ι) (json : List UInt8 → Except String Table)
    (widen : FloatDtype → ℕ → UInt32) (content : List UInt8) (stands : ℕ → σ → Prop)
    (hserves : source.Serves content stands) (hlength : content.length < 2 ^ 64) (start : σ)
    (hstart : Ready stands start) :
    (∀ (tensors : Table) (dataLen : ℕ),
      (validateLayout tensors dataLen : Outcome (SafeTensorsError ι) Unit) = .ok () ↔
        (∀ entry ∈ tensors, Measured entry.2) ∧
        ∃ ordered, ordered.Perm (tensors.map fun entry => entry.2.dataOffsets) ∧
          ordered.Pairwise (fun left right => toLex left ≤ toLex right) ∧ Tiles 0 ordered dataLen) ∧
    ((∃ file, (SafeTensors.parse json content : Outcome (SafeTensorsError ι) _) = .ok file) ↔
      ∃ reader opened, SafeTensorsReader.new source json start = (.ok reader, opened)) ∧
    ∀ file reader opened,
      (SafeTensors.parse json content : Outcome (SafeTensorsError ι) _) = .ok file →
      SafeTensorsReader.new source json start = (.ok reader, opened) →
      reader.tensors = file.tensors ∧
      (∀ name tensor, file.tensors.lookup name = some tensor → ∀ maxChunkBytes, 0 < maxChunkBytes →
        ∃ chunks : List (List UInt8), chunks.flatten = spanBytes file.data tensor ∧
          (∀ chunk ∈ chunks, 0 < chunk.length ∧ chunk.length ≤ maxChunkBytes) ∧
          ∀ state, SafeTensorsReader.Reached source widen reader opened state →
          ∀ {α φ : Type} (visit : α → List UInt8 → Outcome φ α) (value : α),
            (reader.tryVisitTensorBytes source name maxChunkBytes visit value state).1 =
              (chunks.foldlM visit value).mapErr .sink) ∧
      (∀ name tensor float values, file.tensors.lookup name = some tensor →
        (floatDtype name tensor.dtype : Outcome (SafeTensorsError ι) _) = .ok float →
        (file.tensorF32 widen name : Outcome (SafeTensorsError ι) _) = .ok values →
        ∀ maxChunkBytes, float.byteSize ≤ maxChunkBytes →
        ∃ chunks : List (List UInt8), chunks.flatten = spanBytes file.data tensor ∧
          (∀ chunk ∈ chunks, 0 < chunk.length ∧ chunk.length ≤ maxChunkBytes) ∧
          ∀ state, SafeTensorsReader.Reached source widen reader opened state →
          ∀ {α φ : Type} (visit : α → List UInt8 → Outcome φ α) (value : α),
            (reader.tryTensorF32WithRawChunks source widen name maxChunkBytes visit value state).1 =
              (do
                let value ← (chunks.foldlM visit value).mapErr .sink
                return (value, values))) ∧
      ∀ state, SafeTensorsReader.Reached source widen reader opened state →
        ∀ name, (reader.tensorF32 source widen name state).1 = file.tensorF32 widen name := by
  obtain ⟨hanswer, hopened⟩ := @new_implements _ _ _ _ _ json hserves start hstart
  refine ⟨fun tensors dataLen => validateLayout_eq_ok_iff, ?_, ?_⟩
  · constructor
    · rintro ⟨file, hparse⟩
      rw [hparse] at hanswer
      exact ⟨_, _, Prod.ext hanswer rfl⟩
    · rintro ⟨reader, opened, hnew⟩
      rw [hnew] at hanswer
      obtain ⟨file, hparse, _⟩ := bind_eq_ok hanswer.symm
      exact ⟨file, hparse⟩
  · intro file reader opened hparse hnew
    rw [hnew] at hanswer hopened
    rw [hparse] at hanswer
    obtain rfl := ok.inj hanswer
    have hready : ∀ state, SafeTensorsReader.Reached source widen (readerOf content file) opened
        state → Ready stands state := fun state hstate =>
      ready_of_reached hserves hlength hparse hopened hstate
    refine ⟨rfl, ?_, ?_, ?_⟩
    · intro name tensor htensor maxChunkBytes hmax
      obtain ⟨chunks, hflatten, hchunks, hfold⟩ := @exists_sinkChunks ι _ 1 hmax (one_dvd _)
        (spanBytes file.data tensor) (one_dvd _)
      refine ⟨chunks, hflatten, fun chunk hchunk => ?_, fun state hstate _ _ visit value => ?_⟩
      · obtain ⟨hnonempty, hle, _⟩ := hchunks chunk hchunk
        omega
      · rw [(tryVisitTensorBytes_implements hserves hlength hparse name maxChunkBytes visit value
          state (hready state hstate)).1, htensor]
        exact hfold visit value
    · intro name tensor float values htensor hfloat hvalues maxChunkBytes hmax
      obtain ⟨layout, hlayout, _⟩ := bind_eq_ok hvalues
      obtain ⟨_, htensor', hfloat', hspan, hbytes⟩ := exists_span hlength hparse hlayout
      obtain rfl := Option.some.inj (htensor.symm.trans htensor')
      obtain rfl := ok.inj (hfloat.symm.trans hfloat')
      rw [tensorF32_eq hlength hparse hlayout] at hvalues
      obtain rfl := ok.inj hvalues
      obtain ⟨chunks, hflatten, hchunks, hfold⟩ :=
        @exists_widenChunks ι widen maxChunkBytes layout.dtype hmax _ hbytes
      refine ⟨chunks, hflatten, fun chunk hchunk => ?_, fun state hstate _ _ visit value => ?_⟩
      · obtain ⟨hnonempty, hle⟩ := hchunks chunk hchunk
        omega
      · rw [(tryTensorF32WithRawChunks_implements hserves hlength hparse name maxChunkBytes visit
          value state (hready state hstate)).1, hlayout, mapErr_ok, ok_bind, hspan]
        exact hfold visit value
    · intro state hstate name
      exact (tensorF32_implements hserves hlength hparse name state (hready state hstate)).1

def oneFile : List UInt8 :=
  leBytes 8 2 ++ [0x7B, 0x7D] ++ [0x00, 0x00, 0x80, 0x3F]

/-- Knows the one header. -/
def oneHeader (header : List UInt8) : Except String Table :=
  if header = [0x7B, 0x7D] then .ok [("w", ⟨"F32", [1], (0, 4)⟩)] else .error "unknown"

theorem safeTensors_readers_agree_one :
    ∃ reader opened, SafeTensorsReader.new cursor oneHeader (oneFile, 0) = (.ok reader, opened) ∧
      (reader.tensorF32 cursor (fun _ bits => UInt32.ofNat bits) "w" opened).1 =
        .ok [0x3F800000] := by
  have hagree := safeTensors_readers_agree cursor oneHeader
    (fun _ bits => UInt32.ofNat bits) oneFile _ (cursor_serves oneFile) (by decide) (oneFile, 0)
    ⟨0, rfl⟩
  obtain ⟨reader, opened, hnew⟩ := hagree.2.1.mp ⟨⟨_, _⟩, rfl⟩
  refine ⟨reader, opened, hnew, ?_⟩
  exact (hagree.2.2 _ reader opened rfl hnew).2.2.2 opened .opened "w"

end Tritium.Safetensors
