import Tritium.SafeTensors.Reader
import Mathlib.Data.Prod.Lex

/-!
# The layout of a safetensors file

A layout is admitted exactly when every span is as long as its tensor and the spans, in order, cover
the data from end to end.
-/

namespace Tritium.Safetensors

open List

variable {ι : Type} {dataLen : ℕ} {tensors : Table}

/-- The span has the bytes of the shape and the type, and no product on the way overflows. -/
def Measured (tensor : RawTensor) : Prop :=
  ∃ bits, storageBits tensor.dtype = some bits ∧
    (∀ leading, leading <+: tensor.shape → leading.prod < 2 ^ 64) ∧
    tensor.shape.prod * bits < 2 ^ 64 ∧
    tensor.shape.prod * bits = 8 * (tensor.dataOffsets.2 - tensor.dataOffsets.1)

/-- Each span starts where the one before it ends, from `low` up to `high`. -/
def Tiles : ℕ → List (ℕ × ℕ) → ℕ → Prop
  | low, [], high => low = high
  | low, span :: rest, high => span.1 = low ∧ span.1 ≤ span.2 ∧ Tiles span.2 rest high

theorem Tiles.bounds {spans : List (ℕ × ℕ)} {low high : ℕ} (htiles : Tiles low spans high) :
    low ≤ high ∧ ∀ span ∈ spans, span.1 ≤ span.2 ∧ span.2 ≤ high := by
  induction spans generalizing low with
  | nil => exact ⟨htiles.le, by simp⟩
  | cons span spans ih =>
    obtain ⟨rfl, hle, hrest⟩ := htiles
    obtain ⟨hhigh, hspans⟩ := ih hrest
    exact ⟨hle.trans hhigh, forall_mem_cons.mpr ⟨⟨hle, hhigh⟩, hspans⟩⟩

theorem rawTensorLayoutEntry_eq_ok_iff {name : String} {tensor : RawTensor}
    {layout : RawTensorLayout} :
    (rawTensorLayoutEntry name tensor dataLen : Outcome (SafeTensorsError ι) _) = .ok layout ↔
      (tensor.dataOffsets.1 ≤ tensor.dataOffsets.2 ∧ tensor.dataOffsets.2 ≤ dataLen) ∧
      Measured tensor ∧ layout = ⟨tensor.dataOffsets.1,
        tensor.dataOffsets.2 - tensor.dataOffsets.1, tensor.shape.prod⟩ := by
  obtain ⟨dtype, shape, start, stop⟩ := tensor
  have hproduct : ∀ numel, shape.foldlM (checkedMul 64) 1 = some numel ↔
      (∀ leading, leading <+: shape → leading.prod < 2 ^ 64) ∧ shape.prod = numel := by
    intro numel
    simpa using @foldlM_checkedMul_iff shape 1 numel (by decide)
  simp only [rawTensorLayoutEntry, Measured, refuse_eq_ok_iff, bind_eq_ok_iff, okOr_eq_ok_iff,
    checkedMul_eq_some_iff, hproduct, pure_eq_ok, ok.injEq]
  constructor
  · rintro ⟨hbounds, bits, hbits, _, ⟨hleading, rfl⟩, _, ⟨hlt, rfl⟩, _, hlength, rfl⟩
    exact ⟨by omega, ⟨bits, hbits, hleading, hlt, by omega⟩, rfl⟩
  · rintro ⟨_, ⟨bits, hbits, hleading, hlt, _⟩, rfl⟩
    exact ⟨by omega, bits, hbits, _, ⟨hleading, rfl⟩, _, ⟨hlt, rfl⟩, by omega, by omega, rfl⟩

theorem foldlM_checkSpan_iff {entries : Table} {cursor reached : ℕ} :
    entries.foldlM (checkSpan (ι := ι) dataLen) cursor = .ok reached ↔
      Tiles cursor (entries.map fun entry => entry.2.dataOffsets) reached ∧
        ∀ entry ∈ entries, entry.2.dataOffsets.2 ≤ dataLen ∧ Measured entry.2 := by
  induction entries generalizing cursor with
  | nil => simp [Tiles]
  | cons entry entries ih =>
    obtain ⟨name, dtype, shape, start, stop⟩ := entry
    rw [foldlM_cons, map_cons, forall_mem_cons]
    simp only [checkSpan, refuse_eq_ok_iff, bind_eq_ok_iff, rawTensorLayoutEntry_eq_ok_iff, ih,
      pure_eq_ok, ok.injEq]
    constructor
    · rintro ⟨_, ⟨_, layout, ⟨hbounds, hmeasured, _⟩, rfl⟩, htiles, hentries⟩
      exact ⟨⟨by omega, by omega, htiles⟩, ⟨hbounds.2, hmeasured⟩, hentries⟩
    · rintro ⟨⟨_, hle, htiles⟩, ⟨hbound, hmeasured⟩, hentries⟩
      exact ⟨_, ⟨by omega, _, ⟨⟨hle, hbound⟩, hmeasured, rfl⟩, rfl⟩, htiles, hentries⟩

instance : Std.TransCmp compareOffsets :=
  transCmp_comap (compareLex (compareOn Prod.fst) (compareOn Prod.snd))
    fun entry : String × RawTensor => entry.2.dataOffsets

theorem compareOffsets_isLE_iff (left right : String × RawTensor) :
    (compareOffsets left right).isLE ↔ toLex left.2.dataOffsets ≤ toLex right.2.dataOffsets := by
  rw [compareOffsets, compareLex, Prod.Lex.toLex_le_toLex, Ordering.isLE_then_iff_or]
  simp [compareOn, Nat.compare_eq_lt, Nat.isLE_compare]

/-- The spans of a table in the order of the check, which is the only one. -/
theorem map_sortBy_eq {ordered : List (ℕ × ℕ)}
    (hperm : ordered.Perm (tensors.map fun entry => entry.2.dataOffsets))
    (hsorted : ordered.Pairwise fun left right => toLex left ≤ toLex right) :
    (sortBy compareOffsets tensors).map (fun entry => entry.2.dataOffsets) = ordered := by
  refine Perm.eq_of_pairwise ?_ ?_ hsorted
    (((sortBy_perm compareOffsets tensors).map _).trans hperm.symm)
  · intro left right _ _ hle hge
    exact toLex.injective (le_antisymm hle hge)
  · rw [pairwise_map]
    exact (sortBy_pairwise compareOffsets tensors).imp fun {left right} hle =>
      (compareOffsets_isLE_iff left right).mp hle

/-- **A layout is admitted exactly when the spans fit their tensors and tile the data.** -/
theorem validateLayout_eq_ok_iff :
    (validateLayout tensors dataLen : Outcome (SafeTensorsError ι) Unit) = .ok () ↔
      (∀ entry ∈ tensors, Measured entry.2) ∧
      ∃ ordered, ordered.Perm (tensors.map fun entry => entry.2.dataOffsets) ∧
        ordered.Pairwise (fun left right => toLex left ≤ toLex right) ∧
        Tiles 0 ordered dataLen := by
  have hmem : ∀ entry, entry ∈ sortBy compareOffsets tensors ↔ entry ∈ tensors :=
    fun entry => (sortBy_perm compareOffsets tensors).mem_iff
  simp only [validateLayout, bind_eq_ok_iff, foldlM_checkSpan_iff, refuse_eq_ok_iff, not_ne_iff,
    hmem]
  constructor
  · rintro ⟨_, ⟨htiles, hentries⟩, rfl, _⟩
    refine ⟨fun entry hentry => (hentries entry hentry).2, _,
      (sortBy_perm compareOffsets tensors).map _, ?_, htiles⟩
    rw [pairwise_map]
    exact (sortBy_pairwise compareOffsets tensors).imp fun {left right} hle =>
      (compareOffsets_isLE_iff left right).mp hle
  · rintro ⟨hmeasured, ordered, hperm, hsorted, htiles⟩
    refine ⟨dataLen, ⟨map_sortBy_eq hperm hsorted ▸ htiles, fun entry hentry => ?_⟩, rfl, rfl⟩
    have hspan := htiles.bounds.2 entry.2.dataOffsets
      (hperm.mem_iff.mpr (mem_map_of_mem hentry))
    exact ⟨hspan.2, hmeasured entry hentry⟩

theorem span_le_of_validateLayout
    (hvalid : (validateLayout tensors dataLen : Outcome (SafeTensorsError ι) Unit) = .ok ())
    {entry : String × RawTensor} (hentry : entry ∈ tensors) :
    entry.2.dataOffsets.1 ≤ entry.2.dataOffsets.2 ∧ entry.2.dataOffsets.2 ≤ dataLen := by
  obtain ⟨_, ordered, hperm, _, htiles⟩ := validateLayout_eq_ok_iff.mp hvalid
  exact htiles.bounds.2 _ (hperm.mem_iff.mpr (mem_map_of_mem hentry))

end Tritium.Safetensors
