import Tritium.Gguf.Proof.RoundTrip
import Tritium.Gguf.Stream
import Mathlib.Data.List.GetD

/-!
# The stream writer

What has been handed to the destination is always the front of the container, and the stream waits
for the next tensor that lacks any bytes. The first sections are about a destination that may fail
or not: `holds` says what it has taken, and whether a call on it can fail at all is a parameter, so
one step lemma serves both the writer on a destination that takes everything and the writer on an
arbitrary one.
-/

namespace Tritium.Gguf

open List

namespace GgufStreamWriter

variable {σ ι : Type} {destination : Destination σ ι} {holds : List UInt8 → σ → Prop}
  {mayFail : Prop} {writer : σ} {stream after : GgufStreamWriter σ} {call : StreamCall σ ι Unit}
  {alignment stop start index version turns : ℕ} {received : ℕ → ℕ} {metadata : Metadata}
  {tensor : TensorOut} {rest later tensors : List TensorOut}
  {output chunk total front bytes : List UInt8} {pieces : List (List (List UInt8)) }
  (items : List ℕ)

section Calls

variable {post middle : GgufStreamWriter σ → Prop}

/-- The call hands on a piece, or fails where that is possible. -/
def Attempts (mayFail : Prop) (holds : List UInt8 → σ → Prop) (call : σ → Except ι Unit × σ)
    (piece : List UInt8) : Prop :=
  ∀ output writer, holds output writer →
    (∃ after, call writer = (.ok (), after) ∧ holds (output ++ piece) after) ∨
      mayFail ∧ ∃ error after, call writer = (.error error, after)

/-- The call succeeds with a stream as described, or poisons the stream where it may fail. -/
def Settles (mayFail : Prop) (call : StreamCall σ ι Unit) (stream : GgufStreamWriter σ)
    (post : GgufStreamWriter σ → Prop) : Prop :=
  (∃ after, call stream = (.ok (), after) ∧ post after) ∨
    mayFail ∧ ∃ error after, call stream = (.err (.io error), after) ∧ after.poisoned = true

theorem Settles.ok (hcall : call stream = (.ok (), after)) (hpost : post after) :
    Settles mayFail call stream post :=
  .inl ⟨after, hcall, hpost⟩

theorem Settles.bind {next : Unit → StreamCall σ ι Unit}
    (hcall : Settles mayFail call stream middle)
    (hnext : ∀ after, middle after → Settles mayFail (next ()) after post) :
    Settles mayFail (call >>= next) stream post := by
  obtain ⟨reached, hok, hmiddle⟩ | ⟨hfail, error, after, herr, hpoisoned⟩ := hcall
  · obtain ⟨after, hafter, hpost⟩ | ⟨hfail, error, after, herr, hpoisoned⟩ := hnext reached hmiddle
    · exact .inl ⟨after, by rw [bind_apply_ok hok, hafter], hpost⟩
    · exact .inr ⟨hfail, error, after, by rw [bind_apply_ok hok, herr], hpoisoned⟩
  · exact .inr ⟨hfail, error, after, bind_apply_err herr _, hpoisoned⟩

theorem Settles.mono (hcall : Settles mayFail call stream middle)
    (hpost : ∀ after, middle after → post after) : Settles mayFail call stream post :=
  hcall.imp_left fun ⟨after, hok, hmiddle⟩ => ⟨after, hok, hpost after hmiddle⟩

theorem poisoning_settles {call : σ → Except ι Unit × σ} {piece : List UInt8}
    (hcall : Attempts mayFail holds call piece) (hholds : holds output stream.writer) :
    Settles mayFail (poisoning call) stream fun after =>
      ∃ writer, holds (output ++ piece) writer ∧ after = { stream with writer := writer } := by
  obtain ⟨writer, hok, hafter⟩ | ⟨hfail, error, writer, herr⟩ := hcall output stream.writer hholds
  · exact .inl ⟨_, by rw [poisoning, hok], writer, hafter, rfl⟩
  · exact .inr ⟨hfail, error, _, by rw [poisoning, herr], rfl⟩

variable (hwrite : ∀ bytes, Attempts mayFail holds (destination.writeAll bytes) bytes)

include hwrite

theorem writeAllBounded_attempts (hturns : bytes.length ≤ turns) :
    Attempts mayFail holds (writeAllBounded destination turns bytes) bytes := by
  induction turns generalizing bytes with
  | zero =>
    obtain rfl := length_eq_zero_iff.mp (Nat.le_zero.mp hturns)
    exact fun output writer hholds => .inl ⟨writer, rfl, by rwa [append_nil]⟩
  | succ turns ih =>
    intro output writer hholds
    rw [writeAllBounded]
    by_cases hempty : bytes = []
    · rw [hempty, append_nil]
      exact .inl ⟨writer, rfl, hholds⟩
    · rw [if_neg hempty]
      obtain ⟨middle, hok, hmiddle⟩ | ⟨hfail, error, middle, herr⟩ :=
        hwrite (bytes.take streamWriteChunkBytes) output writer hholds
      · rw [hok]
        have hlength : (bytes.drop streamWriteChunkBytes).length ≤ turns := by
          rw [length_drop, streamWriteChunkBytes]
          omega
        have hrest := ih hlength _ middle hmiddle
        rwa [append_assoc, take_append_drop] at hrest
      · rw [herr]
        exact .inr ⟨hfail, error, middle, rfl⟩

theorem padLoop_settles {remaining : ℕ} (hturns : remaining ≤ turns)
    (hholds : holds output stream.writer) :
    Settles mayFail (padLoop destination turns remaining) stream fun after =>
      ∃ writer, holds (output ++ replicate remaining 0) writer ∧
        after = { stream with writer := writer, position := stream.position + remaining } := by
  induction turns generalizing remaining output stream with
  | zero =>
    obtain rfl := Nat.le_zero.mp hturns
    exact .ok rfl ⟨stream.writer, by rwa [replicate_zero, append_nil], rfl⟩
  | succ turns ih =>
    rw [padLoop]
    by_cases hempty : remaining = 0
    · rw [hempty]
      exact .ok rfl ⟨stream.writer, by rwa [replicate_zero, append_nil], rfl⟩
    · rw [if_neg hempty]
      have hcount : 0 < min remaining streamWriteChunkBytes :=
        Nat.lt_min.mpr ⟨Nat.pos_of_ne_zero hempty, by decide⟩
      refine (poisoning_settles (hwrite _) hholds).bind ?_
      rintro _ ⟨middle, hmiddle, rfl⟩
      refine Settles.mono (ih (by omega) hmiddle) ?_
      rintro _ ⟨writer, hwriter, rfl⟩
      rw [append_assoc, replicate_append_replicate, Nat.add_sub_cancel' (min_le_left _ _)]
        at hwriter
      refine ⟨writer, hwriter, ?_⟩
      simp

theorem padTo_settles {target : ℕ} (hholds : holds output stream.writer)
    (htarget : stream.position ≤ target) :
    Settles mayFail (padTo destination target) stream fun after =>
      ∃ writer, holds (output ++ replicate (target - stream.position) 0) writer ∧
        after = { stream with writer := writer, position := target } := by
  have hloop := padLoop_settles hwrite (le_refl (target - stream.position)) hholds
  rw [Nat.add_sub_cancel' htarget] at hloop
  rw [Settles, padTo, current_bind, if_neg (not_lt.mpr htarget)]
  exact hloop

end Calls

/-! ### What the stream waits for -/

/-- The tensors from the next one on are `rest`, and they stand behind `start`. -/
structure Stage (alignment stop start : ℕ) (rest : List TensorOut) (stream : GgufStreamWriter σ) :
    Prop where
  clean : stream.poisoned = false
  bound : stream.nextTensor ≤ stream.tensorLengths.length
  lengths : stream.tensorLengths.drop stream.nextTensor = rest.map fun tensor => tensor.data.length
  placed : Placed alignment start (rest.map TensorOut.spec) (stream.offsets.drop stream.nextTensor)
    stop
  fits : stream.tensorDataOffset + stop < 2 ^ 64

/-- The next tensor lacks some bytes, and the stream stands where they belong. -/
def AtTensor (alignment start : ℕ) (rest : List TensorOut) (stream : GgufStreamWriter σ) : Prop :=
  match rest with
  | [] => stream.tensorWritten = 0
  | tensor :: _ => stream.tensorWritten < tensor.data.length ∧ stream.position =
        stream.tensorDataOffset + Packing.alignUp alignment start + stream.tensorWritten

/-- What is still to be written when the next tensor has that many bytes. -/
def pendingBytes (alignment start written : ℕ) (rest : List TensorOut) : List UInt8 :=
  match rest with
  | [] => []
  | tensor :: rest => tensor.data.drop written ++
      payloadBytes alignment (Packing.alignUp alignment start + tensor.data.length) rest

/-- The bytes each tensor has received: all before the next one, none behind it. -/
def Accounted (received : ℕ → ℕ) (stream : GgufStreamWriter σ) : Prop :=
  ∀ index, received index =
    (stream.tensorLengths.take stream.nextTensor ++ [stream.tensorWritten]).getD index 0

/-- All tensors before `index` are complete, and the stream waits for the first of `later` that has
any bytes. -/
def Awaits (holds : List UInt8 → σ → Prop) (alignment stop index : ℕ) (later : List TensorOut)
    (total : List UInt8) (stream : GgufStreamWriter σ) : Prop :=
  ∃ skipped rest start output, later = skipped ++ rest ∧ (∀ tensor ∈ skipped, tensor.data = []) ∧
    stream.nextTensor = index + skipped.length ∧ stream.tensorWritten = 0 ∧
    Stage alignment stop start rest stream ∧ AtTensor alignment start rest stream ∧
    holds output stream.writer ∧ total = output ++ pendingBytes alignment start 0 rest

/-- The stream lacks the bytes `left` of one tensor and all those of the later ones. -/
def Due (holds : List UInt8 → σ → Prop) (alignment stop index : ℕ) (left : List UInt8)
    (later : List TensorOut) (total : List UInt8) (stream : GgufStreamWriter σ) : Prop :=
  if left = [] then
    Awaits holds alignment stop (index + 1) later total stream
  else
    stream.nextTensor = index ∧ ∃ tensor start output,
      tensor.data.drop stream.tensorWritten = left ∧
      Stage alignment stop start (tensor :: later) stream ∧
      AtTensor alignment start (tensor :: later) stream ∧ holds output stream.writer ∧
      total = output ++ pendingBytes alignment start stream.tensorWritten (tensor :: later)

theorem Stage.next_lt (hstage : Stage alignment stop start (tensor :: rest) stream) :
    stream.nextTensor < stream.tensorLengths.length ∧
      stream.tensorLengths[stream.nextTensor]? = some tensor.data.length ∧
      stream.tensorLengths.drop (stream.nextTensor + 1) =
        rest.map fun tensor => tensor.data.length := by
  have hlengths := hstage.lengths
  refine ⟨?_, ?_, ?_⟩
  · by_contra hle
    rw [drop_eq_nil_of_le (not_lt.mp hle)] at hlengths
    cases hlengths
  · rw [← head?_drop, hlengths, map_cons, head?_cons]
  · rw [← tail_drop, hlengths, map_cons, tail_cons]

theorem Stage.next_eq (hstage : Stage alignment stop start [] stream) :
    stream.nextTensor = stream.tensorLengths.length :=
  le_antisymm hstage.bound (drop_eq_nil_iff.mp hstage.lengths)

theorem Stage.exists_next {expected : ℕ} (hstage : Stage alignment stop start rest stream)
    (hlength : stream.tensorLengths[stream.nextTensor]? = some expected) :
    ∃ tensor later, rest = tensor :: later ∧ tensor.data.length = expected := by
  rw [← head?_drop, hstage.lengths, head?_map, Option.map_eq_some_iff] at hlength
  obtain ⟨tensor, htensor, hexpected⟩ := hlength
  obtain ⟨later, hrest⟩ := head?_eq_some_iff.mp htensor
  exact ⟨tensor, later, hrest, hexpected⟩

theorem Stage.advance (hstage : Stage alignment stop start (tensor :: rest) stream) (writer : σ)
    (position written : ℕ) :
    Stage alignment stop (Packing.alignUp alignment start + tensor.data.length) rest
      { stream with
        writer := writer
        position := position
        nextTensor := stream.nextTensor + 1
        tensorWritten := written } := by
  obtain ⟨hnext, _, hlengths⟩ := hstage.next_lt
  obtain ⟨offsets, _, hoffsets, _, _, _, _⟩ := hstage.placed
  exact ⟨hstage.clean, hnext, hlengths, by rwa [← tail_drop, hoffsets], hstage.fits⟩

theorem getD_concat_add (last count index : ℕ) :
    (items ++ [last]).getD index 0 + (if index = items.length then count else 0) =
      (items ++ [last + count]).getD index 0 := by
  obtain hlt | hle := Nat.lt_or_ge index items.length
  · rw [getD_append _ _ _ _ hlt, getD_append _ _ _ _ hlt, if_neg hlt.ne, add_zero]
  · obtain ⟨offset, rfl⟩ := Nat.exists_eq_add_of_le hle
    rw [getD_append_right _ _ _ _ hle, getD_append_right _ _ _ _ hle, Nat.add_sub_cancel_left]
    cases offset <;> simp

theorem getD_concat_zero (index : ℕ) :
    (items ++ [0]).getD index 0 = items.getD index 0 := by
  obtain hlt | hle := Nat.lt_or_ge index items.length
  · exact getD_append _ _ _ _ hlt
  · rw [getD_append_right _ _ _ _ hle, getD_eq_default _ _ hle]
    cases index - items.length <;> rfl

theorem Accounted.extend (hreceived : Accounted received stream)
    (hnext : stream.nextTensor ≤ stream.tensorLengths.length) (count : ℕ) :
    Accounted (fun index => received index + if index = stream.nextTensor then count else 0)
      { stream with tensorWritten := stream.tensorWritten + count } := by
  intro index
  have hsum := getD_concat_add (stream.tensorLengths.take stream.nextTensor) stream.tensorWritten
    count index
  rw [length_take_of_le hnext, ← hreceived index] at hsum
  exact hsum

theorem Accounted.close (hreceived : Accounted received stream)
    (hlength : stream.tensorLengths[stream.nextTensor]? = some stream.tensorWritten) :
    Accounted received
      { stream with nextTensor := stream.nextTensor + 1, tensorWritten := 0 } := by
  intro index
  rw [hreceived index, getD_concat_zero, take_add_one, hlength]
  rfl

section Steps

variable (hwrite : ∀ bytes, Attempts mayFail holds (destination.writeAll bytes) bytes)
  (hpos : 0 < alignment)

include hwrite hpos

theorem prepareNextTensor_settles (hturns : rest.length ≤ turns)
    (hstage : Stage alignment stop start rest stream)
    (hposition : stream.position = stream.tensorDataOffset + start)
    (hwritten : stream.tensorWritten = 0) (hholds : holds output stream.writer) :
    Settles mayFail (prepareNextTensor destination turns) stream fun after =>
      after.tensorLengths = stream.tensorLengths ∧
      (∀ received, Accounted received stream → Accounted received after) ∧
      Awaits holds alignment stop stream.nextTensor rest
        (output ++ payloadBytes alignment start rest) after := by
  induction turns generalizing rest start output stream with
  | zero =>
    obtain rfl := length_eq_zero_iff.mp (Nat.le_zero.mp hturns)
    exact .ok rfl ⟨rfl, fun _ hreceived => hreceived, [], [], start, output, rfl, by simp,
      rfl, hwritten, hstage, hwritten, hholds, rfl⟩
  | succ turns ih =>
    rw [Settles, prepareNextTensor, current_bind]
    cases rest with
    | nil =>
      rw [if_neg (by rw [hstage.next_eq]; omega)]
      exact Settles.ok rfl ⟨rfl, fun _ hreceived => hreceived, [], [], start, output, rfl,
        by simp, rfl, hwritten, hstage, hwritten, hholds, rfl⟩
    | cons tensor rest =>
      obtain ⟨hnext, hlength, _⟩ := hstage.next_lt
      obtain ⟨offsets, _, hoffsets, _, _, _, hplaced⟩ := hstage.placed
      have hstop := (hplaced.bounds hpos).1
      have hle := Packing.le_alignUp hpos start
      have hfits := hstage.fits
      have hoffset : stream.offsets[stream.nextTensor]? =
          some (Packing.alignUp alignment start) := by
        rw [← head?_drop, hoffsets, head?_cons]
      rw [if_pos hnext, index_eq_ok_iff.mpr hoffset, lift_ok_bind, checkedAdd_of_lt (by omega)]
      refine Settles.bind (padTo_settles hwrite hholds (by omega)) ?_
      rintro _ ⟨writer, hwriter, rfl⟩
      rw [hposition, Nat.add_sub_add_left] at hwriter
      rw [index_eq_ok_iff.mpr hlength, lift_ok_bind]
      have htotal : output ++ payloadBytes alignment start (tensor :: rest) =
          output ++ replicate (Packing.alignUp alignment start - start) 0 ++ (tensor.data ++
            payloadBytes alignment (Packing.alignUp alignment start + tensor.data.length)
              rest) := by
        simp [payloadBytes, Packing.region]
      rw [htotal]
      by_cases hempty : tensor.data.length = 0
      · have hdata := length_eq_zero_iff.mp hempty
        rw [hempty] at hlength
        have hrest := hstage.advance writer
          (stream.tensorDataOffset + Packing.alignUp alignment start) stream.tensorWritten
        rw [hdata]
        rw [hdata] at hrest
        refine Settles.mono (ih (Nat.le_of_succ_le_succ hturns) hrest rfl hwritten hwriter) ?_
        · rintro after ⟨hsame, haccounted, skipped, rest', start', output', rfl, hskipped,
            hindex, hrest⟩
          refine ⟨hsame, fun received hreceived => haccounted received ?_, tensor :: skipped,
            rest', start', output', rfl, ?_, ?_, hrest⟩
          · have hclosed := hreceived.close (by rwa [hwritten])
            rwa [← hwritten] at hclosed
          · exact forall_mem_cons.mpr ⟨hdata, hskipped⟩
          · rw [hindex, length_cons]
            dsimp only
            omega
      · rw [if_pos hempty]
        refine .ok rfl ⟨rfl, fun _ hreceived => hreceived, [], tensor :: rest, start, _, rfl,
          by simp, rfl, hwritten, ?_, ?_, hwriter, rfl⟩
        · exact ⟨hstage.clean, hstage.bound, hstage.lengths, hstage.placed, hfits⟩
        · exact ⟨by rw [hwritten]; omega, by rw [hwritten]; rfl⟩

/-- What an accepted chunk leads to: the same tensor with more bytes, or the next one. -/
theorem acceptChunk_settles (hstage : Stage alignment stop start (tensor :: later) stream)
    (hat : AtTensor alignment start (tensor :: later) stream) (hholds : holds output stream.writer)
    (hchunk : stream.tensorWritten + chunk.length ≤ tensor.data.length) :
    Settles mayFail (acceptChunk destination chunk (stream.tensorWritten + chunk.length)
        tensor.data.length) stream fun after =>
      after.tensorLengths = stream.tensorLengths ∧
      (∀ received, Accounted received stream → Accounted (fun index =>
        received index + if index = stream.nextTensor then chunk.length else 0) after) ∧
      Due holds alignment stop stream.nextTensor
        (tensor.data.drop (stream.tensorWritten + chunk.length)) later (output ++ chunk ++
          (pendingBytes alignment start stream.tensorWritten (tensor :: later)).drop chunk.length)
        after := by
  obtain ⟨_, hlength, hlengths⟩ := hstage.next_lt
  obtain ⟨offsets, _, _, _, _, _, hplaced⟩ := hstage.placed
  have hstop := (hplaced.bounds hpos).1
  have hfits := hstage.fits
  obtain ⟨_, _⟩ := hat
  have hend : stream.position + chunk.length < 2 ^ 64 := by
    change Packing.alignUp alignment start + tensor.data.length ≤ stop at hstop
    omega
  refine Settles.bind (poisoning_settles (writeAllBounded_attempts hwrite le_rfl) hholds) ?_
  rintro _ ⟨writer, hwriter, rfl⟩
  rw [Settles, current_bind, checkedAdd_of_lt hend, pendingBytes,
    drop_append_of_le_length (by rw [length_drop]; omega), drop_drop]
  by_cases hcomplete : stream.tensorWritten + chunk.length = tensor.data.length
  · simp only [Due, hcomplete, drop_length, ↓reduceIte, nil_append]
    have hrest := hstage.advance writer (stream.position + chunk.length) 0
    have hturns : later.length ≤ stream.tensorLengths.length := by
      have hcount := congrArg length hlengths
      rw [length_map, length_drop] at hcount
      omega
    refine Settles.mono (prepareNextTensor_settles hwrite hpos hturns hrest ?_ rfl hwriter) ?_
    · dsimp only
      omega
    · rintro after ⟨hsame, haccounted, hawaits⟩
      rw [← hcomplete] at hlength
      exact ⟨hsame, fun received hreceived =>
        haccounted _ ((hreceived.extend hstage.bound chunk.length).close hlength), hawaits⟩
  · have hmore : tensor.data.drop (stream.tensorWritten + chunk.length) ≠ [] := by
      rw [ne_eq, drop_eq_nil_iff]
      omega
    simp only [if_neg hcomplete, Due, if_neg hmore]
    refine Settles.ok rfl ⟨rfl, fun received hreceived =>
      hreceived.extend hstage.bound chunk.length, rfl, tensor, start, _, rfl, ?_, ?_, hwriter, rfl⟩
    · exact ⟨hstage.clean, hstage.bound, hstage.lengths, hstage.placed, hfits⟩
    · exact ⟨by dsimp only; omega, by dsimp only; omega⟩

end Steps

theorem writeTensorChunk_of_fits (hstage : Stage alignment stop start (tensor :: later) stream)
    (hchunk : stream.tensorWritten + chunk.length ≤ tensor.data.length) :
    writeTensorChunk destination stream.nextTensor chunk stream =
      acceptChunk destination chunk (stream.tensorWritten + chunk.length) tensor.data.length
        stream := by
  obtain ⟨hnext, hlength, _⟩ := hstage.next_lt
  obtain ⟨_, _, _, _, _, hlt, _⟩ := hstage.placed
  have hbound : stream.tensorWritten + chunk.length < 2 ^ 64 :=
    Nat.lt_of_le_of_lt hchunk (Nat.lt_of_le_of_lt (Nat.le_add_left _ _) hlt)
  rw [writeTensorChunk, current_bind, if_neg (by rw [hstage.clean]; decide), if_neg hnext.ne,
    if_neg (not_ne_iff.mpr rfl), index_eq_ok_iff.mpr hlength, lift_ok_bind,
    checkedAdd_of_lt hbound, okOr_some, lift_ok_bind, if_neg (not_lt.mpr hchunk)]

theorem writeTensorChunk_cases (destination : Destination σ ι) (index : ℕ) (chunk : List UInt8)
    (stream : GgufStreamWriter σ) :
    (∃ expected, index = stream.nextTensor ∧ stream.tensorLengths[index]? = some expected ∧
      stream.tensorWritten + chunk.length ≤ expected ∧
      writeTensorChunk destination index chunk stream =
        acceptChunk destination chunk (stream.tensorWritten + chunk.length) expected stream) ∨
      ∃ answer, writeTensorChunk destination index chunk stream = (answer, stream) ∧
        answer ≠ .ok () ∧ ∀ cause, answer ≠ .err (.io cause) := by
  rw [writeTensorChunk, current_bind]
  split_ifs with _ _ hindex
  · exact .inr ⟨_, rfl, by simp⟩
  · exact .inr ⟨_, rfl, by simp⟩
  · exact .inr ⟨_, rfl, by simp⟩
  cases hlength : stream.tensorLengths[index]? with
  | none =>
    rw [Outcome.index, hlength]
    exact .inr ⟨_, rfl, by simp⟩
  | some expected =>
    rw [index_eq_ok_iff.mpr hlength, lift_ok_bind, checkedAdd]
    split_ifs
    · rw [okOr_some, lift_ok_bind]
      split_ifs with hlong
      · exact .inr ⟨_, rfl, by simp⟩
      · exact .inl ⟨expected, not_ne_iff.mp hindex, rfl, not_lt.mp hlong, rfl⟩
    · exact .inr ⟨_, rfl, by simp⟩

/-- A failed call reports an overflow, or a failure of the destination that has poisoned the
stream. -/
def Breaks {α : Type} (call : StreamCall σ ι α) : Prop :=
  ∀ stream error after, call stream = (.err error, after) →
    (∃ cause, error = .gguf cause) ∨ (∃ cause, error = .io cause) ∧ after.poisoned = true

section Breaks

variable {α : Type}

theorem Breaks.bind {call : StreamCall σ ι α} {next : α → StreamCall σ ι Unit}
    (hcall : Breaks call) (hnext : ∀ value, Breaks (next value)) : Breaks (call >>= next) := by
  intro stream error after herr
  cases hfirst : call stream with
  | mk answer middle =>
    cases answer with
    | ok value =>
      rw [bind_apply_ok hfirst] at herr
      exact hnext value middle error after herr
    | err cause =>
      rw [bind_apply_err hfirst] at herr
      cases herr
      exact hcall stream _ _ hfirst
    | panic =>
      rw [Stateful.bind_apply_panic hfirst] at herr
      cases herr

theorem Breaks.current : Breaks (Stateful.current : StreamCall σ ι _) := by
  rintro stream error after ⟨⟩

theorem Breaks.update (f : GgufStreamWriter σ → GgufStreamWriter σ) :
    Breaks (Stateful.update f : StreamCall σ ι Unit) := by
  rintro stream error after ⟨⟩

theorem Breaks.pure : Breaks (Pure.pure () : StreamCall σ ι Unit) := by
  rintro stream error after ⟨⟩

theorem Breaks.getIndex (position : ℕ) :
    Breaks (lift (Outcome.index items position) : StreamCall σ ι ℕ) := by
  intro stream error after herr
  rw [Outcome.index] at herr
  cases hitem : items[position]? <;> rw [hitem] at herr <;> cases herr

theorem Breaks.okOr (value : Option α) :
    Breaks (lift (Tritium.okOr value (.gguf .dimsOverflow)) : StreamCall σ ι α) := by
  intro stream error after herr
  cases value <;> cases herr
  exact .inl ⟨_, rfl⟩

theorem Breaks.poisoning (call : σ → Except ι Unit × σ) : Breaks (poisoning call) := by
  intro stream error after herr
  rw [GgufStreamWriter.poisoning] at herr
  split at herr <;> cases herr
  simp

end Breaks

theorem padLoop_breaks (turns remaining : ℕ) : Breaks (padLoop destination turns remaining) := by
  induction turns generalizing remaining with
  | zero => exact .pure
  | succ turns ih =>
    rw [padLoop]
    split_ifs
    · exact .pure
    · exact (Breaks.poisoning _).bind fun _ => (Breaks.update _).bind fun _ => ih _

theorem padTo_breaks (target : ℕ) : Breaks (padTo destination target) := by
  refine Breaks.current.bind fun stream => ?_
  split_ifs
  · exact Breaks.okOr none
  · exact padLoop_breaks _ _

theorem prepareNextTensor_breaks (turns : ℕ) : Breaks (prepareNextTensor destination turns) := by
  induction turns with
  | zero => exact .pure
  | succ turns ih =>
    refine Breaks.current.bind fun stream => ?_
    split_ifs
    · refine (Breaks.getIndex _ _).bind fun offset => (Breaks.okOr _).bind fun target =>
        (padTo_breaks target).bind fun _ => (Breaks.getIndex _ _).bind fun length => ?_
      split_ifs
      · exact .pure
      · exact (Breaks.update _).bind fun _ => ih
    · exact .pure

theorem acceptChunk_breaks (chunk : List UInt8) (attempted expected : ℕ) :
    Breaks (acceptChunk destination chunk attempted expected) := by
  refine (Breaks.poisoning _).bind fun _ => Breaks.current.bind fun stream =>
    (Breaks.okOr _).bind fun position => ?_
  split_ifs
  · exact (Breaks.update _).bind fun _ => prepareNextTensor_breaks _
  · exact .update _

/-- A call that fails was refused without any effect, or broke the stream. -/
theorem writeTensorChunk_err {error : GgufWriteError ι}
    (herr : writeTensorChunk destination index chunk stream = (.err error, after)) :
    after = stream ∧ (∀ cause, error ≠ .io cause) ∨ (∃ cause, error = .gguf cause) ∨
      (∃ cause, error = .io cause) ∧ after.poisoned = true := by
  obtain ⟨expected, _, _, _, haccept⟩ | ⟨answer, hrefused, _, hne⟩ :=
    writeTensorChunk_cases destination index chunk stream
  · rw [haccept] at herr
    exact .inr (acceptChunk_breaks chunk _ expected stream error after herr)
  · rw [hrefused] at herr
    cases herr
    exact .inl ⟨rfl, fun cause heq => hne cause (congrArg _ heq)⟩

variable (destination) in
/-- One call of `write_tensor_chunk`. -/
def send (call : ℕ × List UInt8) : StreamCall σ ι Unit :=
  writeTensorChunk destination call.1 call.2

theorem poisoned_run (destination : Destination σ ι) (hpoisoned : stream.poisoned = true)
    (calls : List (ℕ × List UInt8)) :
    (∀ answer ∈ Stateful.answers (send destination) calls stream, answer = .err .poisoned) ∧
      Stateful.reached (send destination) calls stream = stream := by
  have hcall : ∀ call, send destination call stream = (.err .poisoned, stream) := fun call => by
    rw [send, writeTensorChunk, current_bind, if_pos hpoisoned]
    rfl
  induction calls with
  | nil => exact ⟨by simp [Stateful.answers], rfl⟩
  | cons call calls ih =>
    rw [Stateful.answers, Stateful.reached, foldl_cons, hcall, forall_mem_cons]
    exact ⟨⟨rfl, ih.1⟩, ih.2⟩

theorem new_settles (hwrite : ∀ bytes, Attempts mayFail holds (destination.writeAll bytes) bytes)
    {layout : GgufLayout}
    (hlayout : buildLayout version metadata (tensors.map TensorOut.spec) = .ok layout)
    (halignment : metadataAlignment metadata = .ok alignment) (hholds : holds front writer) :
    (∃ stream stop, new destination version metadata (tensors.map TensorOut.spec) writer =
        .ok stream ∧
      stream.tensorLengths = (tensors.map TensorOut.spec).map GgufTensorSpec.dataLen ∧
      Accounted (fun _ => 0) stream ∧ Awaits holds alignment stop 0 tensors (front ++
        (Gguf.padTo layout.header layout.tensorDataOffset ++ payloadBytes alignment 0 tensors))
        stream) ∨
      mayFail ∧ ∃ error, new destination version metadata (tensors.map TensorOut.spec) writer =
        .err error := by
  obtain ⟨_, _, stop, _, _, halignment', hplaced, _, _, _, hle, hlt⟩ := buildLayout_eq_ok hlayout
  obtain rfl := ok.inj (halignment.symm.trans halignment')
  have hpos := metadataAlignment_pos halignment
  rw [new, hlayout, mapErr_ok, ok_bind]
  obtain ⟨middle, hok, hmiddle⟩ | ⟨hfail, error, _, herr⟩ :=
    writeAllBounded_attempts hwrite (le_refl layout.header.length) front writer hholds
  · rw [hok]
    dsimp only
    have hsettles : Settles mayFail (do
        padTo destination layout.tensorDataOffset
        prepareNextTensor destination (tensors.map TensorOut.spec).length)
        ⟨middle, (tensors.map TensorOut.spec).map GgufTensorSpec.dataLen, layout.offsets,
          layout.tensorDataOffset, layout.header.length, 0, 0, false⟩ fun after =>
        after.tensorLengths = (tensors.map TensorOut.spec).map GgufTensorSpec.dataLen ∧
        Accounted (fun _ => 0) after ∧ Awaits holds alignment stop 0 tensors (front ++
          (Gguf.padTo layout.header layout.tensorDataOffset ++ payloadBytes alignment 0 tensors))
          after := by
      refine Settles.bind (padTo_settles hwrite hmiddle hle) ?_
      rintro _ ⟨last, hlast, rfl⟩
      have hturns : tensors.length ≤ (tensors.map TensorOut.spec).length := by rw [length_map]
      refine Settles.mono (prepareNextTensor_settles hwrite hpos hturns
        ⟨rfl, Nat.zero_le _, by rw [map_map]; rfl, hplaced, hlt⟩ rfl rfl hlast) ?_
      rintro after ⟨hlengths, haccounted, hawaits⟩
      refine ⟨hlengths, haccounted _ fun index => (getD_concat_zero [] index).symm, ?_⟩
      rw [Gguf.padTo, ← append_assoc, ← append_assoc]
      exact hawaits
    obtain ⟨stream, hcall, hstream⟩ | ⟨hfail, error, _, hcall, _⟩ := hsettles
    · rw [hcall]
      exact .inl ⟨stream, stop, rfl, hstream⟩
    · rw [hcall]
      exact .inr ⟨hfail, _, rfl⟩
  · rw [herr]
    exact .inr ⟨hfail, _, rfl⟩

section Split

variable (hwrite : ∀ bytes, Attempts False holds (destination.writeAll bytes) bytes)
  (hpos : 0 < alignment)

theorem Awaits.due (hawaits : Awaits holds alignment stop index (tensor :: later) total stream) :
    Due holds alignment stop index tensor.data later total stream := by
  obtain ⟨skipped, rest, start, output, hlater, hskipped, hindex, hwritten, hstage, hat, hrest⟩ :=
    hawaits
  cases skipped with
  | nil =>
    obtain rfl := hlater
    have hdata : tensor.data ≠ [] := ne_nil_of_length_pos (Nat.zero_lt_of_lt hat.1)
    rw [Due, if_neg hdata]
    rw [← hwritten] at hrest
    exact ⟨hindex, tensor, start, output, by rw [hwritten, drop_zero], hstage, hat, hrest⟩
  | cons first skipped =>
    obtain ⟨rfl, rfl⟩ := cons.inj hlater
    obtain ⟨hdata, hskipped⟩ := forall_mem_cons.mp hskipped
    rw [Due, if_pos hdata]
    refine ⟨skipped, rest, start, output, rfl, hskipped, ?_, hwritten, hstage, hat, hrest⟩
    rw [hindex, length_cons]
    omega

include hwrite hpos

/-- A chunk of the bytes that are due is accepted, and without any due it is refused. -/
theorem send_due {left : List UInt8}
    (hdue : Due holds alignment stop index (chunk ++ left) later total stream) :
    Due holds alignment stop index left later total (send destination (index, chunk) stream).2 ∧
      ((send destination (index, chunk) stream).1 = .ok () ↔ chunk ++ left ≠ []) := by
  rw [Due] at hdue
  by_cases hempty : chunk ++ left = []
  · rw [if_pos hempty] at hdue
    obtain ⟨skipped, _, _, _, _, _, _, _⟩ := id hdue
    obtain ⟨_, hnext, _⟩ | ⟨answer, hrefused, hne, _⟩ :=
      writeTensorChunk_cases destination index chunk stream
    · omega
    · rw [send, hrefused, Due, if_pos (append_eq_nil_iff.mp hempty).2]
      exact ⟨hdue, iff_of_false hne (not_ne_iff.mpr hempty)⟩
  · rw [if_neg hempty] at hdue
    obtain ⟨rfl, tensor, start, output, hleft, hstage, hat, hholds, rfl⟩ := hdue
    have hlength := congrArg length hleft
    rw [length_drop, length_append] at hlength
    have hfits : stream.tensorWritten + chunk.length ≤ tensor.data.length := by
      have := hat.1
      omega
    obtain ⟨after, hok, _, _, hpost⟩ | ⟨hfalse, _⟩ :=
      acceptChunk_settles hwrite hpos hstage hat hholds hfits
    · rw [send, writeTensorChunk_of_fits hstage hfits, hok]
      refine ⟨?_, iff_of_true rfl hempty⟩
      have hpending : (pendingBytes alignment start stream.tensorWritten (tensor :: later)) =
          chunk ++ (pendingBytes alignment start stream.tensorWritten
            (tensor :: later)).drop chunk.length := by
        simp [pendingBytes, hleft]
      rw [← drop_drop, hleft, drop_left] at hpost
      rw [hpending, ← append_assoc]
      exact hpost
    · exact hfalse.elim

/-- The chunks of one tensor are all accepted just if the last one has any bytes. -/
theorem run_chunks {chunks : List (List UInt8)}
    (hdue : Due holds alignment stop index chunks.flatten later total stream) :
    Awaits holds alignment stop (index + 1) later total
        (Stateful.reached (send destination) (chunks.map (index, ·)) stream) ∧
      ((∀ answer ∈ Stateful.answers (send destination) (chunks.map (index, ·)) stream,
        answer = .ok ()) ↔ chunks.getLast? ≠ some []) := by
  induction chunks generalizing stream with
  | nil => exact ⟨hdue, by simp [Stateful.answers]⟩
  | cons chunk chunks ih =>
    obtain ⟨hnext, hanswer⟩ := send_due hwrite hpos hdue
    obtain ⟨hawaits, hanswers⟩ := ih hnext
    refine ⟨hawaits, ?_⟩
    rw [map_cons, Stateful.answers, forall_mem_cons, hanswers, hanswer]
    cases chunks with
    | nil => simp
    | cons second chunks =>
      refine and_iff_right_of_imp fun hlast hnil => hlast ?_
      exact congrArg some
        (flatten_eq_nil_iff.mp (append_eq_nil_iff.mp hnil).2 _ (getLast_mem _))

/-- The calls for the chunks of all tensors, in declared order. -/
def chunkCalls (first : ℕ) (pieces : List (List (List UInt8))) : List (ℕ × List UInt8) :=
  (pieces.zipIdx first).flatMap fun entry => entry.1.map fun chunk => (entry.2, chunk)

theorem run_chunkCalls {first : ℕ} (hpieces : pieces.map flatten = tensors.map TensorOut.data)
    (hawaits : Awaits holds alignment stop first tensors total stream) :
    Awaits holds alignment stop (first + tensors.length) [] total
        (Stateful.reached (send destination) (chunkCalls first pieces) stream) ∧
      ((∀ answer ∈ Stateful.answers (send destination) (chunkCalls first pieces) stream,
        answer = .ok ()) ↔ ∀ chunks ∈ pieces, chunks.getLast? ≠ some []) := by
  induction pieces generalizing first tensors stream with
  | nil =>
    obtain rfl := map_eq_nil_iff.mp hpieces.symm
    exact ⟨hawaits, by simp [chunkCalls, Stateful.answers]⟩
  | cons chunks pieces ih =>
    obtain ⟨tensor, later, rfl, hchunks, hpieces⟩ := map_eq_cons_iff.mp hpieces.symm
    have hdue := hawaits.due
    rw [hchunks] at hdue
    obtain ⟨hnext, hanswers⟩ := run_chunks hwrite hpos hdue
    obtain ⟨hlast, hrest⟩ := ih hpieces.symm hnext
    rw [add_assoc, add_comm 1] at hlast
    rw [chunkCalls, zipIdx_cons, flatMap_cons, Stateful.answers_append, forall_mem_append,
      forall_mem_cons, Stateful.reached, foldl_append]
    exact ⟨hlast, and_congr hanswers hrest⟩

end Split

/-! ### What the tensors have received -/

variable (destination) in
/-- The bytes of one tensor among those that a call has handed on. -/
def acceptedBytes (call : ℕ × List UInt8) (stream : GgufStreamWriter σ) (index : ℕ) : ℕ :=
  match (send destination call stream).1 with
  | .ok () => if index = call.1 then call.2.length else 0
  | _ => 0

variable (destination) in
def receivedBytes (index : ℕ) : List (ℕ × List UInt8) → GgufStreamWriter σ → ℕ
  | [], _ => 0
  | call :: calls, stream => acceptedBytes destination call stream index +
      receivedBytes index calls (send destination call stream).2

/-- The stream is poisoned, or knows what every tensor has received. -/
def Live (alignment stop : ℕ) (lengths : List ℕ) (received : ℕ → ℕ) (stream : GgufStreamWriter σ) :
    Prop :=
  stream.poisoned = true ∨ stream.tensorLengths = lengths ∧ Accounted received stream ∧
    ∃ start rest, Stage alignment stop start rest stream ∧ AtTensor alignment start rest stream

/-- Nothing is said about what the destination has taken. -/
def AnyOutput (_ : List UInt8) (_ : σ) : Prop := True

theorem attempts_any (bytes : List UInt8) :
    Attempts True AnyOutput (destination.writeAll bytes) bytes := by
  intro output writer _
  cases hcall : destination.writeAll bytes writer with
  | mk answer after =>
    cases answer with
    | ok value => exact .inl ⟨after, rfl, trivial⟩
    | error error => exact .inr ⟨trivial, error, after, rfl⟩

variable (destination) in
theorem Live.send (hpos : 0 < alignment) {lengths : List ℕ}
    (hlive : Live alignment stop lengths received stream) (call : ℕ × List UInt8) :
    Live alignment stop lengths
      (fun index => received index + acceptedBytes destination call stream index)
      (send destination call stream).2 := by
  unfold acceptedBytes
  obtain hpoisoned | ⟨hlengths, hreceived, start, rest, hstage, hat⟩ := hlive
  · left
    have hrun := (poisoned_run destination hpoisoned [call]).2
    exact (congrArg GgufStreamWriter.poisoned hrun).trans hpoisoned
  · obtain ⟨expected, hindex, hexpected, hchunk, haccept⟩ | ⟨answer, hrefused, hne, _⟩ :=
      writeTensorChunk_cases destination call.1 call.2 stream
    · rw [hindex] at hexpected
      obtain ⟨tensor, later, rfl, rfl⟩ := hstage.exists_next hexpected
      rw [GgufStreamWriter.send, haccept, hindex]
      have hany : AnyOutput [] stream.writer := trivial
      obtain ⟨after, hok, hsame, haccounted, hpost⟩ | ⟨_, error, after, herr, hpoisoned⟩ :=
        acceptChunk_settles attempts_any hpos hstage hat hany hchunk
      · rw [hok]
        refine .inr ⟨hsame.trans hlengths, haccounted received hreceived, ?_⟩
        rw [Due] at hpost
        split_ifs at hpost
        · obtain ⟨_, rest, start, _, _, _, _, _, hstage, hat, _⟩ := hpost
          exact ⟨start, rest, hstage, hat⟩
        · obtain ⟨_, tensor, start, _, _, hstage, hat, _⟩ := hpost
          exact ⟨start, _, hstage, hat⟩
      · rw [herr]
        exact .inl hpoisoned
    · rw [GgufStreamWriter.send, hrefused]
      cases answer with
      | ok _ => exact absurd rfl hne
      | err _ => exact .inr ⟨hlengths, hreceived, start, rest, hstage, hat⟩
      | panic => exact .inr ⟨hlengths, hreceived, start, rest, hstage, hat⟩

variable (destination) in
theorem Live.run (hpos : 0 < alignment) {lengths : List ℕ}
    (hlive : Live alignment stop lengths received stream) (calls : List (ℕ × List UInt8)) :
    Live alignment stop lengths
      (fun index => received index + receivedBytes destination index calls stream)
      (Stateful.reached (GgufStreamWriter.send destination) calls stream) := by
  induction calls generalizing received stream with
  | nil => exact hlive
  | cons call calls ih =>
    have hrest := ih (hlive.send destination hpos call)
    simp only [add_assoc] at hrest
    exact hrest

theorem Live.complete {lengths : List ℕ} {final : σ}
    (hlive : Live alignment stop lengths received stream)
    (hfinish : finish destination stream = .ok final) (index : ℕ) :
    received index = lengths.getD index 0 := by
  rw [finish, refuse_eq_ok_iff] at hfinish
  obtain ⟨hclean, hfinish⟩ := hfinish
  obtain hpoisoned | ⟨rfl, hreceived, start, rest, hstage, hat⟩ := hlive
  · exact absurd hpoisoned hclean
  · cases rest with
    | nil =>
      have hwritten : stream.tensorWritten = 0 := hat
      rw [hreceived index, hstage.next_eq, take_length, hwritten, getD_concat_zero]
    | cons tensor later =>
      obtain ⟨hnext, hlength, _⟩ := hstage.next_lt
      rw [if_pos hnext, index_eq_ok_iff.mpr hlength] at hfinish
      cases hfinish

/-! ### The stream writer and the batch writer -/

/-- The destination takes all bytes, and a flush loses none of them. -/
structure Reliable (destination : Destination σ ι) (holds : List UInt8 → σ → Prop) : Prop where
  writeAll : ∀ bytes output writer, holds output writer →
    ∃ after, destination.writeAll bytes writer = (.ok (), after) ∧ holds (output ++ bytes) after
  flush : ∀ output writer, holds output writer →
    ∃ after, destination.flush writer = (.ok (), after) ∧ holds output after

theorem Awaits.finish (hreliable : Reliable destination holds)
    (hawaits : Awaits holds alignment stop index [] total stream) :
    ∃ final, GgufStreamWriter.finish destination stream = .ok final ∧ holds total final := by
  obtain ⟨skipped, rest, start, output, hrest, _, _, _, hstage, _, hholds, rfl⟩ := hawaits
  obtain ⟨_, rfl⟩ := append_eq_nil_iff.mp hrest.symm
  obtain ⟨final, hflush, _⟩ := hreliable.flush output stream.writer hholds
  refine ⟨final, ?_, by rwa [pendingBytes, append_nil]⟩
  rw [GgufStreamWriter.finish, if_neg (by rw [hstage.clean]; decide),
    if_neg (by rw [hstage.next_eq]; omega), hflush]

/-- The errors of a call that is refused for its tensor or its length. -/
def Refusal : GgufWriteError ι → Prop
  | .tensorOutOfOrder _ _ => True
  | .streamComplete _ => True
  | .tensorTooLong _ _ _ => True
  | _ => False

theorem stream_emits (hreliable : Reliable destination holds)
    (hbatch : writeGguf version metadata tensors = .ok bytes) (hholds : holds front writer)
    (hpieces : pieces.map flatten = tensors.map TensorOut.data) :
    ∃ stream, new destination version metadata (tensors.map TensorOut.spec) writer = .ok stream ∧
      (∃ final, GgufStreamWriter.finish destination
          (Stateful.reached (send destination) (chunkCalls 0 pieces) stream) = .ok final ∧
        holds (front ++ bytes) final) ∧
      ((∀ answer ∈ Stateful.answers (send destination) (chunkCalls 0 pieces) stream,
        answer = .ok ()) ↔ ∀ chunks ∈ pieces, chunks.getLast? ≠ some []) := by
  have hwrite : ∀ bytes, Attempts False holds (destination.writeAll bytes) bytes :=
    fun bytes output writer hholds => .inl (hreliable.writeAll bytes output writer hholds)
  obtain ⟨layout, alignment, hlayout, halignment, rfl⟩ := writeGguf_eq_ok hbatch
  obtain ⟨stream, stop, hnew, _, _, hawaits⟩ | ⟨hfalse, _⟩ :=
    new_settles hwrite hlayout halignment hholds
  · obtain ⟨hlast, hanswers⟩ :=
      run_chunkCalls hwrite (metadataAlignment_pos halignment) hpieces hawaits
    exact ⟨stream, hnew, hlast.finish hreliable, hanswers⟩
  · exact hfalse.elim

theorem stream_complete {tensors : List GgufTensorSpec} {final : σ}
    (hnew : new destination version metadata tensors writer = .ok stream)
    {calls : List (ℕ × List UInt8)}
    (hfinish : GgufStreamWriter.finish destination
      (Stateful.reached (send destination) calls stream) = .ok final)
    (index : ℕ) :
    receivedBytes destination index calls stream =
      (tensors.map GgufTensorSpec.dataLen).getD index 0 := by
  -- the contents do not matter here, so the tensors are taken to be zeros
  obtain ⟨payloads, rfl⟩ : ∃ payloads : List TensorOut, payloads.map TensorOut.spec = tensors := by
    refine ⟨tensors.map fun tensor =>
      ⟨tensor.name, tensor.dims, tensor.ggmlType, replicate tensor.dataLen 0⟩, ?_⟩
    simp [TensorOut.spec, Function.comp_def]
  obtain ⟨layout, hlayout, _⟩ := bind_eq_ok hnew
  have hlayout := mapErr_eq_ok_iff.mp hlayout
  obtain ⟨_, alignment, _, _, _, halignment, _⟩ := buildLayout_eq_ok hlayout
  have hany : AnyOutput [] writer := trivial
  obtain ⟨_, stop, hopened, hlengths, hreceived, hawaits⟩ | ⟨_, error, herr⟩ :=
    new_settles attempts_any hlayout halignment hany
  · obtain rfl := ok.inj (hopened.symm.trans hnew)
    obtain ⟨_, rest, start, _, _, _, _, _, hstage, hat, _⟩ := hawaits
    have hlive := Live.run destination (metadataAlignment_pos halignment)
      (.inr ⟨hlengths, hreceived, start, rest, hstage, hat⟩) calls
    have hcomplete := hlive.complete hfinish index
    rwa [zero_add] at hcomplete
  · rw [hnew] at herr
    cases herr

/-- **The stream writer.** On a destination that takes everything, every split of the payloads into
chunks gives the bytes of the batch writer, and all calls succeed just if no tensor ends with an
empty chunk. On any destination the writer finishes only if every tensor has all its bytes, a
refused call has no effect, and nothing succeeds after a failure of the destination. -/
theorem ggufStreamWriter_agrees (destination : Destination σ ι) :
    (∀ holds, Reliable destination holds → ∀ version metadata tensors bytes front writer pieces,
      writeGguf version metadata tensors = .ok bytes → holds front writer →
      pieces.map flatten = tensors.map TensorOut.data →
      ∃ stream, new destination version metadata (tensors.map TensorOut.spec) writer = .ok stream ∧
        (∃ final, finish destination
            (Stateful.reached (send destination) (chunkCalls 0 pieces) stream) = .ok final ∧
          holds (front ++ bytes) final) ∧
        ((∀ answer ∈ Stateful.answers (send destination) (chunkCalls 0 pieces) stream,
          answer = .ok ()) ↔ ∀ chunks ∈ pieces, chunks.getLast? ≠ some [])) ∧
    (∀ version metadata tensors writer stream calls final,
      new destination version metadata tensors writer = .ok stream →
      finish destination (Stateful.reached (send destination) calls stream) = .ok final →
      ∀ index, receivedBytes destination index calls stream =
        (tensors.map GgufTensorSpec.dataLen).getD index 0) ∧
    (∀ stream call error after, send destination call stream = (.err error, after) →
      Refusal error → after = stream) ∧
    ∀ stream call cause after, send destination call stream = (.err (.io cause), after) →
      ∀ calls, (∀ answer ∈ Stateful.answers (send destination) calls after,
          answer = .err .poisoned) ∧
        finish destination (Stateful.reached (send destination) calls after) = .err .poisoned := by
  refine ⟨fun holds hreliable version metadata tensors bytes front writer pieces hbatch hholds
    hpieces => stream_emits hreliable hbatch hholds hpieces,
    fun version metadata tensors writer stream calls final hnew hfinish index =>
      stream_complete hnew hfinish index, ?_, ?_⟩
  · intro stream call error after herr hrefusal
    obtain ⟨hsame, _⟩ | ⟨_, rfl⟩ | ⟨⟨_, rfl⟩, _⟩ := writeTensorChunk_err herr
    · exact hsame
    · exact hrefusal.elim
    · exact hrefusal.elim
  · intro stream call cause after herr calls
    obtain ⟨_, hne⟩ | ⟨_, heq⟩ | ⟨_, hpoisoned⟩ := writeTensorChunk_err herr
    · exact absurd rfl (hne cause)
    · cases heq
    · obtain ⟨hanswers, hreached⟩ := poisoned_run destination hpoisoned calls
      rw [hreached, finish, if_pos hpoisoned]
      exact ⟨hanswers, rfl⟩

/-- `Vec<u8>` -/
def vecDestination : Destination (List UInt8) Empty where
  writeAll bytes out := (.ok (), out ++ bytes)
  flush out := (.ok (), out)

theorem vecDestination_reliable : Reliable vecDestination fun output out => out = output where
  writeAll bytes output out hholds := ⟨out ++ bytes, rfl, by rw [hholds]⟩
  flush output out hholds := ⟨out, rfl, hholds⟩

/-- The four bytes of a tensor come in three chunks, one of them empty. -/
theorem ggufStreamWriter_agrees_vec :
    writeGguf 3 alignedMetadata [scalarTensor] = .ok alignedFile ∧
      ∃ stream, new vecDestination 3 alignedMetadata [scalarTensor.spec] [] = .ok stream ∧
        finish vecDestination (Stateful.reached (send vecDestination)
          (chunkCalls 0 [[[1, 2], [], [3, 4]]]) stream) = .ok alignedFile := by
  have hbatch : writeGguf 3 alignedMetadata [scalarTensor] = .ok alignedFile := by decide +kernel
  obtain ⟨stream, hnew, ⟨_, hfinish, rfl⟩, _⟩ := (ggufStreamWriter_agrees vecDestination).1 _
    vecDestination_reliable 3 alignedMetadata [scalarTensor] alignedFile [] []
    [[[1, 2], [], [3, 4]]] hbatch rfl rfl
  exact ⟨hbatch, stream, hnew, hfinish⟩

set_option maxRecDepth 8000 in
/-- An empty chunk behind the last byte of its tensor is refused. -/
theorem send_trailing_empty :
    ∃ stream, new vecDestination 3 ∅ [scalarTensor.spec] [] = .ok stream ∧
      Stateful.answers (send vecDestination) (chunkCalls 0 [[[1, 2, 3, 4], []]]) stream =
        [.ok (), .err (.streamComplete 0)] :=
  ⟨_, rfl, rfl⟩

end GgufStreamWriter

end Tritium.Gguf
