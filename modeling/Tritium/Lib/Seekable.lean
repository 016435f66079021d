import Tritium.Lib.Bytes
import Tritium.Lib.Stateful

/-!
# Seekable sources

A source is a state with three calls. It serves a byte string when every call answers as the bytes
say, from every state a call can leave behind; nothing is asked of calls past the end.
-/

namespace Tritium

open List

section Windows

/-- `while position < stop`, in windows of at most `limit` units. Every turn moves on, so
`stop - position` turns reach the end. -/
def foldWindows {m : Type → Type} [Monad m] {α : Type} (limit : ℕ) (body : α → ℕ → ℕ → m α) :
    ℕ → α → ℕ → ℕ → m α
  | 0, value, _, _ => pure value
  | turns + 1, value, position, stop =>
    if position < stop then do
      let value ← body value position (min (stop - position) limit)
      foldWindows limit body turns value (position + min (stop - position) limit) stop
    else
      pure value

variable {σ ε α β : Type} {limit stop : ℕ} {body : α → ℕ → ℕ → Stateful σ ε α}
  {body' : α → ℕ → ℕ → Outcome ε α}

/-- An invariant that every window keeps holds at the end, and no window fails on the way. -/
theorem foldWindows_ok {invariant : ℕ → α → σ → Prop} (hlimit : 0 < limit)
    (hbody : ∀ position value state, position < stop → invariant position value state →
      ∃ value' after,
        body value position (min (stop - position) limit) state = (.ok value', after) ∧
        invariant (position + min (stop - position) limit) value' after) {turns position : ℕ}
    {value : α} {state : σ} (hturns : stop - position ≤ turns) (hposition : position ≤ stop)
    (hstate : invariant position value state) :
    ∃ value' after, foldWindows limit body turns value position stop state = (.ok value', after) ∧
      invariant stop value' after := by
  induction turns generalizing position value state with
  | zero =>
    obtain rfl : position = stop := by omega
    exact ⟨value, state, rfl, hstate⟩
  | succ turns ih =>
    rw [foldWindows]
    by_cases hlt : position < stop
    · obtain ⟨next, middle, hstep, hmiddle⟩ := hbody position value state hlt hstate
      rw [if_pos hlt, bind_apply_ok hstep]
      exact ih (by omega) (by omega) hmiddle
    · obtain rfl : position = stop := by omega
      rw [if_neg hlt]
      exact ⟨value, state, rfl, hstate⟩

/-- A loop whose windows answer like pure ones, and leave the state at their ends. -/
theorem foldWindows_implements {stands : ℕ → σ → Prop}
    (hbody : ∀ value position state, position < stop → stands position state →
      (body value position (min (stop - position) limit) state).1 =
        body' value position (min (stop - position) limit) ∧
      stands (position + min (stop - position) limit)
        (body value position (min (stop - position) limit) state).2) (turns : ℕ) {value : α}
    {position : ℕ} {state : σ} (hstate : stands position state) :
    (foldWindows limit body turns value position stop state).1 =
        foldWindows limit body' turns value position stop ∧
      ∃ reached, stands reached (foldWindows limit body turns value position stop state).2 := by
  induction turns generalizing value position state with
  | zero => exact ⟨rfl, position, hstate⟩
  | succ turns ih =>
    rw [foldWindows, foldWindows]
    by_cases hlt : position < stop
    · rw [if_pos hlt, if_pos hlt]
      obtain ⟨hanswer, hafter⟩ := hbody value position state hlt hstate
      cases hcall : body value position (min (stop - position) limit) state with
      | mk answer after =>
        rw [hcall] at hanswer hafter
        rw [← hanswer]
        cases answer with
        | ok next =>
          rw [bind_apply_ok hcall]
          exact ih hafter
        | err error =>
          rw [bind_apply_err hcall]
          exact ⟨rfl, _, hafter⟩
        | panic =>
          rw [Stateful.bind_apply_panic hcall]
          exact ⟨rfl, _, hafter⟩
    · rw [if_neg hlt, if_neg hlt]
      exact ⟨rfl, position, hstate⟩

theorem Stateful.Implements.foldWindows {invariant : σ → Prop}
    (hbody : ∀ value position, position < stop →
      Stateful.Implements invariant (body value position (min (stop - position) limit))
        (body' value position (min (stop - position) limit))) (turns : ℕ) (value : α)
    (position : ℕ) :
    Stateful.Implements invariant (Tritium.foldWindows limit body turns value position stop)
      (Tritium.foldWindows limit body' turns value position stop) := by
  intro state hstate
  obtain ⟨hanswer, _, hafter⟩ := @foldWindows_implements _ _ _ _ _ _ _ (fun _ => invariant)
    (fun value position state hlt => hbody value position hlt state) turns value position state
    hstate
  exact ⟨hanswer, hafter⟩

/-- The windows of a byte string, one after the other. -/
def visitChunks {β : Type} (limit : ℕ) (visit : α → List β → Outcome ε α) (value : α)
    (items : List β) : Outcome ε α :=
  foldWindows limit (fun value position count => visit value ((items.drop position).take count))
    items.length value 0 items.length

section

variable (hlimit : 0 < limit)

include hlimit

/-- A visitor that only looks at what it was given altogether. -/
theorem visitChunks_eq_ok {visit : α → List β → Outcome ε α} (total : List β → α)
    (hvisit : ∀ seen chunk, visit (total seen) chunk = .ok (total (seen ++ chunk))) (items : List β)
    : visitChunks limit visit (total []) items = .ok (total items) := by
  have hloop : ∀ turns position, items.length - position ≤ turns →
      foldWindows limit (fun value position count => visit value ((items.drop position).take count))
        turns (total (items.take position)) position items.length = .ok (total items) := by
    intro turns
    induction turns with
    | zero =>
      intro position hturns
      rw [take_of_length_le (by omega)]
      rfl
    | succ turns ih =>
      intro position hturns
      rw [foldWindows]
      by_cases hlt : position < items.length
      · rw [if_pos hlt, hvisit, ← take_add]
        exact ih _ (by omega)
      · rw [if_neg hlt, take_of_length_le (by omega)]
        rfl
  exact hloop items.length 0 (by omega)

/-- The windows as a list. Where a width divides the bound and the items, it divides every window. -/
theorem exists_windows {width : ℕ} (hwidth : width ∣ limit) (items : List β) {turns position : ℕ}
    (hturns : items.length - position ≤ turns) (hrest : width ∣ items.length - position) :
    ∃ chunks : List (List β), chunks.flatten = items.drop position ∧
      (∀ chunk ∈ chunks, 0 < chunk.length ∧ chunk.length ≤ limit ∧ width ∣ chunk.length) ∧
      ∀ {α ε : Type} (visit : α → List β → Outcome ε α) (value : α),
        foldWindows limit (fun value position count => visit value ((items.drop position).take count))
          turns value position items.length = chunks.foldlM visit value := by
  induction turns generalizing position with
  | zero =>
    refine ⟨[], ?_, by simp, fun visit value => rfl⟩
    rw [drop_of_length_le (by omega), flatten_nil]
  | succ turns ih =>
    by_cases hlt : position < items.length
    · generalize hcount : min (items.length - position) limit = count
      have hdivides : width ∣ count := by
        rcases min_choice (items.length - position) limit with _ | _ <;> grind
      obtain ⟨chunks, hflatten, hchunks, hfold⟩ := @ih (position + count) (by omega) (by
        rw [← Nat.sub_sub]
        exact Nat.dvd_sub hrest hdivides)
      refine ⟨(items.drop position).take count :: chunks, ?_, ?_, fun visit value => ?_⟩
      · rw [flatten_cons, hflatten, ← drop_drop, take_append_drop]
      · have hlength : ((items.drop position).take count).length = count := by
          rw [length_take, length_drop]
          omega
        refine forall_mem_cons.mpr ⟨?_, hchunks⟩
        rw [hlength]
        omega
      · rw [foldWindows, if_pos hlt, hcount]
        exact bind_congr fun next => hfold visit next
    · refine ⟨[], ?_, by simp, fun visit value => ?_⟩
      · rw [drop_of_length_le (by omega), flatten_nil]
      · rw [foldWindows, if_neg hlt, foldlM_nil]

theorem exists_chunks {width : ℕ} (hwidth : width ∣ limit) {items : List β}
    (hitems : width ∣ items.length) :
    ∃ chunks : List (List β), chunks.flatten = items ∧
      (∀ chunk ∈ chunks, 0 < chunk.length ∧ chunk.length ≤ limit ∧ width ∣ chunk.length) ∧
      ∀ {α ε : Type} (visit : α → List β → Outcome ε α) (value : α),
        visitChunks limit visit value items = chunks.foldlM visit value :=
  @exists_windows _ _ hlimit _ hwidth items _ 0 le_rfl hitems

end

end Windows

/-- `Read + Seek`. -/
structure Seekable (σ ι : Type) where
  /-- `seek(SeekFrom::End(0))`, with the position it returns. -/
  seekEnd : Stateful σ ι ℕ
  /-- `seek(SeekFrom::Start(position))`, with the position it returns. -/
  seekStart : ℕ → Stateful σ ι ℕ
  /-- `read_exact` into a buffer of the given length. -/
  readExact : ℕ → Stateful σ ι (List UInt8)

namespace Seekable

variable {σ τ ι : Type} {stands : ℕ → σ → Prop}

/-- The source serves the content; `stands position state` says where a state of it stands. -/
structure Serves (source : Seekable σ ι) (content : List UInt8) (stands : ℕ → σ → Prop) :
    Prop where
  seekEnd {position : ℕ} {state : σ} (hstate : stands position state) :
    ∃ after, source.seekEnd state = (.ok content.length, after) ∧ stands content.length after
  seekStart {position target : ℕ} {state : σ} (hstate : stands position state)
    (htarget : target ≤ content.length) :
    ∃ after, source.seekStart target state = (.ok target, after) ∧ stands target after
  readExact {position count : ℕ} {state : σ} {bytes : List UInt8} (hstate : stands position state)
    (hbytes : subslice content position (position + count) = some bytes) :
    ∃ after, source.readExact count state = (.ok bytes, after) ∧ stands (position + count) after

/-- The source serves its content from the state on. -/
def Ready (stands : ℕ → σ → Prop) (state : σ) : Prop := ∃ position, stands position state

/-! ### Sequential reading

A call parses a piece of the content to a value when, from in front of the piece, it returns the
value and leaves the source behind the piece.
-/

section Parsing

variable {ε α β : Type} {content piece : List UInt8} {stands : ℕ → σ → Prop} {x : Stateful σ ε α}
  {value : α}

def Parses (content : List UInt8) (stands : ℕ → σ → Prop) (x : Stateful σ ε α)
    (piece : List UInt8) (value : α) : Prop :=
  ∀ before after state, content = before ++ (piece ++ after) → stands before.length state →
    ∃ next, x state = (.ok value, next) ∧ stands (before ++ piece).length next

theorem Parses.lift (value : α) :
    Parses content stands (lift (.ok value) : Stateful σ ε α) [] value := by
  intro before after state _ hstate
  exact ⟨state, rfl, by rwa [append_nil]⟩

theorem Parses.bind {rest : α → Stateful σ ε β} {first second : List UInt8} {result : β}
    (hx : Parses content stands x first value)
    (hrest : Parses content stands (rest value) second result) :
    Parses content stands (x >>= rest) (first ++ second) result := by
  intro before after state hcontent hstate
  rw [append_assoc] at hcontent
  obtain ⟨middle, hfirst, hmiddle⟩ := hx before _ state hcontent hstate
  rw [← append_assoc] at hcontent
  obtain ⟨next, hsecond, _⟩ := hrest _ after middle hcontent hmiddle
  refine ⟨next, ?_, by rwa [← append_assoc]⟩
  rw [bind_apply_ok hfirst, hsecond]

theorem Parses.map (hx : Parses content stands x piece value) (f : α → β) :
    Parses content stands (x >>= fun value => pure (f value)) piece (f value) := by
  rw [← append_nil piece]
  exact hx.bind (Parses.lift (f value))

theorem Parses.mapErr {ε' : Type} (hx : Parses content stands x piece value)
    (f : ε → ε') : Parses content stands (x.mapErr f) piece value := by
  intro before after state hcontent hstate
  obtain ⟨next, hcall, hnext⟩ := hx before after state hcontent hstate
  exact ⟨next, mapErr_apply_ok hcall f, hnext⟩

theorem Serves.parses {source : Seekable σ ι} (hserves : source.Serves content stands)
    (piece : List UInt8) : Parses content stands (source.readExact piece.length) piece piece := by
  intro before after state hcontent hstate
  rw [length_append]
  apply hserves.readExact hstate
  rw [hcontent, ← append_assoc]
  exact subslice_append before piece after

theorem Parses.answer (hx : Parses content stands x piece value)
    {before after : List UInt8} (hcontent : content = before ++ (piece ++ after)) {state : σ}
    (hstate : stands before.length state) : (x state).1 = .ok value ∧ Ready stands (x state).2 := by
  obtain ⟨next, hcall, hnext⟩ := hx before after state hcontent hstate
  rw [hcall]
  exact ⟨rfl, _, hnext⟩

section Loops

variable {γ : Type} {piece : γ → List UInt8} (reached : List γ → α) {items : List γ}

theorem Parses.foldlM {step : α → γ → Stateful σ ε α}
    (hstep : ∀ done item rest, done ++ item :: rest = items →
      Parses content stands (step (reached done) item) (piece item) (reached (done ++ [item]))) :
    ∀ done rest, done ++ rest = items →
      Parses content stands (rest.foldlM step (reached done)) (rest.flatMap piece)
        (reached items) := by
  intro done rest hsplit
  induction rest generalizing done with
  | nil =>
    rw [append_nil] at hsplit
    rw [← hsplit]
    exact Parses.lift _
  | cons item rest ih =>
    apply (hstep done item rest hsplit).bind
    exact ih _ (by rwa [append_assoc])

theorem Parses.timesM {step : α → Stateful σ ε α}
    (hstep : ∀ done item rest, done ++ item :: rest = items →
      Parses content stands (step (reached done)) (piece item) (reached (done ++ [item])))
    (done rest : List γ) (hsplit : done ++ rest = items) :
    Parses content stands (Tritium.timesM step rest.length (reached done)) (rest.flatMap piece)
      (reached items) := by
  rw [timesM_eq_foldlM]
  exact Parses.foldlM reached hstep done rest hsplit

end Loops

end Parsing

section Scan

variable {ε α : Type} (source : Seekable σ ι) (limit : ℕ) (fault : ι → ε)
  (visit : α → List UInt8 → Outcome ε α)

def scanWindow (value : α) (_position count : ℕ) : Stateful σ ε α := do
  let bytes ← (source.readExact count).mapErr fault
  lift (visit value bytes)

/-- Reads from where the source stands, in windows of at most `limit` bytes. -/
def scan (value : α) (count : ℕ) : Stateful σ ε α :=
  foldWindows limit (scanWindow source fault visit) count value 0 count

variable {source}

theorem Serves.scan {content : List UInt8} (hserves : source.Serves content stands) (value : α)
    {start count : ℕ} {bytes : List UInt8}
    (hbytes : subslice content start (start + count) = some bytes) {state : σ}
    (hstate : stands start state) :
    (source.scan limit fault visit value count state).1 = visitChunks limit visit value bytes ∧
      Ready stands (source.scan limit fault visit value count state).2 := by
  have hlength := add_length_of_subslice hbytes
  obtain rfl : count = bytes.length := by omega
  have hbody : ∀ value position state, position < bytes.length → stands (start + position) state →
      (scanWindow source fault visit value position (min (bytes.length - position) limit) state).1 =
        visit value ((bytes.drop position).take (min (bytes.length - position) limit)) ∧
      stands (start + (position + min (bytes.length - position) limit))
        (scanWindow source fault visit value position (min (bytes.length - position) limit)
          state).2 := by
    intro value position state hlt hstate
    generalize hcount : min (bytes.length - position) limit = count
    have hwindow := @subslice_of_subslice _ _ _ _ _ position count hbytes (by omega)
    obtain ⟨after, hread, hafter⟩ := hserves.readExact hstate hwindow
    rw [scanWindow, bind_apply_ok (mapErr_apply_ok hread _), ← add_assoc]
    exact ⟨rfl, hafter⟩
  obtain ⟨hanswer, reached, hreached⟩ := @foldWindows_implements σ ε α limit bytes.length
    (scanWindow source fault visit)
    (fun value position count => visit value ((bytes.drop position).take count))
    (fun position => stands (start + position)) hbody bytes.length value 0 state hstate
  exact ⟨hanswer, _, hreached⟩

end Scan

def left (source : Seekable σ ι) : Seekable (σ × τ) ι where
  seekEnd := Stateful.left source.seekEnd
  seekStart position := Stateful.left (source.seekStart position)
  readExact count := Stateful.left (source.readExact count)

theorem Serves.left {source : Seekable σ ι} {content : List UInt8}
    (hserves : source.Serves content stands) (kept : τ → Prop) :
    source.left.Serves content fun position state => stands position state.1 ∧ kept state.2 where
  seekEnd := by
    rintro position state ⟨hstate, hkept⟩
    obtain ⟨after, hcall, hafter⟩ := hserves.seekEnd hstate
    exact ⟨(after, state.2), left_apply hcall, hafter, hkept⟩
  seekStart := by
    rintro position target state ⟨hstate, hkept⟩ htarget
    obtain ⟨after, hcall, hafter⟩ := hserves.seekStart hstate htarget
    exact ⟨(after, state.2), left_apply hcall, hafter, hkept⟩
  readExact := by
    rintro position count state bytes ⟨hstate, hkept⟩ hbytes
    obtain ⟨after, hcall, hafter⟩ := hserves.readExact hstate hbytes
    exact ⟨(after, state.2), left_apply hcall, hafter, hkept⟩

def cursor : Seekable (List UInt8 × ℕ) Unit where
  seekEnd := fun state => (.ok state.1.length, (state.1, state.1.length))
  seekStart position := fun state => (.ok position, (state.1, position))
  readExact count := fun state =>
    match subslice state.1 state.2 (state.2 + count) with
    | some bytes => (.ok bytes, (state.1, state.2 + count))
    | none => (.err (), (state.1, state.1.length))

theorem cursor_serves (content : List UInt8) :
    cursor.Serves content fun position state => state = (content, position) where
  seekEnd := by
    rintro position _ rfl
    exact ⟨_, rfl, rfl⟩
  seekStart := by
    rintro position target _ rfl _
    exact ⟨_, rfl, rfl⟩
  readExact := by
    rintro position count _ bytes rfl hbytes
    exact ⟨_, by rw [cursor]; dsimp only; rw [hbytes], rfl⟩

end Seekable

end Tritium
