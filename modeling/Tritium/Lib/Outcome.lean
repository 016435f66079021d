import Mathlib.Data.List.Forall2
import Mathlib.Tactic.Simproc.ExistsAndEq

/-!
# Outcomes of fallible code

A call returns a value, returns one of its own errors, or panics. Keeping the panic apart from the
errors is what makes "returns" a statement: a model that reads past the end of a slice ends in
`panic` here, so a theorem that a call is `ok` also says that no index, slice or `expect` on its way
failed.
-/

namespace Tritium

open List

/-- `for _ in 0..count`, over the state that the body passes on. -/
def timesM {m : Type → Type} [Monad m] {σ : Type} (step : σ → m σ) : ℕ → σ → m σ
  | 0, state => pure state
  | count + 1, state => do
    let state ← step state
    timesM step count state

theorem timesM_eq_foldlM {m : Type → Type} [Monad m] {σ α : Type} (step : σ → m σ) (items : List α)
    (state : σ) :
    timesM step items.length state = items.foldlM (fun state _ => step state) state := by
  induction items generalizing state with
  | nil => rfl
  | cons _ items ih => simp only [length_cons, timesM, foldlM_cons, ih]

section Forall₂

variable {α β : Type} {R : α → β → Prop}

theorem exists_mem_of_forall₂ {left : List α} {right : List β} (hitems : Forall₂ R left right)
    {item' : β} (hitem : item' ∈ right) : ∃ item ∈ left, R item item' := by
  obtain ⟨position, hposition, rfl⟩ := getElem_of_mem hitem
  obtain ⟨hlength, hget⟩ := forall₂_iff_get.mp hitems
  exact ⟨_, getElem_mem (hlength ▸ hposition), hget position _ hposition⟩

theorem exists_forall₂_iff (left : List α) :
    (∃ right, Forall₂ R left right) ↔ ∀ item ∈ left, ∃ item', R item item' := by
  induction left with
  | nil => exact iff_of_true ⟨[], .nil⟩ (forall_mem_nil _)
  | cons item left ih =>
    rw [forall_mem_cons, ← ih]
    constructor
    · rintro ⟨_, _ | ⟨hitem, hleft⟩⟩
      exact ⟨⟨_, hitem⟩, ⟨_, hleft⟩⟩
    · rintro ⟨⟨item', hitem⟩, ⟨right, hleft⟩⟩
      exact ⟨item' :: right, .cons hitem hleft⟩

end Forall₂

inductive Outcome (ε α : Type) where
  | ok (value : α)
  | err (error : ε)
  | panic
deriving DecidableEq, Repr

namespace Outcome

variable {ε α β γ : Type} {x : Outcome ε α} {next f : α → Outcome ε β} {result state : β}
  {condition : Prop} {error : ε} {value : α} {step : β → α → Outcome ε β} {items : List α}
  {results : List β} {post : α → Prop} {ε' : Type} {position : Nat}

def bind (x : Outcome ε α) (next : α → Outcome ε β) : Outcome ε β :=
  match x with
  | ok value => next value
  | err error => err error
  | panic => panic

instance : Monad (Outcome ε) where
  pure := ok
  bind := bind

@[simp]
theorem pure_eq_ok (value : α) : (pure value : Outcome ε α) = ok value := rfl

@[simp]
theorem ok_bind (value : α) (next : α → Outcome ε β) : (ok value >>= next) = next value := rfl

@[simp]
theorem err_bind (error : ε) (next : α → Outcome ε β) :
    ((err error : Outcome ε α) >>= next) = err error := rfl

@[simp]
theorem panic_bind (next : α → Outcome ε β) : ((panic : Outcome ε α) >>= next) = panic := rfl

instance : LawfulMonad (Outcome ε) :=
  LawfulMonad.mk' (Outcome ε)
    (fun x => by cases x <;> rfl) (fun _ _ => rfl) (fun x _ _ => by cases x <;> rfl)

@[simp]
theorem map_ok (f : α → β) (value : α) : f <$> (ok value : Outcome ε α) = ok (f value) := rfl

/-- Peels one call off a computation that returned. -/
theorem bind_eq_ok_iff :
    (x >>= next) = ok result ↔ ∃ value, x = ok value ∧ next value = ok result := by
  cases x <;> simp

theorem bind_eq_ok (hresult : (x >>= next) = ok result) :
    ∃ value, x = ok value ∧ next value = ok result :=
  bind_eq_ok_iff.mp hresult

theorem unit_bind_eq_ok_iff {x : Outcome ε Unit} {next : Unit → Outcome ε β} :
    (x >>= next) = ok result ↔ x = ok () ∧ next () = ok result := by
  cases x <;> simp

theorem bind_pure_eq_ok {f : α → β} (hresult : (x >>= fun value => pure (f value)) = ok result) :
    ∃ value, x = ok value ∧ f value = result := by
  obtain ⟨value, hvalue, hresult⟩ := bind_eq_ok hresult
  exact ⟨value, hvalue, ok.inj hresult⟩

/-- Peels one refusal off a computation that returned. -/
theorem refuse_eq_ok_iff [Decidable condition] :
    (if condition then err error else x) = ok value ↔ ¬condition ∧ x = ok value := by
  by_cases hcondition : condition
  · simp [hcondition]
  · simp [hcondition]

theorem refuse_eq_ok [Decidable condition]
    (hvalue : (if condition then err error else x) = ok value) : ¬condition ∧ x = ok value :=
  refuse_eq_ok_iff.mp hvalue

theorem require_eq_ok_iff [Decidable condition] {result : α} :
    (if condition then x else err error) = ok result ↔ condition ∧ x = ok result := by
  by_cases hcondition : condition <;> simp [hcondition]

/-- Two computations agree when they go on alike from every value their first call can return. -/
theorem bind_congr_ok {next' : α → Outcome ε β}
    (hnext : ∀ value, x = ok value → next value = next' value) : (x >>= next) = (x >>= next') := by
  cases x with
  | ok value => exact hnext value rfl
  | err error => rfl
  | panic => rfl

theorem foldlM_congr_mem {step' : β → α → Outcome ε β}
    (hstep : ∀ state, ∀ item ∈ items, step state item = step' state item) (state : β) :
    items.foldlM step state = items.foldlM step' state := by
  induction items generalizing state with
  | nil => rfl
  | cons item items ih =>
    rw [foldlM_cons, hstep state item mem_cons_self]
    apply bind_congr
    intro next
    exact ih (fun state item hitem => hstep state item (mem_cons_of_mem _ hitem)) next

theorem foldlM_cons_eq_ok {item : α} (hloop : (item :: items).foldlM step state = ok result) :
    ∃ next, step state item = ok next ∧ items.foldlM step next = ok result :=
  bind_eq_ok hloop

theorem foldlM_concat_eq_ok {item : α} (hloop : (items ++ [item]).foldlM step state = ok result) :
    ∃ middle, items.foldlM step state = ok middle ∧ step middle item = ok result := by
  rw [foldlM_append] at hloop
  obtain ⟨middle, hmiddle, hlast⟩ := bind_eq_ok hloop
  obtain ⟨next, hnext, hresult⟩ := foldlM_cons_eq_ok hlast
  obtain rfl := ok.inj hresult
  exact ⟨middle, hmiddle, hnext⟩

theorem foldlM_kept {kept : β → Prop}
    (hkept : ∀ state, kept state → ∀ item ∈ items, ∀ next, step state item = ok next → kept next)
    {state result : β} (hstate : kept state) (hloop : items.foldlM step state = ok result) :
    kept result := by
  induction items generalizing state with
  | nil =>
    obtain rfl := ok.inj hloop
    exact hstate
  | cons item items ih =>
    obtain ⟨next, hnext, hloop⟩ := foldlM_cons_eq_ok hloop
    exact ih (fun state hstate item hitem => hkept state hstate item (mem_cons_of_mem _ hitem))
      (hkept state hstate item mem_cons_self next hnext) hloop

/-- A counted loop whose state is known at every turn. -/
theorem foldlM_range'_eq {step : β → ℕ → Outcome ε β} (states : ℕ → β) (start count : ℕ)
    (hstep : ∀ index, start ≤ index → index < start + count →
      step (states index) index = ok (states (index + 1))) :
    (range' start count).foldlM step (states start) = ok (states (start + count)) := by
  induction count generalizing start with
  | zero => rfl
  | succ count ih =>
    rw [range'_succ, foldlM_cons, hstep start (Nat.le_refl _) (by omega), ok_bind,
      ih (start + 1) fun index hlow hhigh => hstep index (by omega) (by omega), Nat.add_assoc,
      Nat.add_comm 1]

theorem foldlM_range_eq {step : β → ℕ → Outcome ε β} (states : ℕ → β) {count : ℕ}
    (hstep : ∀ index < count, step (states index) index = ok (states (index + 1))) :
    (range count).foldlM step (states 0) = ok (states count) := by
  have hloop := foldlM_range'_eq states 0 count fun index _ hindex => hstep index (by omega)
  rwa [← range_eq_range', Nat.zero_add] at hloop

theorem timesM_kept {kept : α → Prop} {step : α → Outcome ε α}
    (hkept : ∀ state, kept state → ∀ next, step state = ok next → kept next) {count : ℕ}
    {state result : α} (hstate : kept state) (hloop : timesM step count state = ok result) :
    kept result := by
  rw [← @length_range count, timesM_eq_foldlM] at hloop
  exact foldlM_kept (fun state hstate _ _ => hkept state hstate) hstate hloop

/-- A loop returned when its body did on every item, and its results are the body's in order. -/
theorem mapM_eq_ok_iff :
    items.mapM f = ok results ↔ Forall₂ (fun item result => f item = ok result) items results := by
  induction items generalizing results with
  | nil =>
    simp
  | cons item items ih =>
    rw [mapM_cons, bind_eq_ok_iff, forall₂_cons_left_iff]
    constructor
    · rintro ⟨first, hfirst, hrest⟩
      obtain ⟨rest, hrest, hresults⟩ := bind_eq_ok hrest
      exact ⟨first, rest, hfirst, ih.mp hrest, (ok.inj hresults).symm⟩
    · rintro ⟨first, rest, hfirst, hrest, rfl⟩
      refine ⟨first, hfirst, ?_⟩
      rw [ih.mpr hrest]
      rfl

/-- A loop that returned called its body on every item, and collected exactly those results. -/
theorem mapM_eq_ok (hresults : items.mapM f = ok results) :
    (∀ item ∈ items, ∃ result ∈ results, f item = ok result) ∧
      ∀ result ∈ results, ∃ item ∈ items, f item = ok result := by
  have hall := mapM_eq_ok_iff.mp hresults
  have hflipped : Forall₂ (fun result item => f item = ok result) results items := hall.flip
  exact ⟨fun _ => exists_mem_of_forall₂ hflipped, fun _ => exists_mem_of_forall₂ hall⟩

theorem mapM_of_forall_mem {g : α → β}
    (hok : ∀ item ∈ items, f item = ok (g item)) : items.mapM f = ok (items.map g) := by
  rw [mapM_eq_ok_iff, forall₂_map_right_iff]
  exact forall₂_same.mpr hok

/-- A loop that returned called its body on every item. -/
theorem exists_step_of_foldlM (hloop : items.foldlM step state = ok result) :
    ∀ item ∈ items, ∃ before after, step before item = ok after := by
  induction items generalizing state with
  | nil => exact fun item hitem => absurd hitem not_mem_nil
  | cons first items ih =>
    obtain ⟨next, hnext, hrest⟩ := foldlM_cons_eq_ok hloop
    exact forall_mem_cons.mpr ⟨⟨state, next, hnext⟩, ih hrest⟩

theorem exists_foldlM {kept : β → Prop} (hstep : ∀ state, kept state → ∀ item ∈ items,
    ∃ next, step state item = ok next ∧ kept next) (hstate : kept state) :
    ∃ result, items.foldlM step state = ok result ∧ kept result := by
  induction items generalizing state with
  | nil => exact ⟨state, rfl, hstate⟩
  | cons item items ih =>
    obtain ⟨next, hnext, hkept⟩ := hstep state hstate item mem_cons_self
    rw [foldlM_cons, hnext]
    exact ih (fun state hstate item hitem => hstep state hstate item (mem_cons_of_mem _ hitem)) hkept

theorem exists_mapM
    (hok : ∀ item ∈ items, ∃ result, f item = ok result) : ∃ results, items.mapM f = ok results := by
  simp only [mapM_eq_ok_iff]
  exact (exists_forall₂_iff items).mpr hok

theorem forM_eq_ok_iff {f : α → Outcome ε Unit} :
    items.forM f = ok () ↔ ∀ item ∈ items, f item = ok () := by
  induction items with
  | nil => exact iff_of_true rfl (forall_mem_nil _)
  | cons item items ih =>
    simp [← ih, unit_bind_eq_ok_iff]

/-- Checks that pass or fail in one way do so together. -/
theorem forM_ok_or_err {f : α → Outcome ε Unit} {error : ε}
    (hitems : ∀ item ∈ items, f item = ok () ∨ f item = err error) :
    items.forM f = ok () ∨ items.forM f = err error := by
  induction items with
  | nil => exact .inl rfl
  | cons item items ih =>
    rw [List.forM]
    obtain ⟨hitem | hitem, hitems⟩ := forall_mem_cons.mp hitems
    · rw [hitem]
      exact ih hitems
    · rw [hitem]
      exact .inr rfl

/-! ### Calls that do not panic -/

/-- The call does not panic, and a value it returns has the property. -/
def Returns (post : α → Prop) : Outcome ε α → Prop
  | ok value => post value
  | err _ => True
  | panic => False

theorem Returns.ne_panic (hx : x.Returns post) : x ≠ panic := by
  rintro rfl
  exact hx

theorem Returns.imp {post' : α → Prop} (hx : x.Returns post)
    (himp : ∀ value, x = ok value → post value → post' value) : x.Returns post' := by
  cases x with
  | ok value => exact himp value rfl hx
  | err error => trivial
  | panic => exact hx

theorem Returns.bind {post' : β → Prop} (hx : x.Returns post)
    (hnext : ∀ value, post value → (next value).Returns post') : (x >>= next).Returns post' := by
  cases x with
  | ok value => exact hnext value hx
  | err error => trivial
  | panic => exact hx

theorem Returns.refuse [Decidable condition] (hx : ¬ condition → x.Returns post) :
    (if condition then err error else x).Returns post := by
  by_cases hcondition : condition
  · rw [if_pos hcondition]
    trivial
  · rw [if_neg hcondition]
    exact hx hcondition

theorem Returns.foldlM {invariant : β → Prop}
    (hstep : ∀ state item, invariant state → (step state item).Returns invariant) (items : List α)
    (hstate : invariant state) : (items.foldlM step state).Returns invariant := by
  induction items generalizing state with
  | nil => exact hstate
  | cons item items ih =>
    exact (hstep state item hstate).bind fun _ hnext => ih hnext

theorem Returns.timesM {invariant : α → Prop} {step : α → Outcome ε α}
    (hstep : ∀ state, invariant state → (step state).Returns invariant) (count : ℕ) {state : α}
    (hstate : invariant state) : (Tritium.timesM step count state).Returns invariant := by
  induction count generalizing state with
  | zero => exact hstate
  | succ count ih => exact (hstep state hstate).bind fun _ hnext => ih hnext

theorem Returns.mapM (hf : ∀ item ∈ items, (f item).Returns fun _ => True) :
    (items.mapM f).Returns fun _ => True := by
  induction items with
  | nil => trivial
  | cons item items ih =>
    obtain ⟨hitem, hitems⟩ := forall_mem_cons.mp hf
    rw [mapM_cons]
    exact hitem.bind fun _ _ => (ih hitems).bind fun _ _ => trivial

/-- Converts the error: `map_err`, and the conversion of `?`. -/
def mapErr {ε' : Type} (x : Outcome ε α) (f : ε → ε') : Outcome ε' α :=
  match x with
  | ok value => ok value
  | err error => err (f error)
  | panic => panic

@[simp]
theorem mapErr_ok (value : α) (f : ε → ε') : (ok value : Outcome ε α).mapErr f = ok value := rfl

theorem mapErr_bind (x : Outcome ε α) (next : α → Outcome ε β) (f : ε → ε') :
    (x >>= next).mapErr f = x.mapErr f >>= fun value => (next value).mapErr f := by
  cases x <;> rfl

theorem mapErr_map (x : Outcome ε α) (g : α → β) (f : ε → ε') :
    (x >>= fun value => pure (g value)).mapErr f = x.mapErr f >>= fun value => pure (g value) :=
  mapErr_bind x _ f

theorem mapErr_eq_ok_iff {f : ε → ε'} : x.mapErr f = ok value ↔ x = ok value := by
  cases x <;> simp [mapErr]

/-- Turns a missing value into an error: `ok_or`. -/
def okOr (x : Option α) (error : ε) : Outcome ε α :=
  match x with
  | some value => ok value
  | none => err error

@[simp]
theorem okOr_some (value : α) (error : ε) : okOr (some value) error = ok value := rfl

theorem okOr_bind (value : α) (error : ε) (next : α → Outcome ε β) :
    okOr (some value) error >>= next = next value := rfl

@[simp]
theorem okOr_none (error : ε) : okOr (none : Option α) error = err error := rfl

theorem okOr_returns {x : Option α}
    (hpost : ∀ value, x = some value → post value) : (okOr x error).Returns post := by
  cases x with
  | some value => exact hpost value rfl
  | none => trivial

theorem okOr_total (x : Option α) (error : ε) : (okOr x error).Returns fun _ => True :=
  okOr_returns fun _ _ => trivial

theorem okOr_eq_ok_iff {x : Option α} : okOr x error = ok value ↔ x = some value := by
  cases x <;> simp [okOr]

/-- Panics on a missing value: `expect`, and the bounds check of an index. -/
def expect (x : Option α) : Outcome ε α :=
  match x with
  | some value => ok value
  | none => panic

@[simp]
theorem expect_some (value : α) : (expect (some value) : Outcome ε α) = ok value := rfl

theorem expect_eq_ok_iff {x : Option α} : (expect x : Outcome ε α) = ok value ↔ x = some value := by
  cases x <;> simp [expect]

/-- The element at `index`, with the bounds check of `items[index]`. -/
def index (items : List α) (position : Nat) : Outcome ε α :=
  expect items[position]?

theorem index_of_lt (hlt : position < items.length) :
    (index items position : Outcome ε α) = ok items[position] := by
  rw [index, getElem?_eq_getElem hlt, expect_some]

theorem index_eq_ok_iff :
    (index items position : Outcome ε α) = ok value ↔ items[position]? = some value :=
  expect_eq_ok_iff

theorem index_append (hlt : position < items.length) (extra : List α) :
    (index (items ++ extra) position : Outcome ε α) = index items position := by
  rw [index, index, getElem?_append_left hlt]

/-- The elements from `start` up to `stop`, with the bounds check of `items[start..stop]`. -/
def slice (items : List α) (start stop : Nat) : Outcome ε (List α) :=
  if start ≤ stop ∧ stop ≤ items.length then ok ((items.take stop).drop start) else panic

theorem slice_of_le {start stop : Nat} (hstart : start ≤ stop) (hstop : stop ≤ items.length) :
    (slice items start stop : Outcome ε (List α)) = ok ((items.take stop).drop start) :=
  if_pos ⟨hstart, hstop⟩

/-- Replaces the element at `position`, with the bounds check of `items[position] = value`. -/
def setIndex (items : List α) (position : Nat) (value : α) : Outcome ε (List α) :=
  if position < items.length then ok (items.set position value) else panic

theorem setIndex_of_lt (hlt : position < items.length) :
    (setIndex items position value : Outcome ε (List α)) = ok (items.set position value) :=
  if_pos hlt

end Outcome

export Outcome (ok.inj ok.injEq slice expect pure_eq_ok ok_bind map_ok bind_eq_ok_iff
  unit_bind_eq_ok_iff bind_eq_ok bind_pure_eq_ok refuse_eq_ok_iff refuse_eq_ok require_eq_ok_iff
  bind_congr_ok foldlM_range_eq foldlM_range'_eq foldlM_cons_eq_ok foldlM_concat_eq_ok
  mapM_eq_ok_iff mapM_eq_ok mapM_of_forall_mem exists_mapM forM_eq_ok_iff forM_ok_or_err mapErr_ok
  mapErr_eq_ok_iff okOr okOr_some okOr_bind okOr_total okOr_eq_ok_iff expect_some
  expect_eq_ok_iff index_of_lt index_eq_ok_iff index_append slice_of_le setIndex setIndex_of_lt)

end Tritium
