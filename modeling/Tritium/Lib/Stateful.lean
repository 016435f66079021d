import Tritium.Lib.Outcome

/-!
# Fallible code with a state

A call that fails leaves its caller with the state as it was when it failed.
-/

namespace Tritium

open List

def Stateful (σ ε α : Type) : Type := σ → Outcome ε α × σ

namespace Stateful

variable {σ ε α β : Type} {x : Stateful σ ε α} {state next : σ} {τ ε' ρ : Type} {post : α → Prop}
  {y answer : Outcome ε α} {items : List α} {condition : Prop}

def bind (x : Stateful σ ε α) (next : α → Stateful σ ε β) : Stateful σ ε β := fun state =>
  match x state with
  | (.ok value, state) => next value state
  | (.err error, state) => (.err error, state)
  | (.panic, state) => (.panic, state)

instance : Monad (Stateful σ ε) where
  pure value := fun state => (.ok value, state)
  bind := bind

/-- A call that neither reads nor writes the state. -/
def lift (x : Outcome ε α) : Stateful σ ε α := fun state => (x, state)

def current : Stateful σ ε σ := fun state => (.ok state, state)

def update (f : σ → σ) : Stateful σ ε Unit := fun state => (.ok (), f state)

theorem bind_apply_ok {value : α} (hx : x state = (.ok value, next)) (rest : α → Stateful σ ε β) :
    (x >>= rest) state = rest value next := by
  change bind x rest state = _
  rw [bind, hx]

theorem bind_apply_err {error : ε} (hx : x state = (.err error, next)) (rest : α → Stateful σ ε β) :
    (x >>= rest) state = (.err error, next) := by
  change bind x rest state = _
  rw [bind, hx]

theorem bind_apply_panic (hx : x state = (.panic, next))
    (rest : α → Stateful σ ε β) : (x >>= rest) state = (.panic, next) := by
  change bind x rest state = _
  rw [bind, hx]

theorem lift_ok_bind (value : α) (rest : α → Stateful σ ε β) :
    (lift (.ok value) >>= rest) = rest value := rfl

theorem current_bind (rest : σ → Stateful σ ε β) (state : σ) :
    (current >>= rest) state = rest state state := rfl

theorem bind_eq_ok_iff {rest : α → Stateful σ ε β} {after : σ} {result : β} :
    (x >>= rest) state = (.ok result, after) ↔
      ∃ value next, x state = (.ok value, next) ∧ rest value next = (.ok result, after) := by
  cases hx : x state with
  | mk answer next =>
    cases answer with
    | ok value =>
      rw [bind_apply_ok hx]
      simp
    | err error =>
      rw [bind_apply_err hx]
      simp
    | panic =>
      rw [bind_apply_panic hx]
      simp

def left {τ : Type} (x : Stateful σ ε α) : Stateful (σ × τ) ε α := fun state =>
  ((x state.1).1, ((x state.1).2, state.2))

theorem left_apply {state : σ × τ} (hx : x state.1 = (answer, next)) :
    x.left state = (answer, (next, state.2)) := by
  unfold left
  rw [hx]

def right {τ : Type} (x : Stateful τ ε α) : Stateful (σ × τ) ε α := fun state =>
  ((x state.2).1, (state.1, (x state.2).2))

theorem right_apply {x : Stateful τ ε α} {state : σ × τ} {next : τ}
    (hx : x state.2 = (answer, next)) : x.right state = (answer, (state.1, next)) := by
  unfold right
  rw [hx]

/-- Runs a call on a larger state, whose second part starts as given and is dropped at the end. -/
def within {τ : Type} (x : Stateful (σ × τ) ε α) (initial : τ) : Stateful σ ε α := fun state =>
  ((x (state, initial)).1, (x (state, initial)).2.1)

def mapErr {ε' : Type} (x : Stateful σ ε α) (f : ε → ε') : Stateful σ ε' α := fun state =>
  ((x state).1.mapErr f, (x state).2)

theorem mapErr_apply_ok {value : α}
    (hx : x state = (.ok value, next)) (f : ε → ε') : x.mapErr f state = (.ok value, next) := by
  rw [mapErr, hx]
  rfl

/-! ### Results

What a call returns, from whatever state it is made.
-/

def Ensures (post : α → Prop) (x : Stateful σ ε α) : Prop :=
  ∀ state value after, x state = (.ok value, after) → post value

theorem Ensures.value (hx : Ensures post x)
    {after : σ} {value : α} (hcall : x state = (.ok value, after)) : post value :=
  hx state value after hcall

theorem ensures_true (x : Stateful σ ε α) : Ensures (fun _ => True) x :=
  fun _ _ _ _ => trivial

theorem Ensures.pure {value : α} (hvalue : post value) :
    Ensures post (Pure.pure value : Stateful σ ε α) := by
  intro state result after hcall
  obtain rfl := Outcome.ok.inj (Prod.mk.inj hcall).1
  exact hvalue

theorem Ensures.lift
    (hvalue : ∀ value, y = .ok value → post value) : Ensures post (Stateful.lift y : Stateful σ ε α) :=
  fun _ value _ hcall => hvalue value (Prod.mk.inj hcall).1

theorem Ensures.bind {middle : α → Prop} {post : β → Prop}
    {next : α → Stateful σ ε β} (hx : Ensures middle x)
    (hnext : ∀ value, middle value → Ensures post (next value)) : Ensures post (x >>= next) := by
  intro state result after hcall
  obtain ⟨value, reached, hfirst, hsecond⟩ := bind_eq_ok_iff.mp hcall
  exact (hnext value (hx.value hfirst)).value hsecond

theorem Ensures.refuse [Decidable condition] {error : ε} (hx : ¬condition → Ensures post x) :
    Ensures post (if condition then Stateful.lift (.err error) else x) := by
  by_cases hcondition : condition
  · rw [if_pos hcondition]
    exact Ensures.lift fun value hvalue => by cases hvalue
  · rw [if_neg hcondition]
    exact hx hcondition

theorem Ensures.timesM {invariant : ℕ → α → Prop} {step : α → Stateful σ ε α}
    (hstep : ∀ turn value, invariant turn value → Ensures (invariant (turn + 1)) (step value))
    (count : ℕ) {turn : ℕ} {value : α} (hvalue : invariant turn value) :
    Ensures (invariant (turn + count)) (Tritium.timesM step count value) := by
  induction count generalizing turn value with
  | zero => exact Ensures.pure hvalue
  | succ count ih =>
    have hturns : turn + (count + 1) = turn + 1 + count := by omega
    rw [hturns]
    exact (hstep turn value hvalue).bind fun _ hnext => ih hnext

/-! ### Refinement

From every state that satisfies the invariant, a stateful call answers like a pure one and keeps the
invariant, whether it fails or not.
-/

def Implements (invariant : σ → Prop) (x : Stateful σ ε α) (y : Outcome ε α) : Prop :=
  ∀ state, invariant state → (x state).1 = y ∧ invariant (x state).2

variable {invariant : σ → Prop} {step : β → α → Stateful σ ε β} {step' : β → α → Outcome ε β}
  {call : ρ → Stateful σ ε α} {call' : ρ → Outcome ε α} {rest : α → Outcome ε β} {f : ε → ε'}

theorem Implements.lift (y : Outcome ε α) : Implements invariant (Stateful.lift y) y :=
  fun _ hstate => ⟨rfl, hstate⟩

theorem Implements.pure (value : α) :
    Implements invariant (Pure.pure value : Stateful σ ε α) (Pure.pure value) :=
  fun _ hstate => ⟨rfl, hstate⟩

theorem Implements.bind {next : α → Stateful σ ε β} (hx : Implements invariant x y)
    (hnext : ∀ value, y = .ok value → Implements invariant (next value) (rest value)) :
    Implements invariant (x >>= next) (y >>= rest) := by
  intro state hstate
  obtain ⟨hanswer, hkept⟩ := hx state hstate
  change (Stateful.bind x next state).1 = _ ∧ invariant (Stateful.bind x next state).2
  rw [Stateful.bind]
  cases hcall : x state with
  | mk answer after =>
    rw [hcall] at hanswer hkept
    cases answer with
    | ok value =>
      rw [← hanswer]
      exact hnext value hanswer.symm after hkept
    | err error =>
      rw [← hanswer]
      exact ⟨rfl, hkept⟩
    | panic =>
      rw [← hanswer]
      exact ⟨rfl, hkept⟩

theorem Implements.ok_bind {value : α} {next : α → Stateful σ ε β}
    {y : Outcome ε β} (hx : Implements invariant x (.ok value))
    (hnext : Implements invariant (next value) y) : Implements invariant (x >>= next) y := by
  apply hx.bind
  rintro _ ⟨⟩
  exact hnext

/-- The stateful call returns what it makes of the value of the pure one. -/
theorem Implements.bind_map {γ : Type} {y : Outcome ε γ} {f : γ → α}
    {next : α → Stateful σ ε β} {rest : γ → Outcome ε β}
    (hx : Implements invariant x (y >>= fun value => Pure.pure (f value)))
    (hnext : ∀ value, y = .ok value → Implements invariant (next (f value)) (rest value)) :
    Implements invariant (x >>= next) (y >>= rest) := by
  cases y with
  | ok value => exact hx.ok_bind (hnext value rfl)
  | err error =>
    change Implements invariant (x >>= next) (Outcome.err error >>= fun _ : α => Outcome.err error)
    exact hx.bind nofun
  | panic =>
    change Implements invariant (x >>= next) (Outcome.panic >>= fun _ : α => Outcome.panic)
    exact hx.bind nofun

theorem Implements.bind_check {next : α → Stateful σ ε α} (hx : Implements invariant x y)
    (hnext : ∀ value, y = .ok value → Implements invariant (next value) (.ok value)) :
    Implements invariant (x >>= next) y := by
  rw [← bind_pure y]
  exact hx.bind hnext

theorem Implements.mapErr (hx : Implements invariant x y) (f : ε → ε') :
    Implements invariant (x.mapErr f) (y.mapErr f) := by
  intro state hstate
  obtain ⟨hanswer, hafter⟩ := hx state hstate
  exact ⟨congrArg (Outcome.mapErr · f) hanswer, hafter⟩

/-- The calls of the pure program fail with another type of error. -/
theorem Implements.mapErr_bind {x : Stateful σ ε' α} {next : α → Stateful σ ε' β}
    (hx : Implements invariant x (y.mapErr f))
    (hnext : ∀ value, y = .ok value → Implements invariant (next value) ((rest value).mapErr f)) :
    Implements invariant (x >>= next) ((y >>= rest).mapErr f) := by
  rw [Outcome.mapErr_bind]
  apply hx.bind
  intro value hvalue
  exact hnext value (Outcome.mapErr_eq_ok_iff.mp hvalue)

theorem Implements.within {larger : σ × τ → Prop} {x : Stateful (σ × τ) ε α}
    {initial : τ} (hx : Implements larger x y)
    (hinitial : ∀ state, invariant state → larger (state, initial))
    (hkept : ∀ state, larger state → invariant state.1) :
    Implements invariant (x.within initial) y := by
  intro state hstate
  obtain ⟨hanswer, hafter⟩ := hx _ (hinitial state hstate)
  exact ⟨hanswer, hkept _ hafter⟩

theorem Implements.ite [Decidable condition] {x' : Stateful σ ε α} {y' : Outcome ε α}
    (hthen : Implements invariant x y) (helse : Implements invariant x' y') :
    Implements invariant (if condition then x else x') (if condition then y else y') := by
  by_cases hcondition : condition
  · rw [if_pos hcondition, if_pos hcondition]
    exact hthen
  · rw [if_neg hcondition, if_neg hcondition]
    exact helse

theorem Implements.foldlM
    (hstep : ∀ value item, Implements invariant (step value item) (step' value item))
    (items : List α) (value : β) :
    Implements invariant (items.foldlM step value) (items.foldlM step' value) := by
  induction items generalizing value with
  | nil => exact Implements.pure value
  | cons item items ih =>
    exact (hstep value item).bind fun next _ => ih next

theorem Implements.foldlM_mapErr (kept : β → Prop) {step : β → α → Stateful σ ε' β}
    (hstep : ∀ value, kept value → ∀ item ∈ items,
      Implements invariant (step value item) ((step' value item).mapErr f))
    (hkept : ∀ value, kept value → ∀ item ∈ items, ∀ next, step' value item = .ok next → kept next)
    {value : β} (hvalue : kept value) :
    Implements invariant (items.foldlM step value) ((items.foldlM step' value).mapErr f) := by
  induction items generalizing value with
  | nil => exact Implements.pure value
  | cons item items ih =>
    apply (hstep value hvalue item mem_cons_self).mapErr_bind
    intro next hnext
    exact ih (fun value hvalue item hitem => hstep value hvalue item (mem_cons_of_mem _ hitem))
      (fun value hvalue item hitem => hkept value hvalue item (mem_cons_of_mem _ hitem))
      (hkept value hvalue item mem_cons_self next hnext)

/-- Two loops over lists whose items correspond. -/
theorem Implements.foldlM_forall₂ {γ : Type} {related : α → γ → Prop} {step' : β → γ → Outcome ε β}
    (hstep : ∀ value item item', related item item' →
      Implements invariant (step value item) (step' value item')) {items' : List γ}
    (hitems : Forall₂ related items items') (value : β) :
    Implements invariant (items.foldlM step value) (items'.foldlM step' value) := by
  induction hitems generalizing value with
  | nil => exact Implements.pure value
  | cons hitem _ ih =>
    exact (hstep value _ _ hitem).bind fun next _ => ih next

/-! ### Output

The relation says what a state has put out so far. A call appends a piece when it succeeds from
every state and adds just that piece.
-/

section Output

variable {γ : Type} {holds : List γ → σ → Prop}

def Appends (holds : List γ → σ → Prop) (x : Stateful σ ε Unit) (piece : List γ) : Prop :=
  ∀ output state, holds output state →
    ∃ after, x state = (.ok (), after) ∧ holds (output ++ piece) after

theorem Appends.pure : Appends holds (Pure.pure () : Stateful σ ε Unit) [] :=
  fun output state hstate => ⟨state, rfl, by rwa [append_nil]⟩

theorem Appends.bind {x : Stateful σ ε Unit} {next : Unit → Stateful σ ε Unit}
    {piece piece' : List γ} (hx : Appends holds x piece) (hnext : Appends holds (next ()) piece') :
    Appends holds (x >>= next) (piece ++ piece') := by
  intro output state hstate
  obtain ⟨middle, hfirst, hmiddle⟩ := hx output state hstate
  obtain ⟨after, hsecond, _⟩ := hnext _ middle hmiddle
  refine ⟨after, ?_, by rwa [← append_assoc]⟩
  rw [bind_apply_ok hfirst, hsecond]

theorem Appends.forM {call : α → Stateful σ ε Unit} {piece : α → List γ}
    (hcall : ∀ item ∈ items, Appends holds (call item) (piece item)) :
    Appends holds (items.forM call) (items.flatMap piece) := by
  induction items with
  | nil => exact Appends.pure
  | cons item items ih =>
    obtain ⟨hitem, hitems⟩ := forall_mem_cons.mp hcall
    exact hitem.bind (ih hitems)

end Output

/-! ### Input

A call on a list reads a piece when it takes that piece off the front of whatever follows it.
-/

section Input

variable {γ : Type} {x : Stateful (List γ) ε α}

def Reads (x : Stateful (List γ) ε α) (piece : List γ) (value : α) : Prop :=
  ∀ rest, x (piece ++ rest) = (.ok value, rest)

theorem Reads.pure (value : α) : Reads (Pure.pure value : Stateful (List γ) ε α) [] value :=
  fun _ => rfl

theorem Reads.bind {next : α → Stateful (List γ) ε β} {front back : List γ} {value : α} {result : β}
    (hx : Reads x front value) (hnext : Reads (next value) back result)
    : Reads (x >>= next) (front ++ back) result := by
  intro rest
  rw [append_assoc, bind_apply_ok (hx _), hnext]

theorem Reads.map {piece : List γ} {value : α} (hx : Reads x piece value) (f : α → β) :
    Reads (x >>= fun value => Pure.pure (f value)) piece (f value) := by
  rw [← append_nil piece]
  exact hx.bind (Reads.pure (f value))

end Input

/-- The answers to a list of calls, each made from the state the one before has left. -/
def answers {ρ : Type} (call : ρ → Stateful σ ε α) : List ρ → σ → List (Outcome ε α)
  | [], _ => []
  | request :: requests, state =>
    (call request state).1 :: answers call requests (call request state).2

def reached {ρ : Type} (call : ρ → Stateful σ ε α) (requests : List ρ) (state : σ) : σ :=
  requests.foldl (fun state request => (call request state).2) state

theorem answers_append (call : ρ → Stateful σ ε α) (front back : List ρ) (state : σ) :
    answers call (front ++ back) state =
      answers call front state ++ answers call back (reached call front state) := by
  induction front generalizing state with
  | nil => rfl
  | cons request front ih => rw [cons_append, answers, ih]; rfl

section

variable (hcall : ∀ request, Implements invariant (call request) (call' request))

include hcall

theorem Implements.reached (requests : List ρ) (hstate : invariant state) :
    invariant (Stateful.reached call requests state) := by
  induction requests generalizing state with
  | nil => exact hstate
  | cons request requests ih => exact ih (hcall request state hstate).2

theorem Implements.answers (requests : List ρ) (hstate : invariant state) :
    Stateful.answers call requests state = requests.map call' := by
  induction requests generalizing state with
  | nil => rfl
  | cons request requests ih =>
    obtain ⟨hanswer, hkept⟩ := hcall request state hstate
    rw [Stateful.answers, hanswer, ih hkept, map_cons]

end

end Stateful

export Stateful (lift lift_ok_bind current_bind bind_apply_ok bind_apply_err mapErr_apply_ok
  left_apply)

end Tritium
