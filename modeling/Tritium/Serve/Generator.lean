import Tritium.Serve.Lookup

/-!
# Greedy generation, plain and speculative

The target is a function `next` from the tokens it has seen to the token it finds most likely, so
evaluating logits and sampling them greedily is one step. The runner holds the tokens whose keys and
values stand in its cache. Nothing is cancelled and no forward pass fails.
-/

namespace Tritium.Serve

inductive FinishReason where
  | stop
  | length
deriving DecidableEq, Repr

structure Step where
  token : UInt32
  finished : Bool
  finishReason : Option FinishReason
deriving DecidableEq, Repr

def Step.of (token : UInt32) (isEos last : Bool) : Step where
  token := token
  finished := last
  finishReason := if isEos then some .stop else if last then some .length else none

/-- What the two loops are given alike. `onStep` answers the last of the steps reported so far. -/
structure Generation where
  promptTokens : List UInt32
  stopEos : Bool
  eos : UInt32
  maxNew : ℕ
  onStep : List Step → Bool

variable (next : List UInt32 → UInt32) (g : Generation)

def streamLoop : ℕ → List UInt32 → List Step → List Step
  | 0, _, steps => steps
  | turns + 1, kv, steps =>
    let index := g.maxNew - (turns + 1)
    let token := next kv
    let isEos := g.stopEos && token == g.eos
    let last := isEos || index + 1 == g.maxNew
    let steps := steps ++ [.of token isEos last]
    if !g.onStep steps then steps
    else if last then steps
    else streamLoop turns (kv ++ [token]) steps

/-- The steps that `stream_steps` reports behind a prefilled prompt. -/
def streamSteps : List Step := streamLoop next g g.maxNew g.promptTokens []

/-- A source of drafts with its own state, the policy and the governor included. After every cycle
it sees the history, the drafts and what was committed. -/
structure Drafter (δ : Type) where
  want : δ → ℕ
  draft : δ → List UInt32 → ℕ → List UInt32
  observe : δ → List UInt32 → List UInt32 → List UInt32 → δ

/-- Drafts by prompt lookup. A lookup that panics has been asked for more than any cache holds. -/
def lookupDrafter {δ : Type} (want : δ → ℕ)
    (observe : δ → List UInt32 → List UInt32 → List UInt32 → δ) : Drafter δ where
  want := want
  draft _ history maxDraft :=
    match lookupDraft history maxDraft with
    | .ok drafts => drafts
    | _ => []
  observe := observe

structure SpecState where
  history : List UInt32
  emitted : ℕ
  steps : List Step

def SpecState.emit (state : SpecState) (token : UInt32) : Bool × SpecState :=
  let isEos := g.stopEos && token == g.eos
  let last := isEos || g.maxNew ≤ state.emitted + 1
  let steps := state.steps ++ [.of token isEos last]
  (last || !g.onStep steps, { state with emitted := state.emitted + 1, steps := steps })

def SpecState.push (state : SpecState) (token : UInt32) : SpecState :=
  { state with history := state.history ++ [token] }

/-- The greedy accept walk down a chain: on to the next draft as long as it is the target's own
token. The target's tokens along the path are committed. -/
def acceptWalk (kv : List UInt32) (token : UInt32) : List UInt32 → List UInt32
  | [] => [next (kv ++ [token])]
  | draft :: drafts =>
    if draft = next (kv ++ [token]) then draft :: acceptWalk (kv ++ [token]) draft drafts
    else [next (kv ++ [token])]

/-- Refuses a tree that does not fit the cache, and keeps the rows of the accepted path. -/
def treeVerifyGreedy (nCtx : ℕ) (kv : List UInt32) (token : UInt32) (drafts : List UInt32) :
    Option (List UInt32 × List UInt32) :=
  if nCtx < kv.length + (token :: drafts).length then none
  else
    let committed := acceptWalk next kv token drafts
    some (kv ++ (token :: drafts).take committed.length, committed)

/-- Emits the committed tokens but the last, and goes on unless one of them ends the generation. -/
def emitCommitted (goOn : SpecState → Option (List Step)) :
    List UInt32 → SpecState → Option (List Step)
  | [], state => goOn state
  | token :: rest, state =>
    let (done, state) := state.emit g token
    if done then some state.steps else emitCommitted goOn rest (state.push token)

variable {δ : Type} (drafter : Drafter δ) (nCtx : ℕ)

/-- The drafts of one cycle, clamped so that the tree fits the cache and the committed tokens the
budget. -/
def budgetedDraft (own : δ) (state : SpecState) : List UInt32 :=
  let kvRoom := nCtx - state.history.length
  let budget := g.maxNew - state.emitted
  let maxDraft := min (min (drafter.want own) kvRoom) (budget - 1)
  if maxDraft = 0 then [] else drafter.draft own state.history maxDraft

def specLoop : ℕ → δ → List UInt32 → UInt32 → SpecState → Option (List Step)
  | 0, _, _, _, _ => none
  | turns + 1, own, kv, pending, state =>
    let (done, state) := state.emit g pending
    if done then some state.steps
    else
      let state := state.push pending
      let drafts := budgetedDraft g drafter nCtx own state
      if drafts = [] then
        let kv := kv ++ [pending]
        specLoop turns (drafter.observe own state.history [] [next kv]) kv (next kv) state
      else do
        let (kv, committed) ← treeVerifyGreedy next nCtx kv pending drafts
        let own := drafter.observe own state.history drafts committed
        emitCommitted g (fun state => do
          let pending ← committed.getLast?
          specLoop turns own kv pending state) committed.dropLast state

/-- The steps that `generate_spec_lookup` reports behind a prefilled prompt, unless it fails. Every
turn of its loop emits a token, so `max_new` turns are enough. -/
def generateSpecLookup (own : δ) : Option (List Step) :=
  if g.maxNew = 0 then some []
  else specLoop next g drafter nCtx g.maxNew own g.promptTokens (next g.promptTokens)
    { history := g.promptTokens, emitted := 0, steps := [] }

end Tritium.Serve
