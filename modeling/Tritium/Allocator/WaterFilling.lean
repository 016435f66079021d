import Tritium.Lib.Machine
import Tritium.Lib.Ordering
import Mathlib.Algebra.Order.Field.Rat
import Mathlib.Order.WithBot

/-!
# Plane allocation by water filling

Planes go one at a time to the group whose next one buys the largest loss drop per bit. The numbers
are exact, and the information of a trit is a parameter.
-/

namespace Tritium.WaterFilling

open List

/-- `1e-9` -/
def budgetFeasibilitySlackRel : ℚ := 1 / 10 ^ 9

/-- A group with the error left after each number of planes. -/
structure GroupCurve where
  curve : List ℚ
  weights : ℕ
  sensitivity : ℚ
  curve_ne_nil : curve ≠ []

structure AllocConfig where
  tMin : ℕ
  tMax : ℕ
  budgetBits : WithTop ℚ

abbrev AllocConfig.Affords (cfg : AllocConfig) (bits : ℚ) : Prop := bits ≤ cfg.budgetBits

inductive AllocError where
  | badRange (tMin tMax : ℕ)
  | budgetTooSmall (baseBits : ℚ) (budgetBits : WithTop ℚ)
  | invalidSensitivity (group : ℕ) (value : ℚ)

structure Allocation where
  planeCounts : List ℕ

theorem GroupCurve.clamp_lt (group : GroupCurve) (t : ℕ) :
    min t (group.curve.length - 1) < group.curve.length := by
  have hpos := length_pos_iff.mpr group.curve_ne_nil
  omega

/-- The error after `t` planes, flat behind the last one realized. -/
def GroupCurve.curveAt (group : GroupCurve) (t : ℕ) : ℚ :=
  group.curve.get ⟨min t (group.curve.length - 1), group.clamp_lt t⟩

@[ext]
structure Candidate (n : ℕ) where
  gain : ℚ
  group : Fin n
deriving DecidableEq

def Candidate.cmp {n : ℕ} (left right : Candidate n) : Ordering :=
  (compare left.gain right.gain).then (compare right.group left.group)

/-- What an allocation is called with, and the information of a trit. -/
structure Task where
  groups : List GroupCurve
  cfg : AllocConfig
  tritBits : ℚ

namespace Task

variable (task : Task)

abbrev Counts : Type := Fin task.groups.length → ℕ

/-- `vec![cfg.t_min; n]` -/
def start : task.Counts := fun _ => task.cfg.tMin

variable (t : task.Counts) (spent : ℚ) (g : Fin task.groups.length)

def group : GroupCurve := task.groups.get g

def bitsPerPlane : ℚ := (task.group g).weights * task.tritBits

def baseBits : ℚ := ((finRange task.groups.length).map task.bitsPerPlane).sum * task.cfg.tMin

def nextGain (planes : ℕ) : Option ℚ :=
  if task.cfg.tMax ≤ planes then
    none
  else
    let drop := (task.group g).curveAt planes - (task.group g).curveAt (planes + 1)
    if drop ≤ 0 then none
    else some ((task.group g).sensitivity * drop / task.bitsPerPlane g)

def candidate : Option (Candidate task.groups.length) :=
  (task.nextGain g (t g)).map fun gain => ⟨gain, g⟩

/-- The two nested loops. The greatest candidate of the heap gets its plane and is offered again; one
that cannot be afforded is dropped. -/
def fill : ℕ → task.Counts → ℚ → List (Candidate task.groups.length) → Outcome AllocError task.Counts
  | 0, _, _, _ => .panic
  | turns + 1, t, spent, heap =>
    match minBy (fun left right => Candidate.cmp right left) heap with
    | none => .ok t
    | some c =>
      let heap := heap.erase c
      let spending := spent + task.bitsPerPlane c.group
      if task.cfg.Affords spending then
        let t := Function.update t c.group (t c.group + 1)
        fill turns t spending (heap ++ (task.candidate t c.group).toList)
      else
        fill turns t spent heap

def allocateWithCurves : Outcome AllocError Allocation :=
  if task.cfg.tMax < task.cfg.tMin then
    .err (.badRange task.cfg.tMin task.cfg.tMax)
  else
    match (finRange task.groups.length).find? fun g => (task.group g).sensitivity < 0 with
    | some g => .err (.invalidSensitivity g (task.group g).sensitivity)
    | none =>
      let base := task.baseBits
      if task.cfg.budgetBits + (budgetFeasibilitySlackRel * max base 1 : ℚ) < base then
        .err (.budgetTooSmall base task.cfg.budgetBits)
      else do
        -- every turn takes one of the candidates there are at first or after a plane was given
        let t ← task.fill (task.groups.length * (task.cfg.tMax - task.cfg.tMin + 1) + 1)
          task.start base ((finRange task.groups.length).filterMap (task.candidate task.start))
        return ⟨ofFn t⟩

/-- The body of the linear scan, which skips a group or sees what it gains. -/
def scanned : Option (Candidate task.groups.length) :=
  if task.cfg.tMax ≤ t g ∨ ¬ task.cfg.Affords (spent + task.bitsPerPlane g) then
    none
  else
    let drop := (task.group g).curveAt (t g) - (task.group g).curveAt (t g + 1)
    if drop ≤ 0 then none
    else some ⟨(task.group g).sensitivity * drop / task.bitsPerPlane g, g⟩

/-- The `for` loop of the linear scan: the first of the groups that gain most. -/
def scanBest : Option (Candidate task.groups.length) :=
  minBy (fun left right => compare right.gain left.gain)
    ((finRange task.groups.length).filterMap (task.scanned t spent))

def scan : ℕ → task.Counts → ℚ → Outcome AllocError task.Counts
  | 0, _, _ => .panic
  | turns + 1, t, spent =>
    match task.scanBest t spent with
    | none => .ok t
    | some c =>
      scan turns (Function.update t c.group (t c.group + 1)) (spent + task.bitsPerPlane c.group)

/-- The linear scan that the heap replaces. -/
def allocateReference : Outcome AllocError Allocation := do
  let t ← task.scan (task.groups.length * (task.cfg.tMax - task.cfg.tMin) + 1)
    task.start task.baseBits
  return ⟨ofFn t⟩

end Task

end Tritium.WaterFilling
