import ConstFlow.Collections.OrderedMap
import ConstFlow.Collections.OrderedSet

/-! # Histories of collections

Collections held in named registers, and the steps that change them. Every register holds
the empty collection at first. A step writes one register, and may read another.
-/
namespace ConstFlow

abbrev Registers (α : Type) : Type := String → α

/-- What a step has to report. -/
inductive StepReply (V : Type) where
  | done
  | changed (flag : Bool)
  | removed (old : Option V)
  deriving DecidableEq, Repr

def Registers.set {α : Type} (rs : Registers α) (name : String) (a : α) : Registers α :=
  fun n => if n = name then a else rs n

inductive MapStep (K V : Type) where
  | collect (entries : List (K × V))
  | update (k : K) (v : V)
  | remove (k : K)
  | clear
  | copyFrom (source : String)
  | clone (source : String)
  deriving Repr

namespace MapStep
variable {K V : Type} [BEq K] [BEq V]

/-- The new content of a register that holds `m`. -/
def result (rs : Registers (OrderedMap K V)) (m : OrderedMap K V) :
    MapStep K V → OrderedMap K V × StepReply V
  | collect entries => (.ofList entries, .done)
  | update k v =>
    let (n, flag) := m.update k v
    (n, .changed flag)
  | remove k =>
    let (n, old) := m.remove k
    (n, .removed old)
  | clear => (.empty, .done)
  | copyFrom source =>
    let (n, flag) := m.copyFrom (rs source)
    (n, .changed flag)
  | clone source => (rs source, .done)

def perform (rs : Registers (OrderedMap K V)) (name : String) (s : MapStep K V) :
    Registers (OrderedMap K V) × StepReply V :=
  let (m, reply) := s.result rs (rs name)
  (rs.set name m, reply)

end MapStep

inductive SetStep (α : Type) where
  | collect (elems : List α)
  | add (a : α)
  | remove (a : α)
  | unionWith (source : String)
  | copyFrom (source : String)
  | clone (source : String)
  deriving Repr

namespace SetStep
variable {α : Type} [BEq α]

/-- The new content of a register that holds `s`. -/
def result (rs : Registers (OrderedSet α)) (s : OrderedSet α) :
    SetStep α → OrderedSet α × StepReply α
  | collect elems => (.ofList elems, .done)
  | add a =>
    let (t, flag) := s.add a
    (t, .changed flag)
  | remove a =>
    let (t, flag) := s.remove a
    (t, .changed flag)
  | unionWith source =>
    let (t, flag) := s.unionWith (rs source)
    (t, .changed flag)
  | copyFrom source =>
    let (t, flag) := s.copyFrom (rs source)
    (t, .changed flag)
  | clone source => (rs source, .done)

def perform (rs : Registers (OrderedSet α)) (name : String) (step : SetStep α) :
    Registers (OrderedSet α) × StepReply α :=
  let (s, reply) := step.result rs (rs name)
  (rs.set name s, reply)

end SetStep
end ConstFlow
