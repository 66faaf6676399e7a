import FormSparsity.Integrand.Builder
import Std.Data.ExtTreeMap

/-!
Arenas: a graph with a register of the functions declared in it, in which they are looked up. A function
is registered after the node that declares it was added; a call that turns out to be a misuse registers
nothing.

| here | there |
| --- | --- |
| `Arena` | `ExprArena` with its register of functions |
| `register` | `ExprArena::register_function` |
-/
namespace FormSparsity

/-- A graph and the nodes that declare functions, each under the number of its function. -/
structure Arena where
  graph : Graph
  functions : Std.ExtTreeMap FunctionId NodeId := ∅

/-- A call that changes an arena. -/
abbrev ArenaM := ExceptT Misuse (StateM Arena)

namespace Arena

/-- The arena without nodes over a space that has one to three directions. -/
def empty (dimension : Nat) : Except Misuse Arena := do
  return { graph := ← Graph.empty dimension }

/-- A call that adds nodes and registers nothing. -/
def unregistered (call : Builder NodeId) : ArenaM NodeId := do
  let a ← get
  let (result, graph) := call.run.run a.graph
  set { a with graph }
  ofExcept result

/-- Adds the node that declares a function and registers it. -/
def register (f : FunctionId) (node : Node) : ArenaM NodeId := do
  if (← get).functions.contains f then
    throw (.functionInUse f)
  let n ← unregistered (Builder.push node)
  modify fun a => { a with functions := a.functions.insert f n }
  return n

end Arena

/-- Carries out a construction call in an arena. -/
def Construction.carryOut : Construction → ArenaM NodeId
  | symbolic name f role point => Arena.register f (.symbolic name f role point)
  | unknown name f => Arena.register f (.symbolic name f .unknown .zero)
  | unknownAt name f point => do
    let node ← ofExcept ((← get).graph.node point)
    unless node.isDiscrete do
      throw .notDiscrete
    Arena.register f (.symbolic name f .unknown (.discrete point))
  | variation name f => Arena.register f (.symbolic name f .variation .zero)
  | discrete name f => Arena.register f (.discrete name f)
  | c => Arena.unregistered c.build

end FormSparsity
