import FormSparsity.Analysis.Classification
import FormSparsity.Analysis.Demand
import FormSparsity.Analysis.Error
import FormSparsity.Pass.Basic
import Std.Data.ExtTreeMap

/-!
Sessions: what analyses of one graph have found so far. Sets of derivatives are kept by kind, pass,
node and order, so that each is computed once. Required sets grow as demand comes in; what a node
has already passed on to its operands is kept too, so that only new demand is passed on.

| here | there |
| --- | --- |
| `Session`, `setCount` | `SparsitySession` with its `MemoTable`, `num_memoized_sets` |
| `SetKind`, `SetKey` | `SubsetKind`, `MemoKey` |
| `requiredSet`, `isClassified`, `addRequired` | `MemoTable::required`, `is_classified`, `merge_required` |
| `unpropagated`, `recordPropagated` | `MemoTable::unpropagated`, `record_propagated` |
| `addSample`, the field `samples` | `request_multi_index`, `multi_index_requests` |
| `Journal`, `Record` | the log records that are written |
-/
namespace FormSparsity

/-- The sets of derivatives that are kept of a node. -/
inductive SetKind where
  | nonzero
  | required
  | constant
  | varying
deriving DecidableEq, Repr, Inhabited

namespace SetKind

/-- The place of the kind in the order of kinds. -/
def rank : SetKind → Nat
  | nonzero => 0
  | required => 1
  | constant => 2
  | varying => 3

/-- The letter for a kind. -/
def text : SetKind → String
  | nonzero => "W"
  | required => "R"
  | constant => "C"
  | varying => "V"

end SetKind

/-- What a set of derivatives is kept under. -/
structure SetKey where
  kind : SetKind
  pass : PassId
  node : NodeId
  order : Nat
deriving DecidableEq, Repr

namespace SetKey

/-- Keys are ordered by kind, pass, node and order. -/
def entries (k : SetKey) : List Nat := [k.kind.rank, k.pass, k.node, k.order]

theorem entries_injective (j k : SetKey) (h : j.entries = k.entries) : j = k := by
  obtain ⟨kind, _⟩ := j
  obtain ⟨kind', _⟩ := k
  cases kind <;> cases kind' <;> simp_all [entries, SetKind.rank]

instance : Ord SetKey := ⟨compareOn entries⟩

instance : Std.TransOrd SetKey := inferInstanceAs (Std.TransCmp (compareOn entries))

instance : Std.LawfulEqOrd SetKey := Sorted.lawfulEqCmp_of_key entries entries_injective

end SetKey

/-- A node in a pass. -/
structure NodeKey where
  pass : PassId
  node : NodeId
deriving DecidableEq, Repr

namespace NodeKey

/-- Keys are ordered by pass and then by node. -/
def entries (k : NodeKey) : List Nat := [k.pass, k.node]

theorem entries_injective (j k : NodeKey) (h : j.entries = k.entries) : j = k := by
  cases j; cases k; simp_all [entries]

instance : Ord NodeKey := ⟨compareOn entries⟩

instance : Std.TransOrd NodeKey := inferInstanceAs (Std.TransCmp (compareOn entries))

instance : Std.LawfulEqOrd NodeKey := Sorted.lawfulEqCmp_of_key entries entries_injective

end NodeKey

/-- How much a message goes into detail. -/
inductive Level where
  | info
  | debug
  | trace
deriving DecidableEq, Repr

/-- A message of an analysis. -/
structure Record where
  level : Level
  message : String
deriving DecidableEq, Repr

/-- The messages of an analysis, kept only while the journal is open. -/
structure Journal where
  isOpen : Bool := false
  records : Array Record := #[]
deriving Repr

/-- What has been found about a graph. -/
structure Session where
  /-- The sets of derivatives found. A required set is kept only if it has members. -/
  sets : Std.ExtTreeMap SetKey MixedSet := ∅
  /-- The demand that each node has passed on to its operands. -/
  propagated : Std.ExtTreeMap NodeKey Demand := ∅
  /-- The nodes whose required sets have been determined. -/
  ready : SortedSet NodeKey := ∅
  evaluators : Std.ExtTreeMap NodeKey Evaluator := ∅
  /-- The derivatives of discrete functions whose values are needed. -/
  samples : Std.ExtTreeMap FunctionId (SortedSet MultiIndex) := ∅
  journal : Journal := {}
  /-- The number of passes opened, also in sessions that this one follows. -/
  passes : Nat := 0

namespace Session

instance : Inhabited Session := ⟨{}⟩

/-- A session that knows nothing yet but goes on with the journal and the numbers of passes. -/
def restart (s : Session) : Session := { journal := s.journal, passes := s.passes }

/-- The number of sets of derivatives kept. -/
def setCount (s : Session) : Nat := s.sets.size

/-- The required derivatives of a place so far. -/
def requiredSet (s : Session) (p : PassId) (n : NodeId) (order : Nat) : MixedSet :=
  s.sets.getD ⟨.required, p, n, order⟩ ∅

/-- Whether the required derivatives of a place were told apart into constant and varying ones. -/
def isClassified (s : Session) (p : PassId) (n : NodeId) (order : Nat) : Bool :=
  s.sets.contains ⟨.constant, p, n, order⟩ || s.sets.contains ⟨.varying, p, n, order⟩

/-- Adds to the required derivatives of a place. -/
def addRequired (s : Session) (p : PassId) (n : NodeId) (order : Nat) (set : MixedSet) : Session :=
  if set.isEmpty then s
  else { s with sets := s.sets.insert ⟨.required, p, n, order⟩ (s.requiredSet p n order ∪ set) }

/-- The part of a demand that the node has not passed on yet; nothing if there is none and the
demand covers no more orders than what was passed on. -/
def unpropagated (s : Session) (k : NodeKey) (demand : Demand) : Option Demand :=
  match s.propagated[k]? with
  | none => some demand
  | some seen =>
    let fresh := demand.without seen
    if seen.length < demand.length || fresh.isNonempty then some fresh else none

/-- Notes that a node has passed a demand on. -/
def recordPropagated (s : Session) (k : NodeKey) (demand : Demand) : Session :=
  { s with propagated := s.propagated.insert k ((s.propagated.getD k []).merge demand) }

/-- Notes that the value of a derivative of a discrete function is needed. -/
def addSample (s : Session) (f : FunctionId) (α : MultiIndex) : Session :=
  { s with samples := s.samples.insert f ((s.samples.getD f ∅).insert α) }

end Session

end FormSparsity
