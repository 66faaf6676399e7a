import FormSparsity.Analysis.Classification
import FormSparsity.Pass.Computation
import FormSparsity.Problem.System

/-!
Couplings: which functions take part in the equations of each region, and which pairs of a variation
and an unknown meet there. The pairs of all regions make up the block pattern of the system matrix,
kept row by row.

| here | there |
| --- | --- |
| `Couplings`, `RootRecord` | `EquationSparsity`, `RootSparsity` |
| `addVariation`, `addPair`, `regions` | `EquationSparsity::add_variation`, `add_pair`, `regions` |
| `blockPatternBy` | `block_pattern`, with the constructor of the matrix library as an argument |
-/
namespace FormSparsity

/-- A variation and an unknown that meet in an integrand. -/
structure FunctionPair where
  variation : FunctionId
  unknown : FunctionId
deriving DecidableEq, Repr, Inhabited

namespace FunctionPair

/-- Pairs are ordered by variation and then by unknown. -/
def entries (p : FunctionPair) : List Nat := [p.variation, p.unknown]

theorem entries_injective (p q : FunctionPair) (h : p.entries = q.entries) : p = q := by
  cases p; cases q; simp_all [entries]

instance : Ord FunctionPair := ⟨compareOn entries⟩

instance : Std.TransOrd FunctionPair := inferInstanceAs (Std.TransCmp (compareOn entries))

instance : Std.LawfulEqOrd FunctionPair := Sorted.lawfulEqCmp_of_key entries entries_injective

end FunctionPair

/-- Sets of values by region. A region is listed only if its set has members. -/
abbrev RegionTable (α : Type) [Ord α] := Std.ExtTreeMap Region (SortedSet α)

/-- The table with one more value for a region. -/
def RegionTable.add {α : Type} [Ord α] [Std.TransOrd α] (table : RegionTable α) (r : Region)
    (a : α) : RegionTable α :=
  table.insert r ((table.getD r ∅).insert a)

/-- What was found out about one integrand in one pass. -/
structure RootRecord where
  domain : Domain
  computation : Computation
  isBoundary : Bool
  root : NodeId
  classification : Classification

/-- The outcome of an analysis. -/
structure Couplings where
  /-- The pairs that meet in the form. -/
  pairs : RegionTable FunctionPair := ∅
  /-- The pairs that meet in the boundary conditions. -/
  boundaryPairs : RegionTable FunctionPair := ∅
  variations : RegionTable FunctionId := ∅
  unknowns : RegionTable FunctionId := ∅
  /-- The integrands in the order in which they were analysed. -/
  roots : Array RootRecord := #[]

namespace Couplings

instance : Inhabited Couplings := ⟨{}⟩

/-- Notes that a variation takes part in the equations of a region. -/
def addVariation (c : Couplings) (r : Region) (v : FunctionId) : Couplings :=
  { c with variations := RegionTable.add c.variations r v }

/-- Notes that a variation and an unknown meet in a region. -/
def addPair (c : Couplings) (r : Region) (p : FunctionPair) (isBoundary : Bool) : Couplings :=
  let c :=
    if isBoundary then { c with boundaryPairs := RegionTable.add c.boundaryPairs r p }
    else { c with pairs := RegionTable.add c.pairs r p }
  let c := c.addVariation r p.variation
  { c with unknowns := RegionTable.add c.unknowns r p.unknown }

/-- The regions whose equations some function takes part in. -/
def regions (c : Couplings) : SortedSet Region :=
  SortedSet.ofValues (c.variations.keys ++ c.unknowns.keys)

/-- All pairs by region, those of the boundary conditions after those of the form. -/
def allPairs (c : Couplings) : List FunctionPair :=
  (c.pairs.toList ++ c.boundaryPairs.toList).flatMap fun (_, pairs) => pairs.toList

end Couplings

/-- A block of the system matrix: the row of a variation and the column of an unknown. -/
structure Block where
  row : Nat
  column : Nat
deriving DecidableEq, Repr, Inhabited

namespace Block

/-- Blocks are ordered by row and then by column. -/
def entries (b : Block) : List Nat := [b.row, b.column]

theorem entries_injective (a b : Block) (h : a.entries = b.entries) : a = b := by
  cases a; cases b; simp_all [entries]

instance : Ord Block := ⟨compareOn entries⟩

instance : Std.TransOrd Block := inferInstanceAs (Std.TransCmp (compareOn entries))

instance : Std.LawfulEqOrd Block := Sorted.lawfulEqCmp_of_key entries entries_injective

end Block

/-- The nonzero blocks of a matrix in compressed rows: the columns of row `i` are the entries of
`columns` from number `offsets[i]` up to but without number `offsets[i + 1]`. -/
structure BlockPattern where
  rowCount : Nat
  columnCount : Nat
  offsets : List Nat
  columns : List Nat
deriving DecidableEq, Repr, Inhabited

namespace BlockPattern

/-- Starts all rows before row `count` that are not started yet where the next block will be. -/
def startRows (p : BlockPattern) (count : Nat) : BlockPattern :=
  { p with offsets := p.offsets ++ List.replicate (count - p.offsets.length) p.columns.length }

/-- One block more, in the last row that is started or below it. -/
def add (p : BlockPattern) (b : Block) : BlockPattern :=
  let p := p.startRows (b.row + 1)
  { p with columns := p.columns ++ [b.column] }

/-- The pattern of a set of blocks. Rows without blocks are started together with the next row that
has one, or at the end. -/
def ofBlocks (rowCount columnCount : Nat) (blocks : SortedSet Block) : BlockPattern :=
  (blocks.toList.foldl add ⟨rowCount, columnCount, [0], []⟩).startRows (rowCount + 1)

end BlockPattern

namespace Couplings

/-- The block of a pair, by the places of its functions in the lists of a system. -/
def block (system : EquationSystem) (p : FunctionPair) : Except SystemError Block :=
  match system.variations.idxOf? p.variation with
  | none => .error (.notVariation p.variation)
  | some row =>
    match system.unknowns.idxOf? p.unknown with
    | none => .error (.notUnknown p.unknown)
    | some column => .ok { row, column }

/-- The block pattern of the system matrix, with a row for every variation and a column for every
unknown, as the constructor of a matrix library takes it. -/
def blockPatternBy (construct : BlockPattern → Except String BlockPattern) (c : Couplings)
    (system : EquationSystem) : Except SystemError BlockPattern := do
  let blocks ← c.allPairs.mapM (block system)
  let pattern :=
    .ofBlocks system.variations.length system.unknowns.length (SortedSet.ofValues blocks)
  (construct pattern).mapError .malformedPattern

/-- The block pattern for a constructor that takes every pattern. -/
def blockPattern (c : Couplings) (system : EquationSystem) : Except SystemError BlockPattern :=
  c.blockPatternBy .ok system

end Couplings

end FormSparsity
