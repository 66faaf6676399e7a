import FormSparsity.Derivative.MultiIndex

/-!
Differentiation atoms. An expression is differentiated either by a space coordinate or by a spatial
operator applied to a function. Coordinates come before functions, and functions are ordered by
their number and then by the operator (`Atom.key`).

| here | there |
| --- | --- |
| `FunctionId` | `FunctionId` |
| `Operator`, `ofMultiIndex`, `multiIndex?`, `isValue` | `SpatialOp`, `from_multi_index`, `multi_index`, `is_identity` |
| `Atom`, `isCoordinate`, `isFunctional`, `direction?` | `Deriv`, `is_coordinate`, `is_functional`, `coordinate_direction` |
| `Atom.function`, `operator`, `multiIndex`, `withMultiIndex` | `Deriv::func_id`, `spatial_op`, `multi_index`, `with_multi_index` |
| `AtomError` | `DerivError` |
-/
namespace FormSparsity

/-- The number of a function. -/
abbrev FunctionId := Nat

/-- What is applied to a function before an expression is differentiated by the result. -/
inductive Operator where
  /-- The function itself. -/
  | value
  /-- A partial derivative; as built by `Operator.ofMultiIndex`, not the zeroth one. -/
  | derivative (index : MultiIndex)
  /-- The divergence of a vector-valued function. -/
  | divergence
  /-- The normal derivative of some order on a boundary. -/
  | normal (order : Nat)
deriving DecidableEq, Repr, Inhabited

namespace Operator

/-- The partial derivative of a multi-index; the zeroth one is the function itself. -/
def ofMultiIndex (α : MultiIndex) : Operator := if α.isZero then value else derivative α

/-- The multi-index of an operator that is a partial derivative. -/
def multiIndex? : Operator → Option MultiIndex
  | value => some 0
  | derivative α => some α
  | divergence => none
  | normal _ => none

/-- Whether the operator is the function itself. -/
def isValue : Operator → Bool
  | value => true
  | _ => false

/-- Operators are ordered by kind, and within a kind by multi-index or order. -/
def key : Operator → List Int
  | value => [0]
  | derivative α => 1 :: α.entries
  | divergence => [2]
  | normal k => [3, k]

theorem key_injective (p q : Operator) (h : p.key = q.key) : p = q := by
  cases p <;> cases q <;> grind [key, MultiIndex.entries_injective]

end Operator

/-- A single variable of differentiation. -/
inductive Atom where
  /-- The space coordinate of a direction. -/
  | coordinate (direction : Nat)
  /-- A spatial operator applied to a function. -/
  | functional (function : FunctionId) (operator : Operator)
deriving DecidableEq, Repr, Inhabited

namespace Atom

/-- Coordinates come first, by direction; functions follow, by number and then by operator. -/
def key : Atom → List Int
  | coordinate d => [0, d]
  | functional f p => 1 :: (f : Int) :: p.key

theorem key_injective (a b : Atom) (h : a.key = b.key) : a = b := by
  match a, b with
  | coordinate d, coordinate e =>
    have hd : (d : Int) = e := by simpa [key] using h
    rw [Int.ofNat.inj hd]
  | functional f p, functional g q =>
    have ⟨hf, hp⟩ : (f : Int) = g ∧ p.key = q.key := by simpa [key] using h
    rw [Int.ofNat.inj hf, Operator.key_injective p q hp]
  | coordinate _, functional .. | functional .., coordinate _ => simp [key] at h

instance : Ord Atom := ⟨compareOn key⟩

instance : Std.TransOrd Atom := inferInstanceAs (Std.TransCmp (compareOn key))

instance : Std.LawfulEqOrd Atom := Sorted.lawfulEqCmp_of_key key key_injective

/-- Whether the atom is a space coordinate. -/
def isCoordinate : Atom → Bool
  | coordinate _ => true
  | functional .. => false

/-- Whether the atom belongs to a function. -/
def isFunctional : Atom → Bool
  | coordinate _ => false
  | functional .. => true

/-- The direction of a coordinate. -/
def direction? : Atom → Option Nat
  | coordinate d => some d
  | functional .. => none

/-- The function that a functional atom belongs to. -/
def function? : Atom → Option FunctionId
  | coordinate _ => none
  | functional f _ => some f

/-- The kind of operator and the direction or function, as in `x1`, `f5`, `D(1,0,0)f5`, `div(f5)`
and `Dn2(f5)`. -/
def text : Atom → String
  | coordinate d => s!"x{d}"
  | functional f .value => s!"f{f}"
  | functional f (.derivative α) => s!"D{α.text}f{f}"
  | functional f .divergence => s!"div(f{f})"
  | functional f (.normal k) => s!"Dn{k}(f{f})"

end Atom

/-- Why an atom lacks what was asked of it. -/
inductive AtomError where
  /-- The atom is a coordinate and belongs to no function. -/
  | notFunctional (atom : Atom)
  /-- The atom's operator is no partial derivative. -/
  | noMultiIndex (atom : Atom)
deriving DecidableEq, Repr, Inhabited

/-- The wording of an atom error. -/
def AtomError.message : AtomError → String
  | notFunctional a => s!"Derivative {a.text} is not a functional derivative."
  | noMultiIndex a => s!"Derivative {a.text} has no spatial multi-index."

namespace Atom

/-- The function that a functional atom belongs to. -/
def function : Atom → Except AtomError FunctionId
  | functional f _ => .ok f
  | a => .error (.notFunctional a)

/-- The operator of a functional atom. -/
def operator : Atom → Except AtomError Operator
  | functional _ p => .ok p
  | a => .error (.notFunctional a)

/-- The multi-index of a functional atom whose operator is a partial derivative. -/
def multiIndex (a : Atom) : Except AtomError MultiIndex := do
  match (← a.operator).multiIndex? with
  | some α => pure α
  | none => throw (.noMultiIndex a)

/-- The same function under another partial derivative. -/
def withMultiIndex (α : MultiIndex) (a : Atom) : Except AtomError Atom := do
  return functional (← a.function) (.ofMultiIndex α)

end Atom

end FormSparsity
