/-!
Recursion on smaller numbers. Orders of differentiation and the operands of a node are smaller than
what they come from, but that is seen only where they are used; `recurse` checks it there.
-/
namespace FormSparsity

/-- The function that `step` defines at a number from its values at smaller numbers. Asked for the
value at a number that is not smaller, `step` is given that of `otherwise`. -/
def recurse {β : Type} (otherwise : Nat → β) (step : Nat → (Nat → β) → β) (n : Nat) : β :=
  step n fun m => if m < n then recurse otherwise step m else otherwise m
termination_by n

theorem recurse_eq {β : Type} (otherwise : Nat → β) (step : Nat → (Nat → β) → β) (n : Nat) :
    recurse otherwise step n =
      step n fun m => if m < n then recurse otherwise step m else otherwise m := by
  rw [recurse]

end FormSparsity
