/-!
Linear orders given by a key. A type whose values are told apart by a key inherits the key's order:
comparing keys is transitive because comparing in the key's type is, and two values compare equal
only if they are equal because the key is injective.
-/
namespace FormSparsity.Sorted

variable {α β : Type}

/-- Comparing by an injective key calls no two different values equal. -/
theorem lawfulEqCmp_of_key [Ord β] [Std.LawfulEqOrd β] (key : α → β)
    (injective : ∀ a b, key a = key b → a = b) : Std.LawfulEqCmp (compareOn key) where
  compare_self := Std.LawfulEqOrd.compare_eq_iff_eq.mpr rfl
  eq_of_compare h := injective _ _ (Std.LawfulEqOrd.compare_eq_iff_eq.mp h)

/-- Two comparisons in sequence call two values equal only if both do. -/
theorem lawfulEqCmp_compareLex {first second : α → α → Ordering}
    [Std.ReflCmp first] [Std.ReflCmp second]
    (separates : ∀ a b, first a b = .eq → second a b = .eq → a = b) :
    Std.LawfulEqCmp (compareLex first second) where
  compare_self := by simp [compareLex, Std.ReflCmp.compare_self]
  eq_of_compare h := by
    simp only [compareLex, Ordering.then_eq_eq] at h
    exact separates _ _ h.1 h.2

end FormSparsity.Sorted
