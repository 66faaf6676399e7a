import FormSparsity.Proofs.Derivative.Shift

/-!
The algebra of sets of mixed derivatives. Sets form a commutative monoid under the product, which, like the
quotient, goes through unions (`union_mul`, `union_div`, `div_union`). The quotient is residual: it has what a
divisor can be multiplied with to get into the dividend (`mem_div_iff`), so that dividing by a product is dividing
by one factor after the other (`div_mul`). A shift is a derivation of this algebra (`shift_mul`, `shift_union`),
and shifts by valid indices commute on canonical derivatives (`shift_comm`).
-/
namespace FormSparsity

namespace MixedSet

variable {s s' t t' u : MixedSet}

/-! ## Products -/

theorem mul_comm' (s t : MixedSet) : s * t = t * s := by
  refine Std.ExtTreeSet.ext_mem fun p => ?_
  simp only [mem_mul]
  constructor
  · rintro ⟨m, hm, n, hn, rfl⟩
    exact ⟨n, hn, m, hm, mul_comm n m⟩
  · rintro ⟨n, hn, m, hm, rfl⟩
    exact ⟨m, hm, n, hn, mul_comm m n⟩

theorem mul_assoc' (s t u : MixedSet) : s * t * u = s * (t * u) := by
  refine Std.ExtTreeSet.ext_mem fun p => ?_
  simp only [mem_mul]
  constructor
  · rintro ⟨_, ⟨l, hl, m, hm, rfl⟩, n, hn, rfl⟩
    exact ⟨l, hl, m * n, ⟨m, hm, n, hn, rfl⟩, (mul_assoc l m n).symm⟩
  · rintro ⟨l, hl, _, ⟨m, hm, n, hn, rfl⟩, rfl⟩
    exact ⟨l * m, ⟨l, hl, m, hm, rfl⟩, n, hn, mul_assoc l m n⟩

theorem mul_one' (s : MixedSet) : s * 1 = s := by
  refine Std.ExtTreeSet.ext_mem fun p => ?_
  simp only [mem_mul, mem_one]
  constructor
  · rintro ⟨m, hm, _, rfl, rfl⟩
    rwa [mul_one]
  · intro hp
    exact ⟨p, hp, 1, rfl, mul_one p⟩

instance : CommMonoid MixedSet where
  mul_assoc := mul_assoc'
  one_mul s := (mul_comm' 1 s).trans (mul_one' s)
  mul_one := mul_one'
  mul_comm := mul_comm'

theorem union_mul (s s' t : MixedSet) : (s ∪ s') * t = s * t ∪ s' * t := by
  refine Std.ExtTreeSet.ext_mem fun p => ?_
  simp only [mem_mul, Std.ExtTreeSet.mem_union_iff, or_and_right, exists_or]

theorem mul_union (s t t' : MixedSet) : s * (t ∪ t') = s * t ∪ s * t' := by
  rw [mul_comm, union_mul, mul_comm t, mul_comm t']

/-! ## Quotients -/

theorem union_div (s s' t : MixedSet) : (s ∪ s') / t = s / t ∪ s' / t := by
  refine Std.ExtTreeSet.ext_mem fun r => ?_
  simp only [mem_div_iff, Std.ExtTreeSet.mem_union_iff, and_or_left, exists_or]

theorem div_union (s t t' : MixedSet) : s / (t ∪ t') = s / t ∪ s / t' := by
  refine Std.ExtTreeSet.ext_mem fun r => ?_
  simp only [mem_div_iff, Std.ExtTreeSet.mem_union_iff, or_and_right, exists_or]

/-- To divide by a product is to divide by one factor after the other. -/
theorem div_mul (s t u : MixedSet) : s / (t * u) = s / t / u := by
  refine Std.ExtTreeSet.ext_mem fun r => ?_
  simp only [mem_div_iff, mem_mul]
  constructor
  · rintro ⟨_, ⟨m, hm, n, hn, rfl⟩, hr⟩
    exact ⟨n, hn, m, hm, by rwa [← mul_assoc]⟩
  · rintro ⟨n, hn, m, hm, hr⟩
    exact ⟨m * n, ⟨m, hm, n, hn, rfl⟩, by rwa [mul_assoc]⟩

/-- What was multiplied by a set comes back when it is divided by the set, unless nothing was left of it. -/
theorem mem_mul_div {m : Mixed} (hm : m ∈ s) (ht : t.isEmpty = false) : m ∈ s * t / t := by
  obtain ⟨n, hn⟩ := isEmpty_eq_false_iff.mp ht
  exact mem_div_iff.mpr ⟨n, hn, mem_mul.mpr ⟨m, hm, n, hn, mul_comm m n⟩⟩

/-- To take out one of the listed atoms is to divide by the set of the atoms. -/
theorem divideByAtoms_eq (s : MixedSet) (atoms : List Atom) :
    s.divideByAtoms atoms = s / SortedSet.ofValues (atoms.map .ofAtom) := by
  refine Std.ExtTreeSet.ext_mem fun r => ?_
  simp only [divideByAtoms, SortedSet.mem_bind, List.mem_filterMap, Mixed.erase?_eq_some_iff, mem_div_iff,
    SortedSet.mem_ofValues, List.mem_map]
  constructor
  · rintro ⟨_, hm, a, ha, rfl⟩
    exact ⟨_, ⟨a, ha, rfl⟩, hm⟩
  · rintro ⟨_, ⟨a, ha, rfl⟩, hm⟩
    exact ⟨_, hm, a, ha, rfl⟩

/-- **Product and quotient of sets are residual.** A quotient has exactly what some divisor can be multiplied with
to get into the dividend. The product is associative and commutative, with the set of the undifferentiated value as
unit, and product and quotient go through unions on either side. To divide by a product is to divide by its factors
in any order, and what was multiplied by a set that is not empty comes back in the quotient by it. To take out one of
several listed atoms, in whatever order and however often they are listed, is to divide by the set of these atoms. -/
theorem quotient_isResidual (s s' t u : MixedSet) (atoms : List Atom) :
    (∀ r, r ∈ s / t ↔ ∃ n ∈ t, n * r ∈ s) ∧
    s * t * u = s * (t * u) ∧ s * t = t * s ∧ s * 1 = s ∧
    (s ∪ s') * t = s * t ∪ s' * t ∧ s * (t ∪ u) = s * t ∪ s * u ∧
    (s ∪ s') / t = s / t ∪ s' / t ∧ s / (t ∪ u) = s / t ∪ s / u ∧
    s / (t * u) = s / t / u ∧ s / (t * u) = s / u / t ∧
    (t.isEmpty = false → SortedSet.isSubset s (s * t / t) = true) ∧
    s.divideByAtoms atoms = s / SortedSet.ofValues (atoms.map .ofAtom) := by
  refine ⟨fun _ => mem_div_iff, mul_assoc s t u, mul_comm s t, mul_one s, union_mul s s' t, mul_union s t u,
    union_div s s' t, div_union s t u, div_mul s t u, ?swapped, fun ht => ?subset, divideByAtoms_eq s atoms⟩
  case swapped => rw [mul_comm t u, div_mul]
  case subset =>
    rw [SortedSet.isSubset_iff]
    intro m hm
    exact mem_mul_div (Std.ExtTreeSet.mem_toList.mp hm) ht

/-- The factors `{u}` and `{u*v, v}` share atoms with each other and with what they are multiplied with. -/
theorem quotient_isResidual_sharedAtoms :
    let u : Mixed := .ofAtom (.functional 5 .value)
    let v : Mixed := .ofAtom (.functional 7 .value)
    let s : MixedSet := SortedSet.ofValues [u, u * v]
    let t : MixedSet := SortedSet.ofValues [u * v, v]
    t.isEmpty = false ∧ SortedSet.isSubset s (s * t / t) = true ∧ v ∈ s * t / (t * {u}) ∧
      s * t / (t * {u}) = s * t / {u} / t := by
  intro u v s t
  have ht : t.isEmpty = false := by decide +kernel
  obtain ⟨-, -, -, -, -, -, -, -, -, -, hsubset, -⟩ := quotient_isResidual s s t {u} []
  obtain ⟨-, -, -, -, -, -, -, -, -, hswapped, -, -⟩ := quotient_isResidual (s * t) s t {u} []
  exact ⟨ht, hsubset ht, by decide +kernel, hswapped⟩

/-! ## Shifts -/

theorem shift_mul (β : MultiIndex) (s t : MixedSet) :
    shift β (s * t) = shift β s * t ∪ s * shift β t := by
  refine Std.ExtTreeSet.ext_mem fun p => ?_
  simp only [Std.ExtTreeSet.mem_union_iff, mem_shift, mem_mul]
  constructor
  · rintro ⟨_, ⟨m, hm, n, hn, rfl⟩, hp⟩
    rcases Mixed.mem_shifts_mul.mp hp with ⟨m', hm', rfl⟩ | ⟨n', hn', rfl⟩
    · exact .inl ⟨m', ⟨m, hm, hm'⟩, n, hn, rfl⟩
    · exact .inr ⟨m, hm, n', ⟨n, hn, hn'⟩, rfl⟩
  · rintro (⟨m', ⟨m, hm, hm'⟩, n, hn, rfl⟩ | ⟨m, hm, n', ⟨n, hn, hn'⟩, rfl⟩)
    · exact ⟨m * n, ⟨m, hm, n, hn, rfl⟩, Mixed.mem_shifts_mul.mpr (.inl ⟨m', hm', rfl⟩)⟩
    · exact ⟨m * n, ⟨m, hm, n, hn, rfl⟩, Mixed.mem_shifts_mul.mpr (.inr ⟨n', hn', rfl⟩)⟩

theorem shift_union (β : MultiIndex) (s t : MixedSet) : shift β (s ∪ t) = shift β s ∪ shift β t := by
  refine Std.ExtTreeSet.ext_mem fun p => ?_
  simp only [Std.ExtTreeSet.mem_union_iff, mem_shift, or_and_right, exists_or]

/-- What is reached by two shifts is reached by them in the other order. -/
theorem mem_shift_swap {β γ : MultiIndex} {p : Mixed} (hs : ∀ m ∈ s, m.IsCanonical) (hβ : β.isValid = true)
    (h : p ∈ shift β (shift γ s)) : p ∈ shift γ (shift β s) := by
  obtain ⟨n, hn, hp⟩ := mem_shift.mp h
  obtain ⟨m, hm, hn⟩ := mem_shift.mp hn
  obtain ⟨n', hn', hp'⟩ := Mixed.shifts_comm (hs m hm) hβ hn hp
  exact mem_shift.mpr ⟨n', mem_shift.mpr ⟨m, hm, hn'⟩, hp'⟩

theorem shift_comm {β γ : MultiIndex} (hs : ∀ m ∈ s, m.IsCanonical) (hβ : β.isValid = true)
    (hγ : γ.isValid = true) : shift γ (shift β s) = shift β (shift γ s) :=
  Std.ExtTreeSet.ext_mem fun _ => ⟨mem_shift_swap hs hγ, mem_shift_swap hs hβ⟩

/-- **The shift is a derivation.** It obeys the product rule for the product of sets, and it goes through unions,
whatever the index and the sets are. By two indices that describe derivatives, canonical derivatives can be shifted
in either order. -/
theorem shift_isDerivation (β γ : MultiIndex) (s t : MixedSet) :
    shift β (s * t) = shift β s * t ∪ s * shift β t ∧
    shift β (s ∪ t) = shift β s ∪ shift β t ∧
    (β.isValid = true → γ.isValid = true → (∀ m ∈ s, m.IsCanonical) →
      shift γ (shift β s) = shift β (shift γ s)) :=
  ⟨shift_mul β s t, shift_union β s t, fun hβ hγ hs => shift_comm hs hβ hγ⟩

/-- Of `u*u*D0[u]`, where shifted atoms become equal to atoms that are there, every double shift is reached in both
orders. -/
theorem shift_isDerivation_repeatedAtom :
    let u : Mixed := .ofAtom (.functional 5 .value)
    let slope : Mixed := .ofAtom (.functional 5 (.derivative ⟨1, 0, 0⟩))
    let crossed : Mixed := .ofAtom (.functional 5 (.derivative ⟨1, 1, 0⟩))
    let s : MixedSet := {u * u * slope}
    (MultiIndex.axis 0).isValid = true ∧ (MultiIndex.axis 1).isValid = true ∧ (∀ m ∈ s, m.IsCanonical) ∧
      u * slope * crossed ∈ shift (.axis 1) (shift (.axis 0) s) ∧
      shift (.axis 1) (shift (.axis 0) s) = shift (.axis 0) (shift (.axis 1) s) := by
  intro u slope crossed s
  have hs : ∀ m ∈ s, m.IsCanonical := by
    intro m hm
    rw [mem_singleton.mp hm]
    decide +kernel
  obtain ⟨-, -, hcomm⟩ := shift_isDerivation (.axis 0) (.axis 1) s ∅
  exact ⟨by decide, by decide, hs, by decide +kernel, hcomm (by decide) (by decide) hs⟩

end MixedSet

end FormSparsity
