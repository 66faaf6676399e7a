import FormSparsity.Proofs.Analysis.Demand
import Mathlib.Data.List.MinMax
import Mathlib.Order.Nat

/-!
Atoms of nonzero derivatives. A nonzero derivative of a node is by coordinates of space and by functions that are
declared at the node or below it (`Graph.isAtomOf_of_mem_nonzero`). Spatial derivatives are taken of a function in
the directions of space alone, and no more often than spatial derivatives are nested (`Graph.derivativeDepth`).
-/
namespace FormSparsity

namespace MultiIndex

variable {α β : MultiIndex} {d i dimension : Nat}

/-- The order of differentiation in a direction. -/
def entry (α : MultiIndex) (direction : Nat) : Int := α.entries.getD direction 0

theorem entry_zero : (0 : MultiIndex).entry i = 0 := by
  match i with
  | 0 | 1 | 2 | _ + 3 => rfl

theorem entry_add : (α + β).entry i = α.entry i + β.entry i := by
  match i with
  | 0 | 1 | 2 | _ + 3 => rfl

theorem entry_axis_of_ne (h : i ≠ d) : (axis d).entry i = 0 := by
  match i with
  | 0 | 1 | 2 => simp [entry, entries, axis, h.symm]
  | _ + 3 => rfl

theorem order_add_axis (hd : d < maxDimension) : (α + axis d).order = α.order + 1 := by
  have haxis : (axis d).order = 1 := by
    rw [maxDimension] at hd
    obtain rfl | rfl | rfl : d = 0 ∨ d = 1 ∨ d = 2 := by omega
    all_goals rfl
  simp only [order, add_x, add_y, add_z] at haxis ⊢
  omega

/-- Whether the index describes a partial derivative of order one or above in the directions of space alone. -/
structure IsPartial (dimension : Nat) (α : MultiIndex) : Prop where
  valid : α.isValid = true
  ne_zero : α ≠ 0
  entry_eq_zero : ∀ i, dimension ≤ i → α.entry i = 0

/-- One more derivative in a direction of space is a partial derivative. -/
theorem isPartial_add_axis (hdimension : dimension ≤ maxDimension) (hd : d < dimension)
    (hα : α = 0 ∨ α.IsPartial dimension) : (α + axis d).IsPartial dimension := by
  obtain ⟨hvalid, hentry⟩ : α.isValid = true ∧ ∀ i, dimension ≤ i → α.entry i = 0 := by
    rcases hα with rfl | hα
    · exact ⟨isValid_zero, fun _ _ => entry_zero⟩
    · exact ⟨hα.valid, hα.entry_eq_zero⟩
  refine ⟨isValid_add hvalid (isValid_axis d), fun hzero => ?_, fun i hi => ?_⟩
  · have horder := order_add_axis (α := α) (Nat.lt_of_lt_of_le hd hdimension)
    rw [isValid_iff] at hvalid
    rw [hzero] at horder
    simp only [order, zero_x, zero_y, zero_z] at horder
    omega
  · rw [entry_add, hentry i hi, entry_axis_of_ne (by omega), add_zero]

end MultiIndex

namespace Graph

variable {g : Graph} {n c : NodeId} {k : Nat} {m : Mixed} {a : Atom}

/-- How often spatial derivatives are nested, from a node on downwards. -/
def derivativeDepth (g : Graph) : NodeId → Nat :=
  recurse (fun _ => 0) fun n depth =>
    match g.node? n with
    | some (.derivative _ arg) => depth arg + 1
    | some node => (node.children.map depth).foldr max 0
    | none => 0

theorem derivativeDepth_derivative (hg : g.WellFormed) {d : Nat} {arg : NodeId}
    (hn : g.node? n = some (.derivative d arg)) : g.derivativeDepth n = g.derivativeDepth arg + 1 := by
  have hlt : arg < n := hg.child_lt n _ hn arg (List.mem_singleton_self arg)
  rw [derivativeDepth, recurse_eq, hn]
  exact congrArg (· + 1) (if_pos hlt)

/-- Nodes have no fewer spatial derivatives nested than their operands. -/
theorem derivativeDepth_le (hg : g.WellFormed) (hc : g.IsOperand n c) :
    g.derivativeDepth c ≤ g.derivativeDepth n := by
  obtain ⟨node, hn, hc⟩ := hc
  have hlt : c < n := hg.child_lt n node hn c hc
  by_cases hderivative : ∃ d arg, node = .derivative d arg
  · obtain ⟨d, arg, rfl⟩ := hderivative
    obtain rfl : c = arg := List.mem_singleton.mp hc
    rw [derivativeDepth_derivative hg hn]
    exact Nat.le_succ _
  · conv_rhs => rw [derivativeDepth, recurse_eq, hn]
    split
    · rename_i d arg heq
      exact absurd ⟨d, arg, Option.some.inj heq⟩ hderivative
    · rename_i heq
      obtain rfl := Option.some.inj heq
      have hmem := List.mem_map_of_mem (f := fun c => if c < n then g.derivativeDepth c else 0) hc
      simp only [if_pos hlt] at hmem
      exact List.le_max_of_le hmem (Nat.le_refl _)
    · simp_all

/-- Whether an atom can occur in the derivatives of a node: a coordinate of space, or a function that is declared at
the node or below it, as it is or under a partial derivative in the directions of space whose order is at most
the number of spatial derivatives nested there. -/
def IsAtomOf (g : Graph) (n : NodeId) : Atom → Prop
  | .coordinate d => d < g.dimension
  | .functional f p =>
    (∃ c name role point, Relation.ReflTransGen g.IsOperand n c ∧ g.node? c = some (.symbolic name f role point)) ∧
      (p = .value ∨ ∃ α : MultiIndex, p = .derivative α ∧ α.IsPartial g.dimension ∧ α.order ≤ g.derivativeDepth n)

/-- What can occur in the derivatives of an operand can occur in those of the node. -/
theorem IsAtomOf.operand (hg : g.WellFormed) (hc : g.IsOperand n c) (h : g.IsAtomOf c a) : g.IsAtomOf n a := by
  cases a with
  | coordinate d => exact h
  | functional f p =>
    obtain ⟨⟨c', name, role, point, hbelow, hc'⟩, hp⟩ := h
    refine ⟨⟨c', name, role, point, .head hc hbelow, hc'⟩, hp.imp_right ?_⟩
    rintro ⟨α, rfl, hα, horder⟩
    have hle := derivativeDepth_le hg hc
    exact ⟨α, rfl, hα, by omega⟩

theorem IsAtomOf.multiIndex? {f : FunctionId} {p : Operator} (h : g.IsAtomOf n (.functional f p)) :
    ∃ α : MultiIndex, p.multiIndex? = some α ∧ (α = 0 ∨ α.IsPartial g.dimension) ∧ α.order ≤ g.derivativeDepth n := by
  obtain ⟨-, rfl | ⟨α, rfl, hα, horder⟩⟩ := h
  · exact ⟨0, rfl, .inl rfl, Int.natCast_nonneg _⟩
  · exact ⟨α, rfl, .inr hα, horder⟩

/-- A spatial derivative takes one more derivative of a function, in a direction of space. -/
theorem IsAtomOf.shift (hg : g.WellFormed) {d : Nat} {arg : NodeId} (hn : g.node? n = some (.derivative d arg))
    {b : Atom} (h : g.IsAtomOf arg a) (hab : a.shift? (.axis d) = some b) : g.IsAtomOf n b := by
  obtain ⟨f, p, α, rfl, hp, -, rfl⟩ := Atom.shift?_eq_some_iff.mp hab
  obtain ⟨α', hα', hα, horder⟩ := h.multiIndex?
  obtain rfl : α' = α := by simpa [hp] using hα'.symm
  have hd : d < g.dimension := hg.isInSpace n _ hn
  have hpartial := MultiIndex.isPartial_add_axis hg.dimension_le hd hα
  have harg : g.IsOperand n arg := ⟨_, hn, List.mem_singleton_self arg⟩
  refine ⟨(h.operand hg harg).1, .inr ⟨_, ?_, hpartial, ?_⟩⟩
  · rw [Operator.ofMultiIndex, if_neg (mt MultiIndex.isZero_iff.mp hpartial.ne_zero)]
  · rw [MultiIndex.order_add_axis (Nat.lt_of_lt_of_le hd hg.dimension_le), derivativeDepth_derivative hg hn]
    push_cast
    omega

/-- **Nonzero derivatives are by atoms that can occur.** -/
theorem isAtomOf_of_mem_nonzero (hg : g.WellFormed) (h : m ∈ g.nonzero n k) (ha : a ∈ m) : g.IsAtomOf n a := by
  refine atom_induction hg (P := g.IsAtomOf) ?_ ?_ ?_ ?_ ?_ h ha
  · exact fun n d hn => hg.isInSpace n _ hn
  · exact fun n name f role point hn => ⟨⟨n, name, role, point, .refl, hn⟩, .inl rfl⟩
  · exact fun _ _ _ _ _ hd => hd
  · exact fun n node c a hn hc h => h.operand hg ⟨node, hn, hc⟩
  · exact fun n d arg a b hn h hab => h.shift hg hn hab

/-- Whether a derivative is what a derivative of a node of some order should be: it is of this order, and by atoms
that can occur. -/
structure IsDerivativeOf (g : Graph) (n : NodeId) (k : Nat) (m : Mixed) : Prop where
  order_eq : m.order = k
  isAtomOf : ∀ a ∈ m, g.IsAtomOf n a

theorem isDerivativeOf_of_mem_nonzero (hg : g.WellFormed) (h : m ∈ g.nonzero n k) : g.IsDerivativeOf n k m :=
  ⟨order_of_mem_nonzero hg h, fun _ => isAtomOf_of_mem_nonzero hg h⟩

end Graph

end FormSparsity
