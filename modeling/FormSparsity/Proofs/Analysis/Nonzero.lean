import FormSparsity.Proofs.Analysis.Factorization
import FormSparsity.Proofs.Derivative.Shift
import FormSparsity.Proofs.Integrand.Construction

/-!
Nonzero derivatives of the nodes of a well-formed graph. For every kind of node, `mem_nonzero_…` says
which derivatives are nonzero in terms of those of the operands. The derivatives kept under an order
are of that order (`isGraded_nonzero`), and properties of the atoms at the leaves that shifts keep
hold of all atoms (`atom_induction`); in particular all atoms are regular.
-/
namespace FormSparsity

open Inquiry

/-- The rule for nonzero derivatives asks for derivatives of the operands alone. -/
theorem Node.asksOnly_nonzero (g : Graph) (order : Nat) (node : Node) :
    (node.nonzero g order).AsksOnly fun place => place.node ∈ node.children := by
  cases node with
  | constant | coordinate | symbolic | discrete => exact asksOnly_pure _
  | neg arg => exact asksOnly_answer (List.mem_singleton_self arg)
  | sum terms => exact asksOnly_union fun term hterm => asksOnly_answer hterm
  | derivative direction arg =>
    have harg : ∀ k, (answer (⟨arg, k⟩ : Place)).AsksOnly
        fun place => place.node ∈ (Node.derivative direction arg).children :=
      fun k => asksOnly_answer (List.mem_singleton_self arg)
    refine asksOnly_ite (fun _ => asksOnly_pure _) fun _ => ?_
    exact asksOnly_bind (harg 1) fun _ => asksOnly_bind (harg order) fun _ =>
      asksOnly_bind (harg (order + 1)) fun _ => asksOnly_pure _
  | product a b =>
    refine asksOnly_union fun k _ => asksOnly_bind (asksOnly_answer (by simp [children])) fun _ => ?_
    exact asksOnly_bind (asksOnly_answer (by simp [children])) fun _ => asksOnly_pure _
  | nonlinear f arg => simpa [nonzero, children] using asksOnly_chainProducts arg order

namespace Graph

variable {g : Graph} {n : NodeId} {k : Nat} {m : Mixed}

theorem mem_linearizedAtoms {first : MixedSet} {α : MultiIndex} :
    m ∈ g.linearizedAtoms first α ↔ m ∈ first ∧ ∃ f p β, m = .ofAtom (.functional f p) ∧
      p.multiIndex? = some β ∧ (β + α).isValid = true ∧ g.isLinearized f = true := by
  rw [linearizedAtoms, SortedSet.mem_select]
  refine and_congr_right fun _ => ?_
  constructor
  · intro h
    split at h
    · rename_i f p hm
      cases hp : p.multiIndex? with
      | none => simp [hp] at h
      | some β =>
        simp only [hp, Option.map_some, Option.getD_some, Bool.and_eq_true] at h
        exact ⟨f, p, β, Mixed.eq_ofAtom_of_atoms hm, hp, h⟩
    · simp at h
  · rintro ⟨f, p, β, rfl, hβ, hv, hf⟩
    simp [Mixed.ofAtom, hβ, hv, hf]

theorem mem_chainAtoms {first : MixedSet} {d : Nat} :
    m ∈ g.chainAtoms first d ↔
      m ∈ g.linearizedAtoms first (.axis d) ∨ m = .ofAtom (.coordinate d) := by
  rw [chainAtoms, Std.ExtTreeSet.mem_union_iff, MixedSet.mem_ofDirection]

theorem order_of_mem_linearizedAtoms {first : MixedSet} {α : MultiIndex}
    (h : m ∈ g.linearizedAtoms first α) :
    m.order = 1 := by
  obtain ⟨-, f, p, β, rfl, -⟩ := mem_linearizedAtoms.mp h
  rfl

theorem order_of_mem_chainAtoms {first : MixedSet} {d : Nat} (h : m ∈ g.chainAtoms first d) :
    m.order = 1 := by
  rcases mem_chainAtoms.mp h with h | rfl
  · exact order_of_mem_linearizedAtoms h
  · rfl

/-! ## The rules as equations -/

theorem nonzero_of_maxOrder_lt (h : maxOrder < k) : g.nonzero n k = ∅ := by
  rw [nonzero, recurse_eq, if_pos h]

theorem nonzero_of_node?_eq_none (h : g.node? n = none) : g.nonzero n k = ∅ := by
  rw [nonzero, recurse_eq]
  simp [h]

theorem le_maxOrder_of_mem_nonzero (h : m ∈ g.nonzero n k) : k ≤ maxOrder := by
  by_contra hk
  rw [nonzero_of_maxOrder_lt (Nat.lt_of_not_le hk)] at h
  exact Std.ExtTreeSet.not_mem_empty h

theorem exists_node?_of_mem_nonzero (h : m ∈ g.nonzero n k) : ∃ node, g.node? n = some node := by
  cases hn : g.node? n with
  | none => simp [nonzero_of_node?_eq_none hn] at h
  | some node => exact ⟨node, rfl⟩

/-- The nonzero derivatives of a place. -/
def nonzeroAt (g : Graph) (place : Place) : MixedSet := g.nonzero place.node place.order

@[simp] theorem nonzeroAt_mk (g : Graph) (n : NodeId) (k : Nat) :
    g.nonzeroAt ⟨n, k⟩ = g.nonzero n k := (rfl)

/-- The nonzero derivatives of a node are what its rule yields from those of its operands. -/
theorem nonzero_eq (hg : g.WellFormed) {node : Node} (hn : g.node? n = some node) (hk : k ≤ maxOrder) :
    g.nonzero n k = (node.nonzero g k).value g.nonzeroAt := by
  rw [nonzero, recurse_eq, if_neg (Nat.not_lt.mpr hk), hn]
  refine value_congr (node.asksOnly_nonzero g k) fun place hplace => ?_
  have hlt : place.node < n := hg.child_lt n node hn _ hplace
  simp only [hlt, if_true]
  rfl

variable (hg : g.WellFormed)
include hg

theorem mem_nonzero_constant {c : Binary64} (hn : g.node? n = some (.constant c)) :
    m ∈ g.nonzero n k ↔ k = 0 ∧ c.isZero = false ∧ m = 1 := by
  constructor
  · intro h
    rw [nonzero_eq hg hn (le_maxOrder_of_mem_nonzero h)] at h
    simp only [Node.nonzero, value_pure] at h
    split at h
    · rename_i hc
      rw [MixedSet.mem_one] at h
      simp_all
    · simp at h
  · rintro ⟨rfl, hc, rfl⟩
    rw [nonzero_eq hg hn (by simp)]
    simp [Node.nonzero, hc, MixedSet.mem_one]

theorem mem_nonzero_coordinate {d : Nat} (hn : g.node? n = some (.coordinate d)) :
    m ∈ g.nonzero n k ↔ k = 0 ∧ m = 1 ∨ k = 1 ∧ m = .ofAtom (.coordinate d) := by
  by_cases hk : k ≤ maxOrder
  · rw [nonzero_eq hg hn hk]
    match k with
    | 0 => simp [Node.nonzero, MixedSet.mem_one]
    | 1 => simp [Node.nonzero]
    | k + 2 => simp [Node.nonzero]
  · rw [nonzero_of_maxOrder_lt (Nat.lt_of_not_le hk)]
    simp only [maxOrder] at hk
    simp only [Std.ExtTreeSet.not_mem_empty, false_iff]
    omega

theorem mem_nonzero_symbolic {name : String} {f : FunctionId} {role : Role} {point : EvalPoint}
    (hn : g.node? n = some (.symbolic name f role point)) :
    m ∈ g.nonzero n k ↔ k = 0 ∧ m = 1 ∧ (∃ p, point = .discrete p) ∨
      k = 1 ∧ m = .ofAtom (.functional f .value) := by
  by_cases hk : k ≤ maxOrder
  · rw [nonzero_eq hg hn hk]
    match k, point with
    | 0, .zero => simp [Node.nonzero]
    | 0, .discrete p => simp [Node.nonzero, MixedSet.mem_one]
    | 1, _ => simpa [Node.nonzero] using eq_comm
    | k + 2, _ => simp [Node.nonzero]
  · rw [nonzero_of_maxOrder_lt (Nat.lt_of_not_le hk)]
    simp only [maxOrder] at hk
    simp only [Std.ExtTreeSet.not_mem_empty, false_iff]
    omega

theorem mem_nonzero_discrete {name : String} {f : FunctionId} (hn : g.node? n = some (.discrete name f)) :
    m ∈ g.nonzero n k ↔ k ≤ maxOrder ∧ m ∈ MixedSet.ofCoordinates g.dimension k := by
  constructor
  · intro h
    have hk := le_maxOrder_of_mem_nonzero h
    rw [nonzero_eq hg hn hk] at h
    exact ⟨hk, h⟩
  · rintro ⟨hk, h⟩
    rwa [nonzero_eq hg hn hk]

theorem mem_nonzero_sum {terms : List NodeId} (hn : g.node? n = some (.sum terms)) :
    m ∈ g.nonzero n k ↔ ∃ term ∈ terms, m ∈ g.nonzero term k := by
  by_cases hk : k ≤ maxOrder
  · rw [nonzero_eq hg hn hk]
    simp [Node.nonzero]
  · simp [nonzero_of_maxOrder_lt (Nat.lt_of_not_le hk)]

theorem nonzero_neg {arg : NodeId} (hn : g.node? n = some (.neg arg)) :
    g.nonzero n k = g.nonzero arg k := by
  by_cases hk : k ≤ maxOrder
  · rw [nonzero_eq hg hn hk]
    rfl
  · simp [nonzero_of_maxOrder_lt (Nat.lt_of_not_le hk)]

theorem mem_nonzero_product {a b : NodeId} (hn : g.node? n = some (.product a b)) :
    m ∈ g.nonzero n k ↔
      k ≤ maxOrder ∧ ∃ j ≤ k, ∃ s ∈ g.nonzero a j, ∃ t ∈ g.nonzero b (k - j), s * t = m := by
  by_cases hk : k ≤ maxOrder
  · rw [nonzero_eq hg hn hk]
    have hrange : ∀ j, j ∈ List.range (k + 1) ↔ j ≤ k := fun j => List.mem_range.trans Nat.lt_succ_iff
    simp only [Node.nonzero, value_union, value_bind, value_answer, nonzeroAt_mk, value_pure, SortedSet.mem_unions,
      List.mem_map, hrange, exists_exists_and_eq_and, MixedSet.mem_mul, hk, true_and]
  · simp [nonzero_of_maxOrder_lt (Nat.lt_of_not_le hk), hk]

theorem mem_nonzero_derivative {d : Nat} {arg : NodeId} (hn : g.node? n = some (.derivative d arg)) :
    m ∈ g.nonzero n k ↔ k ≤ derivativeMaxOrder ∧
      ((∃ c ∈ g.chainAtoms (g.nonzero arg 1) d, c * m ∈ g.nonzero arg (k + 1)) ∨
        ∃ m' ∈ g.nonzero arg k, m ∈ m'.shifts (.axis d)) := by
  by_cases hk : k ≤ derivativeMaxOrder
  · rw [nonzero_eq hg hn (Nat.le_succ_of_le hk)]
    simp [Node.nonzero, Nat.not_lt.mpr hk, hk, Std.ExtTreeSet.mem_union_iff, MixedSet.mem_div_iff,
      MixedSet.mem_shift]
  · by_cases hk' : k ≤ maxOrder
    · rw [nonzero_eq hg hn hk']
      simp [Node.nonzero, Nat.lt_of_not_le hk, hk]
    · simp [nonzero_of_maxOrder_lt (Nat.lt_of_not_le hk'), hk]

/-! ## Orders -/

omit hg in
theorem mem_coordinateLists {directions l : List Nat} :
    l ∈ coordinateLists directions k ↔ l.length = k ∧ ∀ d ∈ l, d ∈ directions := by
  induction k generalizing l with
  | zero => simp +contextual [coordinateLists]
  | succ k ih =>
    simp only [coordinateLists, List.mem_flatMap, List.mem_map, ih]
    constructor
    · rintro ⟨d, hd, l, ⟨hl, hld⟩, rfl⟩
      simpa [hl, hd] using hld
    · rintro ⟨hl, hld⟩
      cases l with
      | nil => simp at hl
      | cons d l =>
        have hlength : l.length = k := by simpa using hl
        exact ⟨d, hld d (by simp), l, ⟨hlength, fun e he => hld e (by simp [he])⟩, rfl⟩

omit hg in
theorem mem_ofCoordinates {dimension : Nat} : m ∈ MixedSet.ofCoordinates dimension k ↔
    m.order = k ∧ ∀ a ∈ m, ∃ d < dimension, a = .coordinate d := by
  simp only [MixedSet.ofCoordinates, SortedSet.mem_ofValues, List.mem_map, mem_coordinateLists,
    List.mem_range]
  constructor
  · rintro ⟨l, ⟨hlength, hl⟩, rfl⟩
    have hperm := Mixed.perm_ofList (l := l.map Atom.coordinate)
    refine ⟨by simpa [Mixed.order, hlength] using hperm.length_eq, fun a ha => ?_⟩
    obtain ⟨d, hd, rfl⟩ := List.mem_map.mp (hperm.mem_iff.mp ha)
    exact ⟨d, hl d hd, rfl⟩
  · rintro ⟨horder, hm⟩
    -- the directions of the atoms, which are all the coordinates that there are
    have hatoms : ∀ l : List Atom, (∀ a ∈ l, ∃ d < dimension, a = .coordinate d) →
        (l.filterMap Atom.direction?).map Atom.coordinate = l ∧
          ∀ d ∈ l.filterMap Atom.direction?, d < dimension := by
      intro l hl
      induction l with
      | nil => simp
      | cons a l ih =>
        obtain ⟨d, hd, rfl⟩ := hl a (by simp)
        have ih := ih fun b hb => hl b (by simp [hb])
        simpa [Atom.direction?, hd, ih.1] using ih.2
    obtain ⟨hmap, hlt⟩ := hatoms m.atoms hm
    refine ⟨m.directions, ⟨?_, hlt⟩, ?_⟩
    · rw [← horder, Mixed.order, ← congrArg List.length hmap, List.length_map]
      rfl
    · rw [Mixed.directions, hmap, Mixed.ofList_atoms]

/-- **The nonzero derivatives of an order are of that order.** -/
theorem isGraded_nonzero (n : NodeId) : IsGraded (g.nonzero n) := by
  induction n using Nat.strongRecOn with
  | ind n ih =>
    intro k m h
    refine ⟨?_, le_maxOrder_of_mem_nonzero h⟩
    obtain ⟨node, hn⟩ := exists_node?_of_mem_nonzero h
    have hlt : ∀ c ∈ node.children, c < n := hg.child_lt n node hn
    cases node with
    | constant c =>
      obtain ⟨rfl, -, rfl⟩ := (mem_nonzero_constant hg hn).mp h
      rfl
    | coordinate d =>
      rcases (mem_nonzero_coordinate hg hn).mp h with ⟨rfl, rfl⟩ | ⟨rfl, rfl⟩ <;> rfl
    | symbolic name f role point =>
      rcases (mem_nonzero_symbolic hg hn).mp h with ⟨rfl, rfl, -⟩ | ⟨rfl, rfl⟩ <;> rfl
    | discrete name f => exact (mem_ofCoordinates.mp ((mem_nonzero_discrete hg hn).mp h).2).1
    | derivative d arg =>
      have harg := ih arg (hlt arg (by simp [Node.children]))
      obtain ⟨-, ⟨c, hc, hm⟩ | ⟨m', hm', hm⟩⟩ := (mem_nonzero_derivative hg hn).mp h
      · have := (harg _ _ hm).1
        rw [Mixed.order_mul, order_of_mem_chainAtoms hc] at this
        omega
      · rw [Mixed.order_of_mem_shifts hm, (harg _ _ hm').1]
    | sum terms =>
      obtain ⟨term, hterm, hm⟩ := (mem_nonzero_sum hg hn).mp h
      exact (ih term (hlt term hterm) k m hm).1
    | neg arg =>
      rw [nonzero_neg hg hn] at h
      exact (ih arg (hlt arg (by simp [Node.children])) k m h).1
    | product a b =>
      obtain ⟨-, j, hj, s, hs, t, ht, rfl⟩ := (mem_nonzero_product hg hn).mp h
      have hs' := (ih a (hlt a (by simp [Node.children])) j s hs).1
      have ht' := (ih b (hlt b (by simp [Node.children])) _ t ht).1
      rw [Mixed.order_mul]
      omega
    | nonlinear f arg =>
      rw [nonzero_eq hg hn (le_maxOrder_of_mem_nonzero h)] at h
      exact ((mem_chainProducts (ih arg (hlt arg (by simp [Node.children]))) k).mp h).1

theorem order_of_mem_nonzero (h : m ∈ g.nonzero n k) : m.order = k := (isGraded_nonzero hg n k m h).1

theorem eq_one_of_mem_nonzero_zero (h : m ∈ g.nonzero n 0) : m = 1 :=
  Mixed.order_eq_zero.mp (order_of_mem_nonzero hg h)

theorem mem_nonzero_nonlinear {f : Nonlinearity} {arg : NodeId} (hn : g.node? n = some (.nonlinear f arg)) :
    m ∈ g.nonzero n k ↔
      k ≤ maxOrder ∧ m.order = k ∧ ∃ factors, IsFactorization (g.nonzero arg) m factors := by
  by_cases hk : k ≤ maxOrder
  · rw [nonzero_eq hg hn hk]
    have harg : IsGraded fun k => g.nonzeroAt ⟨arg, k⟩ := isGraded_nonzero hg arg
    simpa [Node.nonzero, hk] using mem_chainProducts harg k
  · simp [nonzero_of_maxOrder_lt (Nat.lt_of_not_le hk), hk]

/-! ## Atoms -/

/-- **Induction over the atoms of nonzero derivatives.** A property of the atoms at coordinates and
functions, which operands hand on to the nodes built on them and spatial derivatives keep when they
shift an atom, holds of every atom of a nonzero derivative. -/
theorem atom_induction {P : NodeId → Atom → Prop}
    (coordinate : ∀ n d, g.node? n = some (.coordinate d) → P n (.coordinate d))
    (symbolic : ∀ n name f role point, g.node? n = some (.symbolic name f role point) →
      P n (.functional f .value))
    (discrete : ∀ n name f d, g.node? n = some (.discrete name f) → d < g.dimension → P n (.coordinate d))
    (operand : ∀ n node c a, g.node? n = some node → c ∈ node.children → P c a → P n a)
    (shift : ∀ n d arg a b, g.node? n = some (.derivative d arg) → P arg a →
      a.shift? (.axis d) = some b → P n b)
    {a : Atom} (h : m ∈ g.nonzero n k) (ha : a ∈ m) : P n a := by
  induction n using Nat.strongRecOn generalizing k m a with
  | ind n ih =>
    obtain ⟨node, hn⟩ := exists_node?_of_mem_nonzero h
    have hchild : ∀ c ∈ node.children, ∀ {k : Nat} {m : Mixed}, m ∈ g.nonzero c k → a ∈ m → P n a :=
      fun c hc _ _ hm ha => operand n node c a hn hc (ih c (hg.child_lt n node hn c hc) hm ha)
    cases node with
    | constant c =>
      obtain ⟨-, -, rfl⟩ := (mem_nonzero_constant hg hn).mp h
      exact absurd ha Mixed.not_mem_one
    | coordinate d =>
      rcases (mem_nonzero_coordinate hg hn).mp h with ⟨-, rfl⟩ | ⟨-, rfl⟩
      · exact absurd ha Mixed.not_mem_one
      · exact Mixed.mem_ofAtom.mp ha ▸ coordinate n d hn
    | symbolic name f role point =>
      rcases (mem_nonzero_symbolic hg hn).mp h with ⟨-, rfl, -⟩ | ⟨-, rfl⟩
      · exact absurd ha Mixed.not_mem_one
      · exact Mixed.mem_ofAtom.mp ha ▸ symbolic n name f role point hn
    | discrete name f =>
      obtain ⟨d, hd, rfl⟩ := (mem_ofCoordinates.mp ((mem_nonzero_discrete hg hn).mp h).2).2 a ha
      exact discrete n name f d hn hd
    | derivative d arg =>
      have harg : arg ∈ (Node.derivative d arg).children := List.mem_singleton_self arg
      obtain ⟨-, ⟨c, hc, hm⟩ | ⟨m', hm', hm⟩⟩ := (mem_nonzero_derivative hg hn).mp h
      · exact hchild arg harg hm (Mixed.mem_mul.mpr (.inr ha))
      · obtain ⟨a', b, r, hab, rfl, rfl⟩ := Mixed.mem_shifts.mp hm
        rcases Mixed.mem_mul.mp ha with ha | ha
        · obtain rfl := Mixed.mem_ofAtom.mp ha
          refine shift n d arg a' a hn ?_ hab
          exact ih arg (hg.child_lt n _ hn arg harg) hm' (by simp)
        · exact hchild arg harg hm' (Mixed.mem_mul.mpr (.inr ha))
    | sum terms =>
      obtain ⟨term, hterm, hm⟩ := (mem_nonzero_sum hg hn).mp h
      exact hchild term hterm hm ha
    | neg arg =>
      rw [nonzero_neg hg hn] at h
      exact hchild arg (List.mem_singleton_self arg) h ha
    | product a' b =>
      obtain ⟨-, j, -, s, hs, t, ht, rfl⟩ := (mem_nonzero_product hg hn).mp h
      rcases Mixed.mem_mul.mp ha with ha | ha
      · exact hchild a' (by simp [Node.children]) hs ha
      · exact hchild b (by simp [Node.children]) ht ha
    | nonlinear f arg =>
      obtain ⟨-, -, fs, hfs⟩ := (mem_nonzero_nonlinear hg hn).mp h
      rw [← hfs.prod_eq] at ha
      obtain ⟨m', hm', ha⟩ := Mixed.mem_prod.mp ha
      exact hchild arg (List.mem_singleton_self arg) (hfs.mem m' hm') ha

/-- The atoms of nonzero derivatives are regular. -/
theorem isRegular_of_mem_nonzero (h : m ∈ g.nonzero n k) : m.IsRegular := by
  intro a ha
  refine atom_induction hg (P := fun _ a => a.IsRegular) ?_ ?_ ?_ ?_ ?_ h ha
  · exact fun _ _ _ => trivial
  · exact fun _ _ f _ _ _ => Atom.isRegular_value f
  · exact fun _ _ _ _ _ _ => trivial
  · exact fun _ _ _ _ _ _ h => h
  · exact fun _ _ _ _ _ _ _ h => Atom.isRegular_of_shift? h

end Graph

end FormSparsity
