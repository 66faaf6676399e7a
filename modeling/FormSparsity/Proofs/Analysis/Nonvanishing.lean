import FormSparsity.Proofs.Analysis.Nonzero

/-!
Derivatives by coordinates and by functions that do not vanish where they are evaluated. A function
that is evaluated at a discrete function has a value there, and so have its spatial derivatives. If a
derivative by such functions and by coordinates is nonzero, then so is every derivative by some of its
atoms (`Graph.mem_nonzero_of_mul_mem`): every rule keeps this (`Graph.IsDivisible`). Of a derivative by a function that is evaluated at zero this
does not hold: of `u*v`, with `v` evaluated at zero, the derivative by both is nonzero, the one by `u`
is not.
-/
namespace FormSparsity

namespace Graph

variable {g : Graph} {n : NodeId} {k : Nat} {m r : Mixed}

/-- Whether the atom is a coordinate or belongs to a function that is evaluated at a discrete
function. -/
def IsNonvanishing (g : Graph) : Atom → Prop
  | .coordinate _ => True
  | .functional f _ => g.isLinearized f = true

/-- A shifted atom belongs to the same function. -/
theorem isNonvanishing_shift? {β : MultiIndex} {a b : Atom} (h : a.shift? β = some b) :
    g.IsNonvanishing b ↔ g.IsNonvanishing a := by
  obtain ⟨f, p, α, rfl, -, -, rfl⟩ := Atom.shift?_eq_some_iff.mp h
  rfl

/-- An atom that can be shifted along an axis is among the atoms of the chain rule, if it belongs to a
function that does not vanish and the derivative by it is nonzero. -/
theorem mem_chainAtoms_of_shift? {first : MixedSet} {d : Nat} {a b : Atom}
    (h : a.shift? (.axis d) = some b) (ha : g.IsNonvanishing a) (hfirst : .ofAtom a ∈ first) :
    .ofAtom a ∈ g.chainAtoms first d := by
  obtain ⟨f, p, α, rfl, hp, hv, -⟩ := Atom.shift?_eq_some_iff.mp h
  exact mem_chainAtoms.mpr (.inl (mem_linearizedAtoms.mpr ⟨hfirst, f, p, α, rfl, hp, hv, ha⟩))

/-- The atoms of the chain rule do not vanish. -/
theorem isNonvanishing_of_mem_chainAtoms {first : MixedSet} {d : Nat} {c : Mixed}
    (h : c ∈ g.chainAtoms first d) : ∀ a ∈ c, g.IsNonvanishing a := by
  intro a ha
  rcases mem_chainAtoms.mp h with h | rfl
  · obtain ⟨-, f, p, -, rfl, -, -, hf⟩ := mem_linearizedAtoms.mp h
    obtain rfl := Mixed.mem_ofAtom.mp ha
    exact hf
  · obtain rfl := Mixed.mem_ofAtom.mp ha
    trivial

/-- If no function is evaluated at zero, nonzero derivatives are by functions that do not vanish. -/
theorem isNonvanishing_of_mem_nonzero (hg : g.WellFormed) (hdecl : g.DeclaresOnce)
    (hpoints : ∀ n name f role, g.node? n ≠ some (.symbolic name f role .zero)) (h : m ∈ g.nonzero n k) :
    ∀ a ∈ m, g.IsNonvanishing a := by
  intro a ha
  refine atom_induction hg (P := fun _ a => g.IsNonvanishing a) ?_ ?_ ?_ ?_ ?_ h ha
  · exact fun _ _ _ => trivial
  · intro n name f role point hn
    have hf : g.function? f = some n := hdecl n _ f hn rfl
    cases point with
    | zero => exact absurd hn (hpoints n name f role)
    | discrete p => simp [IsNonvanishing, isLinearized, evalPoint?, hf, hn]
  · exact fun _ _ _ _ _ _ => trivial
  · exact fun _ _ _ _ _ _ h => h
  · exact fun _ _ _ _ _ _ h hshift => (isNonvanishing_shift? hshift).mpr h

/-- A symbolic function that does not vanish is evaluated at a discrete function. -/
theorem point_of_isNonvanishing (hg : g.DeclaresOnce) {name : String} {f : FunctionId} {role : Role}
    {point : EvalPoint} (hn : g.node? n = some (.symbolic name f role point)) {p : Operator}
    (h : g.IsNonvanishing (.functional f p)) : ∃ p, point = .discrete p := by
  have hf : g.function? f = some n := hg n _ f hn rfl
  have hpoint : g.evalPoint? f = some point := by simp [evalPoint?, hf, hn]
  simp only [IsNonvanishing, isLinearized, hpoint] at h
  cases point with
  | zero => simp at h
  | discrete q => exact ⟨q, rfl⟩

end Graph

/-- If listed derivatives can be divided as long as something is left, then so can what they make up:
a divisor of a product of listed derivatives is such a product too. -/
theorem IsFactorization.of_mul {w : Nat → MixedSet} {P : Mixed → Prop}
    (hP : ∀ s t, P (s * t) → P s ∧ P t)
    (hw : ∀ s t, s * t ∈ w (s * t).order → P (s * t) → s ∈ w s.order)
    {fs : List Mixed} {m r : Mixed} (h : IsFactorization w (m * r) fs) (hm : P (m * r)) :
    ∃ fs', IsFactorization w m fs' := by
  induction fs generalizing m r with
  | nil =>
    have hone : m * r = 1 := h.prod_eq.symm
    have horder : m.order = 0 := by
      have := congrArg Mixed.order hone
      simp only [Mixed.order_mul, Mixed.order_one] at this
      omega
    rw [Mixed.order_eq_zero.mp horder]
    exact ⟨[], .nil⟩
  | cons f fs ih =>
    have hprod : m * r = f * fs.prod := by rw [← h.prod_eq, List.prod_cons]
    obtain ⟨m₁, m₂, r₁, r₂, rfl, rfl, hfs⟩ := Mixed.exists_of_mul_eq_mul hprod
    have hf : m₁ * r₁ ∈ w (m₁ * r₁).order := h.mem _ (by simp)
    have htail : IsFactorization w (m₂ * r₂) fs :=
      ⟨hfs, fun f hf => h.order_pos f (by simp [hf]), fun f hf => h.mem f (by simp [hf])⟩
    rw [hprod, hfs] at hm
    obtain ⟨hm₁, hm₂⟩ := hP _ _ hm
    obtain ⟨fs', hfs'⟩ := ih htail hm₂
    by_cases hpos : 0 < m₁.order
    · exact ⟨m₁ :: fs', hfs'.cons hpos (hw m₁ r₁ hf hm₁)⟩
    · have hone : m₁ = 1 := Mixed.order_eq_zero.mp (by omega)
      rw [hone, one_mul]
      exact ⟨fs', hfs'⟩

/-- Of a mixed derivative by one atom at most, only the value and the derivative itself are divisors. -/
theorem Mixed.eq_one_or_eq_mul {m r : Mixed} (h : (m * r).order ≤ 1) : m = 1 ∨ m = m * r := by
  rw [order_mul] at h
  by_cases hm : m.order = 0
  · exact .inl (order_eq_zero.mp hm)
  · have hr : r = 1 := order_eq_zero.mp (by omega)
    exact .inr (by rw [hr, mul_one])

namespace Graph

variable {g : Graph} {n : NodeId} {k : Nat} {m r : Mixed}

/-! ## One node -/

/-- Whether the nonzero derivatives of a node that are by coordinates and by functions that do not vanish can be
divided. -/
def IsDivisible (g : Graph) (n : NodeId) : Prop :=
  ∀ k m r, m * r ∈ g.nonzero n k → (∀ a ∈ m * r, g.IsNonvanishing a) → m ∈ g.nonzero n m.order

/-- A node that has no derivatives but first ones is divisible if it has a value where these do not vanish. -/
theorem isDivisible_of_le_one (hg : g.WellFormed) (hk : ∀ k, ∀ m ∈ g.nonzero n k, k ≤ 1)
    (hvalue : ∀ m ∈ g.nonzero n 1, (∀ a ∈ m, g.IsNonvanishing a) → 1 ∈ g.nonzero n 0) : g.IsDivisible n := by
  intro k m r h hv
  have horder : (m * r).order = k := order_of_mem_nonzero hg h
  have hk1 : k ≤ 1 := hk k _ h
  rcases Mixed.eq_one_or_eq_mul (horder.trans_le hk1) with rfl | hm
  · rcases Nat.le_one_iff_eq_zero_or_eq_one.mp hk1 with rfl | rfl
    · rwa [eq_one_of_mem_nonzero_zero hg h] at h
    · exact hvalue _ h hv
  · rw [hm, horder]
    exact h

theorem isDivisible_constant (hg : g.WellFormed) {c : Binary64} (hn : g.node? n = some (.constant c)) :
    g.IsDivisible n := by
  have horder : ∀ k, ∀ m ∈ g.nonzero n k, k = 0 := fun k m h => ((mem_nonzero_constant hg hn).mp h).1
  refine isDivisible_of_le_one hg (fun k m h => ?_) fun m h _ => ?_
  · rw [horder k m h]
    exact Nat.zero_le 1
  · exact absurd (horder 1 m h) Nat.one_ne_zero

theorem isDivisible_coordinate (hg : g.WellFormed) {d : Nat} (hn : g.node? n = some (.coordinate d)) :
    g.IsDivisible n := by
  refine isDivisible_of_le_one hg (fun k m h => ?_) fun _ _ _ => (mem_nonzero_coordinate hg hn).mpr (.inl ⟨rfl, rfl⟩)
  rcases (mem_nonzero_coordinate hg hn).mp h with ⟨rfl, -⟩ | ⟨rfl, -⟩
  · exact Nat.zero_le 1
  · exact Nat.le_refl 1

/-- A symbolic function that does not vanish has a value where it is evaluated. -/
theorem isDivisible_symbolic (hg : g.WellFormed) (hdecl : g.DeclaresOnce) {name : String} {f : FunctionId}
    {role : Role} {point : EvalPoint} (hn : g.node? n = some (.symbolic name f role point)) :
    g.IsDivisible n := by
  refine isDivisible_of_le_one hg (fun k m h => ?_) fun m h hv => ?_
  · rcases (mem_nonzero_symbolic hg hn).mp h with ⟨rfl, -⟩ | ⟨rfl, -⟩
    · exact Nat.zero_le 1
    · exact Nat.le_refl 1
  · rcases (mem_nonzero_symbolic hg hn).mp h with ⟨hzero, -⟩ | ⟨-, rfl⟩
    · exact absurd hzero Nat.one_ne_zero
    · have hf : g.IsNonvanishing (.functional f .value) := hv _ (Mixed.mem_ofAtom.mpr rfl)
      exact (mem_nonzero_symbolic hg hn).mpr (.inl ⟨rfl, rfl, point_of_isNonvanishing hdecl hn hf⟩)

theorem isDivisible_discrete (hg : g.WellFormed) {name : String} {f : FunctionId}
    (hn : g.node? n = some (.discrete name f)) : g.IsDivisible n := by
  intro k m r h _
  obtain ⟨hk, hmem⟩ := (mem_nonzero_discrete hg hn).mp h
  obtain ⟨horder, hatoms⟩ := mem_ofCoordinates.mp hmem
  rw [Mixed.order_mul] at horder
  refine (mem_nonzero_discrete hg hn).mpr ⟨by omega, mem_ofCoordinates.mpr ⟨rfl, fun a ha => ?_⟩⟩
  exact hatoms a (Mixed.mem_mul.mpr (.inl ha))

theorem isDivisible_sum (hg : g.WellFormed) {terms : List NodeId} (hn : g.node? n = some (.sum terms))
    (hterms : ∀ term ∈ terms, g.IsDivisible term) : g.IsDivisible n := by
  intro k m r h hv
  obtain ⟨term, hterm, hmr⟩ := (mem_nonzero_sum hg hn).mp h
  exact (mem_nonzero_sum hg hn).mpr ⟨term, hterm, hterms term hterm k m r hmr hv⟩

/-- By Leibniz's rule, the atoms that go to a factor make up a divisor of what goes there. -/
theorem isDivisible_product (hg : g.WellFormed) {a b : NodeId} (hn : g.node? n = some (.product a b))
    (ha : g.IsDivisible a) (hb : g.IsDivisible b) : g.IsDivisible n := by
  intro k m r h hv
  have hk : k ≤ maxOrder := le_maxOrder_of_mem_nonzero h
  have horder : (m * r).order = k := order_of_mem_nonzero hg h
  obtain ⟨-, j, -, s, hs, t, ht, hst⟩ := (mem_nonzero_product hg hn).mp h
  obtain ⟨m₁, m₂, r₁, r₂, rfl, rfl, rfl⟩ := Mixed.exists_of_mul_eq_mul hst.symm
  have hm₁ := ha j m₁ r₁ hs fun c hc => hv c (by rw [← hst]; exact Mixed.mem_mul.mpr (.inl hc))
  have hm₂ := hb _ m₂ r₂ ht fun c hc => hv c (by rw [← hst]; exact Mixed.mem_mul.mpr (.inr hc))
  rw [Mixed.order_mul, Mixed.order_mul] at horder
  rw [Mixed.order_mul]
  refine (mem_nonzero_product hg hn).mpr ⟨by omega, m₁.order, by omega, m₁, hm₁, m₂, ?_, rfl⟩
  rwa [Nat.add_sub_cancel_left]

/-- By the chain rule, the atoms are distributed over factors of which each can be divided. -/
theorem isDivisible_nonlinear (hg : g.WellFormed) {f : Nonlinearity} {arg : NodeId}
    (hn : g.node? n = some (.nonlinear f arg)) (harg : g.IsDivisible arg) : g.IsDivisible n := by
  intro k m r h hv
  obtain ⟨hk, horder, fs, hfs⟩ := (mem_nonzero_nonlinear hg hn).mp h
  obtain ⟨fs', hfs'⟩ := hfs.of_mul (P := fun m => ∀ a ∈ m, g.IsNonvanishing a)
    (fun s t hst => ⟨fun a ha => hst a (Mixed.mem_mul.mpr (.inl ha)), fun a ha => hst a (Mixed.mem_mul.mpr (.inr ha))⟩)
    (fun s t hst hv => harg _ s t hst hv) hv
  rw [Mixed.order_mul] at horder
  exact (mem_nonzero_nonlinear hg hn).mpr ⟨by omega, rfl, fs', hfs'⟩

/-- If an atom of the chain rule brings a derivative in, then it also brings in the derivatives by some of the atoms,
since it does not vanish itself. -/
theorem mem_nonzero_of_chain (hg : g.WellFormed) {d : Nat} {arg : NodeId} (hn : g.node? n = some (.derivative d arg))
    (harg : g.IsDivisible arg) (hm : m.order ≤ derivativeMaxOrder) (hv : ∀ a ∈ m * r, g.IsNonvanishing a) {c : Mixed}
    (hc : c ∈ g.chainAtoms (g.nonzero arg 1) d) (hcm : c * (m * r) ∈ g.nonzero arg k) : m ∈ g.nonzero n m.order := by
  rw [← mul_assoc] at hcm
  have hcv : ∀ a ∈ c * m * r, g.IsNonvanishing a := by
    intro a ha
    rw [mul_assoc] at ha
    rcases Mixed.mem_mul.mp ha with ha | ha
    · exact isNonvanishing_of_mem_chainAtoms hc a ha
    · exact hv a ha
  have hmem := harg k (c * m) r hcm hcv
  rw [Mixed.order_mul, order_of_mem_chainAtoms hc, Nat.add_comm] at hmem
  exact (mem_nonzero_derivative hg hn).mpr ⟨hm, .inl ⟨c, hc, hmem⟩⟩

/-- If a shift brings a derivative in, then what brings in the derivative by some of the atoms depends on the shifted
one. If it is kept, it can be shifted in what is left. If not, then it is an atom of the chain rule before the shift. -/
theorem mem_nonzero_of_shift (hg : g.WellFormed) {d : Nat} {arg : NodeId} (hn : g.node? n = some (.derivative d arg))
    (harg : g.IsDivisible arg) (hm : m.order ≤ derivativeMaxOrder) (hv : ∀ a ∈ m * r, g.IsNonvanishing a) {s : Mixed}
    (hs : s ∈ g.nonzero arg k) (hshift : m * r ∈ s.shifts (.axis d)) : m ∈ g.nonzero n m.order := by
  obtain ⟨a, b, q, hab, rfl, hbq⟩ := Mixed.mem_shifts.mp hshift
  have hb : b ∈ m * r := by simp [hbq]
  have hav : g.IsNonvanishing a := (isNonvanishing_shift? hab).mp (hv b hb)
  have hqv : ∀ c ∈ Mixed.ofAtom a * q, g.IsNonvanishing c := by
    intro c hc
    rcases Mixed.mem_mul.mp hc with hc | hc
    · exact Mixed.mem_ofAtom.mp hc ▸ hav
    · exact hv c (by simp [hbq, hc])
  rcases Mixed.ofAtom_mul_eq_mul hbq.symm with ⟨m₁, rfl, rfl⟩ | ⟨r₁, rfl, rfl⟩
  · rw [← mul_assoc] at hs hqv
    have hm₁ := harg k _ r hs hqv
    rw [Mixed.order_mul, Mixed.order_ofAtom] at hm hm₁ ⊢
    refine (mem_nonzero_derivative hg hn).mpr ⟨hm, .inr ⟨_, hm₁, ?_⟩⟩
    exact Mixed.mem_shifts.mpr ⟨a, b, m₁, hab, rfl, rfl⟩
  · have ha : .ofAtom a ∈ g.nonzero arg 1 := harg k _ _ hs hqv
    rw [← mul_assoc] at hs hqv
    have hm₁ := harg k _ r₁ hs hqv
    rw [Mixed.order_mul, Mixed.order_ofAtom, Nat.add_comm] at hm₁
    exact (mem_nonzero_derivative hg hn).mpr ⟨hm, .inl ⟨_, mem_chainAtoms_of_shift? hab hav ha, hm₁⟩⟩

theorem isDivisible_derivative (hg : g.WellFormed) {d : Nat} {arg : NodeId}
    (hn : g.node? n = some (.derivative d arg)) (harg : g.IsDivisible arg) : g.IsDivisible n := by
  intro k m r h hv
  have horder : m.order + r.order = k := by rw [← Mixed.order_mul, order_of_mem_nonzero hg h]
  obtain ⟨hk, ⟨c, hc, hcm⟩ | ⟨s, hs, hshift⟩⟩ := (mem_nonzero_derivative hg hn).mp h
  · exact mem_nonzero_of_chain hg hn harg (by omega) hv hc hcm
  · exact mem_nonzero_of_shift hg hn harg (by omega) hv hs hshift

/-! ## All nodes -/

theorem isDivisible (hg : g.WellFormed) (hdecl : g.DeclaresOnce) (n : NodeId) : g.IsDivisible n := by
  induction n using Nat.strongRecOn with
  | ind n ih =>
    cases hn : g.node? n with
    | none =>
      intro k m r h
      obtain ⟨node, hnode⟩ := exists_node?_of_mem_nonzero h
      rw [hn] at hnode
      cases hnode
    | some node =>
      have hchild : ∀ c ∈ node.children, g.IsDivisible c := fun c hc => ih c (hg.child_lt n node hn c hc)
      cases node with
      | constant c => exact isDivisible_constant hg hn
      | coordinate d => exact isDivisible_coordinate hg hn
      | symbolic name f role point => exact isDivisible_symbolic hg hdecl hn
      | discrete name f => exact isDivisible_discrete hg hn
      | derivative d arg => exact isDivisible_derivative hg hn (hchild arg (by simp [Node.children]))
      | sum terms => exact isDivisible_sum hg hn hchild
      | neg arg =>
        intro k m r
        rw [nonzero_neg hg hn, nonzero_neg hg hn]
        exact hchild arg (by simp [Node.children]) k m r
      | product a b =>
        exact isDivisible_product hg hn (hchild a (by simp [Node.children])) (hchild b (by simp [Node.children]))
      | nonlinear f arg => exact isDivisible_nonlinear hg hn (hchild arg (by simp [Node.children]))

/-- **Nonvanishing derivatives can be divided.** If a derivative by coordinates and by functions that do
not vanish is nonzero, then so is the derivative by any of its atoms. -/
theorem mem_nonzero_of_mul_mem (hg : g.WellFormed) (hdecl : g.DeclaresOnce)
    (h : m * r ∈ g.nonzero n k) (hv : ∀ a ∈ m * r, g.IsNonvanishing a) : m ∈ g.nonzero n m.order :=
  isDivisible hg hdecl n k m r h hv

end Graph

end FormSparsity
