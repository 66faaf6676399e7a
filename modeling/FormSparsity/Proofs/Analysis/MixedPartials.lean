import FormSparsity.Proofs.Analysis.ProductRule

/-!
Mixed spatial derivatives. An expression can be differentiated in two directions in either order
(`MixedPartials`); both can be built of any expression (`Builder.ends_mixedPartials`). Up to order one, the
nonzero derivatives of the result by coordinates and by functions that do not vanish are said by a condition
in which the two directions play the same part (`IsCrossed`), so they do not depend on the order of the
directions (`MixedPartials.mem_iff_swap`). At order two they may: the inner spatial derivative is not tracked
at order three, so that nothing is left of the chain rule for the outer direction
(`MixedPartials.mem_derivativeMaxOrder`).
-/
namespace FormSparsity

/-! ## Shifts in two directions -/

/-- A function under a regular operator can be shifted along every axis. -/
theorem Atom.exists_shift?_axis {f : FunctionId} {p : Operator} (h : (Atom.functional f p).IsRegular)
    (d : Nat) : ∃ q, (Atom.functional f p).shift? (.axis d) = some (.functional f q) := by
  obtain ⟨α, hα, rfl⟩ := h
  exact ⟨_, Atom.shift?_eq_some_iff.mpr
    ⟨f, _, α, rfl, by simp, MultiIndex.isValid_add hα (MultiIndex.isValid_axis d), rfl⟩⟩

namespace Mixed

/-- A derivative with some atom is a shift: either this atom was shifted, or it was there before. -/
theorem ofAtom_mul_mem_shifts {β : MultiIndex} {a : Atom} {m n : Mixed} :
    ofAtom a * m ∈ n.shifts β ↔ (∃ b, b.shift? β = some a ∧ n = ofAtom b * m) ∨
      ∃ m', n = ofAtom a * m' ∧ m ∈ m'.shifts β := by
  constructor
  · intro h
    obtain ⟨b, c, r, hbc, rfl, hcr⟩ := mem_shifts.mp h
    rcases ofAtom_mul_eq_mul hcr with ⟨s, hs, rfl⟩ | ⟨r', rfl, rfl⟩
    · obtain ⟨rfl, rfl⟩ := ofAtom_eq_ofAtom_mul.mp hs
      exact .inl ⟨b, hbc, by rw [one_mul]⟩
    · exact .inr ⟨ofAtom b * r', mul_left_comm _ _ _, mem_shifts.mpr ⟨b, c, r', hbc, rfl, rfl⟩⟩
  · rintro (⟨b, hb, rfl⟩ | ⟨m', rfl, hm⟩)
    · exact mem_shifts.mpr ⟨b, a, m, hb, rfl, rfl⟩
    · exact mem_shifts_mul.mpr (.inr ⟨m, hm, rfl⟩)

/-- A shift leaves a coordinate alone. -/
theorem coordinate_mul_mem_shifts {β : MultiIndex} {d : Nat} {m n : Mixed} :
    ofAtom (.coordinate d) * m ∈ n.shifts β ↔ ∃ m', n = ofAtom (.coordinate d) * m' ∧ m ∈ m'.shifts β := by
  refine ofAtom_mul_mem_shifts.trans (or_iff_right ?_)
  rintro ⟨b, hb, -⟩
  obtain ⟨f, p, α, -, -, -, hcoordinate⟩ := Atom.shift?_eq_some_iff.mp hb
  cases hcoordinate

end Mixed

namespace Graph

variable {g : Graph} {n along : NodeId} {d i j k : Nat} {c e m m' r : Mixed}

/-- A derivative is by atoms that do not vanish if its shift is. -/
theorem isNonvanishing_of_mem_shifts {β : MultiIndex} (h : m ∈ m'.shifts β) (hm : ∀ a ∈ m, g.IsNonvanishing a) :
    ∀ a ∈ m', g.IsNonvanishing a := by
  obtain ⟨a, b, r, hab, rfl, rfl⟩ := Mixed.mem_shifts.mp h
  intro a' ha'
  rcases Mixed.mem_mul.mp ha' with ha' | ha'
  · rw [Mixed.mem_ofAtom.mp ha']
    exact (isNonvanishing_shift? hab).mp (hm b (by simp))
  · exact hm a' (by simp [ha'])

/-! ## Atoms of the chain rule -/

/-- Whether a derivative is by a function that does not vanish, under some operator. -/
def IsByFunction (g : Graph) (c : Mixed) : Prop := ∃ f p, c = .ofAtom (.functional f p) ∧ g.isLinearized f = true

/-- Whether the chain rule for the slope of a node takes a derivative: the one by the coordinate, or one by a
function that does not vanish which the node has. -/
def IsChain (g : Graph) (n : NodeId) (d : Nat) (c : Mixed) : Prop :=
  c = .ofAtom (.coordinate d) ∨ g.IsByFunction c ∧ c ∈ g.nonzero n 1

/-- Whether the chain rule for the slope of a node takes an atom of one of its nonzero derivatives of an
order. -/
def HasChainTerm (g : Graph) (n : NodeId) (d k : Nat) : Prop :=
  ∃ c m, g.IsChain n d c ∧ c * m ∈ g.nonzero n k

theorem mem_chainAtoms_nonzero (hg : g.WellFormed) :
    c ∈ g.chainAtoms (g.nonzero n 1) d ↔ g.IsChain n d c := by
  rw [mem_chainAtoms, mem_linearizedAtoms, IsChain, or_comm]
  refine or_congr_right ⟨?_, ?_⟩
  · rintro ⟨hc, f, p, β, rfl, -, -, hf⟩
    exact ⟨⟨f, p, rfl, hf⟩, hc⟩
  · rintro ⟨⟨f, p, rfl, hf⟩, hc⟩
    obtain ⟨q, hq⟩ := Atom.exists_shift?_axis (isRegular_of_mem_nonzero hg hc _ (Mixed.mem_ofAtom.mpr rfl)) d
    obtain ⟨f', p', β, heq, hβ, hv, -⟩ := Atom.shift?_eq_some_iff.mp hq
    obtain ⟨rfl, rfl⟩ : f = f' ∧ p = p' := by simpa using heq
    exact ⟨hc, f, p, β, rfl, hβ, hv, hf⟩

/-- The rule for the spatial derivative of a node, up to the order that is tracked. -/
theorem mem_slope (hg : g.WellFormed) (hn : g.node? along = some (.derivative d n))
    (hk : k ≤ derivativeMaxOrder) : m ∈ g.nonzero along k ↔
      (∃ c, g.IsChain n d c ∧ c * m ∈ g.nonzero n (k + 1)) ∨ ∃ m' ∈ g.nonzero n k, m ∈ m'.shifts (.axis d) := by
  rw [mem_nonzero_derivative hg hn]
  simp only [hk, true_and, mem_chainAtoms_nonzero hg]

theorem IsByFunction.isNonvanishing (h : g.IsByFunction c) : ∀ a ∈ c, g.IsNonvanishing a := by
  obtain ⟨f, p, rfl, hf⟩ := h
  intro a ha
  rwa [Mixed.mem_ofAtom.mp ha]

/-- A function that does not vanish leaves the first of two alternatives. -/
theorem IsByFunction.isNonvanishing_of_or (he : g.IsByFunction e)
    (hm : (∀ a ∈ m, g.IsNonvanishing a) ∨ ∀ f, g.isLinearized f = false) : ∀ a ∈ m, g.IsNonvanishing a := by
  obtain ⟨f, p, rfl, hf⟩ := he
  exact hm.resolve_right fun hno => by simp [hno f] at hf

theorem IsByFunction.order_eq (h : g.IsByFunction c) : c.order = 1 := by
  obtain ⟨f, p, rfl, -⟩ := h
  rfl

theorem IsChain.order_eq (h : g.IsChain n d c) : c.order = 1 := by
  rcases h with rfl | h
  · rfl
  · exact h.1.order_eq

theorem IsChain.isNonvanishing (h : g.IsChain n d c) : ∀ a ∈ c, g.IsNonvanishing a := by
  rcases h with rfl | h
  · intro a ha
    rw [Mixed.mem_ofAtom.mp ha]
    trivial
  · exact h.1.isNonvanishing

theorem isNonvanishing_mul (hm : ∀ a ∈ m, g.IsNonvanishing a) (hr : ∀ a ∈ r, g.IsNonvanishing a) :
    ∀ a ∈ m * r, g.IsNonvanishing a := fun a ha => (Mixed.mem_mul.mp ha).elim (hm a) (hr a)

/-- A function that a node is differentiated by, beside others that do not vanish, is one that it has a
nonzero derivative by alone. -/
theorem IsByFunction.mem_nonzero (hg : g.Built) (hc : g.IsByFunction c) (h : c * r ∈ g.nonzero n k)
    (hr : ∀ a ∈ r, g.IsNonvanishing a) : c ∈ g.nonzero n 1 := by
  rw [← hc.order_eq]
  exact mem_nonzero_of_mul_mem hg.wellFormed hg.declaresOnce h (isNonvanishing_mul hc.isNonvanishing hr)

/-- The chain rule for the slope of a node takes a function of which one more derivative is nonzero beside
another atom of the chain rule. -/
theorem isChain_along (hg : g.Built) (hn : g.node? along = some (.derivative j n)) (hc : g.IsChain n j c)
    (he : g.IsByFunction e) (h : c * e * r ∈ g.nonzero n k) (hr : ∀ a ∈ r, g.IsNonvanishing a) :
    g.IsChain along i e := by
  refine .inr ⟨he, (mem_slope hg.wellFormed hn (by decide)).mpr (.inl ⟨c, hc, ?_⟩)⟩
  have hce := mem_nonzero_of_mul_mem hg.wellFormed hg.declaresOnce h
    (isNonvanishing_mul (isNonvanishing_mul hc.isNonvanishing he.isNonvanishing) hr)
  rwa [Mixed.order_mul, hc.order_eq, he.order_eq] at hce

/-- So it does if that other atom is one that the spatial derivative shifts. -/
theorem isChain_along_of_shift (hg : g.Built) (hn : g.node? along = some (.derivative j n))
    (he : g.IsByFunction e) (h : e * m' ∈ g.nonzero n k) (hshift : m ∈ m'.shifts (.axis j))
    (hm : ∀ a ∈ m, g.IsNonvanishing a) : g.IsChain along i e := by
  have hv := isNonvanishing_of_mem_shifts hshift hm
  obtain ⟨a, b, q, hab, rfl, rfl⟩ := Mixed.mem_shifts.mp hshift
  -- the atom that is shifted belongs to a function, which the chain rule along `j` takes as well
  obtain ⟨f, p, α, rfl, -, -, rfl⟩ := Atom.shift?_eq_some_iff.mp hab
  have hf : g.IsByFunction (.ofAtom (.functional f p)) := ⟨f, p, rfl, hv (.functional f p) (by simp)⟩
  have hq : ∀ a ∈ q, g.IsNonvanishing a := fun a ha => hv a (by simp [ha])
  have hfirst := hf.mem_nonzero hg (by rwa [mul_left_comm] at h) (isNonvanishing_mul he.isNonvanishing hq)
  rw [mul_left_comm, ← mul_assoc] at h
  exact isChain_along hg hn (.inr ⟨hf, hfirst⟩) he h hq

/-! ## Two directions -/

/-- The nodes of the spatial derivative of an expression in two directions, in either order. -/
structure MixedPartials (g : Graph) where
  i : Nat
  j : Nat
  arg : NodeId
  alongI : NodeId
  alongJ : NodeId
  iAfterJ : NodeId
  jAfterI : NodeId
  alongI_eq : g.node? alongI = some (.derivative i arg)
  alongJ_eq : g.node? alongJ = some (.derivative j arg)
  iAfterJ_eq : g.node? iAfterJ = some (.derivative i alongJ)
  jAfterI_eq : g.node? jAfterI = some (.derivative j alongI)

/-- Whether a derivative of order `k` arises along `i` and `j` from the nonzero derivatives of a node. -/
inductive IsCrossed (g : Graph) (n : NodeId) (i j k : Nat) (m : Mixed) : Prop
  /-- Both directions bring in an atom by the chain rule. -/
  | chain (c e : Mixed) (hc : g.IsChain n j c) (he : g.IsChain n i e) (h : c * (e * m) ∈ g.nonzero n (k + 2))
  /-- One direction shifts the function that the other one brings in. -/
  | slope (c : Mixed) (hc : g.IsByFunction c) (hfirst : c ∈ g.nonzero n 1) (h : c * m ∈ g.nonzero n (k + 1))
  /-- The direction `j` shifts and the direction `i` brings in an atom. -/
  | chainShift (e m' : Mixed) (he : g.IsChain n i e) (h : e * m' ∈ g.nonzero n (k + 1))
      (hm : m ∈ m'.shifts (.axis j))
  /-- The direction `j` brings in an atom and the direction `i` shifts. -/
  | shiftChain (c m' : Mixed) (hc : g.IsChain n j c) (h : c * m' ∈ g.nonzero n (k + 1))
      (hm : m ∈ m'.shifts (.axis i))
  /-- Both directions shift. -/
  | shift (m'' m' : Mixed) (h : m'' ∈ g.nonzero n k) (hm' : m' ∈ m''.shifts (.axis j))
      (hm : m ∈ m'.shifts (.axis i))

/-- The two directions play the same part. -/
theorem IsCrossed.symm (hg : g.WellFormed) (h : g.IsCrossed n i j k m) : g.IsCrossed n j i k m := by
  cases h with
  | chain c e hc he h => exact .chain e c he hc (by rwa [mul_left_comm])
  | slope c hc hfirst h => exact .slope c hc hfirst h
  | chainShift e m' he h hm => exact .shiftChain e m' he h hm
  | shiftChain c m' hc h hm => exact .chainShift c m' hc h hm
  | shift m'' m' h hm' hm =>
    obtain ⟨q, hq, hm⟩ := Mixed.shifts_comm (isRegular_of_mem_nonzero hg h).isCanonical
      (MultiIndex.isValid_axis _) hm' hm
    exact .shift m'' q h hq hm

namespace MixedPartials

variable (r : g.MixedPartials)

/-- The same expression with the directions swapped. -/
def swap : g.MixedPartials where
  i := r.j
  j := r.i
  arg := r.arg
  alongI := r.alongJ
  alongJ := r.alongI
  iAfterJ := r.jAfterI
  jAfterI := r.iAfterJ
  alongI_eq := r.alongJ_eq
  alongJ_eq := r.alongI_eq
  iAfterJ_eq := r.jAfterI_eq
  jAfterI_eq := r.iAfterJ_eq

/-- What the second derivative has arises along both directions. -/
theorem isCrossed_of_mem (hg : g.Built) (hk : k < derivativeMaxOrder)
    (hm : (∀ a ∈ m, g.IsNonvanishing a) ∨ ∀ f, g.isLinearized f = false)
    (h : m ∈ g.nonzero r.iAfterJ k) : g.IsCrossed r.arg r.i r.j k m := by
  have hw := hg.wellFormed
  rcases (mem_slope hw r.iAfterJ_eq (Nat.le_of_lt hk)).mp h with ⟨e, he, hem⟩ | ⟨m', hm', hshift⟩
  · rcases (mem_slope hw r.alongJ_eq (Nat.succ_le_of_lt hk)).mp hem with ⟨c, hc, hcem⟩ | ⟨q, hq, hqshift⟩
    · refine .chain c e hc (he.imp_right fun he => ⟨he.1, ?_⟩) hcem
      rw [mul_left_comm] at hcem
      exact he.1.mem_nonzero hg hcem (isNonvanishing_mul hc.isNonvanishing (he.1.isNonvanishing_of_or hm))
    · rcases he with rfl | ⟨⟨f, p, rfl, hf⟩, -⟩
      · obtain ⟨m', rfl, hm'⟩ := Mixed.coordinate_mul_mem_shifts.mp hqshift
        exact .chainShift _ m' (.inl rfl) hq hm'
      · have hv := IsByFunction.isNonvanishing_of_or ⟨f, p, rfl, hf⟩ hm
        obtain ⟨b, hb, rfl⟩ | ⟨m', rfl, hm'⟩ := Mixed.ofAtom_mul_mem_shifts.mp hqshift
        · -- the outer direction brings in the function that the inner one has shifted
          obtain ⟨f', p', α, rfl, -, -, heq⟩ := Atom.shift?_eq_some_iff.mp hb
          cases heq
          have hfunction : g.IsByFunction (.ofAtom (.functional f p')) := ⟨f, p', rfl, hf⟩
          exact .slope _ hfunction (hfunction.mem_nonzero hg hq hv) hq
        · have hfunction : g.IsByFunction (.ofAtom (.functional f p)) := ⟨f, p, rfl, hf⟩
          have hv' := isNonvanishing_of_mem_shifts hm' hv
          exact .chainShift _ m' (.inr ⟨hfunction, hfunction.mem_nonzero hg hq hv'⟩) hq hm'
  · rcases (mem_slope hw r.alongJ_eq (Nat.le_of_lt hk)).mp hm' with ⟨c, hc, hcm⟩ | ⟨m'', hm'', hshift'⟩
    · exact .shiftChain c m' hc hcm hshift
    · exact .shift m'' m' hm'' hshift' hshift

/-- The second derivative has what arises along both directions. -/
theorem mem_of_isCrossed (hg : g.Built) (hk : k < derivativeMaxOrder)
    (hm : (∀ a ∈ m, g.IsNonvanishing a) ∨ ∀ f, g.isLinearized f = false)
    (h : g.IsCrossed r.arg r.i r.j k m) : m ∈ g.nonzero r.iAfterJ k := by
  have hw := hg.wellFormed
  rw [mem_slope hw r.iAfterJ_eq (Nat.le_of_lt hk)]
  cases h with
  | chain c e hc he h =>
    refine .inl ⟨e, ?_, (mem_slope hw r.alongJ_eq (Nat.succ_le_of_lt hk)).mpr (.inl ⟨c, hc, h⟩)⟩
    rcases he with he | ⟨he, -⟩
    · exact .inl he
    · rw [← mul_assoc] at h
      exact isChain_along hg r.alongJ_eq hc he h (he.isNonvanishing_of_or hm)
  | slope c hc hfirst h =>
    obtain ⟨f, p, rfl, hf⟩ := hc
    obtain ⟨q, hq⟩ := Atom.exists_shift?_axis
      (isRegular_of_mem_nonzero hw hfirst _ (Mixed.mem_ofAtom.mpr rfl)) r.j
    refine .inl ⟨.ofAtom (.functional f q), .inr ⟨⟨f, q, rfl, hf⟩, ?_⟩, ?_⟩
    · refine (mem_slope hw r.alongJ_eq (by decide)).mpr (.inr ⟨_, hfirst, ?_⟩)
      exact Mixed.mem_shifts_ofAtom.mpr ⟨_, hq, rfl⟩
    · refine (mem_slope hw r.alongJ_eq (Nat.succ_le_of_lt hk)).mpr (.inr ⟨_, h, ?_⟩)
      exact Mixed.mem_shifts.mpr ⟨_, _, m, hq, rfl, rfl⟩
  | chainShift e m' he h hshift =>
    refine .inl ⟨e, ?_, (mem_slope hw r.alongJ_eq (Nat.succ_le_of_lt hk)).mpr
      (.inr ⟨_, h, Mixed.mem_shifts_mul.mpr (.inr ⟨m, hshift, rfl⟩)⟩)⟩
    rcases he with he | ⟨he, -⟩
    · exact .inl he
    · exact isChain_along_of_shift hg r.alongJ_eq he h hshift (he.isNonvanishing_of_or hm)
  | shiftChain c m' hc h hshift =>
    exact .inr ⟨m', (mem_slope hw r.alongJ_eq (Nat.le_of_lt hk)).mpr (.inl ⟨c, hc, h⟩), hshift⟩
  | shift m'' m' h hm' hshift =>
    exact .inr ⟨m', (mem_slope hw r.alongJ_eq (Nat.le_of_lt hk)).mpr (.inr ⟨m'', h, hm'⟩), hshift⟩

/-- **Mixed spatial derivatives do not depend on the order of the directions** as far as derivatives by
coordinates and by functions that do not vanish are concerned, up to order one. -/
theorem mem_iff_swap (hg : g.Built) (hk : k < derivativeMaxOrder)
    (hm : (∀ a ∈ m, g.IsNonvanishing a) ∨ ∀ f, g.isLinearized f = false) :
    m ∈ g.nonzero r.iAfterJ k ↔ m ∈ g.nonzero r.jAfterI k := by
  have hw := hg.wellFormed
  constructor
  · intro h
    exact r.swap.mem_of_isCrossed hg hk hm ((r.isCrossed_of_mem hg hk hm h).symm hw)
  · intro h
    exact r.mem_of_isCrossed hg hk hm ((r.swap.isCrossed_of_mem hg hk hm h).symm hw)

/-- **They do not depend on it at all** up to order one, if all functions are evaluated at zero or all at
discrete functions. -/
theorem nonzero_eq_swap (hg : g.Built) (hk : k < derivativeMaxOrder) (hpoints : g.HasUniformPoints) :
    g.nonzero r.iAfterJ k = g.nonzero r.jAfterI k := by
  apply Std.ExtTreeSet.ext_mem
  intro m
  rcases hpoints with hpoints | hpoints
  · exact r.mem_iff_swap hg hk (.inr hpoints)
  · have hv : ∀ {n}, m ∈ g.nonzero n k → ∀ a ∈ m, g.IsNonvanishing a :=
      isNonvanishing_of_mem_nonzero hg.wellFormed hg.declaresOnce hpoints
    exact ⟨fun h => (r.mem_iff_swap hg hk (.inl (hv h))).mp h,
      fun h => (r.mem_iff_swap hg hk (.inl (hv h))).mpr h⟩

/-- Values do not depend on the order of the directions. -/
theorem nonzero_zero_eq_swap (hg : g.Built) : g.nonzero r.iAfterJ 0 = g.nonzero r.jAfterI 0 := by
  apply Std.ExtTreeSet.ext_mem
  intro m
  have hone : ∀ {n}, m ∈ g.nonzero n 0 → ∀ a ∈ m, g.IsNonvanishing a := fun h a ha => by
    rw [eq_one_of_mem_nonzero_zero hg.wellFormed h] at ha
    exact absurd ha Mixed.not_mem_one
  exact ⟨fun h => (r.mem_iff_swap hg (by decide) (.inl (hone h))).mp h,
    fun h => (r.mem_iff_swap hg (by decide) (.inl (hone h))).mpr h⟩

/-- **At the highest order that is tracked** the outer direction shifts what the inner one has, and does
nothing else. -/
theorem mem_derivativeMaxOrder (hg : g.WellFormed) : m ∈ g.nonzero r.iAfterJ derivativeMaxOrder ↔
    ∃ m' ∈ g.nonzero r.alongJ derivativeMaxOrder, m ∈ m'.shifts (.axis r.i) := by
  rw [mem_slope hg r.iAfterJ_eq (Nat.le_refl _)]
  refine or_iff_right ?_
  rintro ⟨c, -, h⟩
  exact absurd ((mem_nonzero_derivative hg r.alongJ_eq).mp h).1 (by decide)

/-- **At that order too** mixed spatial derivatives do not depend on the order of the directions, if the chain
rule takes no derivative of the order above. -/
theorem nonzero_derivativeMaxOrder_eq_swap (hg : g.WellFormed) (hi : ¬ g.HasChainTerm r.arg r.i maxOrder)
    (hj : ¬ g.HasChainTerm r.arg r.j maxOrder) :
    g.nonzero r.iAfterJ derivativeMaxOrder = g.nonzero r.jAfterI derivativeMaxOrder := by
  -- without the chain rule both directions shift, and shifts commute
  have key : ∀ (r : g.MixedPartials) m, ¬ g.HasChainTerm r.arg r.j maxOrder →
      m ∈ g.nonzero r.iAfterJ derivativeMaxOrder → m ∈ g.nonzero r.jAfterI derivativeMaxOrder := by
    intro r m hj h
    obtain ⟨m', hm', hshift⟩ := (r.mem_derivativeMaxOrder hg).mp h
    rcases (mem_slope hg r.alongJ_eq (Nat.le_refl _)).mp hm' with ⟨c, hc, hcm⟩ | ⟨m'', hm'', hshift'⟩
    · exact absurd ⟨c, m', hc, hcm⟩ hj
    · obtain ⟨q, hq, hqm⟩ := Mixed.shifts_comm (isRegular_of_mem_nonzero hg hm'').isCanonical
        (MultiIndex.isValid_axis _) hshift' hshift
      exact (r.swap.mem_derivativeMaxOrder hg).mpr
        ⟨q, (mem_slope hg r.alongI_eq (Nat.le_refl _)).mpr (.inr ⟨m'', hm'', hq⟩), hqm⟩
  exact Std.ExtTreeSet.ext_mem fun m => ⟨key r m hj, key r.swap m hi⟩

/-- Twice along one direction there is one order only. -/
theorem nonzero_eq_of_eq (hg : g.WellFormed) (hij : r.i = r.j) : g.nonzero r.iAfterJ k = g.nonzero r.jAfterI k := by
  have hinner : ∀ k, g.nonzero r.alongJ k = g.nonzero r.alongI k := fun k =>
    Std.ExtTreeSet.ext_mem fun m => by
      rw [mem_nonzero_derivative hg r.alongI_eq, mem_nonzero_derivative hg r.alongJ_eq, hij]
  refine Std.ExtTreeSet.ext_mem fun m => ?_
  rw [mem_nonzero_derivative hg r.iAfterJ_eq, mem_nonzero_derivative hg r.jAfterI_eq, hij]
  simp only [hinner]

end MixedPartials

end Graph

namespace Builder

variable {g : Graph} {n : NodeId} {i j : Nat}

/-- Builds the derivative of an expression in two directions, in either order. -/
def mixedPartials (i j : Nat) (n : NodeId) : Builder (NodeId × NodeId) := do
  let iAfterJ ← derivative i (← derivative j n)
  let jAfterI ← derivative j (← derivative i n)
  return (iAfterJ, jAfterI)

/-- **Every expression can be differentiated in both orders.** -/
theorem ends_mixedPartials (hg : g.Built) (hi : i < g.dimension) (hj : j < g.dimension) (hn : n < g.size) :
    Ends (mixedPartials i j n) g
      (fun p g' => g'.Built ∧ Graph.Extends g g' ∧ ∃ r : g'.MixedPartials,
        r.i = i ∧ r.j = j ∧ r.arg = n ∧ p = (r.iAfterJ, r.jAfterI)) fun _ _ => False := by
  rw [mixedPartials, ends_bind]
  refine (ends_derivative hg hj hn).mono (fun alongJ g₁ ⟨hg₁, h₁, halongJ⟩ => ?_) fun _ _ h => h
  rw [ends_bind]
  refine (ends_derivative hg₁ (h₁.dimension_eq ▸ hi) (Graph.node?_lt halongJ)).mono
    (fun iAfterJ g₂ ⟨hg₂, h₂, hiAfterJ⟩ => ?_) fun _ _ h => h
  have hgrows₂ := h₁.trans h₂
  rw [ends_bind]
  refine (ends_derivative hg₂ (hgrows₂.dimension_eq ▸ hi) (hgrows₂.lt_size hn)).mono
    (fun alongI g₃ ⟨hg₃, h₃, halongI⟩ => ?_) fun _ _ h => h
  have hgrows₃ := hgrows₂.trans h₃
  rw [ends_bind]
  refine (ends_derivative hg₃ (hgrows₃.dimension_eq ▸ hj) (Graph.node?_lt halongI)).mono
    (fun jAfterI g₄ ⟨hg₄, h₄, hjAfterI⟩ => ?_) fun _ _ h => h
  have hrest₂ := h₃.trans h₄
  let r : g₄.MixedPartials :=
    ⟨i, j, n, alongI, alongJ, iAfterJ, jAfterI, h₄.node?_eq halongI, (h₂.trans hrest₂).node?_eq halongJ,
      hrest₂.node?_eq hiAfterJ, hjAfterI⟩
  exact ⟨hg₄, hgrows₃.trans h₄, r, rfl, rfl, rfl, rfl⟩

end Builder

end FormSparsity
