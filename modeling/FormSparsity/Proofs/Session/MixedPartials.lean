import FormSparsity.Proofs.Analysis.MixedPartials
import FormSparsity.Proofs.Session.Partition

/-!
Mixed spatial derivatives in sessions. The nonzero derivatives of a spatial derivative in two directions are
found in either order of the directions, and are the same as long as the chain rule for the outer direction
finds what it needs of the inner one (`nonzero_mixed_partials`). At the highest order that is tracked it does
not: of `D1[D0[x0*u*v]]` more derivatives are found than of `D0[D1[x0*u*v]]`.
-/
namespace FormSparsity

namespace Graph

/-- The graph of `D1[D0[x0*u]]` and of `D0[D1[x0*u]]` in the plane, with `u` evaluated at a discrete function. -/
def mixedSlopesOfUnknown : Graph where
  dimension := 2
  nodes := #[.discrete "d" 10, .symbolic "u" 5 .unknown (.discrete 0), .coordinate 0, .product 2 1,
    .derivative 0 3, .derivative 1 4, .derivative 1 3, .derivative 0 6]

theorem built_mixedSlopesOfUnknown : mixedSlopesOfUnknown.Built :=
  built_of_calls [.discrete "d" 10, .unknownAt "u" 5 0, .coordinate 0, .mul 2 1, .derivative 0 3,
    .derivative 1 4, .derivative 1 3, .derivative 0 6] (by with_unfolding_all rfl)

/-- The derivative along `x0` of the one along `x1` is node 7, in the other order it is node 5. -/
def mixedPartialsOfUnknown : mixedSlopesOfUnknown.MixedPartials where
  i := 0
  j := 1
  arg := 3
  alongI := 4
  alongJ := 6
  iAfterJ := 7
  jAfterI := 5
  alongI_eq := rfl
  alongJ_eq := rfl
  iAfterJ_eq := rfl
  jAfterI_eq := rfl

theorem hasUniformPoints_mixedSlopesOfUnknown : mixedSlopesOfUnknown.HasUniformPoints := by
  refine .inr fun n name f role h => ?_
  have hmem := Array.mem_of_getElem? h
  simp [mixedSlopesOfUnknown] at hmem

/-- The chain rule takes no derivative of order three of `x0*u`, since there is none. -/
theorem not_hasChainTerm_mixedSlopesOfUnknown (d : Nat) : ¬ mixedSlopesOfUnknown.HasChainTerm 3 d maxOrder := by
  rintro ⟨c, m, -, h⟩
  have hempty : (mixedSlopesOfUnknown.nonzero 3 maxOrder).toList = [] := by with_unfolding_all decide
  rw [← Std.ExtTreeSet.mem_toList, hempty] at h
  cases h

/-- The graph of `D1[D0[x0*u*v]]` and of `D0[D1[x0*u*v]]` in the plane, with `u` and `v` evaluated at zero. -/
def mixedSlopesOfProduct : Graph where
  dimension := 2
  nodes := #[.coordinate 0, .symbolic "u" 5 .unknown .zero, .symbolic "v" 7 .variation .zero, .product 0 1,
    .product 3 2, .derivative 0 4, .derivative 1 5, .derivative 1 4, .derivative 0 7]

theorem built_mixedSlopesOfProduct : mixedSlopesOfProduct.Built :=
  built_of_calls [.coordinate 0, .unknown "u" 5, .variation "v" 7, .mul 0 1, .mul 3 2, .derivative 0 4,
    .derivative 1 5, .derivative 1 4, .derivative 0 7] (by with_unfolding_all rfl)

/-- The derivative along `x0` of the one along `x1` is node 8, in the other order it is node 6. -/
def mixedPartialsOfProduct : mixedSlopesOfProduct.MixedPartials where
  i := 0
  j := 1
  arg := 4
  alongI := 5
  alongJ := 7
  iAfterJ := 8
  jAfterI := 6
  alongI_eq := rfl
  alongJ_eq := rfl
  iAfterJ_eq := rfl
  jAfterI_eq := rfl

end Graph

namespace Session

variable {g : Graph} {s t : Session} {k : Nat}

/-- **Mixed spatial derivatives.** In whichever states runs have left two sessions, be it one and the same, the
nonzero derivatives of a spatial derivative in two directions are found in either order. They are the same at
order zero. At order one they have the same derivatives by coordinates and functions that do not vanish, and
are the same if all functions are evaluated at zero or all at discrete functions. At order two, above which
spatial derivatives are not tracked, the outer direction shifts what is found for the inner one; they are the
same if the chain rule takes no derivative of the expression of order three. Twice along one direction they
are the same at every order. -/
theorem nonzero_mixed_partials (hg : g.Built) (hs : s.Reachable g) (ht : t.Reachable g) (p q : Pass)
    (r : g.MixedPartials) (k : Nat) :
    ∃ alongJ iAfterJ jAfterI s₁ s₂ t₁,
      (findNonzero g p r.alongJ k).run.run s = (.ok alongJ, s₁) ∧
      (findNonzero g p r.iAfterJ k).run.run s = (.ok iAfterJ, s₂) ∧
      (findNonzero g q r.jAfterI k).run.run t = (.ok jAfterI, t₁) ∧
      (k = 0 → iAfterJ = jAfterI) ∧
      (k < derivativeMaxOrder → ∀ m, (∀ c ∈ m, g.IsNonvanishing c) → (m ∈ iAfterJ ↔ m ∈ jAfterI)) ∧
      (k < derivativeMaxOrder → g.HasUniformPoints → iAfterJ = jAfterI) ∧
      (k = derivativeMaxOrder → ∀ m, m ∈ iAfterJ ↔ ∃ m' ∈ alongJ, m ∈ m'.shifts (.axis r.i)) ∧
      (k = derivativeMaxOrder → ¬ g.HasChainTerm r.arg r.i maxOrder → ¬ g.HasChainTerm r.arg r.j maxOrder →
        iAfterJ = jAfterI) ∧
      (r.i = r.j → iAfterJ = jAfterI) := by
  have hw := hg.wellFormed
  obtain ⟨s₁, hinner⟩ := run_findNonzero (p := p) hw (hs.consistent hw) r.alongJ_eq k
  obtain ⟨s₂, houter⟩ := run_findNonzero (p := p) hw (hs.consistent hw) r.iAfterJ_eq k
  obtain ⟨t₁, hswapped⟩ := run_findNonzero (p := q) hw (ht.consistent hw) r.jAfterI_eq k
  refine ⟨_, _, _, s₁, s₂, t₁, hinner, houter, hswapped, ?values, ?first, ?uniform, ?second, ?shifts, ?same⟩
  case values =>
    rintro rfl
    exact r.nonzero_zero_eq_swap hg
  case first => exact fun hk m hm => r.mem_iff_swap hg hk (.inl hm)
  case uniform => exact fun hk hpoints => r.nonzero_eq_swap hg hk hpoints
  case second =>
    rintro rfl m
    exact r.mem_derivativeMaxOrder hw
  case shifts =>
    rintro rfl hi hj
    exact r.nonzero_derivativeMaxOrder_eq_swap hw hi hj
  case same => exact r.nonzero_eq_of_eq hw

/-- Of `x0*u` the same first and second derivatives are found in both orders, among them `D(1,1,0)u` and
`x0` with it. -/
theorem nonzero_mixed_partials_mixedSlopesOfUnknown :
    Graph.mixedSlopesOfUnknown.Built ∧ Reachable Graph.mixedSlopesOfUnknown (restart {}) ∧
    (∃ found s' t',
      (findNonzero Graph.mixedSlopesOfUnknown default 7 1).run.run (restart {}) = (.ok found, s') ∧
      (findNonzero Graph.mixedSlopesOfUnknown default 5 1).run.run (restart {}) = (.ok found, t') ∧
      Mixed.ofAtom (.functional 5 (.derivative ⟨1, 1, 0⟩)) ∈ found) ∧
    (∃ found s' t',
      (findNonzero Graph.mixedSlopesOfUnknown default 7 2).run.run (restart {}) = (.ok found, s') ∧
      (findNonzero Graph.mixedSlopesOfUnknown default 5 2).run.run (restart {}) = (.ok found, t') ∧
      Mixed.ofList [.coordinate 0, .functional 5 (.derivative ⟨1, 1, 0⟩)] ∈ found) := by
  have hs : Reachable Graph.mixedSlopesOfUnknown (restart {}) := ⟨{}, .refl⟩
  have hw := Graph.built_mixedSlopesOfUnknown.wellFormed
  have hfound : ∀ {k found s'}, (findNonzero Graph.mixedSlopesOfUnknown default 7 k).run.run (restart {}) =
      (.ok found, s') → found = Graph.mixedSlopesOfUnknown.nonzero 7 k := by
    intro k found s' h
    obtain ⟨s'', h'⟩ := run_findNonzero (p := default) (n := 7) hw (hs.consistent hw)
      Graph.mixedPartialsOfUnknown.iAfterJ_eq k
    simpa using congrArg Prod.fst (h.symm.trans h')
  refine ⟨Graph.built_mixedSlopesOfUnknown, hs, ?_, ?_⟩
  · obtain ⟨_, _, _, _, s₂, t₁, -, houter, hswapped, -, -, huniform, -⟩ := nonzero_mixed_partials
      Graph.built_mixedSlopesOfUnknown hs hs default default Graph.mixedPartialsOfUnknown 1
    obtain rfl := huniform (by decide) Graph.hasUniformPoints_mixedSlopesOfUnknown
    refine ⟨_, s₂, t₁, houter, hswapped, ?_⟩
    rw [hfound houter]
    with_unfolding_all decide
  · obtain ⟨_, _, _, _, s₂, t₁, -, houter, hswapped, -, -, -, -, hshifts, -⟩ := nonzero_mixed_partials
      Graph.built_mixedSlopesOfUnknown hs hs default default Graph.mixedPartialsOfUnknown derivativeMaxOrder
    obtain rfl := hshifts rfl (Graph.not_hasChainTerm_mixedSlopesOfUnknown _)
      (Graph.not_hasChainTerm_mixedSlopesOfUnknown _)
    refine ⟨_, s₂, t₁, houter, hswapped, ?_⟩
    rw [hfound houter]
    with_unfolding_all decide

/-- Of `x0*u*v` a second derivative by `D1[u]` and `v` is found for the derivative along `x1` of the one along
`x0`, which brings in the coordinate while order three is tracked. In the other order it is not found. -/
theorem mixed_partials_fail :
    ∃ iAfterJ jAfterI s₁ s₂,
      (findNonzero Graph.mixedSlopesOfProduct default Graph.mixedPartialsOfProduct.iAfterJ
        derivativeMaxOrder).run.run (restart {}) = (.ok iAfterJ, s₁) ∧
      (findNonzero Graph.mixedSlopesOfProduct default Graph.mixedPartialsOfProduct.jAfterI
        derivativeMaxOrder).run.run (restart {}) = (.ok jAfterI, s₂) ∧
      Mixed.ofList [.functional 5 (.derivative ⟨0, 1, 0⟩), .functional 7 .value] ∈ jAfterI ∧
      Mixed.ofList [.functional 5 (.derivative ⟨0, 1, 0⟩), .functional 7 .value] ∉ iAfterJ := by
  have hw := Graph.built_mixedSlopesOfProduct.wellFormed
  have hs := consistent_restart Graph.mixedSlopesOfProduct {}
  obtain ⟨s₁, houter⟩ := run_findNonzero (p := default) hw hs Graph.mixedPartialsOfProduct.iAfterJ_eq
    derivativeMaxOrder
  obtain ⟨s₂, hswapped⟩ := run_findNonzero (p := default) hw hs Graph.mixedPartialsOfProduct.jAfterI_eq
    derivativeMaxOrder
  exact ⟨_, _, s₁, s₂, houter, hswapped, by with_unfolding_all decide, by with_unfolding_all decide⟩

end Session

end FormSparsity
