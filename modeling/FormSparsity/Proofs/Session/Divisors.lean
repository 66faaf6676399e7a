import FormSparsity.Proofs.Analysis.MixedPartials
import FormSparsity.Proofs.Session.Partition
import FormSparsity.Proofs.Session.Samples

/-!
Divisors in sessions. What some atoms of a nonzero derivative make up is found to be nonzero as well, as long as
the atoms are coordinates and functions that do not vanish (`divisors_nonzero`). So nothing is lost when the chain
rule for a spatial derivative takes only those functions by which the operand has a nonzero first derivative.
-/
namespace FormSparsity

namespace Graph

variable {g : Graph} {n along : NodeId} {d k : Nat} {m : Mixed}

/-- **The chain rule may take any function that does not vanish.** For a derivative by coordinates and by
functions that do not vanish, it makes no difference that it takes those alone by which the operand has a nonzero
first derivative. -/
theorem mem_slope_of_nonvanishing (hg : g.Built) (hn : g.node? along = some (.derivative d n))
    (hk : k ≤ derivativeMaxOrder) (hm : ∀ a ∈ m, g.IsNonvanishing a) : m ∈ g.nonzero along k ↔
      (∃ c, (c = .ofAtom (.coordinate d) ∨ g.IsByFunction c) ∧ c * m ∈ g.nonzero n (k + 1)) ∨
        ∃ m' ∈ g.nonzero n k, m ∈ m'.shifts (.axis d) := by
  rw [mem_slope hg.wellFormed hn hk]
  refine or_congr_left (exists_congr fun c => and_congr_left fun hcm => or_congr_right ?_)
  exact ⟨And.left, fun hc => ⟨hc, hc.mem_nonzero hg hcm hm⟩⟩

end Graph

namespace Session

variable {g : Graph} {s : Session} {n : NodeId} {k : Nat}

/-- **Divisors of nonzero derivatives are nonzero,** in whichever state a run has left the session. The nonzero
derivatives of a node are found, and if one of them is by coordinates and by functions that are evaluated at
discrete functions alone, then whatever some of its atoms make up is found among the nonzero derivatives of its
own order. So the chain rule may confine itself to functions by which the operand has a nonzero first derivative:
the derivatives of this kind that a spatial derivative has are those that it would have with all functions that
are evaluated at discrete functions. -/
theorem divisors_nonzero (hg : g.Built) (hs : s.Reachable g) (p : Pass) (hn : n < g.size) (k : Nat) :
    ∃ nonzero s', (findNonzero g p n k).run.run s = (.ok nonzero, s') ∧
      (∀ m ∈ nonzero, (∀ a ∈ m, g.IsNonvanishing a) → ∀ r : Mixed, r.atoms.Subperm m.atoms →
        ∃ divisors s'', (findNonzero g p n r.order).run.run s' = (.ok divisors, s'') ∧ r ∈ divisors) ∧
      ∀ d arg, g.node? n = some (.derivative d arg) → k ≤ derivativeMaxOrder →
        ∃ same next s₁ s₂, (findNonzero g p arg k).run.run s' = (.ok same, s₁) ∧
          (findNonzero g p arg (k + 1)).run.run s₁ = (.ok next, s₂) ∧
          ∀ m, (∀ a ∈ m, g.IsNonvanishing a) → (m ∈ nonzero ↔
            (∃ c, (c = .ofAtom (.coordinate d) ∨ g.IsByFunction c) ∧ c * m ∈ next) ∨
              ∃ m' ∈ same, m ∈ m'.shifts (.axis d)) := by
  have hw := hg.wellFormed
  have hs := hs.consistent hw
  obtain ⟨s', hrun, hs'⟩ := run_findNonzero_consistent hw p hs hn k
  refine ⟨_, s', hrun, fun m hm hv r hr => ?_, fun d arg hnode hk => ?_⟩
  · obtain ⟨q, rfl⟩ := Mixed.exists_eq_mul_of_subperm hr
    obtain ⟨s'', hrun', -⟩ := run_findNonzero_consistent hw p hs' hn r.order
    exact ⟨_, s'', hrun', Graph.mem_nonzero_of_mul_mem hw hg.declaresOnce hm hv⟩
  · have harg : arg < g.size := Nat.lt_trans (hw.child_lt n _ hnode arg (List.mem_singleton_self arg)) hn
    obtain ⟨s₁, hsame, hs₁⟩ := run_findNonzero_consistent hw p hs' harg k
    obtain ⟨s₂, hnext, -⟩ := run_findNonzero_consistent hw p hs₁ harg (k + 1)
    exact ⟨_, _, s₁, s₂, hsame, hnext, fun m hv => Graph.mem_slope_of_nonvanishing hg hnode hk hv⟩

/-- Of `D0[u*u]`, with `u` evaluated at a discrete function, the derivative by `u` and its slope is nonzero. So is
the one by the slope alone. -/
theorem divisors_nonzero_slopeOfSquare :
    Graph.slopeOfSquare.Built ∧ Reachable Graph.slopeOfSquare {} ∧ 3 < Graph.slopeOfSquare.size ∧
    ∃ nonzero divisors s' s'', (findNonzero Graph.slopeOfSquare default 3 2).run.run {} = (.ok nonzero, s') ∧
      Mixed.ofList [.functional 5 .value, .functional 5 (.derivative ⟨1, 0, 0⟩)] ∈ nonzero ∧
      (findNonzero Graph.slopeOfSquare default 3 1).run.run s' = (.ok divisors, s'') ∧
      .ofAtom (.functional 5 (.derivative ⟨1, 0, 0⟩)) ∈ divisors := by
  have hreachable : Reachable Graph.slopeOfSquare {} := ⟨{}, .refl⟩
  have hsize : 3 < Graph.slopeOfSquare.size := by decide
  obtain ⟨nonzero, s', hrun, hdivisors, -⟩ :=
    divisors_nonzero Graph.built_slopeOfSquare hreachable default hsize 2
  have hw := Graph.built_slopeOfSquare.wellFormed
  obtain ⟨rfl, -⟩ := (ends_findNonzero hw default (hreachable.consistent hw) 3 2).of_ok hrun
  have hm : Mixed.ofList [.functional 5 .value, .functional 5 (.derivative ⟨1, 0, 0⟩)] ∈
      Graph.slopeOfSquare.nonzero 3 2 := by decide +kernel
  have hv : ∀ a ∈ Mixed.ofList [.functional 5 .value, .functional 5 (.derivative ⟨1, 0, 0⟩)],
      Graph.slopeOfSquare.IsNonvanishing a := by
    refine Graph.isNonvanishing_of_mem_nonzero hw Graph.built_slopeOfSquare.declaresOnce (fun n name f role h => ?_) hm
    have hmem := Array.mem_of_getElem? h
    simp [Graph.slopeOfSquare] at hmem
  obtain ⟨divisors, s'', hrun', hmem⟩ := hdivisors _ hm hv (.ofAtom (.functional 5 (.derivative ⟨1, 0, 0⟩)))
    (by decide +kernel)
  exact ⟨Graph.built_slopeOfSquare, hreachable, hsize, _, divisors, s', s'', hrun, hm, hrun', hmem⟩

end Session

end FormSparsity
