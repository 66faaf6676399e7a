import FormSparsity.Proofs.Analysis.Constancy
import FormSparsity.Proofs.Session.Partition

/-!
What the sets found in sessions mean. For nodes built without spatial derivatives, the mixed derivatives that
a session does not list as nonzero are zero in every interpretation (`nonzero_sound`), and those that it lists as
constant have the same value at any two points (`constant_sound`).
-/
namespace FormSparsity

namespace Graph

/-- The graph of `sin(d*v)` on an interval, with a discrete function, the variation, their product and its sine as
nodes 0 to 3. -/
def sineOfProduct : Graph where
  dimension := 1
  nodes := #[.discrete "d" 10, .symbolic "v" 7 .variation .zero, .product 0 1, .nonlinear .sin 2]

theorem built_sineOfProduct : sineOfProduct.Built :=
  built_of_calls [.discrete "d" 10, .variation "v" 7, .mul 0 1, .nonlinear .sin 2] (by with_unfolding_all rfl)

theorem isDerivativeFree_sineOfProduct : sineOfProduct.IsDerivativeFree 3 := by
  refine isDerivativeFree_of_le built_sineOfProduct.wellFormed fun c hc d arg h => ?_
  match c, hc, h with
  | 0, _, h | 1, _, h | 2, _, h | 3, _, h => cases h

end Graph

namespace Session

variable {g : Graph} {s : Session} {n : NodeId} {k : Nat}

/-- **Nonzero derivatives are all that there are.** In whichever state a run has left the session, the nonzero
derivatives of a node that exists are found. If the node is built without spatial derivatives, then every
other mixed derivative of an order that is tracked is zero, whatever values coordinates, functions, constants
and nonlinear functions have in a commutative ring. -/
theorem nonzero_sound (hg : g.Built) (hs : s.Reachable g) (p : Pass) {node : Node} (hn : g.node? n = some node)
    (hfree : g.IsDerivativeFree n) (hk : k ≤ maxOrder) :
    ∃ set s', (findNonzero g p n k).run.run s = (.ok set, s') ∧
      ∀ m : Mixed, m.order = k → m ∉ set →
        ∀ (K : Type) [CommRing K] (I : Interpretation K), I.partialDerivative g n m = 0 := by
  have hw := hg.wellFormed
  obtain ⟨s', hrun⟩ := run_findNonzero (p := p) hw (hs.consistent hw) hn k
  refine ⟨g.nonzero n k, s', hrun, ?_⟩
  intro m hm hnot K _ I
  subst hm
  exact I.partialDerivative_eq_zero hw hfree hk hnot

/-- The derivative of `sin(d*v)` by the coordinate is zero: `v` is evaluated at zero, so `d*v` is zero everywhere. -/
theorem nonzero_sound_sineOfProduct :
    Graph.sineOfProduct.Built ∧ Reachable Graph.sineOfProduct (restart {}) ∧
    Graph.sineOfProduct.node? 3 = some (.nonlinear .sin 2) ∧ Graph.sineOfProduct.IsDerivativeFree 3 ∧
    1 ≤ maxOrder ∧ ∃ set s',
      (findNonzero Graph.sineOfProduct default 3 1).run.run (restart {}) = (.ok set, s') ∧
      Mixed.ofAtom (.functional 7 .value) ∈ set ∧ Mixed.ofAtom (.coordinate 0) ∉ set ∧
      ∀ (K : Type) [CommRing K] (I : Interpretation K),
        I.partialDerivative Graph.sineOfProduct 3 (.ofAtom (.coordinate 0)) = 0 := by
  have hw := Graph.built_sineOfProduct.wellFormed
  have hs : Reachable Graph.sineOfProduct (restart {}) := ⟨{}, .refl⟩
  have hn : Graph.sineOfProduct.node? 3 = some (.nonlinear .sin 2) := rfl
  have hfree := Graph.isDerivativeFree_sineOfProduct
  have hk : 1 ≤ maxOrder := by decide
  obtain ⟨set, s', hrun, hzero⟩ := nonzero_sound Graph.built_sineOfProduct hs default hn hfree hk
  obtain rfl : set = Graph.sineOfProduct.nonzero 3 1 :=
    ((ends_findNonzero hw default (hs.consistent hw) 3 1).of_ok hrun).1
  have hnot : Mixed.ofAtom (.coordinate 0) ∉ Graph.sineOfProduct.nonzero 3 1 := by decide +kernel
  exact ⟨Graph.built_sineOfProduct, hs, hn, hfree, hk, _, s', hrun, by decide +kernel, hnot,
    hzero _ (Mixed.order_ofAtom _) hnot⟩

/-- **Constant derivatives are the same everywhere.** In whichever state a run has left the session, the constant
derivatives of a node that is ready are found. If the node is built without spatial derivatives, then each of
them has the same value at any two points, whatever coordinates, discrete functions and functions at discrete
functions are in a commutative ring there, as long as constants and nonlinear functions stay the same. -/
theorem constant_sound (hg : g.Built) (hs : s.Reachable g) (p : Pass) (hn : ⟨p.id, n⟩ ∈ s.ready)
    (hfree : g.IsDerivativeFree n) (hk : k ≤ maxOrder) :
    ∃ set s', (findConstant g p n k).run.run s = (.ok set, s') ∧
      ∀ m ∈ set, m.order = k ∧ ∀ (K : Type) [CommRing K] (I J : Interpretation K), I.IsElsewhere J →
        I.partialDerivative g n m = J.partialDerivative g n m := by
  have hw := hg.wellFormed
  have hs := hs.consistent hw
  obtain ⟨s', hrun⟩ := run_findConstant hw hs hn k
  refine ⟨_, s', hrun, fun m hm => ?_⟩
  obtain ⟨hm, hnot⟩ := Std.ExtTreeSet.mem_diff_iff.mp hm
  obtain rfl := Graph.order_of_mem_nonzero hw (hs.mem_nonzero hm)
  exact ⟨rfl, fun K _ I J hIJ => hIJ.partialDerivative_eq hw hfree hk hnot⟩

/-- The mixed derivative of `x0*v` by the coordinate and the variation is constant, and so the same everywhere. -/
theorem constant_sound_slopeDemanded :
    Graph.slopeOfProduct.Built ∧ slopeDemanded.Reachable Graph.slopeOfProduct ∧
    (⟨0, 2⟩ : NodeKey) ∈ slopeDemanded.ready ∧ Graph.slopeOfProduct.IsDerivativeFree 2 ∧ 2 ≤ maxOrder ∧ ∃ set s',
      (findConstant Graph.slopeOfProduct default 2 2).run.run slopeDemanded = (.ok set, s') ∧
      Mixed.ofList [.coordinate 0, .functional 7 .value] ∈ set ∧
      ∀ (K : Type) [CommRing K] (I J : Interpretation K), I.IsElsewhere J →
        I.partialDerivative Graph.slopeOfProduct 2 (.ofList [.coordinate 0, .functional 7 .value]) =
          J.partialDerivative Graph.slopeOfProduct 2 (.ofList [.coordinate 0, .functional 7 .value]) := by
  have hw := Graph.built_slopeOfProduct.wellFormed
  have hready : (⟨0, 2⟩ : NodeKey) ∈ slopeDemanded.ready := by decide +kernel
  have hfree := Graph.isDerivativeFree_slopeOfProduct
  have hk : 2 ≤ maxOrder := by decide
  obtain ⟨set, s', hrun, hsame⟩ :=
    constant_sound Graph.built_slopeOfProduct reachable_slopeDemanded default hready hfree hk
  obtain ⟨⟨rfl, -⟩, -⟩ :=
    (ends_findConstant hw default (reachable_slopeDemanded.consistent hw) 2 2).of_ok hrun
  have hmem : Mixed.ofList [.coordinate 0, .functional 7 .value] ∈
      slopeDemanded.requiredSet 0 2 2 \ Graph.slopeOfProduct.varying 2 2 := by
    decide +kernel
  exact ⟨Graph.built_slopeOfProduct, reachable_slopeDemanded, hready, hfree, hk, _, s', hrun, hmem,
    (hsame _ hmem).2⟩

end Session

end FormSparsity
