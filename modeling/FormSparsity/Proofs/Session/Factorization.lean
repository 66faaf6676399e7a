import FormSparsity.Proofs.Session.Partition
import FormSparsity.Proofs.Session.Samples

/-!
Factorizations in sessions. The factorizations of a derivative that are listed from a table are those into factors
out of the table, each up to the order of its factors, and the derivatives that have one out of the nonzero
derivatives of a node are the products that the chain rule forms of these (`factorizations_chainProducts`). If
atoms repeat, the same factors may be listed in more than one order.
-/
namespace FormSparsity

theorem IsListedUpTo.mono {t : List MixedSet} {i j : Nat} {f : Mixed} (h : IsListedUpTo t i f) (hij : i ≤ j) :
    IsListedUpTo t j f := by
  obtain ⟨k, hk, hki, hf⟩ := h
  exact ⟨k, hk, Nat.le_trans hki hij, hf⟩

theorem IsListedUpTo.order_pos {t : List MixedSet} {j : Nat} {f : Mixed} (ht : IsGradedTable t)
    (h : IsListedUpTo t j f) (hj : j ≤ maxOrder) : 0 < f.order := by
  obtain ⟨k, hk, hkj, set, hset, hf⟩ := h
  rwa [ht k (Nat.le_trans hkj hj) set hset f hf]

namespace Session

variable {g : Graph} {s : Session} {n : NodeId}

/-- The nonzero sets of a node are found for all orders that are tracked. -/
theorem run_allOrders (hg : g.WellFormed) (hs : s.Consistent g) (p : Pass) (hn : n < g.size) :
    ∃ s', (allOrders (findNonzero g p n)).run.run s = (.ok (orderTable (g.nonzero n)), s') := by
  have hall : Ends (allOrders (findNonzero g p n)) s (fun sets _ => sets = orderTable (g.nonzero n))
      fun _ _ => False := by
    refine (Ends.mapM (Consistent g) (fun _ => True) (g.nonzero n) (fun k _ s' hs' => ?_) hs).mono
      (fun _ _ h => h.1) fun _ _ h => h
    exact (ends_findNonzero_of_lt hg p hs' hn k).mono (fun _ _ h => ⟨h.1, trivial, h.2⟩) fun _ _ h => h
  obtain ⟨_, s', hrun, rfl⟩ := hall.exists_ok
  exact ⟨s', hrun⟩

/-- The products that the chain rule forms of the nonzero derivatives of a node are found. -/
theorem run_chainProducts (hg : g.WellFormed) (hs : s.Consistent g) (p : Pass) (hn : n < g.size) (k : Nat) :
    ∃ s', ((Inquiry.chainProducts n k).run fun place => findNonzero g p place.node place.order).run.run s =
      (.ok ((Inquiry.chainProducts n k).value g.nonzeroAt), s') ∧ s'.Consistent g := by
  have hfind : Ends ((Inquiry.chainProducts n k).run fun place => findNonzero g p place.node place.order) s
      (fun products s' => products = (Inquiry.chainProducts n k).value g.nonzeroAt ∧ s'.Consistent g)
      fun _ _ => False := by
    refine Ends.run (Inquiry.asksOnly_chainProducts n k) (Consistent g)
      (fun place hplace s' hs' => ?_) hs
    exact ends_findNonzero_of_lt hg p hs' (hplace ▸ hn) place.order
  obtain ⟨_, s', hrun, rfl, hs'⟩ := hfind.exists_ok
  exact ⟨s', hrun, hs'⟩

/-- **Factorizations are sound, complete, and what the chain rule multiplies.** Take a table in which derivatives are
listed under their own order alone, as far as orders are tracked. Every factorization that is listed is one of the
derivative into factors out of the table, each of which takes the first atom left over; and whatever factors out
of the table have the derivative as their product, they are listed in some order. In whichever state a run has left
the session, the products of nonzero derivatives of a node that the chain rule forms are found, and they are the
derivatives that have a factorization into nonzero derivatives of the node. -/
theorem factorizations_chainProducts (hg : g.Built) (hs : s.Reachable g) (p : Pass) (hn : n < g.size)
    {table : List MixedSet} (htable : IsGradedTable table) :
    (∀ m, ∀ factors ∈ factorizations table m,
      factors.prod = m ∧ (∀ f ∈ factors, IsListedUpTo table maxOrder f) ∧ TakesFirst factors) ∧
    (∀ (m : Mixed) (factors : List Mixed), (∀ f ∈ factors, IsListedUpTo table (min m.order maxOrder) f) →
      factors.prod = m → ∃ listed ∈ factorizations table m, listed.Perm factors) ∧
    ∀ k, ∃ products nonzero s' s'',
      ((Inquiry.chainProducts n k).run fun place => findNonzero g p place.node place.order).run.run s =
        (.ok products, s') ∧
      (allOrders (findNonzero g p n)).run.run s' = (.ok nonzero, s'') ∧
      ∀ m, m ∈ products ↔ m.order = k ∧ factorizations nonzero m ≠ [] := by
  have hw := hg.wellFormed
  refine ⟨fun m factors h => (mem_factorizations_iff htable).mp h, fun m factors hlisted hprod => ?_, fun k => ?_⟩
  · have hle : min m.order maxOrder ≤ maxOrder := Nat.min_le_right _ _
    obtain ⟨listed, hperm, hfirst⟩ := exists_perm_takesFirst fun f hf => (hlisted f hf).order_pos htable hle
    refine ⟨listed, (mem_factorizations_iff htable).mpr ⟨hperm.prod_eq.trans hprod, fun f hf => ?_, hfirst⟩, hperm⟩
    exact (hlisted f (hperm.mem_iff.mp hf)).mono hle
  · obtain ⟨s', hproducts, hs'⟩ := run_chainProducts hw (hs.consistent hw) p hn k
    obtain ⟨s'', hnonzero⟩ := run_allOrders hw hs' p hn
    refine ⟨_, _, s', s'', hproducts, hnonzero, fun m => ?_⟩
    have hgraded : IsGraded fun j => g.nonzeroAt ⟨n, j⟩ := Graph.isGraded_nonzero hw n
    exact (Inquiry.mem_chainProducts hgraded k).trans (and_congr_right fun _ => (factorizations_ne_nil_iff hgraded).symm)

/-- A table of the derivative by `u` and of the one by `u` and `v`. -/
def valueTable : List MixedSet :=
  [∅, {.ofAtom (.functional 5 .value)}, {Mixed.ofList [.functional 5 .value, .functional 7 .value]}]

/-- The factors of the derivative by `u`, `u` and `v` are listed in both orders, since both have `u`. -/
example : factorizations valueTable
      (Mixed.ofList [.functional 5 .value, .functional 5 .value, .functional 7 .value]) =
    [[.ofAtom (.functional 5 .value), Mixed.ofList [.functional 5 .value, .functional 7 .value]],
      [Mixed.ofList [.functional 5 .value, .functional 7 .value], .ofAtom (.functional 5 .value)]] := by
  decide +kernel

theorem isGradedTable_valueTable : IsGradedTable valueTable := by
  intro k _ set hset f hf
  match k with
  | 0 =>
    obtain rfl : ∅ = set := by simpa [valueTable] using hset
    simp at hf
  | 1 =>
    obtain rfl : {.ofAtom (.functional 5 .value)} = set := by simpa [valueTable] using hset
    rw [MixedSet.mem_singleton.mp hf]
    rfl
  | 2 =>
    obtain rfl : {Mixed.ofList [.functional 5 .value, .functional 7 .value]} = set := by
      simpa [valueTable] using hset
    rw [MixedSet.mem_singleton.mp hf]
    decide
  | k + 3 => simp [valueTable] at hset

/-- The factors of the derivative by `u`, `u` and `v` are listed in some order. Of `u*u` the chain rule multiplies
the derivative by `u` with itself. -/
theorem factorizations_chainProducts_slopeOfSquare :
    Graph.slopeOfSquare.Built ∧ Reachable Graph.slopeOfSquare {} ∧ 2 < Graph.slopeOfSquare.size ∧
    IsGradedTable valueTable ∧
    (∃ listed ∈ factorizations valueTable
        (Mixed.ofList [.functional 5 .value, .functional 5 .value, .functional 7 .value]),
      listed.Perm [.ofAtom (.functional 5 .value), Mixed.ofList [.functional 5 .value, .functional 7 .value]]) ∧
    ∃ products s', ((Inquiry.chainProducts 2 2).run fun place =>
        findNonzero Graph.slopeOfSquare default place.node place.order).run.run {} = (.ok products, s') ∧
      Mixed.ofList [.functional 5 .value, .functional 5 .value] ∈ products := by
  have hreachable : Reachable Graph.slopeOfSquare {} := ⟨{}, .refl⟩
  have hsize : 2 < Graph.slopeOfSquare.size := by decide
  have hw := Graph.built_slopeOfSquare.wellFormed
  obtain ⟨-, hcomplete, hproducts⟩ := factorizations_chainProducts Graph.built_slopeOfSquare hreachable default hsize
    isGradedTable_valueTable
  refine ⟨Graph.built_slopeOfSquare, hreachable, hsize, isGradedTable_valueTable,
    hcomplete _ _ (fun f hf => ?_) (by decide +kernel), ?_⟩
  · simp only [List.mem_cons, List.not_mem_nil, or_false] at hf
    rcases hf with rfl | rfl
    · exact ⟨1, by decide, by decide +kernel, _, rfl, by decide +kernel⟩
    · exact ⟨2, by decide, by decide +kernel, _, rfl, by decide +kernel⟩
  · obtain ⟨products, nonzero, s', s'', hrun, hall, hmem⟩ := hproducts 2
    obtain ⟨t, hrun', ht⟩ := run_chainProducts hw (hreachable.consistent hw) default hsize 2
    obtain ⟨-, rfl⟩ := Prod.mk.inj (hrun.symm.trans hrun')
    obtain ⟨t', hall'⟩ := run_allOrders hw ht default hsize
    obtain ⟨heq, rfl⟩ := Prod.mk.inj (hall.symm.trans hall')
    obtain rfl := Except.ok.inj heq
    exact ⟨products, s', hrun, (hmem _).mpr ⟨rfl, by decide +kernel⟩⟩

end Session

end FormSparsity
