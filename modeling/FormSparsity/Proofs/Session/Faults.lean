import FormSparsity.Proofs.Analysis.Atoms
import FormSparsity.Proofs.Session.FailedEvaluation
import FormSparsity.Proofs.Session.Samples

/-!
Faults of calls. Whatever is demanded, the sets that are found of a node hold derivatives of the right order by atoms
that can occur, so nothing is looked up where there is nothing, and every function can be differentiated in space.
A call on a node that exists is no misuse, then: a demand fails only if it would change required derivatives that
were told apart, and a search only if a node is not ready (`wellFormed_and_no_misuse`). Spatial derivatives are in
directions that space has, so their unit indices, which the rules take without a check, are there
(`Graph.WellFormed.unit_eq_axis`).
-/
namespace FormSparsity

/-- The unit index of a spatial derivative is that of a direction which space has. -/
theorem Graph.WellFormed.unit_eq_axis {g : Graph} (hg : g.WellFormed) {n arg : NodeId} {d : Nat}
    (hn : g.node? n = some (.derivative d arg)) : MultiIndex.unit d = .ok (.axis d) := by
  have hd : d < g.dimension := hg.isInSpace n _ hn
  exact MultiIndex.unit_of_lt (Nat.lt_of_lt_of_le hd hg.dimension_le)

namespace Session

variable {g : Graph} {p : Pass} {s s' : Session} {n : NodeId} {k : Nat}

/-- How a call may fail. Nonzero derivatives are always found; a demand is refused at a node where derivatives were
told apart; and other searches fail at a node that is not ready. In each case this is the node of the call or one
below it. -/
def Call.MayFail (g : Graph) (p : Pass) : Call → Fault AnalysisError → Prop
  | nonzero _ _, _ => False
  | require n _, e => ∃ c k, Relation.ReflTransGen g.IsOperand n c ∧
      e = .error (.grewAfterClassification (g.text c) p.text k)
  | required n _, e | constant n _, e | varying n _, e | classify n, e | evaluate n, e =>
    ∃ c, Relation.ReflTransGen g.IsOperand n c ∧ e = .error (.notReady (g.text c) p.text)

/-- A search of a node that exists fails because the node is not ready. -/
theorem NotReady.exists_text {e : Fault AnalysisError} (hn : n < g.size) (h : NotReady g p s n e s') :
    ∃ c, Relation.ReflTransGen g.IsOperand n c ∧ e = .error (.notReady (g.text c) p.text) := by
  obtain ⟨-, rfl | ⟨-, hnone⟩, -⟩ := h
  · exact ⟨n, .refl, rfl⟩
  · exact absurd hnone (Graph.node?_ne_none hn)

/-- **A call on a node that exists is no misuse,** if symbolic functions are evaluated at zero or at discrete
functions. -/
theorem ends_call_mayFail (hg : g.WellFormed) (hpoints : g.HasDiscretePoints) (p : Pass) (hs : s.Consistent g)
    (he : s.Evaluated g) (call : Call) (hn : call.node < g.size) :
    Ends (call.run g p) s (fun _ _ => True) fun e _ => call.MayFail g p e := by
  have hsearch : ∀ {α : Type} {x : AnalysisM α} {ok : α → Session → Prop} {n : NodeId}, n < g.size →
      Ends x s ok (NotReady g p s n) → Ends (discard x) s (fun _ _ => True)
        fun e _ => ∃ c, Relation.ReflTransGen g.IsOperand n c ∧ e = .error (.notReady (g.text c) p.text) :=
    fun hn hx => (ends_map _).mpr (hx.mono (fun _ _ _ => trivial) fun _ _ h => h.exists_text hn)
  cases call with
  | nonzero n k =>
    exact (ends_map _).mpr ((ends_findNonzero_of_lt hg p hs hn k).mono (fun _ _ _ => trivial) fun _ _ h => h)
  | required n k => exact hsearch hn (ends_findRequired hs p n k)
  | constant n k => exact hsearch hn (ends_findConstant hg p hs n k)
  | varying n k => exact hsearch hn (ends_findVarying hg p hs n k)
  | classify n => exact hsearch hn (ends_classify hg p hs n)
  | evaluate n =>
    refine (ends_map _).mpr ((ends_findEvaluator hg p hs he n).mono (fun _ _ _ => trivial) fun e _ h => ?_)
    obtain ⟨-, ⟨c, hc, -, rfl⟩ | ⟨hnone, -⟩⟩ := h
    · exact ⟨c, hc, rfl⟩
    · exact absurd hnone (Graph.node?_ne_none hn)
  | require n demand =>
    refine (ends_require hg p hs n demand).mono (fun _ _ _ => trivial) fun e _ h => ?_
    cases h.1 with
    | @grew c k m _ hm _ =>
      obtain ⟨call, hcall, hbelow⟩ := hm.isVisited
      obtain rfl := List.mem_singleton.mp hcall
      exact ⟨c, k, hbelow, rfl⟩
    | noNode m hcall hnone =>
      obtain rfl := List.mem_singleton.mp hcall
      exact absurd hnone (Graph.node?_ne_none hn)
    | noPoint m hnot => exact absurd hpoints hnot

/-- **Samples are of partial derivatives** of order one and above in the directions of space. -/
theorem Reachable.isPartial_of_mem_sampled (hg : g.WellFormed) (hs : s.Reachable g) {h : FunctionId} {β : MultiIndex}
    (hβ : β ∈ s.sampled h) : β.IsPartial g.dimension := by
  obtain ⟨q, n, d, arg, z, hn, hz, f, operator, α, rfl, hα, -, rfl⟩ := (hs.sampled hg).sound h β hβ
  have hatom := Graph.isAtomOf_of_mem_nonzero hg ((hs.consistent hg).mem_nonzero hz) (Mixed.mem_ofAtom.mpr rfl)
  obtain ⟨α', hα', hpartial, -⟩ := hatom.multiIndex?
  obtain rfl : α' = α := by simpa [hα] using hα'.symm
  exact MultiIndex.isPartial_add_axis hg.dimension_le (hg.isInSpace n _ hn) hpartial

/-- **Sets are well formed, and no call on a node that exists is a misuse.** Let a graph be built by any construction
calls and its symbolic functions be evaluated at zero or at discrete functions. In whichever state a run has left
the session, whatever was demanded in it, what is found in a set of derivatives of some order is of this order and
by atoms that can occur below the node. A call on a node that exists fails only as `Call.MayFail` says, which is
with one of two errors of the analysis, whatever it demands. All derivatives of discrete functions that are sampled
are partial derivatives of order one and above in the directions of space, and every spatial derivative of the graph
is in a direction of which there is a unit index. Overflow of the entries of multi-indices is set aside. -/
theorem wellFormed_and_no_misuse (hg : g.Built) (hpoints : g.HasDiscretePoints) (hs : s.Reachable g) (p : Pass) :
    (∀ n k set s', (findNonzero g p n k).run.run s = (.ok set, s') ∨ (findRequired g p n k).run.run s = (.ok set, s') ∨
        (findConstant g p n k).run.run s = (.ok set, s') ∨ (findVarying g p n k).run.run s = (.ok set, s') →
      ∀ m ∈ set, g.IsDerivativeOf n k m) ∧
    (∀ call : Call, call.node < g.size → ∀ e s', (call.run g p).run.run s = (.error e, s') → call.MayFail g p e) ∧
    (∀ h, ∀ β ∈ s.sampled h, β.IsPartial g.dimension) ∧
    ∀ n d arg, g.node? n = some (.derivative d arg) → MultiIndex.unit d = .ok (.axis d) := by
  have hw := hg.wellFormed
  have hconsistent := hs.consistent hw
  refine ⟨fun n k set s' hset m hm => Graph.isDerivativeOf_of_mem_nonzero hw ?_, fun call hn e s' hrun => ?_,
    fun h β => hs.isPartial_of_mem_sampled hw, fun n d arg => hw.unit_eq_axis⟩
  · rcases hset with hset | hset | hset | hset
    · obtain ⟨rfl, -⟩ := (ends_findNonzero hw p hconsistent n k).of_ok hset
      exact hm
    · obtain ⟨rfl, -⟩ := (ends_findRequired hconsistent p n k).of_ok hset
      exact hconsistent.mem_nonzero hm
    · obtain ⟨⟨rfl, -⟩, -⟩ := (ends_findConstant hw p hconsistent n k).of_ok hset
      exact hconsistent.mem_nonzero (Std.ExtTreeSet.mem_diff_iff.mp hm).1
    · obtain ⟨⟨rfl, -⟩, -⟩ := (ends_findVarying hw p hconsistent n k).of_ok hset
      exact hconsistent.mem_nonzero (Std.ExtTreeSet.mem_inter_iff.mp hm).2
  · exact (ends_call_mayFail hw hpoints p hconsistent (hs.evaluated hw) call hn).of_error hrun

/-- Once the value of `D0[u*u]` was demanded, the slope of the discrete function is sampled. The derivative by the slope
of `u` is found to be nonzero. The varying derivatives of the discrete function are not found: nothing was demanded
of it. -/
theorem wellFormed_and_no_misuse_slopeOfSquare :
    Graph.slopeOfSquare.Built ∧ Graph.slopeOfSquare.HasDiscretePoints ∧
    squareValueDemanded.Reachable Graph.slopeOfSquare ∧
    (∃ nonzero s', (findNonzero Graph.slopeOfSquare default 3 1).run.run squareValueDemanded = (.ok nonzero, s') ∧
      .ofAtom (.functional 5 (.derivative ⟨1, 0, 0⟩)) ∈ nonzero ∧
      Graph.slopeOfSquare.IsDerivativeOf 3 1 (.ofAtom (.functional 5 (.derivative ⟨1, 0, 0⟩)))) ∧
    (∃ s', ((Call.varying 0 1).run Graph.slopeOfSquare default).run.run squareValueDemanded =
        (.error (.error (.notReady (Graph.slopeOfSquare.text 0) (Pass.text default))), s') ∧
      (Call.varying 0 1).MayFail Graph.slopeOfSquare default
        (.error (.notReady (Graph.slopeOfSquare.text 0) (Pass.text default)))) ∧
    (⟨1, 0, 0⟩ : MultiIndex) ∈ squareValueDemanded.sampled 10 ∧
    MultiIndex.IsPartial Graph.slopeOfSquare.dimension ⟨1, 0, 0⟩ ∧
    Graph.slopeOfSquare.node? 3 = some (.derivative 0 2) ∧ MultiIndex.unit 0 = .ok (.axis 0) := by
  have hg := Graph.built_slopeOfSquare
  have hs := reachable_squareValueDemanded
  obtain ⟨hsets, hcalls, hsamples, hunits⟩ :=
    wellFormed_and_no_misuse hg Graph.hasDiscretePoints_slopeOfSquare hs default
  obtain ⟨s', hrun, -⟩ := run_findNonzero_consistent hg.wellFormed default (hs.consistent hg.wellFormed)
    (show 3 < Graph.slopeOfSquare.size by decide) 1
  have hmem : .ofAtom (.functional 5 (.derivative ⟨1, 0, 0⟩)) ∈ Graph.slopeOfSquare.nonzero 3 1 := by decide +kernel
  have herror : (((Call.varying 0 1).run Graph.slopeOfSquare default).run.run squareValueDemanded).1 =
      .error (.error (.notReady (Graph.slopeOfSquare.text 0) (Pass.text default))) := by decide +kernel
  have hsampled : (⟨1, 0, 0⟩ : MultiIndex) ∈ squareValueDemanded.sampled 10 := by decide +kernel
  exact ⟨hg, Graph.hasDiscretePoints_slopeOfSquare, hs,
    ⟨_, s', hrun, hmem, hsets 3 1 _ s' (.inl hrun) _ hmem⟩,
    ⟨_, Prod.ext herror rfl, hcalls (.varying 0 1) (by decide) _ _ (Prod.ext herror rfl)⟩,
    hsampled, hsamples 10 _ hsampled, rfl, hunits 3 0 2 rfl⟩

end Session

end FormSparsity
