import FormSparsity.Proofs.Session.Refusal
import Mathlib.Order.Bounds.Basic

/-!
Required sets grow as little as they can. A demand on a node asks for the least family of sets that has what
was required before, the demand itself, and what all of this asks of the nodes below. In a session in which
nothing but proper demands were made (`ProperlyReached`), a demand is determined exactly if this family has
nothing new where required derivatives were told apart, and then the family is what is required afterwards
(`require_ok_iff`).
-/
namespace FormSparsity

/-- Whether a family of sets has a demand on a node and all that its derivatives ask of the nodes from there
on downwards. -/
structure Graph.Answers (g : Graph) (n : NodeId) (demand : Demand) (R : NodeId → Nat → Set Mixed) : Prop where
  call : ∀ k m, m ∈ demand.ofOrder k → m ∈ g.nonzero n k → m ∈ R n k
  asked : ∀ c j r c' k m, Relation.ReflTransGen g.IsOperand n c → r ∈ R c j → g.Asks c j r c' k m → m ∈ R c' k
  asked_always : ∀ c c' k m, Relation.ReflTransGen g.IsOperand n c → g.AsksAlways c c' k m → m ∈ R c' k

namespace Session

variable {g : Graph} {p : Pass} {q : PassId} {s s' : Session} {n : NodeId} {demand : Demand}

/-! ## Proper demands -/

/-- Whether a call demands derivatives of some order, if it is a demand. -/
def Call.IsProper : Call → Prop
  | require _ demand => demand ≠ []
  | _ => True

/-- One step of a run in which all demands are proper. -/
inductive ProperStep (g : Graph) : Session → Session → Prop
  | call (p : Pass) (c : Call) (s : Session) : c.IsProper → ProperStep g s (after (c.run g p) s)
  | openPass (domain : Domain) (computation : Computation) (verbosity : Verbosity) (s : Session) :
      ProperStep g s (after (openPass domain computation verbosity : AnalysisM Pass) s)

/-- Whether a session is reached from one that knows nothing by a run in which all demands are proper. -/
def ProperlyReached (g : Graph) (s : Session) : Prop :=
  ∃ s₀ : Session, Relation.ReflTransGen (ProperStep g) s₀.restart s

theorem ProperStep.step (h : ProperStep g s s') : Step g s s' := by
  cases h with
  | call p c _ => exact .call p c s
  | openPass domain computation verbosity => exact .openPass domain computation verbosity s

theorem ProperlyReached.reachable (h : s.ProperlyReached g) : s.Reachable g := by
  obtain ⟨s₀, h⟩ := h
  exact ⟨s₀, Relation.ReflTransGen.mono (fun _ _ => ProperStep.step) _ _ h⟩

/-- **One step** in which all demands are proper leaves no ready node without a proper demand. -/
theorem ProperStep.isFed (hg : g.WellFormed) (hs : s.Consistent g) (h : ProperStep g s s')
    (hfed : s.IsFed q) : s'.IsFed q := by
  cases h with
  | call p c _ hproper =>
    by_cases hc : c.IsRequire
    · cases c with
      | require n demand =>
        have hmore : PassesMore g p.id [(n, demand)] s (after (Session.require g p n demand) s) :=
          ((ends_require_passesMore hg p hs n demand).mono (fun _ _ h => h.1) fun _ _ h => h).state
        exact hmore.fed (by simpa [Call.IsProper] using hproper) q hfed
      | _ => exact hc.elim
    · exact hfed.of_tellsApart (ends_find hg p hs c hc).state.2
  | openPass => exact hfed

/-- **No session that is properly reached** has a ready node without a proper demand. -/
theorem ProperlyReached.isFed (hg : g.WellFormed) (h : s.ProperlyReached g) (q : PassId) : s.IsFed q := by
  obtain ⟨s₀, h⟩ := h
  induction h with
  | refl => exact fun n hn => by simp [restart] at hn
  | tail hsteps hstep ih =>
    exact hstep.isFed hg ((ProperlyReached.reachable ⟨s₀, hsteps⟩).consistent hg) ih

/-! ## The least family -/

/-- What is required of nodes once a demand is added to what was required before. -/
def withDemand (g : Graph) (s : Session) (q : PassId) (n : NodeId) (demand : Demand) (c : NodeId) (k : Nat) :
    Set Mixed := {m | m ∈ s.requiredSet q c k ∨ g.Demanded [(n, demand)] c k m}

theorem isLeast_withDemand (hs : s.Consistent g) (q : PassId) (n : NodeId) (demand : Demand) :
    IsLeast {R | g.Answers n demand R ∧ ∀ c k m, m ∈ s.requiredSet q c k → m ∈ R c k}
      (withDemand g s q n demand) := by
  have hbelow : ∀ {c}, g.IsVisited [(n, demand)] c → Relation.ReflTransGen g.IsOperand n c := by
    rintro c ⟨call, hcall, hc⟩
    rwa [List.mem_singleton.mp hcall] at hc
  refine ⟨⟨⟨fun k m hm hw => .inr (.call (List.mem_singleton_self _) hm hw), fun c j r c' k m _ hr hasks => ?_,
    fun c c' k m hc hasks => .inr (.always ⟨_, List.mem_singleton_self _, hc⟩ hasks)⟩,
    fun c k m hm => .inl hm⟩, fun R hR c k m hm => ?_⟩
  · exact hr.imp (hs.closed q c j r c' k m · hasks) (.asked · hasks)
  · obtain ⟨hanswers, hrequired⟩ := hR
    rcases hm with hm | hm
    · exact hrequired c k m hm
    · induction hm with
      | call hcall hm hw =>
        obtain ⟨rfl, rfl⟩ := Prod.mk.inj (List.mem_singleton.mp hcall)
        exact hanswers.call _ _ hm hw
      | asked hr hasks ih => exact hanswers.asked _ _ _ _ _ _ (hbelow hr.isVisited) ih hasks
      | always hc hasks => exact hanswers.asked_always _ _ _ _ (hbelow hc) hasks

/-- What is required after a proper demand was determined. -/
theorem Meets.requiredSet_eq (hfed : s.IsFed q) (hd : demand ≠ [])
    (h : Meets g q n demand s s') (c : NodeId) (k : Nat) :
    withDemand g s q n demand c k = {m | m ∈ s'.requiredSet q c k} := by
  have hfed' := h.fed hd hfed
  have hconsistent := h.progress.consistent
  have hready : ∀ {c}, g.IsVisited [(n, demand)] c → ⟨q, c⟩ ∈ s'.ready := by
    rintro c ⟨call, hcall, hc⟩
    rw [List.mem_singleton.mp hcall] at hc
    induction hc with
    | refl => exact (h.provides n demand (List.mem_singleton_self _)).1
    | tail _ hop ih => exact hconsistent.operand_ready _ _ _ ih hop
  ext m
  refine ⟨fun hm => ?_, fun hm => (h.progress.addsOnly.required q c k m hm).imp_right And.right⟩
  rcases hm with hm | hm
  · exact h.progress.determines.required q c k m hm
  · induction hm with
    | call hcall hm hw => exact (h.provides _ _ hcall).2 _ _ hm hw
    | asked _ hasks ih => exact hconsistent.closed _ _ _ _ _ _ _ ih hasks
    | always hc hasks => exact hconsistent.closed_always _ _ _ _ _ (hfed' _ (hready hc)) hasks

/-- **A demand is refused exactly if it must be.** In a session that was properly reached, consider a
proper demand on a node. There is a least family of sets that has what is required in the pass, the nonzero
part of the demand, and what all of this asks of the node and the nodes below it. The demand is determined
exactly if the family has nothing new where required derivatives were told apart, and then it is what is
required. -/
theorem require_ok_iff (hg : g.Built) (hpoints : g.HasDiscretePoints) (hs : s.ProperlyReached g) (p : Pass)
    (hn : n < g.size) (hd : demand ≠ []) :
    ∃ R : NodeId → Nat → Set Mixed,
      IsLeast {R | g.Answers n demand R ∧ ∀ c k m, m ∈ s.requiredSet p.id c k → m ∈ R c k} R ∧
      ((∃ s', (require g p n demand).run.run s = (.ok (), s')) ↔
        ∀ c k, s.isClassified p.id c k = true → R c k = {m | m ∈ s.requiredSet p.id c k}) ∧
      ∀ s', (require g p n demand).run.run s = (.ok (), s') →
        ∀ c k, R c k = {m | m ∈ s'.requiredSet p.id c k} := by
  have hw := hg.wellFormed
  have hfed := hs.isFed hw p.id
  have hs := hs.reachable.consistent hw
  have hrequire := ends_require hw p hs n demand
  have hok : ∀ s', (require g p n demand).run.run s = (.ok (), s') →
      ∀ c k, withDemand g s p.id n demand c k = {m | m ∈ s'.requiredSet p.id c k} := fun s' hrun =>
    (hrequire.of_ok hrun).requiredSet_eq hfed hd
  refine ⟨_, isLeast_withDemand hs p.id n demand, ⟨?_, fun hfrozen => ?_⟩, hok⟩
  · rintro ⟨s', hrun⟩ c k hc
    rw [hok s' hrun, (hrequire.of_ok hrun).progress.determines.frozen _ _ _ hc]
  · have hdetermined : Ends (require g p n demand) s (fun _ _ => True) fun _ _ => False := by
      refine hrequire.mono (fun _ _ _ => trivial) fun e s' h => ?_
      cases h.1 with
      | grew hc hm hr =>
        -- what was refused is in the family, but is not required
        exact hr ((Set.ext_iff.mp (hfrozen _ _ hc) _).mp (.inr hm))
      | noNode m hcall hnone =>
        obtain ⟨node, hnode⟩ := Graph.exists_node? hn
        rw [List.mem_singleton.mp hcall] at hnone
        simp [hnode] at hnone
      | noPoint m hnot => exact hnot hpoints
    obtain ⟨⟨⟩, s', hrun, -⟩ := hdetermined.exists_ok
    exact ⟨s', hrun⟩

theorem properlyReached_productToldApart : productToldApart.ProperlyReached Graph.sumWithProduct :=
  ⟨{}, .tail (.single (.call default (.require 2 _) _ (List.cons_ne_nil _ _)))
    (.call default (.classify 2) _ trivial)⟩

/-- The derivative of the sum by `v` would be new where the product was told apart. For the negative term alone
it is determined. -/
theorem require_ok_iff_productToldApart :
    Graph.sumWithProduct.Built ∧ Graph.sumWithProduct.HasDiscretePoints ∧
    productToldApart.ProperlyReached Graph.sumWithProduct ∧ 4 < Graph.sumWithProduct.size ∧
    ([∅, {.ofAtom (.functional 7 .value)}] : Demand) ≠ [] ∧
    (¬∃ s', (require Graph.sumWithProduct default 4 [∅, {.ofAtom (.functional 7 .value)}]).run.run
      productToldApart = (.ok (), s')) ∧
    ∃ s', (require Graph.sumWithProduct default 3 [∅, {.ofAtom (.functional 7 .value)}]).run.run
        productToldApart = (.ok (), s') ∧
      IsLeast {R | Graph.sumWithProduct.Answers 3 [∅, {.ofAtom (.functional 7 .value)}] R ∧
          ∀ c k m, m ∈ productToldApart.requiredSet 0 c k → m ∈ R c k}
        (fun c k => {m | m ∈ s'.requiredSet 0 c k}) := by
  have hd : ([∅, {.ofAtom (.functional 7 .value)}] : Demand) ≠ [] := List.cons_ne_nil _ _
  have hsize : 4 < Graph.sumWithProduct.size := by decide
  obtain ⟨R, ⟨⟨hanswers, -⟩, -⟩, hiff, -⟩ := require_ok_iff Graph.built_sumWithProduct
    Graph.hasDiscretePoints_sumWithProduct properlyReached_productToldApart default hsize hd
  obtain ⟨R', hleast, -, heq⟩ := require_ok_iff Graph.built_sumWithProduct
    Graph.hasDiscretePoints_sumWithProduct properlyReached_productToldApart default
    (show 3 < Graph.sumWithProduct.size by decide) hd
  have hok : ((require Graph.sumWithProduct default 3 [∅, {.ofAtom (.functional 7 .value)}]).run.run
      productToldApart).1 = .ok () := by decide +kernel
  refine ⟨Graph.built_sumWithProduct, Graph.hasDiscretePoints_sumWithProduct, properlyReached_productToldApart,
    hsize, hd, fun h => ?_, _, run_eq_of_ok hok, ?_⟩
  · -- the product is asked for its derivative by `v`
    have hv : Mixed.ofAtom (.functional 7 .value) ∈ R 2 1 :=
      hanswers.asked 4 1 _ 2 1 _ .refl (hanswers.call 1 _ (by decide +kernel) (by decide +kernel))
        (.term (rfl : Graph.sumWithProduct.node? 4 = some (.sum [3, 2])) (by decide) (by decide +kernel))
    rw [hiff.mp h 2 1 (by decide +kernel)] at hv
    exact absurd hv (by decide +kernel)
  · rwa [show R' = _ from funext fun c => funext fun k => heq _ (run_eq_of_ok hok) c k] at hleast

end Session

end FormSparsity
