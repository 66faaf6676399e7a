import FormSparsity.Proofs.Session.Partition
import Mathlib.Order.Bounds.Basic

/-!
Required sets are the least demand. Demands that are determined one after the other, in a session that
knew nothing before, leave as required sets the least family of sets that answers them
(`required_isLeast`). So it does not matter in which order the demands came or how they were split up.
-/
namespace FormSparsity

/-- A family of sets of derivatives that answers demands on nodes: it has what is demanded, and what the
derivatives in it take of the operands, as far as that is nonzero. A spatial derivative takes the value
of its operand and the derivative by its coordinate in any case. -/
structure Graph.IsDemandFamily (g : Graph) (calls : List (NodeId × Demand)) (R : NodeId → Nat → Set Mixed) :
    Prop where
  call : ∀ n demand k m, (n, demand) ∈ calls → m ∈ Demand.ofOrder demand k → m ∈ g.nonzero n k → m ∈ R n k
  sum : ∀ n terms term k m, g.IsVisited calls n → g.node? n = some (.sum terms) → term ∈ terms →
    m ∈ R n k → m ∈ g.nonzero term k → m ∈ R term k
  neg : ∀ n arg k m, g.IsVisited calls n → g.node? n = some (.neg arg) →
    m ∈ R n k → m ∈ g.nonzero arg k → m ∈ R arg k
  product : ∀ n a b j k s t, g.node? n = some (.product a b) → j ≤ k → s * t ∈ R n k →
    s ∈ g.nonzero a j → t ∈ g.nonzero b (k - j) → s ∈ R a j ∧ t ∈ R b (k - j)
  nonlinear_value : ∀ n f arg k m v, g.node? n = some (.nonlinear f arg) →
    m ∈ R n k → v ∈ g.nonzero arg 0 → v ∈ R arg 0
  nonlinear_factor : ∀ n f arg k m factors factor, g.node? n = some (.nonlinear f arg) →
    m ∈ R n k → IsFactorization (g.nonzero arg) m factors → factor ∈ factors → factor ∈ R arg factor.order
  derivative_value : ∀ n d arg v, g.IsVisited calls n → g.node? n = some (.derivative d arg) →
    v ∈ g.nonzero arg 0 → v ∈ R arg 0
  derivative_direction : ∀ n d arg, g.IsVisited calls n → g.node? n = some (.derivative d arg) →
    .ofAtom (.coordinate d) ∈ g.nonzero arg 1 → .ofAtom (.coordinate d) ∈ R arg 1
  derivative_chain : ∀ n d arg k m c, g.IsVisited calls n → g.node? n = some (.derivative d arg) →
    k ≤ derivativeMaxOrder → m ∈ R n k → c ∈ g.chainAtoms (g.nonzero arg 1) d →
    c * m ∈ g.nonzero arg (k + 1) → c * m ∈ R arg (k + 1)
  derivative_shift : ∀ n d arg k m m', g.IsVisited calls n → g.node? n = some (.derivative d arg) →
    k ≤ derivativeMaxOrder → m ∈ R n k → m' ∈ g.nonzero arg k → m ∈ m'.shifts (.axis d) → m' ∈ R arg k

/-- Whether demands on nodes are on the same nodes and ask for the same in all, whatever their order and
however they are split up. -/
structure AskForTheSame (calls calls' : List (NodeId × Demand)) : Prop where
  nodes : ∀ n, (∃ demand, (n, demand) ∈ calls) ↔ ∃ demand, (n, demand) ∈ calls'
  demands : ∀ n k m, (∃ demand, (n, demand) ∈ calls ∧ m ∈ Demand.ofOrder demand k) ↔
    ∃ demand, (n, demand) ∈ calls' ∧ m ∈ Demand.ofOrder demand k

namespace AskForTheSame

variable {calls calls' : List (NodeId × Demand)}

theorem of_perm (h : calls.Perm calls') : AskForTheSame calls calls' where
  nodes _ := exists_congr fun _ => h.mem_iff
  demands _ _ _ := exists_congr fun _ => and_congr_left fun _ => h.mem_iff

/-- A demand may be split into two. -/
theorem of_merge (n : NodeId) (demand other : Demand) (calls : List (NodeId × Demand)) :
    AskForTheSame ((n, demand.merge other) :: calls) ((n, demand) :: (n, other) :: calls) where
  nodes n' := by
    simp only [List.mem_cons, Prod.mk.injEq]
    grind
  demands n' k m := by
    simp only [List.mem_cons, Prod.mk.injEq]
    constructor
    · rintro ⟨_, ⟨rfl, rfl⟩ | hc, hm⟩
      · rcases Demand.mem_ofOrder_merge.mp hm with hm | hm
        · exact ⟨demand, .inl ⟨rfl, rfl⟩, hm⟩
        · exact ⟨other, .inr (.inl ⟨rfl, rfl⟩), hm⟩
      · exact ⟨_, .inr (.inr hc), hm⟩
    · rintro ⟨_, ⟨rfl, rfl⟩ | ⟨rfl, rfl⟩ | hc, hm⟩
      · exact ⟨_, .inl ⟨rfl, rfl⟩, Demand.mem_ofOrder_merge.mpr (.inl hm)⟩
      · exact ⟨_, .inl ⟨rfl, rfl⟩, Demand.mem_ofOrder_merge.mpr (.inr hm)⟩
      · exact ⟨_, .inr hc, hm⟩

theorem isVisited (h : AskForTheSame calls calls') (g : Graph) (n : NodeId) :
    g.IsVisited calls n ↔ g.IsVisited calls' n := by
  constructor
  · rintro ⟨⟨top, demand⟩, hcall, hn⟩
    obtain ⟨demand', hcall'⟩ := (h.nodes top).mp ⟨demand, hcall⟩
    exact ⟨_, hcall', hn⟩
  · rintro ⟨⟨top, demand⟩, hcall, hn⟩
    obtain ⟨demand', hcall'⟩ := (h.nodes top).mpr ⟨demand, hcall⟩
    exact ⟨_, hcall', hn⟩

theorem symm (h : AskForTheSame calls calls') : AskForTheSame calls' calls :=
  ⟨fun n => (h.nodes n).symm, fun n k m => (h.demands n k m).symm⟩

theorem trans {calls'' : List (NodeId × Demand)} (h : AskForTheSame calls calls')
    (h' : AskForTheSame calls' calls'') : AskForTheSame calls calls'' :=
  ⟨fun n => (h.nodes n).trans (h'.nodes n), fun n k m => (h.demands n k m).trans (h'.demands n k m)⟩

theorem demanded (h : AskForTheSame calls calls') {g : Graph} {n : NodeId} {k : Nat} {m : Mixed}
    (hm : g.Demanded calls n k m) : g.Demanded calls' n k m := by
  refine hm.trans (fun call hcall => ?_) fun n demand k m hcall hm hw => ?_
  · obtain ⟨demand, hcall'⟩ := (h.nodes call.1).mp ⟨call.2, hcall⟩
    exact ⟨_, hcall', .refl⟩
  · obtain ⟨demand', hcall', hm'⟩ := (h.demands n k m).mp ⟨demand, hcall, hm⟩
    exact .call hcall' hm' hw

end AskForTheSame

namespace Session

variable {g : Graph} {s : Session} {p : Pass} {calls : List (NodeId × Demand)}

/-- What is demanded is in every family that answers the demands. -/
theorem mem_of_demanded {R : NodeId → Nat → Set Mixed} (hR : g.IsDemandFamily calls R)
    {n : NodeId} {k : Nat} {m : Mixed} (h : g.Demanded calls n k m) : m ∈ R n k := by
  induction h with
  | call hcall hm hw => exact hR.call _ _ _ _ hcall hm hw
  | always hn hasks =>
    cases hasks with
    | value hnode hw => exact hR.derivative_value _ _ _ _ hn hnode hw
    | direction hnode hw => exact hR.derivative_direction _ _ _ hn hnode hw
  | asked hd hasks ih =>
    have hn := hd.isVisited
    cases hasks with
    | term hnode hterm hw => exact hR.sum _ _ _ _ _ hn hnode hterm ih hw
    | negated hnode hw => exact hR.neg _ _ _ _ hn hnode ih hw
    | left hnode hs ht =>
      exact (hR.product _ _ _ _ _ _ _ hnode (Nat.le_add_right _ _) ih hs
        (by rwa [Nat.add_sub_cancel_left])).1
    | right hnode hs ht =>
      have := hR.product _ _ _ _ _ _ _ hnode (Nat.le_add_right _ _) ih hs (by rwa [Nat.add_sub_cancel_left])
      simpa using this.2
    | value hnode hw => exact hR.nonlinear_value _ _ _ _ _ _ hnode ih hw
    | factor hnode hfac hf => exact hR.nonlinear_factor _ _ _ _ _ _ _ hnode ih hfac hf
    | chain hnode hk hc hw => exact hR.derivative_chain _ _ _ _ _ _ hn hnode hk ih hc hw
    | shift hnode hk hw hm => exact hR.derivative_shift _ _ _ _ _ _ hn hnode hk ih hw hm

/-- The required sets of a pass in which all nodes are fed answer the demands that they meet. -/
theorem Consistent.isDemandFamily (hg : g.WellFormed) (hs : s.Consistent g) {q : PassId}
    (hprovides : Provides g q s calls) (hready : ∀ n, g.IsVisited calls n → ⟨q, n⟩ ∈ s.ready)
    (hfed : s.IsFed q) :
    g.IsDemandFamily calls fun n k => {m | m ∈ s.requiredSet q n k} where
  call n demand k m hcall hm hw := (hprovides n demand hcall).2 k m hm hw
  sum n terms term k m _ hnode hterm hm hw := hs.closed _ _ _ _ _ _ _ hm (.term hnode hterm hw)
  neg n arg k m _ hnode hm hw := hs.closed _ _ _ _ _ _ _ hm (.negated hnode hw)
  product n a b j k s' t hnode hjk hm hs' ht := by
    obtain ⟨i, rfl⟩ := Nat.exists_eq_add_of_le hjk
    rw [Nat.add_sub_cancel_left] at ht ⊢
    exact ⟨hs.closed _ _ _ _ _ _ _ hm (.left hnode hs' ht),
      hs.closed _ _ _ _ _ _ _ hm (.right hnode hs' ht)⟩
  nonlinear_value n f arg k m v hnode hm hw := hs.closed _ _ _ _ _ _ _ hm (.value hnode hw)
  nonlinear_factor n f arg k m factors factor hnode hm hfac hf := by
    obtain rfl := Graph.order_of_mem_nonzero hg (hs.mem_nonzero hm)
    exact hs.closed _ _ _ _ _ _ _ hm (.factor hnode hfac hf)
  derivative_value n d arg v hn hnode hw := hs.closed_always _ _ _ _ _ (hfed n (hready n hn)) (.value hnode hw)
  derivative_direction n d arg hn hnode hw :=
    hs.closed_always _ _ _ _ _ (hfed n (hready n hn)) (.direction hnode hw)
  derivative_chain n d arg k m c _ hnode hk hm hc hw := hs.closed _ _ _ _ _ _ _ hm (.chain hnode hk hc hw)
  derivative_shift n d arg k m m' _ hnode hk hm hw hm' :=
    hs.closed _ _ _ _ _ _ _ hm (.shift hnode hk hw hm')

/-- In a pass in which nothing was demanded before, the nodes from the demands on downwards get ready,
and what is demanded gets required. -/
theorem Progress.of_fresh (hs : s.Consistent g) {q : PassId} (hfresh : ∀ n, ⟨q, n⟩ ∉ s.ready) {s' : Session}
    (hp : Progress g q calls s s') (hprovides : Provides g q s' calls) (hfed : s'.IsFed q)
    (hg : g.WellFormed) :
    (∀ n, ⟨q, n⟩ ∈ s'.ready ↔ g.IsVisited calls n) ∧
      g.IsDemandFamily calls (fun n k => {m | m ∈ s'.requiredSet q n k}) ∧
      ∀ n k m, m ∈ s'.requiredSet q n k ↔ g.Demanded calls n k m := by
  have hready : ∀ n, g.IsVisited calls n → ⟨q, n⟩ ∈ s'.ready := by
    rintro n ⟨⟨top, demand⟩, hcall, hn⟩
    induction hn with
    | refl => exact (hprovides top demand hcall).1
    | tail _ hop ih => exact hp.consistent.operand_ready _ _ _ ih hop
  have hfamily := hp.consistent.isDemandFamily hg hprovides hready hfed
  refine ⟨fun n => ⟨fun hn => ?_, hready n⟩, hfamily, fun n k m => ⟨fun hm => ?_, mem_of_demanded hfamily⟩⟩
  · exact ((hp.addsOnly.ready _ n hn).resolve_left (hfresh n)).2
  · exact ((hp.addsOnly.required _ n k m hm).resolve_left fun hm =>
      hfresh n (hs.ready_of_mem_required hm)).2

theorem requireAll_restart (hg : g.WellFormed) (s₀ : Session) (p : Pass) (hne : ∀ call ∈ calls, call.2 ≠ [])
    (hrun : (requireAll g p calls).run.run s₀.restart = (.ok (), s)) :
    s.Consistent g ∧ (∀ n, ⟨p.id, n⟩ ∈ s.ready ↔ g.IsVisited calls n) ∧
      g.IsDemandFamily calls (fun n k => {m | m ∈ s.requiredSet p.id n k}) ∧
      ∀ n k m, m ∈ s.requiredSet p.id n k ↔ g.Demanded calls n k m := by
  have hfresh : ∀ n, ⟨p.id, n⟩ ∉ s₀.restart.ready := fun n => by simp [restart]
  have hs₀ := consistent_restart g s₀
  obtain ⟨hp, hprovides, hfed⟩ := (ends_requireAll hg p hs₀ calls).of_ok hrun
  exact ⟨hp.consistent, hp.of_fresh hs₀ hfresh hprovides (hfed hne fun n hn => absurd hn (hfresh n)) hg⟩

/-- Demands on nodes that exist are determined in a session that knew nothing before, if symbolic functions are
evaluated at discrete functions. -/
theorem exists_requireAll_restart (hg : g.WellFormed) (hpoints : g.HasDiscretePoints) (s₀ : Session) (p : Pass)
    (hnode : ∀ call ∈ calls, ∃ node, g.node? call.1 = some node) :
    ∃ s, (requireAll g p calls).run.run s₀.restart = (.ok (), s) := by
  have hs₀ := consistent_restart g s₀
  obtain ⟨⟨⟩, s, hrun, -⟩ := ((ends_requireAll hg p hs₀ calls).mono (fun _ _ h => h)
    fun e _ h => not_refuses hs₀ (fun n => by simp [restart]) hpoints hnode h.1).exists_ok
  exact ⟨s, hrun⟩

/-- **Required sets are the least demand.** If demands on nodes are determined one after the other in a
session that knew nothing before, then the nodes from there on downwards are ready, and their required
sets are the least family that answers the demands. The same demands in another order, or split up in
another way, lead to the same required sets; if symbolic functions are evaluated at discrete functions,
they cannot fail. -/
theorem required_isLeast (hg : g.Built) (s₀ : Session) (p : Pass) (hne : ∀ call ∈ calls, call.2 ≠ [])
    (hrun : (requireAll g p calls).run.run s₀.restart = (.ok (), s)) :
    (∀ n, ⟨p.id, n⟩ ∈ s.ready ↔ g.IsVisited calls n) ∧
    (∀ n k, ⟨p.id, n⟩ ∈ s.ready → (findRequired g p n k).run.run s = (.ok (s.requiredSet p.id n k), s)) ∧
    IsLeast {R | g.IsDemandFamily calls R} (fun n k => {m | m ∈ s.requiredSet p.id n k}) ∧
    ∀ (calls' : List (NodeId × Demand)) (t₀ : Session) (q : Pass), AskForTheSame calls calls' →
      (∀ call ∈ calls', call.2 ≠ []) →
      (∀ t, (requireAll g q calls').run.run t₀.restart = (.ok (), t) →
        (∀ n, ⟨q.id, n⟩ ∈ t.ready ↔ ⟨p.id, n⟩ ∈ s.ready) ∧
        ∀ n k, ⟨p.id, n⟩ ∈ s.ready → (findRequired g q n k).run.run t = (.ok (s.requiredSet p.id n k), t)) ∧
      (g.HasDiscretePoints → ∃ t, (requireAll g q calls').run.run t₀.restart = (.ok (), t)) := by
  have hw := hg.wellFormed
  obtain ⟨hs, hready, hfamily, hdemanded⟩ := requireAll_restart hw s₀ p hne hrun
  refine ⟨hready, fun n k hn => run_findRequired hs hn k, ⟨hfamily, fun R hR n k m hm => ?_⟩,
    fun calls' t₀ q hsame hne' => ⟨fun t ht => ?_, fun hpoints => ?_⟩⟩
  · exact mem_of_demanded hR ((hdemanded n k m).mp hm)
  · obtain ⟨hs', hready', -, hdemanded'⟩ := requireAll_restart hw t₀ q hne' ht
    have hreadyiff : ∀ n, ⟨q.id, n⟩ ∈ t.ready ↔ ⟨p.id, n⟩ ∈ s.ready := fun n => by
      rw [hready', hready, hsame.isVisited]
    refine ⟨hreadyiff, fun n k hn => ?_⟩
    rw [run_findRequired hs' ((hreadyiff n).mpr hn) k]
    have hset : t.requiredSet q.id n k = s.requiredSet p.id n k := Std.ExtTreeSet.ext_mem fun m => by
      rw [hdemanded', hdemanded]
      exact ⟨hsame.symm.demanded, hsame.demanded⟩
    rw [hset]
  · refine exists_requireAll_restart hw hpoints t₀ q fun call hcall => ?_
    exact hs.exists_node p.id call.1 ((hready _).mpr ((hsame.isVisited g _).mpr ⟨call, hcall, .refl⟩))

/-- The demand on `D0[x0*v]` for its derivatives by the variation and by the slope of the variation. -/
def slopeCalls : List (NodeId × Demand) :=
  [(3, Demand.merge [∅, {.ofAtom (.functional 7 .value)}]
    [∅, {.ofAtom (.functional 7 (.derivative (.axis 0)))}])]

/-- The same demand split up and turned round. -/
def slopeCallsSplit : List (NodeId × Demand) :=
  [(3, [∅, {.ofAtom (.functional 7 (.derivative (.axis 0)))}]), (3, [∅, {.ofAtom (.functional 7 .value)}])]

theorem askForTheSame_slopeCallsSplit : AskForTheSame slopeCalls slopeCallsSplit :=
  (AskForTheSame.of_merge 3 _ _ []).trans (.of_perm (.swap _ _ _))

/-- Both demands succeed and lead to the same required sets, the least ones. -/
theorem required_isLeast_slopeCalls :
    Graph.slopeOfProduct.Built ∧ (∀ call ∈ slopeCalls, call.2 ≠ []) ∧
    ∃ s, (requireAll Graph.slopeOfProduct default slopeCalls).run.run (restart {}) = (.ok (), s) ∧
      IsLeast {R | Graph.slopeOfProduct.IsDemandFamily slopeCalls R}
        (fun n k => {m | m ∈ s.requiredSet 0 n k}) ∧
      ∃ t, (requireAll Graph.slopeOfProduct default slopeCallsSplit).run.run (restart {}) = (.ok (), t) ∧
        ∀ n k, (⟨0, n⟩ : NodeKey) ∈ s.ready →
          (findRequired Graph.slopeOfProduct default n k).run.run t = (.ok (s.requiredSet 0 n k), t) := by
  have hne : ∀ call ∈ slopeCalls, call.2 ≠ [] := by decide +kernel
  have hne' : ∀ call ∈ slopeCallsSplit, call.2 ≠ [] := by decide +kernel
  have hok : ((requireAll Graph.slopeOfProduct default slopeCalls).run.run (restart {})).1 = .ok () := by
    decide +kernel
  have hrun : (requireAll Graph.slopeOfProduct default slopeCalls).run.run (restart {}) = (.ok (), _) :=
    Prod.ext hok rfl
  obtain ⟨-, -, hleast, hsame⟩ := required_isLeast Graph.built_slopeOfProduct {} default hne hrun
  obtain ⟨hagree, hsucceeds⟩ := hsame slopeCallsSplit {} default askForTheSame_slopeCallsSplit hne'
  obtain ⟨t, ht⟩ := hsucceeds Graph.hasDiscretePoints_slopeOfProduct
  exact ⟨Graph.built_slopeOfProduct, hne, _, hrun, hleast, t, ht, (hagree t ht).2⟩

end Session

end FormSparsity
