import FormSparsity.Proofs.Session.LeastDemand
import FormSparsity.Proofs.Session.Readiness
import FormSparsity.Proofs.Session.Samples

/-!
Samples and the order of demands. The required sets that demands lead to do not depend on their order
(`requireAll_restart_iff`), but the samples may: a spatial derivative asks for samples when it is visited, and
what other nodes demand of its operand may come before that or after it. In any order there are the samples that
required derivatives ask for (`Asked`), and none but those for derivatives that are required of an operand in
the end (`MayAsk`). If no other node shares the operands of spatial derivatives, these are the same, and the
order does not matter (`samples_of_perm`).
-/
namespace FormSparsity.Session

variable {g : Graph} {p : Pass} {q : PassId} {s s' s'' t : Session} {n c : NodeId} {k : Nat} {m : Mixed}
variable {calls calls' : List (NodeId × Demand)} {h : FunctionId} {β : MultiIndex}

/-! ## Demands in a session that knows nothing yet -/

/-- **One demand** that is determined adds to required sets what it brings, in its pass. -/
theorem Reachable.ends_require_brings (hg : g.WellFormed) (hs : s.Reachable g) (p : Pass) (n : NodeId)
    (demand : Demand) :
    Ends (Session.require g p n demand) s
      (fun _ s' => s'.Reachable g ∧ ∀ q c k m,
        m ∈ s'.requiredSet q c k ↔ m ∈ s.requiredSet q c k ∨ q = p.id ∧ g.Brings (n, demand) c k m)
      fun _ _ => True := by
  have hconsistent := hs.consistent hg
  refine ((ends_require_addsBrought hg p hconsistent n demand).and (ends_run _ s)).mono (fun _ s' h => ?_)
    fun _ _ _ => trivial
  obtain ⟨hadds, hrun⟩ := h
  have hs' : s'.Reachable g := by
    have := hs.require p n demand
    rwa [after, hrun] at this
  refine ⟨hs', fun q c k m => ⟨hadds q c k m, ?_⟩⟩
  rintro (hm | ⟨rfl, hm⟩)
  · exact ((ends_require hg p hconsistent n demand).of_ok hrun).progress.determines.required q c k m hm
  · exact (hs.mem_requiredSet_iff hg hrun).mpr (.inr hm)

/-- **What demands lead to** in a session that knew nothing before: the nodes from there on downwards are ready,
and what the demands bring is required, in whichever order they came. -/
theorem requireAll_restart_iff (hg : g.WellFormed) (s₀ : Session) (p : Pass)
    (hrun : (requireAll g p calls).run.run s₀.restart = (.ok (), s)) :
    s.Reachable g ∧ (∀ q n, ⟨q, n⟩ ∈ s.ready ↔ q = p.id ∧ g.IsVisited calls n) ∧
      ∀ q c k m, m ∈ s.requiredSet q c k ↔ q = p.id ∧ ∃ call ∈ calls, g.Brings call c k m := by
  obtain ⟨hp, hprovides, -⟩ := (ends_requireAll hg p (consistent_restart g s₀) calls).of_ok hrun
  have hloop : Ends (requireAll g p calls) s₀.restart
      (fun _ s' => s'.Reachable g ∧
        ∀ q c k m, m ∈ s'.requiredSet q c k ↔ q = p.id ∧ ∃ call ∈ calls, g.Brings call c k m)
      fun _ _ => True := by
    refine Ends.forM (fun (done : List (NodeId × Demand)) (s' : Session) => s'.Reachable g ∧
      ∀ q c k m, m ∈ s'.requiredSet q c k ↔ q = p.id ∧ ∃ call ∈ done, g.Brings call c k m)
      (fun done call _ s' h => ?_) ⟨⟨s₀, .refl⟩, fun q c k m => ?_⟩
    · obtain ⟨n, demand⟩ := call
      refine (Reachable.ends_require_brings hg h.1 p n demand).mono (fun _ s'' h' => ⟨h'.1, fun q c k m => ?_⟩)
        fun _ _ _ => trivial
      rw [h'.2, h.2]
      simp only [List.mem_append, List.mem_singleton, or_and_right, exists_or, exists_eq_left, and_or_left]
    · rw [requiredSet_eq]
      simp [restart]
  obtain ⟨hs, hiff⟩ := hloop.of_ok hrun
  refine ⟨hs, fun q n => ⟨fun hn => (hp.addsOnly.ready q n hn).resolve_left (by simp [restart]), ?_⟩, hiff⟩
  rintro ⟨rfl, ⟨top, demand⟩, hcall, hn⟩
  exact (hs.consistent hg).ready_below (hprovides top demand hcall).1 hn

/-! ## The samples that there may be -/

/-- Whether a required derivative of a spatial derivative asks for a sample. -/
def Asked (g : Graph) (s : Session) (q : PassId) (h : FunctionId) (β : MultiIndex) : Prop :=
  ∃ n d arg j r z, g.node? n = some (.derivative d arg) ∧ r ∈ s.requiredSet q n j ∧ g.Asks n j r arg 1 z ∧
    g.IsSample d z h β

/-- Whether a spatial derivative that is ready samples for a first-order derivative that is required of its
operand. -/
def MayAsk (g : Graph) (s : Session) (q : PassId) (h : FunctionId) (β : MultiIndex) : Prop :=
  ∃ n d arg z, g.node? n = some (.derivative d arg) ∧ ⟨q, n⟩ ∈ s.ready ∧ z ∈ s.requiredSet q arg 1 ∧
    g.IsSample d z h β

theorem MayAsk.mono (hmay : MayAsk g s q h β) (hready : ∀ key, key ∈ s.ready → key ∈ s'.ready)
    (hrequired : ∀ q c k m, m ∈ s.requiredSet q c k → m ∈ s'.requiredSet q c k) : MayAsk g s' q h β := by
  obtain ⟨n, d, arg, z, hn, hr, hz, hsample⟩ := hmay
  exact ⟨n, d, arg, z, hn, hready _ hr, hrequired _ _ _ _ hz, hsample⟩

/-- Whether no samples came up between two sessions but some that spatial derivatives may ask for in the end. -/
def SamplesOnly (g : Graph) (q : PassId) (s s' : Session) : Prop :=
  ∀ h β, β ∈ s'.sampled h → β ∈ s.sampled h ∨ MayAsk g s' q h β

theorem SamplesOnly.of_samples_eq (hsamples : s'.samples = s.samples) : SamplesOnly g q s s' := fun h β hβ =>
  .inl (by rwa [sampled, hsamples] at hβ)

theorem SamplesOnly.trans (hs : SamplesOnly g q s s') (hs' : SamplesOnly g q s' s'')
    (hready : ∀ key, key ∈ s'.ready → key ∈ s''.ready)
    (hrequired : ∀ q c k m, m ∈ s'.requiredSet q c k → m ∈ s''.requiredSet q c k) : SamplesOnly g q s s'' :=
  fun h β hβ => by
    rcases hs' h β hβ with hβ | hmay
    · exact (hs h β hβ).imp_right fun hmay => hmay.mono hready hrequired
    · exact .inr hmay

/-- The end of a visit samples only for the node itself. -/
theorem SamplesOnly.of_finish {v : Preparation} {fresh : Demand} (hl : Looks s s')
    (hadds : Adds q n fresh v.addition s' s'') (hn : g.node? n = some v.node)
    (hmem : ∀ h β, β ∈ s''.sampled h ↔ β ∈ s.sampled h ∨ ∃ d arg z, v.node = .derivative d arg ∧
      z ∈ s.requiredSet q arg 1 ∧ g.IsSample d z h β) : SamplesOnly g q s s'' := by
  intro h β hβ
  refine ((hmem h β).mp hβ).imp_right fun ⟨d, arg, z, hnode, hz, hsample⟩ => ?_
  exact ⟨n, d, arg, z, hnode ▸ hn, (hadds.ready _).mpr (.inr rfl),
    (hadds.required _ _ _ _).mpr (.inl (by rwa [hl.requiredSet])), hsample⟩

/-- Demands sample only for spatial derivatives that are ready in the end if each of them does. -/
theorem ends_requireAll_samplesOnly_of (hg : g.WellFormed) (p : Pass) (hs' : s'.Consistent g)
    (hold : SamplesOnly g p.id s s')
    (hcall : ∀ call ∈ calls, ∀ s, s.Consistent g →
      Ends (require g p call.1 call.2) s (fun _ s' => SamplesOnly g p.id s s') fun _ _ => True) :
    Ends (requireAll g p calls) s' (fun _ s'' => SamplesOnly g p.id s s'') fun _ _ => True := by
  refine (Ends.forM (fun _ s' => s'.Consistent g ∧ SamplesOnly g p.id s s') (E := fun _ _ => True)
    (fun _ call hmem s₁ h => ?_) ⟨hs', hold⟩).mono (fun _ _ h => h.2) fun _ _ h => h
  refine ((ends_require hg p h.1 call.1 call.2).and (hcall call hmem s₁ h.1)).mono (fun _ s₂ h' => ?_)
    fun _ _ _ => trivial
  obtain ⟨hmeets, honly⟩ := h'
  have hd := hmeets.progress.determines
  exact ⟨hmeets.progress.consistent, h.2.trans honly hd.ready hd.required⟩

/-- **A demand that is determined samples only** for spatial derivatives that are ready in the end. -/
theorem ends_require_samplesOnly (hg : g.WellFormed) (p : Pass) (hs : s.Consistent g) (n : NodeId)
    (demand : Demand) :
    Ends (require g p n demand) s (fun _ s' => SamplesOnly g p.id s s') fun _ _ => True := by
  induction n using Nat.strongRecOn generalizing s demand with
  | ind n ih =>
    rw [require_eq, ends_bind]
    refine ((ends_opening hg p hs n demand).and (isFrame_samples.keeps_opening n demand s rfl)).mono
      (fun r s₁ h => ?_) fun _ _ _ => trivial
    obtain ⟨⟨hs₁, -, hparts⟩, hsamples⟩ := h
    cases r with
    | none => exact .of_samples_eq hsamples
    | some found =>
      obtain ⟨fresh, v⟩ := found
      obtain ⟨-, hn, -, hpasses⟩ := hparts fresh v rfl
      dsimp only
      rw [forM_operand hg p hn hpasses, ends_bind]
      refine ((ends_requireAll hg p hs₁ v.parts).and (ends_requireAll_samplesOnly_of hg p hs₁
        (.of_samples_eq hsamples) fun call hcall s hs => ?_)).mono (fun _ s₂ h => ?_) fun _ _ _ => trivial
      · exact ih call.1 (hg.child_lt n v.node hn call.1 (hpasses.mem_children call.1 call.2 hcall)) hs call.2
      · obtain ⟨⟨hp, hprovides, -⟩, honly⟩ := h
        have hoperand : ∀ c ∈ v.node.children, ⟨p.id, c⟩ ∈ s₂.ready := fun c hc =>
          hprovides.operand_ready hpasses hc
        refine ((ends_finish hg p hp.consistent hoperand n fresh).and
          (ends_finish_mem_sampled g p n fresh v s₂)).mono (fun _ s₄ h => ?_) fun _ _ _ => trivial
        obtain ⟨⟨s₃, -, hl, hadds⟩, hmem⟩ := h
        refine honly.trans (.of_finish hl hadds hn hmem) (fun key hkey => ?_) fun q c k m hm => ?_
        · exact (hadds.ready key).mpr (.inl (by rwa [hl.ready]))
        · exact (hadds.required q c k m).mpr (.inl (by rwa [hl.requiredSet]))

/-! ## Functions without samples -/

/-- Whether each function that is listed has samples. -/
def ListsSampled (s : Session) : Prop :=
  ∀ (h : FunctionId) (set : SortedSet MultiIndex), s.samples[h]? = some set → ∃ β, β ∈ set

theorem bearsDemand_listsSampled (q : PassId) : BearsDemand q fun s t => s = t ∧ s.ListsSampled := by
  refine .of_eq (.of_eq (fun _ h _ _ _ _ => h) fun _ h _ => h) (fun s hs f α h set hset => ?_) (fun _ h _ _ => h)
    fun _ h _ => h
  simp only [addSample, Std.ExtTreeMap.getElem?_insert] at hset
  split at hset
  · obtain rfl := Option.some.inj hset
    exact ⟨α, Std.ExtTreeSet.mem_insert_self⟩
  · exact hs h set hset

/-- Sessions with the same samples have the same list of them. -/
theorem ListsSampled.samples_eq (hs : s.ListsSampled) (ht : t.ListsSampled)
    (h : ∀ f β, β ∈ t.sampled f ↔ β ∈ s.sampled f) : t.samples = s.samples := by
  refine Std.ExtTreeMap.ext_getElem? fun f => ?_
  have hf : ∀ β, β ∈ t.samples[f]?.getD ∅ ↔ β ∈ s.samples[f]?.getD ∅ := by
    simpa only [sampled, Std.ExtTreeMap.getD_eq_getD_getElem?] using h f
  cases hs' : s.samples[f]? with
  | none =>
    rw [Option.eq_none_iff_forall_ne_some]
    intro set hset
    obtain ⟨β, hβ⟩ := ht f set hset
    have := (hf β).mp (by rwa [hset])
    simp [hs'] at this
  | some set =>
    obtain ⟨β, hβ⟩ := hs f set hs'
    cases ht' : t.samples[f]? with
    | none =>
      have := (hf β).mpr (by rwa [hs'])
      simp [ht'] at this
    | some set' =>
      have hset : set' = set := Std.ExtTreeSet.ext_mem fun β => by simpa [hs', ht'] using hf β
      rw [hset]

/-! ## Which samples there are in any order -/

/-- Whether no node but itself takes the operand of a spatial derivative that is visited, and the operand is not
demanded directly. -/
def Unshared (g : Graph) (calls : List (NodeId × Demand)) : Prop :=
  ∀ n d arg, g.IsVisited calls n → g.node? n = some (.derivative d arg) →
    (∀ demand, (arg, demand) ∉ calls) ∧ ∀ n', g.IsVisited calls n' → g.IsOperand n' arg → n' = n

/-- After demands there is what required derivatives ask for, and no more than what may be asked for. -/
theorem sampled_bounds (hg : g.WellFormed) (s₀ : Session) (p : Pass)
    (hrun : (requireAll g p calls).run.run s₀.restart = (.ok (), s)) (h : FunctionId) (β : MultiIndex) :
    (Asked g s p.id h β → β ∈ s.sampled h) ∧ (β ∈ s.sampled h → MayAsk g s p.id h β) := by
  obtain ⟨hs, -, -⟩ := requireAll_restart_iff hg s₀ p hrun
  refine ⟨fun ⟨n, d, arg, j, r, z, hn, hr, hasks, hsample⟩ => ?_, fun hβ => ?_⟩
  · exact (hs.sampled hg).complete _ _ _ _ _ _ _ _ _ hn hr hasks hsample
  · have honly := (ends_requireAll_samplesOnly_of hg p (consistent_restart g s₀) (.of_samples_eq rfl)
      fun call _ s hs => ends_require_samplesOnly hg p hs call.1 call.2).of_ok hrun
    exact (honly h β hβ).resolve_left (by simp [sampled, restart])

theorem listsSampled_requireAll (s₀ : Session) (p : Pass)
    (hrun : (requireAll g p calls).run.run s₀.restart = (.ok (), s)) : s.ListsSampled := by
  have hkeeps : Keeps ListsSampled (requireAll g p calls) :=
    (Respects.forM fun b _ => (bearsDemand_listsSampled p.id).respects_require b.1 b.2).keeps
  exact (hkeeps s₀.restart fun h set hset => by simp [restart] at hset).of_ok hrun

/-- If the operands of spatial derivatives are not shared, all that may be asked for is asked for. -/
theorem Unshared.asked (hg : g.WellFormed) (hunshared : Unshared g calls) (s₀ : Session) (p : Pass)
    (hrun : (requireAll g p calls).run.run s₀.restart = (.ok (), s)) (hmay : MayAsk g s p.id h β) :
    Asked g s p.id h β := by
  obtain ⟨-, hready, hrequired⟩ := requireAll_restart_iff hg s₀ p hrun
  obtain ⟨n, d, arg, z, hn, hr, hz, hsample⟩ := hmay
  obtain ⟨hcalled, hother⟩ := hunshared n d arg ((hready _ _).mp hr).2 hn
  obtain ⟨-, call, hcall, part, hreach, hpart, hw⟩ := (hrequired _ _ _ _).mp hz
  -- the demand on the operand is not one of those that were made, so a node passed it on: the spatial derivative
  cases hreach with
  | refl => exact absurd hcall (hcalled part)
  | tail hreach hgives =>
    rename_i above
    obtain ⟨n', demand⟩ := above
    have hvisited : g.IsVisited calls n' :=
      ⟨call, hcall, hreach.lift Prod.fst fun _ _ hgives => hgives.isOperand hg⟩
    obtain rfl := hother n' hvisited (hgives.isOperand hg)
    rcases hgives.sound hg hpart hw with ⟨j, r, hr, hrw, hasks⟩ | halways
    · exact ⟨n', d, arg, j, r, z, hn, (hrequired _ _ _ _).mpr ⟨rfl, call, hcall, demand, hreach, hr, hrw⟩, hasks,
        hsample⟩
    · -- nothing is sampled for the derivative by the coordinate
      cases halways with
      | direction =>
        obtain ⟨f, operator, α, hz, -⟩ := hsample
        simp at hz

/-- **Samples and the order of demands.** Demands that succeed in a session that knew nothing before succeed in
every order, and lead to the same required sets. There are the samples in any order that required derivatives of
spatial derivatives ask for, and in no order others than for first-order derivatives that are required of their
operands in the end. If no other node takes these operands and they are not demanded directly, the samples are
the same in every order. -/
theorem samples_of_perm (hg : g.Built) (hpoints : g.HasDiscretePoints) (s₀ t₀ : Session) (p : Pass)
    (hperm : calls.Perm calls') (hrun : (requireAll g p calls).run.run s₀.restart = (.ok (), s)) :
    ∃ t, (requireAll g p calls').run.run t₀.restart = (.ok (), t) ∧
      (∀ key, key ∈ t.ready ↔ key ∈ s.ready) ∧
      (∀ q n k, t.requiredSet q n k = s.requiredSet q n k) ∧
      (∀ h β, Asked g s p.id h β → β ∈ s.sampled h ∧ β ∈ t.sampled h) ∧
      (∀ h β, β ∈ s.sampled h ∨ β ∈ t.sampled h → MayAsk g s p.id h β) ∧
      ((∀ h β, MayAsk g s p.id h β → Asked g s p.id h β) → t.samples = s.samples) ∧
      (Unshared g calls → t.samples = s.samples) := by
  have hw := hg.wellFormed
  obtain ⟨hs, hready, hrequired⟩ := requireAll_restart_iff hw s₀ p hrun
  obtain ⟨t, ht⟩ : ∃ t, (requireAll g p calls').run.run t₀.restart = (.ok (), t) := by
    refine exists_requireAll_restart hw hpoints t₀ p fun call hcall => ?_
    exact (hs.consistent hw).exists_node p.id call.1
      ((hready _ _).mpr ⟨rfl, call, hperm.mem_iff.mpr hcall, .refl⟩)
  obtain ⟨-, hready', hrequired'⟩ := requireAll_restart_iff hw t₀ p ht
  have hreadyiff : ∀ key, key ∈ t.ready ↔ key ∈ s.ready := fun ⟨q, n⟩ => by
    rw [hready, hready', (AskForTheSame.of_perm hperm).isVisited]
  have hrequiredeq : ∀ q n k, t.requiredSet q n k = s.requiredSet q n k := fun q n k =>
    Std.ExtTreeSet.ext_mem fun m => by
      rw [hrequired, hrequired']
      exact and_congr_right fun _ => exists_congr fun _ => and_congr_left fun _ => hperm.mem_iff.symm
  have hasked : ∀ h β, Asked g s p.id h β → β ∈ s.sampled h ∧ β ∈ t.sampled h := fun h β hβ => by
    refine ⟨(sampled_bounds hw s₀ p hrun h β).1 hβ, (sampled_bounds hw t₀ p ht h β).1 ?_⟩
    simpa only [Asked, hrequiredeq] using hβ
  have hmay : ∀ h β, β ∈ s.sampled h ∨ β ∈ t.sampled h → MayAsk g s p.id h β := by
    rintro h β (hβ | hβ)
    · exact (sampled_bounds hw s₀ p hrun h β).2 hβ
    · have := (sampled_bounds hw t₀ p ht h β).2 hβ
      simpa only [MayAsk, hreadyiff, hrequiredeq] using this
  have hsame : (∀ h β, MayAsk g s p.id h β → Asked g s p.id h β) → t.samples = s.samples := fun hall =>
    (listsSampled_requireAll s₀ p hrun).samples_eq (listsSampled_requireAll t₀ p ht) fun h β =>
      ⟨fun hβ => (hasked h β (hall h β (hmay h β (.inr hβ)))).1,
        fun hβ => (hasked h β (hall h β (hmay h β (.inl hβ)))).2⟩
  exact ⟨t, ht, hreadyiff, hrequiredeq, hasked, hmay, hsame, fun hunshared =>
    hsame fun h β => hunshared.asked hw s₀ p hrun⟩

/-- Demands on `D0[u*u]` for its derivative by `u` and for its value. -/
def variationThenValue : List (NodeId × Demand) := [(3, [∅, {.ofAtom (.functional 5 .value)}]), (3, [{1}])]

theorem unshared_variationThenValue : Unshared Graph.slopeOfSquare variationThenValue := by
  -- the square is the only operand of a spatial derivative
  have hoperand : ∀ n node, Graph.slopeOfSquare.node? n = some node → 2 ∈ node.children → n = 3 := by
    rintro (_ | _ | _ | _ | n) node hn hc <;> simp [Graph.slopeOfSquare, Graph.node?] at hn <;> subst hn <;>
      simp [Node.children] at hc ⊢
  intro n d arg _ hn
  obtain rfl : arg = 2 := by
    rcases n with _ | _ | _ | _ | n <;> cases hn
    rfl
  obtain rfl : n = 3 := hoperand n _ hn (by simp [Node.children])
  refine ⟨fun demand => by simp [variationThenValue], fun n' _ hop => ?_⟩
  obtain ⟨node, hn', hc⟩ := hop
  exact hoperand n' node hn' hc

/-- The slope of the discrete function is sampled in both orders. -/
theorem samples_of_perm_variationThenValue :
    Graph.slopeOfSquare.Built ∧ Graph.slopeOfSquare.HasDiscretePoints ∧
    variationThenValue.Perm variationThenValue.reverse ∧ Unshared Graph.slopeOfSquare variationThenValue ∧
    ∃ s t, (requireAll Graph.slopeOfSquare default variationThenValue).run.run (restart {}) = (.ok (), s) ∧
      (requireAll Graph.slopeOfSquare default variationThenValue.reverse).run.run (restart {}) = (.ok (), t) ∧
      MultiIndex.axis 0 ∈ s.sampled 10 ∧ t.samples = s.samples := by
  have hperm := (List.reverse_perm variationThenValue).symm
  have hok : ((requireAll Graph.slopeOfSquare default variationThenValue).run.run (restart {})).1 = .ok () := by
    decide +kernel
  obtain ⟨t, ht, -, -, -, -, -, hsame⟩ := samples_of_perm Graph.built_slopeOfSquare
    Graph.hasDiscretePoints_slopeOfSquare {} {} default hperm (run_eq_of_ok hok)
  exact ⟨Graph.built_slopeOfSquare, Graph.hasDiscretePoints_slopeOfSquare, hperm, unshared_variationThenValue, _, t,
    run_eq_of_ok hok, ht, by decide +kernel, hsame unshared_variationThenValue⟩

/-- Demands on `D0[u*u]` and on `u*u`, for the derivative by `u` both times. -/
def slopeThenSquare : List (NodeId × Demand) :=
  [(3, [∅, {.ofAtom (.functional 5 .value)}]), (2, [∅, {.ofAtom (.functional 5 .value)}])]

/-- If the derivative of `D0[u*u]` by `u` is demanded before that of `u*u`, then the slope of the discrete function
is not sampled, but in the other order it is. -/
theorem samples_of_perm_fails :
    ∃ s t, (requireAll Graph.slopeOfSquare default slopeThenSquare).run.run (restart {}) = (.ok (), s) ∧
      (requireAll Graph.slopeOfSquare default slopeThenSquare.reverse).run.run (restart {}) = (.ok (), t) ∧
      MultiIndex.axis 0 ∉ s.sampled 10 ∧ MultiIndex.axis 0 ∈ t.sampled 10 ∧ t.samples ≠ s.samples := by
  have hs : ((requireAll Graph.slopeOfSquare default slopeThenSquare).run.run (restart {})).1 = .ok () := by
    decide +kernel
  have ht : ((requireAll Graph.slopeOfSquare default slopeThenSquare.reverse).run.run (restart {})).1 = .ok () := by
    decide +kernel
  have hnot : MultiIndex.axis 0 ∉
      (after (requireAll Graph.slopeOfSquare default slopeThenSquare) (restart {})).sampled 10 := by decide +kernel
  have hmem : MultiIndex.axis 0 ∈
      (after (requireAll Graph.slopeOfSquare default slopeThenSquare.reverse) (restart {})).sampled 10 := by
    decide +kernel
  refine ⟨_, _, run_eq_of_ok hs, run_eq_of_ok ht, hnot, hmem, fun heq => hnot ?_⟩
  rwa [sampled, ← heq]

end FormSparsity.Session
