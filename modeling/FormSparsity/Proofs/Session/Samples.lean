import FormSparsity.Proofs.Session.Frame

/-!
Samples: the derivatives of discrete functions whose values are needed. A spatial derivative asks for them
when demand on it is determined, once its operand has got what it takes of it. In every session that a run
reaches there is a sample for every first-order derivative of the operand that a required derivative asks
for, and for nothing else but first-order derivatives that are required of an operand
(`Reachable.sampled`). If the value of a spatial derivative is required, that makes a sample for each
function that the chain rule takes (`sampled_of_ready`). Otherwise samples may be missing: the derivative
of `D0[u*u]` by `u` takes the slope of the discrete function, but asks for the derivative of `u*u` by `u`
twice alone.
-/
namespace FormSparsity

namespace Session

variable {ε α : Type} {g : Graph} {p : Pass} {s s' s'' : Session} {n : NodeId} {k : Nat}

/-! ## The samples that are asked for -/

/-- Whether a session has the samples that it should have: one for every first-order derivative that a
required derivative of a spatial derivative asks for, and none but for first-order derivatives that are
required of an operand. -/
structure Sampled (g : Graph) (s : Session) : Prop where
  complete : ∀ p n d arg j r z h β, g.node? n = some (.derivative d arg) → r ∈ s.requiredSet p n j →
    g.Asks n j r arg 1 z → g.IsSample d z h β → β ∈ s.sampled h
  sound : ∀ h β, β ∈ s.sampled h → ∃ p n d arg z, g.node? n = some (.derivative d arg) ∧
    z ∈ s.requiredSet p arg 1 ∧ g.IsSample d z h β

theorem sampled_restart (g : Graph) (s : Session) : Sampled g s.restart where
  complete p n d arg j r z h β _ hr := by
    rw [requiredSet_eq] at hr
    simp [restart] at hr
  sound h β hβ := by simp [sampled, restart] at hβ

/-- More samples do no harm if they are for required derivatives of operands. -/
theorem Sampled.of_grows (hs : s.Sampled g) (hrequired : ∀ p n k, s'.requiredSet p n k = s.requiredSet p n k)
    (hgrows : ∀ h β, β ∈ s.sampled h → β ∈ s'.sampled h)
    (hnew : ∀ h β, β ∈ s'.sampled h → β ∈ s.sampled h ∨ ∃ p n d arg z,
      g.node? n = some (.derivative d arg) ∧ z ∈ s.requiredSet p arg 1 ∧ g.IsSample d z h β) :
    s'.Sampled g where
  complete p n d arg j r z h β hn hr hasks hz := by
    rw [hrequired] at hr
    exact hgrows h β (hs.complete p n d arg j r z h β hn hr hasks hz)
  sound h β hβ := by
    simp only [hrequired]
    exact (hnew h β hβ).elim (hs.sound h β) id

theorem Sampled.of_samples_eq (hs : s.Sampled g)
    (hrequired : ∀ p n k, s'.requiredSet p n k = s.requiredSet p n k) (hsamples : s'.samples = s.samples) :
    s'.Sampled g := by
  have hsampled : ∀ h, s'.sampled h = s.sampled h := fun h => by rw [sampled, sampled, hsamples]
  exact hs.of_grows hrequired (fun h β hβ => by rwa [hsampled]) fun h β hβ => .inl (by rwa [← hsampled])

/-- What is left behind when samples were asked for some of the first-order derivatives that are required of
an operand. -/
structure HasAsked (g : Graph) (q : PassId) (d : Nat) (arg : NodeId) (done : List Mixed) (s s' : Session) :
    Prop where
  looks : Looks s s'
  mem_sampled : ∀ h β, β ∈ s'.sampled h ↔ β ∈ s.sampled h ∨
    ∃ z ∈ done, z ∈ s.requiredSet q arg 1 ∧ g.IsSample d z h β

/-- A spatial derivative asks for the samples of all first-order derivatives that are required of its operand; if
that fails, for those of some of them. -/
theorem ends_requestSamples_hasAsked (s : Session) (d : Nat) (arg : NodeId) :
    Ends (requestSamples g p n d arg) s
      (fun _ s' => HasAsked g p.id d arg (s.requiredSet p.id arg 1).toList s s')
      (fun _ s' => ∃ done, HasAsked g p.id d arg done s s') := by
  have hnone : HasAsked g p.id d arg [] s s := ⟨.refl s, by simp⟩
  rw [requestSamples, findRequired, ends_bind, ends_bind, ends_get, ends_ite]
  constructor
  · intro _
    rw [ends_pure]
    refine Ends.forM (fun done s' => HasAsked g p.id d arg done s s') (fun done z hz s' h => ?_) hnone
    refine (ends_requestSample p n d z).mono (fun _ s'' h' => ?_) fun _ s'' h' => ⟨done, h'.1 ▸ h⟩
    obtain ⟨-, hl, hsampled⟩ := h'
    refine ⟨h.looks.trans hl, ?_⟩
    intro f β
    have hz : z ∈ s.requiredSet p.id arg 1 := Std.ExtTreeSet.mem_toList.mp hz
    rw [hsampled, h.mem_sampled]
    simp only [List.mem_append, List.mem_singleton]
    grind
  · intro _
    rw [ends_bind]
    exact ends_checked_describe ⟨[], hnone⟩ fun _ _ => ⟨[], hnone⟩

/-! ## Visits -/

/-- A computation that finds sets alone and asks for no samples keeps the samples as they should be. -/
theorem ends_sampled_of_tellsApart {x : AnalysisM α} (hs : s.Sampled g)
    (h : Ends x s (fun _ s' => s'.Consistent g ∧ TellsApart s s') fun _ s' => s'.Consistent g ∧ TellsApart s s')
    (hsamples : Keeps (fun s' => s'.samples = s.samples) x) :
    Ends x s (fun _ s' => s'.Consistent g ∧ s'.Sampled g) fun _ s' => s'.Consistent g ∧ s'.Sampled g := by
  refine (h.and (hsamples s rfl)).mono (fun _ s' h' => ?_) fun _ s' h' => ?_
  · exact ⟨h'.1.1, hs.of_samples_eq h'.1.2.required h'.2⟩
  · exact ⟨h'.1.1, hs.of_samples_eq h'.1.2.required h'.2⟩

/-- The first part of a visit asks for no samples. -/
theorem keeps_sampled_prepare (hg : g.WellFormed) (p : Pass) (n : NodeId) (fresh : Demand) :
    Keeps (fun s => s.Consistent g ∧ s.Sampled g) (prepare g p n fresh) := by
  intro s hs
  refine ends_sampled_of_tellsApart hs.2 ?_ (isFrame_samples.keeps_prepare n fresh)
  cases hn : g.node? n with
  | none =>
    exact (ends_prepare_of_none hg p hs.1 hn fresh).mono (fun _ _ h => h.elim) fun _ _ h =>
      ⟨h.2.1, h.2.2.tellsApart⟩
  | some node =>
    exact (ends_prepare hg p hs.1 hn fresh).mono (fun _ _ h => ⟨h.2.2.2.2.2.1, h.2.2.2.2.2.2.tellsApart⟩)
      fun _ _ ⟨_, _, _, hs', hl⟩ => ⟨hs', hl.tellsApart⟩

theorem ends_recordVisit_samples (s : Session) (q : PassId) (n : NodeId) (demand addition : Demand) :
    Ends (recordVisit q n demand addition) s (fun _ s' => s'.samples = s.samples) fun _ _ => False := by
  rw [recordVisit, ends_bind]
  refine (Ends.forM (fun _ s' => s'.samples = s.samples) (fun _ b _ s' hs' => ?_) rfl).mono
    (fun _ s' hs' => ?_) fun _ _ h => h
  · rw [ends_modify, samples_addRequired, hs']
  · rw [ends_bind, ends_modify, ends_modify]
    exact hs'

/-- The last part of a visit asks for all first-order derivatives that are required of the operand of a spatial
derivative, and for nothing else. -/
theorem ends_finish_mem_sampled (g : Graph) (p : Pass) (n : NodeId) (fresh : Demand) (v : Preparation)
    (s : Session) :
    Ends (finish g p n fresh v) s
      (fun _ s' => ∀ h β, β ∈ s'.sampled h ↔ β ∈ s.sampled h ∨ ∃ d arg z, v.node = .derivative d arg ∧
        z ∈ s.requiredSet p.id arg 1 ∧ g.IsSample d z h β)
      (fun _ s' => ∀ h β, (β ∈ s.sampled h → β ∈ s'.sampled h) ∧ (β ∈ s'.sampled h → β ∈ s.sampled h ∨
        ∃ d arg z, v.node = .derivative d arg ∧ z ∈ s.requiredSet p.id arg 1 ∧ g.IsSample d z h β)) := by
  unfold finish
  split
  · rename_i d arg hnode
    rw [ends_bind]
    refine (ends_requestSamples_hasAsked s d arg).mono (fun _ s₁ hasked => ?_) fun _ s₁ hasked h β => ?_
    · refine (ends_recordVisit_samples s₁ p.id n fresh v.addition).mono (fun _ s₂ hsamples h β => ?_)
        fun _ _ h => h.elim
      rw [sampled, hsamples, ← sampled, hasked.mem_sampled]
      refine or_congr_right ⟨?_, ?_⟩
      · rintro ⟨z, -, hz, hsample⟩
        exact ⟨d, arg, z, hnode, hz, hsample⟩
      · rintro ⟨d', arg', z, hnode', hz, hsample⟩
        obtain ⟨rfl, rfl⟩ : d = d' ∧ arg = arg' := by simpa [hnode] using hnode'
        exact ⟨z, Std.ExtTreeSet.mem_toList.mpr hz, hz, hsample⟩
    · obtain ⟨done, hasked⟩ := hasked
      rw [hasked.mem_sampled]
      refine ⟨.inl, fun hβ => hβ.imp_right ?_⟩
      rintro ⟨z, -, hz, hsample⟩
      exact ⟨d, arg, z, hnode, hz, hsample⟩
  · rename_i hne
    refine (ends_recordVisit_samples s p.id n fresh v.addition).mono (fun _ s₂ hsamples h β => ?_)
      fun _ _ h => h.elim
    rw [sampled, hsamples, ← sampled]
    refine ⟨.inl, fun hβ => hβ.resolve_right ?_⟩
    rintro ⟨d, arg, -, hnode, -⟩
    exact hne d arg hnode

/-- At the end of a visit there are the samples that there should be, if what was accepted has been given what it
asks for. -/
theorem Sampled.of_finish {q : PassId} {v : Preparation} {fresh : Demand} (hs : s.Sampled g) (hl : Looks s s')
    (hadds : Adds q n fresh v.addition s' s'') (hn : g.node? n = some v.node)
    (hasked : ∀ d arg j r z, g.node? n = some (.derivative d arg) → r ∈ v.addition.ofOrder j →
      g.Asks n j r arg 1 z → z ∈ s.requiredSet q arg 1)
    (hmem : ∀ h β, β ∈ s''.sampled h ↔ β ∈ s.sampled h ∨ ∃ d arg z, v.node = .derivative d arg ∧
      z ∈ s.requiredSet q arg 1 ∧ g.IsSample d z h β) : s''.Sampled g where
  complete p c d arg j r z h β hc hr hasks hz := by
    rw [hmem]
    rcases (hadds.required p c j r).mp hr with hr | ⟨⟨rfl, rfl⟩, hr⟩
    · rw [hl.requiredSet] at hr
      exact .inl (hs.complete p c d arg j r z h β hc hr hasks hz)
    · exact .inr ⟨d, arg, z, by simpa [hn] using hc, hasked d arg j r z hc hr hasks, hz⟩
  sound h β hβ := by
    have hgrows : ∀ p c k m, m ∈ s.requiredSet p c k → m ∈ s''.requiredSet p c k := fun p c k m hm =>
      (hadds.required p c k m).mpr (.inl (by rwa [hl.requiredSet]))
    rcases (hmem h β).mp hβ with hβ | ⟨d, arg, z, hnode, hz, hsample⟩
    · obtain ⟨p, c, d, arg, z, hc, hz, hsample⟩ := hs.sound h β hβ
      exact ⟨p, c, d, arg, z, hc, hgrows _ _ _ _ hz, hsample⟩
    · exact ⟨q, n, d, arg, z, hnode ▸ hn, hgrows _ _ _ _ hz, hsample⟩

/-- A visit of a node asks for the samples that it should if determining demand for the operands does. -/
theorem ends_visit_sampled (hg : g.WellFormed) (p : Pass) {node : Node} (hn : g.node? n = some node)
    (hs : s.Consistent g) (hsampled : s.Sampled g) {demand fresh : Demand}
    (hfresh : s.unpropagated ⟨p.id, n⟩ demand = some fresh) (operand : NodeId → Demand → AnalysisM Unit)
    (hmeets : ∀ c ∈ node.children, ∀ part s, s.Consistent g →
      Ends (operand c part) s (fun _ s' => Meets g p.id c part s s')
        (fun e s' => Refuses g p [(c, part)] s e ∧ Progress g p.id [(c, part)] s s'))
    (hkeeps : ∀ c ∈ node.children, ∀ part, Keeps (fun s => s.Consistent g ∧ s.Sampled g) (operand c part)) :
    Ends (visit g p n operand fresh) s (fun _ s' => s'.Sampled g) fun _ s' => s'.Sampled g := by
  have hsub := (unpropagated_eq_some hfresh).2.1
  rw [visit_eq, ends_bind]
  refine ((ends_prepare hg p hs hn fresh).and (keeps_sampled_prepare hg p n fresh s ⟨hs, hsampled⟩)).mono
    (fun v s₁ h => ?_) fun _ _ h => h.2.2
  obtain ⟨⟨-, haddition, rfl, -, hparts, -⟩, hs₁, hsampled₁⟩ := h
  rw [ends_bind]
  have hforM : Ends (v.parts.forM fun b => operand b.1 b.2) s₁
      (fun _ s' => s'.Consistent g ∧ s'.Sampled g) fun _ s' => s'.Consistent g ∧ s'.Sampled g :=
    Ends.forM (fun _ s => s.Consistent g ∧ s.Sampled g)
      (fun _ b hb s hs => hkeeps b.1 (hparts.mem_children b.1 b.2 hb) b.2 s hs) ⟨hs₁, hsampled₁⟩
  refine ((ends_passOn hg p hn hparts hsub hmeets hs₁).and hforM).mono (fun _ s₂ h => ?_) fun _ _ h => h.2.2
  obtain ⟨⟨-, -, hprovides⟩, hs₂, hsampled₂⟩ := h
  have hoperand : ∀ c ∈ v.node.children, ⟨p.id, c⟩ ∈ s₂.ready := fun c hc => hprovides.operand_ready hparts hc
  refine ((ends_finish hg p hs₂ hoperand n fresh).and (ends_finish_mem_sampled g p n fresh v s₂)).mono
    (fun _ s₄ h => ?_) fun _ s₃ h => ?_
  · obtain ⟨⟨s₃, -, hl, hadds⟩, hmem⟩ := h
    refine hsampled₂.of_finish hl hadds hn (fun d arg j r z _ hr hasks => ?_) hmem
    -- what a derivative that is accepted asks for has been provided for
    rw [haddition] at hr
    obtain ⟨hr, hrw⟩ := Graph.mem_ofOrder_accepted.mp hr
    obtain ⟨part, hpart, hz⟩ := hparts.complete j r arg 1 z hr hrw hasks
    exact (hprovides arg part hpart).2 1 z hz hasks.mem_nonzero
  · obtain ⟨⟨-, -, hl⟩, hmem⟩ := h
    refine hsampled₂.of_grows hl.requiredSet (fun f β => (hmem f β).1) fun f β hβ => ?_
    refine ((hmem f β).2 hβ).imp_right fun ⟨d, arg, z, hnode, hz, hsample⟩ => ?_
    exact ⟨p.id, n, d, arg, z, hnode ▸ hn, hz, hsample⟩

/-- **Determining required sets asks for the samples** that it should, whether it fails or not. -/
theorem keeps_sampled_require (hg : g.WellFormed) (p : Pass) (n : NodeId) (demand : Demand) :
    Keeps (fun s => s.Consistent g ∧ s.Sampled g) (require g p n demand) := by
  induction n using Nat.strongRecOn generalizing demand with
  | ind n ih =>
    rintro s ⟨hs, hsampled⟩
    -- that the session stays consistent is known
    suffices h : Ends (require g p n demand) s (fun _ s' => s'.Sampled g) fun _ s' => s'.Sampled g by
      refine ((ends_require hg p hs n demand).and h).mono (fun _ s' h => ?_) fun _ s' h => ?_
      · exact ⟨h.1.progress.consistent, h.2⟩
      · exact ⟨h.1.2.consistent, h.2⟩
    refine ends_require_of_visit (fun _ => hsampled) (fun _ _ => hsampled) fun fresh j hsome => ?_
    have hs := hs.journal j
    have hsampled : Sampled g { s with journal := j } := hsampled.of_samples_eq (fun _ _ _ => rfl) rfl
    cases hn : g.node? n with
    | none =>
      rw [visit_eq, ends_bind]
      exact ((ends_prepare_of_none hg p hs hn fresh).and (keeps_sampled_prepare hg p n fresh _ ⟨hs, hsampled⟩)).mono
        (fun _ _ h => h.1.elim) fun _ _ h => h.2.2
    | some node =>
      have hlt : ∀ c ∈ node.children, c < n := hg.child_lt n node hn
      refine ends_visit_sampled hg p hn hs hsampled hsome
        (fun c => if c < n then require g p c else fun _ => unorderedNode g c)
        (fun c hc part s hs => ?_) fun c hc part => ?_
      · rw [if_pos (hlt c hc)]
        exact ends_require hg p hs c part
      · rw [if_pos (hlt c hc)]
        exact ih c (hlt c hc) part

/-! ## Runs -/

/-- **One step** of a run asks for the samples that it should. -/
theorem Step.sampled (hg : g.WellFormed) (hs : s.Consistent g) (hsampled : s.Sampled g) (h : Step g s s') :
    s'.Sampled g := by
  cases h with
  | call p c =>
    by_cases hc : c.IsRequire
    · cases c with
      | require n demand => exact (keeps_sampled_require hg p n demand s ⟨hs, hsampled⟩).state.2
      | _ => exact hc.elim
    · have hsamples := isFrame_samples (t := s.samples).keeps_call (g := g) (p := p) c hc
      exact (ends_sampled_of_tellsApart hsampled (ends_find hg p hs c hc) hsamples).state.2
  | openPass => exact hsampled.of_samples_eq (fun _ _ _ => rfl) rfl

/-- **Every session that a run reaches** has the samples that it should have. -/
theorem Reachable.sampled (hg : g.WellFormed) (h : s.Reachable g) : s.Sampled g := by
  obtain ⟨s₀, h⟩ := h
  induction h with
  | refl => exact sampled_restart g s₀
  | tail hlater hstep ih => exact hstep.sampled hg (Reachable.consistent hg ⟨s₀, hlater⟩) ih

/-- **Spatial derivatives whose value is required have their samples.** In whichever state a run has left the
session, take a spatial derivative that is ready and a function by which its operand has a nonzero first
derivative and which the chain rule takes. The function is evaluated at a discrete function, and if the value
of the spatial derivative is required, or its derivative by the slope of the function, then there is a sample
of the slope of the discrete function. There is no sample but for a first-order derivative that is required
of the operand of a spatial derivative. -/
theorem sampled_of_ready (hg : g.Built) (hpoints : g.HasDiscretePoints) (hs : s.Reachable g) (p : Pass)
    {d : Nat} {arg : NodeId} (hn : g.node? n = some (.derivative d arg)) (hready : ⟨p.id, n⟩ ∈ s.ready) :
    (∃ values slopes, (findRequired g p n 0).run.run s = (.ok values, s) ∧
      (findRequired g p n 1).run.run s = (.ok slopes, s) ∧
      ∀ f operator α, .ofAtom (.functional f operator) ∈ g.linearizedAtoms (g.nonzero arg 1) (.axis d) →
        operator.multiIndex? = some α →
        ∃ h, g.discreteEvalPoint f = .ok (some h) ∧
          (1 ∈ values ∨ .ofAtom (.functional f (.ofMultiIndex (α + .axis d))) ∈ slopes →
            α + .axis d ∈ s.sampled h)) ∧
    ∀ h β, β ∈ s.sampled h → ∃ q n d arg f operator α, g.node? n = some (.derivative d arg) ∧
      .ofAtom (.functional f operator) ∈ s.requiredSet q arg 1 ∧ operator.multiIndex? = some α ∧
      g.discreteEvalPoint f = .ok (some h) ∧ β = α + .axis d := by
  have hw := hg.wellFormed
  have hsampled := hs.sampled hw
  have hs := hs.consistent hw
  refine ⟨⟨_, _, run_findRequired hs hready 0, run_findRequired hs hready 1, fun f operator α hz hα => ?_⟩, ?_⟩
  · obtain ⟨hfirst, f', operator', α', heq, hα', hvalid, hf⟩ := Graph.mem_linearizedAtoms.mp hz
    obtain ⟨rfl, rfl⟩ : f = f' ∧ operator = operator' := by simpa using heq
    obtain rfl : α' = α := by simpa [hα] using hα'.symm
    obtain ⟨h, hh⟩ := exists_discreteEvalPoint_some hpoints hf
    have hsample : g.IsSample d (.ofAtom (.functional f operator)) h (α' + .axis d) :=
      ⟨f, operator, α', rfl, hα, hh, rfl⟩
    refine ⟨h, hh, ?_⟩
    rintro (hvalue | hslope)
    · -- the value is found by the chain rule
      have hasks : g.Asks n 0 1 arg 1 (.ofAtom (.functional f operator)) := by
        have hchain := Graph.Asks.chain (r := 1) (j := 0) hn (Nat.zero_le _)
          (Graph.mem_chainAtoms.mpr (.inl hz)) (by rwa [mul_one])
        rwa [mul_one] at hchain
      exact hsampled.complete _ _ _ _ _ _ _ _ _ hn hvalue hasks hsample
    · -- the derivative by the slope is found by a shift
      have hshift : Mixed.ofAtom (.functional f (.ofMultiIndex (α' + .axis d))) ∈
          (Mixed.ofAtom (.functional f operator)).shifts (.axis d) :=
        Mixed.mem_shifts.mpr ⟨_, _, 1, Atom.shift?_eq_some_iff.mpr ⟨f, operator, α', rfl, hα, hvalid, rfl⟩,
          (mul_one _).symm, (mul_one _).symm⟩
      have hasks := Graph.Asks.shift hn (by decide) hfirst hshift
      exact hsampled.complete _ _ _ _ _ _ _ _ _ hn hslope hasks hsample
  · intro h β hβ
    obtain ⟨q, n, d, arg, z, hn, hz, f, operator, α, rfl, hα, hf, rfl⟩ := hsampled.sound h β hβ
    exact ⟨q, n, d, arg, f, operator, α, hn, hz, hα, hf, rfl⟩

end Session

namespace Graph

/-- The graph of `D0[u*u]` on an interval, with `u` evaluated at a discrete function. -/
def slopeOfSquare : Graph where
  dimension := 1
  nodes := #[.discrete "d" 10, .symbolic "u" 5 .unknown (.discrete 0), .product 1 1, .derivative 0 2]

theorem built_slopeOfSquare : slopeOfSquare.Built :=
  built_of_calls [.discrete "d" 10, .unknownAt "u" 5 0, .mul 1 1, .derivative 0 2] (by with_unfolding_all rfl)

theorem hasDiscretePoints_slopeOfSquare : slopeOfSquare.HasDiscretePoints := by
  intro n name f role point h
  have hmem := Array.mem_of_getElem? h
  simp [slopeOfSquare] at hmem
  obtain ⟨-, -, -, rfl⟩ := hmem
  exact ⟨_, rfl, rfl⟩

end Graph

namespace Session

/-- A session in which the value of `D0[u*u]` was demanded. -/
def squareValueDemanded : Session := after (require Graph.slopeOfSquare default 3 [{1}]) {}

theorem reachable_squareValueDemanded : squareValueDemanded.Reachable Graph.slopeOfSquare :=
  Reachable.require ⟨{}, .refl⟩ default 3 _

/-- With the value of `D0[u*u]` the slope of the discrete function is sampled. -/
theorem sampled_of_ready_squareValueDemanded :
    Graph.slopeOfSquare.Built ∧ Graph.slopeOfSquare.HasDiscretePoints ∧
    squareValueDemanded.Reachable Graph.slopeOfSquare ∧
    Graph.slopeOfSquare.node? 3 = some (.derivative 0 2) ∧ (⟨0, 3⟩ : NodeKey) ∈ squareValueDemanded.ready ∧
    MultiIndex.axis 0 ∈ squareValueDemanded.sampled 10 := by
  have hn : Graph.slopeOfSquare.node? 3 = some (.derivative 0 2) := rfl
  have hready : (⟨0, 3⟩ : NodeKey) ∈ squareValueDemanded.ready := by decide +kernel
  obtain ⟨⟨values, slopes, hvalues, -, hsampled⟩, -⟩ :=
    sampled_of_ready Graph.built_slopeOfSquare Graph.hasDiscretePoints_slopeOfSquare
      reachable_squareValueDemanded default hn hready
  have hz : Mixed.ofAtom (.functional 5 .value) ∈
      Graph.slopeOfSquare.linearizedAtoms (Graph.slopeOfSquare.nonzero 2 1) (.axis 0) := by decide +kernel
  obtain ⟨h, hh, hvalue⟩ := hsampled 5 .value 0 hz rfl
  have hpoint : Graph.slopeOfSquare.discreteEvalPoint 5 = .ok (some 10) := by decide +kernel
  obtain rfl : h = 10 := by simpa [hpoint] using hh.symm
  have hs := reachable_squareValueDemanded.consistent Graph.built_slopeOfSquare.wellFormed
  obtain ⟨rfl, -⟩ := (ends_findRequired hs default 3 0).of_ok hvalues
  have hone : 1 ∈ squareValueDemanded.requiredSet 0 3 0 := by decide +kernel
  exact ⟨Graph.built_slopeOfSquare, Graph.hasDiscretePoints_slopeOfSquare, reachable_squareValueDemanded, hn,
    hready, hvalue (.inl hone)⟩

/-- If the derivative of `D0[u*u]` by `u` is demanded alone, then the chain rule takes `u` for it, but the
slope of the discrete function is not sampled. -/
theorem sampled_of_ready_fails :
    ∃ s,
      (require Graph.slopeOfSquare default 3 [∅, {.ofAtom (.functional 5 .value)}]).run.run {} = (.ok (), s) ∧
      Mixed.ofAtom (.functional 5 .value) ∈ s.requiredSet 0 3 1 ∧
      Mixed.ofAtom (.functional 5 .value) ∈
        Graph.slopeOfSquare.linearizedAtoms (Graph.slopeOfSquare.nonzero 2 1) (.axis 0) ∧
      Mixed.ofAtom (.functional 5 .value) * Mixed.ofAtom (.functional 5 .value) ∈
        Graph.slopeOfSquare.nonzero 2 2 ∧
      Graph.slopeOfSquare.discreteEvalPoint 5 = .ok (some 10) ∧ MultiIndex.axis 0 ∉ s.sampled 10 := by
  have hok : ((require Graph.slopeOfSquare default 3 [∅, {.ofAtom (.functional 5 .value)}]).run.run
      {}).1 = .ok () := by decide +kernel
  exact ⟨_, run_eq_of_ok hok, by decide +kernel, by decide +kernel, by decide +kernel, by decide +kernel,
    by decide +kernel⟩

end Session

end FormSparsity
