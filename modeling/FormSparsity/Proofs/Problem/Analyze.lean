import FormSparsity.Proofs.Problem.Couplings
import FormSparsity.Proofs.Session.LeastDemand

/-!
When analyses fail. An analysis of a system fails exactly if, for matrix and vector, a second derivative
that is not by a variation and an unknown is demanded of a whole integrand (`analyze_ok_iff`). Nothing of
the kind is demanded of an integrand on its own, but an integrand that is part of another one on the same
domain gets the demand on that part as well.
-/
namespace FormSparsity

namespace Form

variable {form : Form} {g : Graph}

/-- Whether the integrands of a form are nodes of a graph. -/
def IsOver (g : Graph) (form : Form) : Prop := ∀ i ∈ form.integrals, i.integrand < g.size

instance : Decidable (form.IsOver g) := inferInstanceAs (Decidable (∀ i ∈ form.integrals, i.integrand < g.size))

/-- Whether no integrand of a form is part of another integrand on the same domain. -/
def IsFlat (g : Graph) (form : Form) : Prop :=
  ∀ (domain : Domain) (roots : List NodeId), form.integrands[domain]? = some roots →
    ∀ root ∈ roots, ∀ part ∈ roots, ¬Relation.TransGen g.IsOperand root part

/-- The integrands that are listed are those of the integrals. -/
theorem exists_integral {domain : Domain} {roots : List NodeId} (h : form.integrands[domain]? = some roots)
    {root : NodeId} (hroot : root ∈ roots) : ∃ i ∈ form.integrals, i.integrand = root :=
  ⟨_, (mem_integrands_iff h).mp hroot, rfl⟩

end Form

namespace EquationSystem

variable {system : EquationSystem} {g : Graph} {p : Pass} {s : Session}
variable {roots : List NodeId} {root : NodeId}

/-- Whether all second derivatives that are demanded of the integrands of a domain are by a variation
and an unknown. The integrands share their demand. -/
def AreSplit (system : EquationSystem) (g : Graph) (roots : List NodeId) : Prop :=
  ∀ root ∈ roots, ∀ m, g.Demanded (system.demands g .matrixAndVector roots) root 2 m → system.IsPair m

/-- Whether the integrands of a form are split on each of its domains. -/
def IsSplit (system : EquationSystem) (g : Graph) (form : Form) : Prop :=
  ∀ (domain : Domain) (roots : List NodeId), form.integrands[domain]? = some roots → system.AreSplit g roots

/-! ## Demand on the integrands of a domain -/

/-- What is demanded of a whole integrand does not depend on the session. -/
theorem ends_rootDemand (hg : g.WellFormed) (p : Pass) (hs : s.Consistent g) (root : NodeId) :
    Ends (Session.rootDemand g p (p.computation.functionLists system.variations system.unknowns)
        (p.computation.orders.foldl max 0 + 1) root) s
      (fun demand s' => demand = system.demandOn g p.computation root ∧ s'.Consistent g ∧ s.Looks s')
      (Session.NotThere g s root) := by
  rw [Session.rootDemand, ends_bind]
  refine (Ends.mapM (fun s' => s'.Consistent g ∧ s.Looks s') (fun _ => True)
    (fun k => (k, system.selected g p.computation root k)) (fun k _ s' h => ?_) ⟨hs, .refl s⟩).mono
    (fun parts s' h => ⟨congrArg _ h.1, h.2.2⟩) fun _ _ he => he
  rw [ends_bind]
  refine (Session.ends_findNonzero hg p h.1 root k).mono (fun set s'' hset => ?_) fun e s'' he => ?_
  · obtain ⟨rfl, hs'', hl⟩ := hset
    rw [ends_bind, Session.ends_checked, selectM_isSelected hg]
    refine ⟨?_, fun m h => (by cases h)⟩
    rintro _ ⟨⟩
    exact ⟨rfl, trivial, hs'', h.2.trans hl⟩
  · exact ⟨he.1, he.2.1, he.2.2.1, h.2.trans he.2.2.2⟩

/-- Determining the demand on all integrands of a domain, in a pass in which nothing was demanded
before. -/
theorem ends_requireRoots (hg : g.WellFormed) (p : Pass) (hs : s.Consistent g)
    (hfresh : ∀ n, ⟨p.id, n⟩ ∉ s.ready) :
    Ends (roots.forM fun root => do
        Session.require g p root (← Session.rootDemand g p
          (p.computation.functionLists system.variations system.unknowns)
            (p.computation.orders.foldl max 0 + 1) root)) s
      (fun _ s' => Session.Progress g p.id (system.demands g p.computation roots) s s' ∧
        (∀ root ∈ roots, ⟨p.id, root⟩ ∈ s'.ready) ∧
        ∀ n k m, m ∈ s'.requiredSet p.id n k ↔ g.Demanded (system.demands g p.computation roots) n k m)
      fun e s' => Session.Refuses g p (system.demands g p.computation roots) s e ∧
        Session.Progress g p.id (system.demands g p.computation roots) s s' := by
  refine Ends.mono (Ends.forM
    (fun done s' => Session.Progress g p.id (system.demands g p.computation roots) s s' ∧
      Session.Provides g p.id s' (system.demands g p.computation done) ∧ s'.IsFed p.id)
    (fun done root hroot s' h => ?_)
    ⟨.refl hs, by simp [Session.Provides, demands], fun n hn => absurd hn (hfresh n)⟩)
    (fun _ s' h => ⟨h.1, fun root hroot => (h.2.1 root _ (List.mem_map_of_mem hroot)).1,
      (h.1.of_fresh hs hfresh h.2.1 h.2.2 hg).2.2⟩) fun _ _ he => he
  obtain ⟨hp, hprovides, hfed⟩ := h
  have hcall : (root, system.demandOn g p.computation root) ∈ system.demands g p.computation roots :=
    List.mem_map_of_mem hroot
  rw [ends_bind]
  refine (ends_rootDemand hg p hp.consistent root).mono (fun demand s₁ h => ?_) fun e s₁ h => ?_
  · obtain ⟨rfl, hs₁, hl⟩ := h
    have hp₁ := hp.trans (.of_looks hs₁ hl)
    refine (Session.ends_require hg p hs₁ root _).mono (fun _ s₂ hm => ?_) fun e s₂ he => ?_
    · obtain ⟨hp₂, hprovides₂⟩ := hp₁.append hcall (hprovides.of_determines hl.determines) hm
      exact ⟨hp₂, by simpa [demands] using hprovides₂, hm.fed demandOn_ne_nil (hfed.of_looks hl)⟩
    · exact hp₁.refuses hcall he
  · obtain ⟨⟨m, rfl⟩, hn, hs₁, hl⟩ := h
    exact ⟨.noNode m hcall hn, hp.trans (.of_looks hs₁ hl)⟩

/-! ## Couplings of an integrand -/

/-- A derivative either tells of couplings or of none, or it is to be split and is no pair. -/
theorem addDerivative_cases (p : Pass) (isBoundary : Bool) (root : NodeId) (c : Couplings) (m : Mixed) :
    (∃ c', system.addDerivative g p isBoundary root c m = .ok c' ∧
      (p.computation = .matrixAndVector → m.order = 2 → system.IsPair m)) ∨
    ∃ cause, system.addDerivative g p isBoundary root c m = .error cause ∧
      p.computation = .matrixAndVector ∧ m.order = 2 ∧ system.splitPair g root m = .error cause := by
  unfold addDerivative
  dsimp only
  split
  · rename_i horder
    exact .inl ⟨_, rfl, fun _ h => by omega⟩
  · split
    · rename_i horder
      cases hsplit : system.splitPair g root m with
      | ok pair => exact .inl ⟨_, rfl, fun _ _ => splitPair_eq_ok_iff.mp ⟨pair, hsplit⟩⟩
      | error cause => exact .inr ⟨cause, rfl, horder.2, horder.1, rfl⟩
    · rename_i horder
      exact .inl ⟨_, rfl, fun hc h => absurd ⟨h, hc⟩ horder⟩

/-- Derivatives either tell of couplings, or one of them is to be split and is no pair. -/
theorem foldlM_addDerivative (p : Pass) (isBoundary : Bool) (root : NodeId) (ms : List Mixed)
    (c : Couplings) :
    (∃ c', ms.foldlM (system.addDerivative g p isBoundary root) c = .ok c' ∧
      (p.computation = .matrixAndVector → ∀ m ∈ ms, m.order = 2 → system.IsPair m)) ∨
    ∃ m ∈ ms, ∃ cause, ms.foldlM (system.addDerivative g p isBoundary root) c = .error cause ∧
      p.computation = .matrixAndVector ∧ m.order = 2 ∧ system.splitPair g root m = .error cause := by
  induction ms generalizing c with
  | nil => exact .inl ⟨c, rfl, by simp⟩
  | cons m ms ih =>
    rw [List.foldlM_cons]
    rcases system.addDerivative_cases p isBoundary root c m with ⟨c', hc', hpair⟩ | ⟨cause, hc', hfails⟩
    · rw [hc']
      rcases ih c' with ⟨c'', hc'', hpairs⟩ | ⟨m', hm', h⟩
      · exact .inl ⟨c'', hc'', fun hc => List.forall_mem_cons.mpr ⟨hpair hc, hpairs hc⟩⟩
      · exact .inr ⟨m', List.mem_cons_of_mem _ hm', h⟩
    · rw [hc']
      exact .inr ⟨m, List.mem_cons_self, cause, rfl, hfails⟩

/-! ## Records -/

/-- Whether a record lists what is required of its integrand, which exists, with its variability, and all
second derivatives that are to be split are by a variation and an unknown. -/
structure Finds (system : EquationSystem) (g : Graph) (required : Mixed → Prop) (record : RootRecord) :
    Prop where
  exists_node : ∃ node, g.node? record.root = some node
  mem_iff : ∀ m, m ∈ record.classification ↔ required m
  value_eq : ∀ m v, record.classification[m]? = some v →
    v = if m ∈ g.varying record.root m.order then .varying else .constant
  isPair : record.computation = .matrixAndVector → ∀ m, required m → m.order = 2 → system.IsPair m

/-- Whether the second couplings have one record more for each of some tasks, and nothing else that the
records do not imply. -/
structure Covers (system : EquationSystem) (tasks : List Task) (IsFound : RootRecord → Prop)
    (c c' : Couplings) : Prop where
  records : ∃ records, c'.roots.toList = c.roots.toList ++ records ∧ records.map RootRecord.task = tasks ∧
    ∀ record ∈ records, IsFound record
  readOff : system.variations.Disjoint system.unknowns → system.IsReadOff c → system.IsReadOff c'

section Covers

variable {tasks tasks' : List Task} {IsFound IsFound' : RootRecord → Prop} {c c' c'' : Couplings}

theorem Covers.refl (c : Couplings) : system.Covers [] IsFound c c := ⟨⟨[], by simp⟩, fun _ h => h⟩

theorem Covers.mono (h : system.Covers tasks IsFound c c')
    (hfound : ∀ record, record.task ∈ tasks → IsFound record → IsFound' record) :
    system.Covers tasks IsFound' c c' := by
  obtain ⟨⟨records, hroots, rfl, hall⟩, hread⟩ := h
  exact ⟨⟨records, hroots, rfl, fun record hrecord =>
    hfound record (List.mem_map_of_mem hrecord) (hall record hrecord)⟩, hread⟩

theorem Covers.trans (h : system.Covers tasks IsFound c c') (h' : system.Covers tasks' IsFound c' c'') :
    system.Covers (tasks ++ tasks') IsFound c c'' := by
  obtain ⟨⟨records, hroots, htasks, hall⟩, hread⟩ := h
  obtain ⟨⟨records', hroots', htasks', hall'⟩, hread'⟩ := h'
  refine ⟨⟨records ++ records', ?_, ?_, List.forall_mem_append.mpr ⟨hall, hall'⟩⟩,
    fun hd hc => hread' hd (hread hd hc)⟩
  · rw [hroots', hroots, List.append_assoc]
  · rw [List.map_append, htasks, htasks']

/-- Starting from nothing, the records are those of the tasks, one for each. -/
theorem Covers.tasks_eq (h : system.Covers tasks IsFound {} c) : c.roots.toList.map RootRecord.task = tasks := by
  obtain ⟨⟨records, hroots, htasks, -⟩, -⟩ := h
  rw [hroots, ← htasks]
  rfl

theorem Covers.isFound (h : system.Covers tasks IsFound {} c) {record : RootRecord} (hrecord : record ∈ c.roots) :
    record.task ∈ tasks ∧ IsFound record := by
  rw [Array.mem_def] at hrecord
  refine ⟨h.tasks_eq ▸ List.mem_map_of_mem hrecord, ?_⟩
  obtain ⟨⟨records, hroots, -, hall⟩, -⟩ := h
  exact hall record (by simpa [hroots] using hrecord)

theorem Covers.exists_record (h : system.Covers tasks IsFound {} c) {task : Task} (htask : task ∈ tasks) :
    ∃ record ∈ c.roots, record.task = task ∧ IsFound record := by
  rw [← h.tasks_eq] at htask
  obtain ⟨record, hrecord, rfl⟩ := List.mem_map.mp htask
  have hrecord : record ∈ c.roots := Array.mem_def.mpr hrecord
  exact ⟨record, hrecord, rfl, (h.isFound hrecord).2⟩

end Covers

/-- The couplings of one integrand that is ready. -/
theorem ends_addRoot (hg : g.WellFormed) (p : Pass) (isBoundary : Bool) (hs : s.Consistent g)
    (c : Couplings) (hready : ⟨p.id, root⟩ ∈ s.ready) :
    Ends (system.addRoot g p isBoundary c root) s
      (fun c' s' => system.Covers [⟨isBoundary, p.domain, p.computation, root⟩]
          (system.Finds g fun m => m ∈ s.requiredSet p.id root m.order) c c' ∧
        s'.Consistent g ∧ s.TellsApart s')
      (fun e s' => (∃ m ∈ s.requiredSet p.id root 2, ∃ cause, p.computation = .matrixAndVector ∧
          system.splitPair g root m = .error cause ∧ e = .error cause) ∧
        s'.Consistent g ∧ s.TellsApart s') := by
  rw [addRoot, ends_bind]
  refine (Session.ends_classify hg p hs root).mono (fun classification s' h => ?_) fun _ _ he =>
    absurd hready he.1
  obtain ⟨hclass, -, hs', ht⟩ := h
  have hkeys : ∀ m, m ∈ classification ↔ m ∈ s.requiredSet p.id root m.order := fun m => hclass.mem_iff hs
  rcases system.foldlM_addDerivative p isBoundary root classification.keys c with
    ⟨c', hc', hpairs⟩ | ⟨m, hm, cause, hc', hcomputation, horder, hsplit⟩
  · rw [hc']
    refine ⟨⟨⟨[⟨p.domain, p.computation, isBoundary, root, classification⟩], ?_, rfl, ?_⟩,
      fun hd hread => hread.push hd hc'⟩, hs', ht⟩
    · rw [Array.toList_push, roots_of_foldlM_addDerivative hc']
    · rw [List.forall_mem_singleton]
      exact ⟨hs.exists_node _ _ hready, hkeys, fun m v hv => ((hclass m v).mp hv).2.2, fun hc m hm =>
        hpairs hc m (Std.ExtTreeMap.mem_keys.mpr ((hkeys m).mpr hm))⟩
  · rw [hc']
    refine ⟨⟨m, ?_, cause, hcomputation, hsplit, rfl⟩, hs', ht⟩
    rw [← horder]
    exact (hkeys m).mp (Std.ExtTreeMap.mem_keys.mp hm)

/-! ## Passes -/

/-- Whether a second derivative that cannot be split is demanded of an integrand of a domain, with the
cause why it cannot. -/
def Resists (system : EquationSystem) (g : Graph) (roots : List NodeId) (cause : AnalysisError) : Prop :=
  ∃ root ∈ roots, ∃ m, g.Demanded (system.demands g .matrixAndVector roots) root 2 m ∧
    system.splitPair g root m = .error cause

/-- Whether a record lists what is demanded of its integrand by the integrands of a domain. -/
def IsRecordOn (system : EquationSystem) (g : Graph) (roots : List NodeId) (record : RootRecord) : Prop :=
  system.Finds g (fun m => g.Demanded (system.demands g record.computation roots) record.root m.order m) record

/-- Whether a node that is to be analysed is missing, or a symbolic function is evaluated at a node that is
no discrete function. -/
def Lacks (g : Graph) (roots : List NodeId) : Prop :=
  (∃ root ∈ roots, g.node? root = none) ∨ ¬g.HasDiscretePoints

/-- **The analysis of a domain** in a pass in which nothing was demanded before. -/
theorem ends_analyzePass (hg : g.WellFormed) (p : Pass) (isBoundary : Bool)
    (hs : s.Consistent g) (hfresh : ∀ n, ⟨p.id, n⟩ ∉ s.ready) (c : Couplings) :
    Ends (system.analyzePass g p isBoundary roots c) s
      (fun c' s' => system.Covers (roots.map fun root => ⟨isBoundary, p.domain, p.computation, root⟩)
          (system.IsRecordOn g roots) c c' ∧
        Session.WorksIn g p.id s s')
      (fun e s' => ((∃ m, e = .misuse m) ∧ Lacks g roots ∨
          p.computation = .matrixAndVector ∧ ∃ cause, system.Resists g roots cause ∧ e = .error cause) ∧
        Session.WorksIn g p.id s s') := by
  rw [analyzePass, ends_bind]
  refine (ends_requireRoots hg p hs hfresh).mono (fun _ s₁ h => ?_) fun e s₁ h => ?_
  · obtain ⟨hp, hready, hdemanded⟩ := h
    have hwork := Session.WorksIn.of_progress hp
    refine (Ends.foldlM (fun done c' s' =>
      system.Covers (done.map fun root => ⟨isBoundary, p.domain, p.computation, root⟩)
        (system.IsRecordOn g roots) c c' ∧
      s'.Consistent g ∧ s₁.TellsApart s')
      (fun done root hroot c₁ s' h => ?_) ⟨.refl c, hp.consistent, .refl s₁⟩).mono (fun c' s' h => ?_)
      fun _ _ he => he
    · obtain ⟨hcovers, hs', ht⟩ := h
      refine (ends_addRoot hg p isBoundary hs' c₁ (ht.ready ▸ hready root hroot)).mono (fun c₂ s'' h => ?_)
        fun e s'' he => ?_
      · obtain ⟨hone, hs'', ht'⟩ := h
        refine ⟨?_, hs'', ht.trans ht'⟩
        rw [List.map_append]
        refine hcovers.trans (hone.mono fun record htask hfinds => ?_)
        obtain ⟨d, computation, b, n, classification⟩ := record
        cases List.mem_singleton.mp htask
        simp only [ht.required, hdemanded] at hfinds
        exact hfinds
      · obtain ⟨⟨m, hm, cause, hc, hsplit, rfl⟩, hs'', ht'⟩ := he
        refine ⟨.inr ⟨hc, cause, ⟨root, hroot, m, ?_, hsplit⟩, rfl⟩,
          hwork.trans (.of_tellsApart hs'' (ht.trans ht'))⟩
        rw [ht.required, hdemanded, hc] at hm
        exact hm
    · exact ⟨h.1, hwork.trans (.of_tellsApart h.2.1 h.2.2)⟩
  · obtain ⟨he, hp⟩ := h
    obtain ⟨hmisuse, hlacks⟩ := he.lacks hs hfresh
    refine ⟨.inl ⟨hmisuse, hlacks.imp_left ?_⟩, .of_progress hp⟩
    rintro ⟨call, hcall, hn⟩
    obtain ⟨root, hroot, rfl⟩ := List.mem_map.mp hcall
    exact ⟨root, hroot, hn⟩

/-! ## Forms -/

/-- Whether a session is consistent and has nodes ready in passes alone that were opened, so that nothing
was demanded in the pass that is opened next. -/
structure IsOrderly (g : Graph) (s : Session) : Prop where
  consistent : s.Consistent g
  opened : ∀ q n, ⟨q, n⟩ ∈ s.ready → q < s.passes

/-- A session that knows nothing yet is orderly. -/
theorem isOrderly_restart (g : Graph) (s : Session) : IsOrderly g s.restart :=
  ⟨Session.consistent_restart g s, fun q n hn => by simp [Session.restart] at hn⟩

/-- Work in a pass that was opened keeps a session orderly. -/
theorem IsOrderly.of_worksIn {q : PassId} (hs : IsOrderly g s) (hq : q < s.passes)
    (h : Session.WorksIn g q s s') : IsOrderly g s' where
  consistent := h.consistent
  opened q' n hn := by
    rw [h.passes]
    rcases h.ready q' n hn with hn | rfl
    · exact hs.opened q' n hn
    · exact hq

theorem IsOrderly.openPass (hs : IsOrderly g s) : IsOrderly g { s with passes := s.passes + 1 } :=
  ⟨hs.consistent.passes _, fun q n hn => Nat.lt_succ_of_lt (hs.opened q n hn)⟩

/-- Why the analysis of a form fails: a second derivative that is demanded of an integrand cannot be
split. -/
def Misses (system : EquationSystem) (g : Graph) (settings : Settings) (form : Form)
    (e : Fault SystemError) : Prop :=
  .matrixAndVector ∈ settings.computations ∧
  ∃ (id : PassId) (domain : Domain) (roots : List NodeId) (cause : AnalysisError),
    form.integrands[domain]? = some roots ∧ system.Resists g roots cause ∧
    e = .error (.analysisFailed (Pass.text ⟨id, domain, .matrixAndVector, settings.verbosity⟩) cause)

/-- How the analysis of any form fails: it lacks a node or a discrete function for some computation, or a
second derivative that is demanded of an integrand cannot be split. -/
def Fails (system : EquationSystem) (g : Graph) (settings : Settings) (form : Form)
    (e : Fault SystemError) : Prop :=
  (∃ m, e = .misuse m) ∧ settings.computations ≠ [] ∧ (¬form.IsOver g ∨ ¬g.HasDiscretePoints) ∨
    system.Misses g settings form e

/-- Whether a record lists what is demanded of an integrand of a form by the integrands over its domain. -/
def IsRecordOf (system : EquationSystem) (g : Graph) (form : Form) (record : RootRecord) : Prop :=
  ∃ roots, form.integrands[record.domain]? = some roots ∧ system.IsRecordOn g roots record

/-- **The analysis of a domain for one computation** opens a pass in which nothing was demanded
before. -/
theorem ends_analyzeDomain (hg : g.WellFormed) (settings : Settings) (isBoundary : Bool)
    (hs : IsOrderly g s) (domain : Domain) (c : Couplings) (computation : Computation) :
    Ends (system.analyzeDomain g settings isBoundary domain roots c computation) s
      (fun c' s' => system.Covers (roots.map fun root => ⟨isBoundary, domain, computation, root⟩)
          (system.IsRecordOn g roots) c c' ∧
        IsOrderly g s')
      (fun e s' => ((∃ m, e = .misuse m) ∧ Lacks g roots ∨ computation = .matrixAndVector ∧
          ∃ (id : PassId) (cause : AnalysisError), system.Resists g roots cause ∧
            e = .error (.analysisFailed
              (Pass.text ⟨id, domain, .matrixAndVector, settings.verbosity⟩) cause)) ∧
        IsOrderly g s') := by
  rw [analyzeDomain, ends_bind]
  show Ends _ { s with passes := s.passes + 1 } _ _
  rw [ends_bind]
  refine Session.ends_report rfl fun j => ?_
  rw [ends_adapt]
  have hs₁ : IsOrderly g { s with passes := s.passes + 1, journal := j } :=
    ⟨hs.openPass.consistent.journal j, hs.openPass.opened⟩
  have hpass : s.passes < s.passes + 1 := Nat.lt_succ_self _
  refine (ends_analyzePass hg ⟨s.passes, domain, computation, settings.verbosity⟩ isBoundary hs₁.consistent
    (fun n hn => Nat.lt_irrefl _ (hs.opened _ n hn)) c).mono (fun c' s' h => ?_) fun e s' h => ?_
  · exact ⟨h.1, hs₁.of_worksIn hpass h.2⟩
  · refine ⟨?_, hs₁.of_worksIn hpass h.2⟩
    rcases h.1 with ⟨⟨m, rfl⟩, hlacks⟩ | ⟨rfl, cause, hresists, rfl⟩
    · exact .inl ⟨⟨m, rfl⟩, hlacks⟩
    · exact .inr ⟨rfl, s.passes, cause, hresists, rfl⟩

/-- **The analysis of a form** adds a record for each of its tasks, or it fails. -/
theorem ends_analyzeForm (hg : g.WellFormed) (settings : Settings) (isBoundary : Bool)
    (hs : IsOrderly g s) (form : Form) (c : Couplings) :
    Ends (system.analyzeForm g settings isBoundary form c) s
      (fun c' s' => system.Covers (form.tasks settings.computations isBoundary)
          (system.IsRecordOf g form) c c' ∧ IsOrderly g s')
      (fun e s' => system.Fails g settings form e ∧ IsOrderly g s') := by
  rw [analyzeForm]
  refine Ends.foldlM (fun (done : List (Domain × List NodeId)) c' s' => system.Covers
      (done.flatMap fun entry => Form.tasksOn settings.computations isBoundary entry.1 entry.2)
      (system.IsRecordOf g form) c c' ∧ IsOrderly g s')
    (fun done entry hentry c₁ s' h => ?_) ⟨.refl c, hs⟩
  obtain ⟨domain, roots⟩ := entry
  obtain ⟨hdone, hs'⟩ := h
  have hlisted : form.integrands[domain]? = some roots :=
    Std.ExtTreeMap.mem_toList_iff_getElem?_eq_some.mp hentry
  refine (Ends.foldlM (fun computations c' s'' => system.Covers
      (Form.tasksOn computations isBoundary domain roots)
      (system.IsRecordOf g form) c₁ c' ∧ IsOrderly g s'')
    (fun computations computation hcomputation c₂ s'' h => ?_) ⟨.refl c₁, hs'⟩).mono (fun c' s'' h => ?_)
    fun _ _ he => he
  · refine (ends_analyzeDomain hg settings isBoundary h.2 domain c₂ computation).mono
      (fun c₃ s₃ h₃ => ⟨?_, h₃.2⟩) fun e s₃ h₃ => ⟨?_, h₃.2⟩
    · rw [Form.tasksOn, List.flatMap_append, List.flatMap_singleton]
      refine h.1.trans (h₃.1.mono fun record htask hfinds => ⟨roots, ?_, hfinds⟩)
      obtain ⟨root, -, heq⟩ := List.mem_map.mp htask
      rw [show record.domain = domain from (congrArg Task.domain heq).symm, hlisted]
    · rcases h₃.1 with ⟨hmisuse, hlacks⟩ | ⟨rfl, id, cause, hresists, rfl⟩
      · refine .inl ⟨hmisuse, List.ne_nil_of_mem hcomputation, hlacks.imp_left ?_⟩
        rintro ⟨root, hroot, hn⟩ hover
        obtain ⟨node, hnode⟩ := Graph.exists_node? (hover _ ((Form.mem_integrands_iff hlisted).mp hroot))
        cases hn.symm.trans hnode
      · exact .inr ⟨hcomputation, id, domain, roots, cause, hlisted, hresists, rfl⟩
  · rw [List.flatMap_append, List.flatMap_singleton]
    exact ⟨hdone.trans h.1, h.2⟩

/-- A form that can be split gives no reason to fail. -/
theorem IsSplit.not_misses {settings : Settings} {form : Form} {e : Fault SystemError}
    (h : system.IsSplit g form) :
    ¬system.Misses g settings form e := by
  rintro ⟨-, id, domain, roots, cause, hlisted, ⟨root, hroot, m, hm, hsplit⟩, -⟩
  obtain ⟨pair, hpair⟩ : ∃ pair, system.splitPair g root m = .ok pair :=
    splitPair_eq_ok_iff.mpr (h domain roots hlisted root hroot m hm)
  rw [hsplit] at hpair
  cases hpair

/-- What is demanded of an integrand that is no part of another one was demanded of it as a whole. -/
theorem mem_demandOn_of_isFlat {form : Form} (h : form.IsFlat g) {domain : Domain}
    (hlisted : form.integrands[domain]? = some roots) (hroot : root ∈ roots) {computation : Computation}
    {k : Nat} {m : Mixed} (hm : g.Demanded (system.demands g computation roots) root k m) :
    m ∈ (system.demandOn g computation root).ofOrder k := by
  have hpart : ∀ n, g.IsVisited (system.demands g computation roots) n → ¬g.IsOperand n root := by
    rintro n ⟨call, hcall, hn⟩ hop
    obtain ⟨top, htop, rfl⟩ := List.mem_map.mp hcall
    exact h domain roots hlisted top htop root hroot (Relation.TransGen.tail' hn hop)
  cases hm with
  | call hcall hm _ =>
    obtain ⟨root, -, ⟨⟩⟩ := List.mem_map.mp hcall
    exact hm
  | asked hd hasks => exact absurd hasks.exists_node (hpart _ hd.isVisited)
  | always hn hasks => exact absurd hasks.exists_node (hpart _ hn)

theorem isSplit_of_isFlat (hg : g.WellFormed) {form : Form} (h : form.IsFlat g) :
    system.IsSplit g form := fun _ _ hlisted _ hroot _ hm =>
  isPair_of_mem_demandOn hg (mem_demandOn_of_isFlat h hlisted hroot hm)

/-- The tasks of a system: those of its form and, if the settings say so, of its boundary conditions. -/
def tasks (system : EquationSystem) (settings : Settings) : List Task :=
  system.form.tasks settings.computations false ++
    if settings.includeBoundary then system.boundary.tasks settings.computations true else []

/-- The form that the tasks of one kind are about. -/
def formOf (system : EquationSystem) (isBoundary : Bool) : Form :=
  if isBoundary then system.boundary else system.form

/-- **The analysis of a system** starts from nothing and adds a record for each of its tasks, or it fails. In
both cases the session stays orderly. -/
theorem ends_analysis (hg : g.WellFormed) (settings : Settings) (hs : IsOrderly g s) :
    Ends (system.analyze g settings) s
      (fun c s' => system.Covers (system.tasks settings)
          (fun record => system.IsRecordOf g (system.formOf record.isBoundary) record) {} c ∧ IsOrderly g s')
      (fun e s' => (system.Fails g settings system.form e ∨
          settings.includeBoundary = true ∧ system.Fails g settings system.boundary e) ∧ IsOrderly g s') := by
  have hfound : ∀ (isBoundary : Bool) (record : RootRecord),
      record.task ∈ (system.formOf isBoundary).tasks settings.computations isBoundary →
      system.IsRecordOf g (system.formOf isBoundary) record →
      system.IsRecordOf g (system.formOf record.isBoundary) record := fun isBoundary record htask h => by
    rwa [show record.isBoundary = isBoundary from (Form.mem_tasks.mp htask).1]
  rw [analyze, ends_bind]
  refine (ends_analyzeForm hg settings false hs system.form {}).mono (fun c s₁ h => ?_) fun e s₁ he =>
    ⟨.inl he.1, he.2⟩
  obtain ⟨hcovers, hs₁⟩ := h
  have hcovers := hcovers.mono (hfound false)
  refine ends_ite.mpr ⟨fun hb => ?_, fun hb => ?_⟩
  · refine (ends_analyzeForm hg settings true hs₁ system.boundary c).mono (fun c' s₂ h => ?_) fun e s₂ he =>
      ⟨.inr ⟨hb, he.1⟩, he.2⟩
    obtain ⟨hcovers', hs₂⟩ := h
    rw [tasks, if_pos hb]
    exact ⟨hcovers.trans (hcovers'.mono (hfound true)), hs₂⟩
  · rw [tasks, if_neg hb, List.append_nil]
    exact ⟨hcovers, hs₁⟩

/-- Forms that were analysed for matrix and vector are split. -/
theorem Covers.isSplit (hg : g.WellFormed) {tasks : List Task} {c : Couplings} {settings : Settings}
    (h : system.Covers tasks
      (fun record => system.IsRecordOf g (system.formOf record.isBoundary) record) {} c) (isBoundary : Bool)
    (htasks : ∀ task ∈ (system.formOf isBoundary).tasks settings.computations isBoundary, task ∈ tasks)
    (hc : .matrixAndVector ∈ settings.computations) : system.IsSplit g (system.formOf isBoundary) := by
  intro domain roots hlisted root hroot m hm
  obtain ⟨⟨_, _, _, _, classification⟩, -, ⟨⟩, roots', hlisted', hfinds⟩ :=
    h.exists_record (htasks ⟨isBoundary, domain, .matrixAndVector, root⟩
      (Form.mem_tasks.mpr ⟨rfl, hc, (Form.mem_integrands_iff hlisted).mp hroot⟩))
  obtain rfl : roots = roots' := by simpa [hlisted] using hlisted'
  have horder : m.order = 2 := Graph.order_of_mem_nonzero hg hm.mem_nonzero
  exact hfinds.isPair rfl m (horder ▸ hm) horder

/-- **The analysis of a system** of integrands that exist fails only if a second derivative cannot be
split. -/
theorem ends_analyze (hg : g.WellFormed) (hpoints : g.HasDiscretePoints) (settings : Settings)
    (hform : system.form.IsOver g) (hboundary : system.boundary.IsOver g) (hs : IsOrderly g s) :
    Ends (system.analyze g settings) s
      (fun _ _ => .matrixAndVector ∈ settings.computations →
        system.IsSplit g system.form ∧ (settings.includeBoundary = true → system.IsSplit g system.boundary))
      (fun e _ => system.Misses g settings system.form e ∨
        settings.includeBoundary = true ∧ system.Misses g settings system.boundary e) := by
  have hmisses : ∀ form : Form, form.IsOver g → ∀ e, system.Fails g settings form e →
      system.Misses g settings form e := fun form hform e he =>
    he.resolve_left fun h => h.2.2.elim (absurd hform) (absurd hpoints)
  refine (ends_analysis hg settings hs).mono (fun c s' h hc => ⟨?_, fun hb => ?_⟩) fun e s' h =>
    h.1.imp (hmisses _ hform e) fun h => ⟨h.1, hmisses _ hboundary e h.2⟩
  · exact h.1.isSplit hg false (fun task htask => List.mem_append_left _ htask) hc
  · refine h.1.isSplit hg true (fun task htask => List.mem_append_right _ ?_) hc
    rw [if_pos hb]
    exact htask

/-- A form that gives a reason to fail gives one of two causes. -/
theorem Misses.cause {settings : Settings} {form : Form} {e : Fault SystemError}
    (h : system.Misses g settings form e) :
    ∃ pass expr, (∃ a : Atom, a.isCoordinate = true ∧
        e = .error (.analysisFailed pass (.invalidAtom expr (.notFunctional a)))) ∨
      ∃ derivative, e = .error (.analysisFailed pass (.malformedSecondOrder expr derivative)) := by
  obtain ⟨-, id, domain, roots, cause, -, ⟨root, -, m, -, hsplit⟩, rfl⟩ := h
  refine ⟨Pass.text ⟨id, domain, .matrixAndVector, settings.verbosity⟩, g.text root, ?_⟩
  rcases splitPair_eq_error hsplit with ⟨a, -, ha, rfl⟩ | rfl
  · exact .inl ⟨a, ha, rfl⟩
  · exact .inr ⟨m.text, rfl⟩

/-- **Analyses fail exactly on integrands that cannot be split.** In a session that knew nothing before,
the analysis of a system whose integrands are nodes of a graph succeeds if and only if no matrix is
computed or all second derivatives that are demanded of the integrands are by a variation and an
unknown, with those of the boundary conditions if these are analysed. If it fails, then because a second
derivative that is demanded of an integrand is by a coordinate, or not by a variation and an unknown. It
succeeds if no integrand is part of another one on the same domain. -/
theorem analyze_ok_iff (hg : g.Built) (hpoints : g.HasDiscretePoints) (settings : Settings)
    (hform : system.form.IsOver g) (hboundary : system.boundary.IsOver g) (s : Session) :
    ((∃ c s', (system.analyze g settings).run.run s.restart = (.ok c, s')) ↔
      (.matrixAndVector ∈ settings.computations →
        system.IsSplit g system.form ∧ (settings.includeBoundary = true → system.IsSplit g system.boundary))) ∧
    (∀ e s', (system.analyze g settings).run.run s.restart = (.error e, s') →
      (system.Misses g settings system.form e ∨
        settings.includeBoundary = true ∧ system.Misses g settings system.boundary e) ∧
      ∃ pass expr, (∃ a : Atom, a.isCoordinate = true ∧
          e = .error (.analysisFailed pass (.invalidAtom expr (.notFunctional a)))) ∨
        ∃ derivative, e = .error (.analysisFailed pass (.malformedSecondOrder expr derivative))) ∧
    (system.form.IsFlat g → (settings.includeBoundary = true → system.boundary.IsFlat g) →
      ∃ c s', (system.analyze g settings).run.run s.restart = (.ok c, s')) := by
  have hw := hg.wellFormed
  have hends := ends_analyze hw hpoints settings hform hboundary (isOrderly_restart g s)
  have hok : (.matrixAndVector ∈ settings.computations →
      system.IsSplit g system.form ∧ (settings.includeBoundary = true → system.IsSplit g system.boundary)) →
      ∃ c s', (system.analyze g settings).run.run s.restart = (.ok c, s') := by
    intro hsplit
    have hnever : Ends (system.analyze g settings) s.restart (fun _ _ => True) fun _ _ => False := by
      refine hends.mono (fun _ _ _ => trivial) fun e _ he => ?_
      rcases he with he | ⟨hb, he⟩
      · exact (hsplit he.1).1.not_misses he
      · exact ((hsplit he.1).2 hb).not_misses he
    obtain ⟨c, s', h, -⟩ := hnever.exists_ok
    exact ⟨c, s', h⟩
  refine ⟨⟨?_, hok⟩, fun e s' h => ?_, fun hflat hflat' => ?_⟩
  · rintro ⟨c, s', h⟩
    exact hends.of_ok h
  · have hmisses := hends.of_error h
    exact ⟨hmisses, hmisses.elim Misses.cause fun h => h.2.cause⟩
  · exact hok fun _ => ⟨isSplit_of_isFlat hw hflat, fun hb => isSplit_of_isFlat hw (hflat' hb)⟩

/-- The integrals of nodes over an interval, posed in the variation of `D0[x0*v]`. -/
def slopeSystem (roots : List NodeId) : EquationSystem where
  form := ⟨roots.map fun root => ⟨⟨⟨"interior", 1⟩, ⟨.gauss, 2⟩⟩, root⟩⟩
  boundary := ⟨[]⟩
  variations := [7]
  unknowns := []

/-- Beside the integral of its derivative, the integral of the product cannot be analysed: the derivative
takes the mixed derivative of the product by the coordinate and the variation. -/
theorem analyze_product_beside_derivative_fails :
    Graph.slopeOfProduct.Built ∧ Graph.slopeOfProduct.HasDiscretePoints ∧
    ofForms Graph.slopeOfProduct (slopeSystem [2, 3]).form ⟨[]⟩ [7] [] = .ok (slopeSystem [2, 3]) ∧
    (slopeSystem [2, 3]).form.IsOver Graph.slopeOfProduct ∧
    (((slopeSystem [2, 3]).analyze Graph.slopeOfProduct .standard).run.run
      (Session.restart {})).1.map (fun _ => ()) =
      .error (.error (.analysisFailed "EvalContext[id=0, interior/Gauss(2), MatrixAndVector]"
        (.invalidAtom "x0*v" (.notFunctional (.coordinate 0))))) :=
  ⟨Graph.built_slopeOfProduct, Graph.hasDiscretePoints_slopeOfProduct, by decide +kernel, by decide +kernel,
    by decide +kernel⟩

/-- The derivative of the product is split, beside the product it is not. -/
theorem analyze_ok_iff_slopeSystem :
    Graph.slopeOfProduct.Built ∧ Graph.slopeOfProduct.HasDiscretePoints ∧
    (slopeSystem [3]).form.IsOver Graph.slopeOfProduct ∧
    (slopeSystem [2, 3]).form.IsOver Graph.slopeOfProduct ∧
    (⟨[]⟩ : Form).IsOver Graph.slopeOfProduct ∧
    (slopeSystem [3]).IsSplit Graph.slopeOfProduct (slopeSystem [3]).form ∧
    ¬(slopeSystem [2, 3]).IsSplit Graph.slopeOfProduct (slopeSystem [2, 3]).form := by
  have hpoints := Graph.hasDiscretePoints_slopeOfProduct
  have hform : (slopeSystem [3]).form.IsOver Graph.slopeOfProduct := by decide +kernel
  have hforms : (slopeSystem [2, 3]).form.IsOver Graph.slopeOfProduct := by decide +kernel
  have hboundary : (⟨[]⟩ : Form).IsOver Graph.slopeOfProduct := by decide +kernel
  have hsplit : (slopeSystem [3]).IsSplit Graph.slopeOfProduct (slopeSystem [3]).form := by
    have hok : (((slopeSystem [3]).analyze Graph.slopeOfProduct .standard).run.run
        (Session.restart {})).1.isOk = true := by
      decide +kernel
    refine ((analyze_ok_iff Graph.built_slopeOfProduct hpoints .standard hform hboundary {}).1.mp ?_
      (List.mem_singleton_self _)).1
    rcases hrun : ((slopeSystem [3]).analyze Graph.slopeOfProduct .standard).run.run
      (Session.restart {}) with ⟨e | c, s'⟩
    · simp [hrun, Except.isOk, Except.toBool] at hok
    · exact ⟨c, s', rfl⟩
  have hmisses : ¬(slopeSystem [2, 3]).IsSplit Graph.slopeOfProduct (slopeSystem [2, 3]).form := by
    intro hsplits
    have hfails : (((slopeSystem [2, 3]).analyze Graph.slopeOfProduct .standard).run.run
        (Session.restart {})).1.isOk = false := by
      decide +kernel
    have hnone : (slopeSystem [2, 3]).IsSplit Graph.slopeOfProduct ⟨[]⟩ := by
      intro domain roots hlisted root hroot
      obtain ⟨i, hi, -⟩ := Form.exists_integral hlisted hroot
      cases hi
    obtain ⟨c, s', hrun⟩ :=
      (analyze_ok_iff Graph.built_slopeOfProduct hpoints .standard hforms hboundary {}).1.mpr
        fun _ => ⟨hsplits, fun _ => hnone⟩
    simp [hrun, Except.isOk, Except.toBool] at hfails
  exact ⟨Graph.built_slopeOfProduct, hpoints, hform, hforms, hboundary, hsplit, hmisses⟩

end EquationSystem

end FormSparsity
