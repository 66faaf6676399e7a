import FormSparsity.Proofs.Problem.Exactness

/-!
What analyses depend on. In which order the integrals of a form are listed, and how often, does not matter for
the outcome of an analysis, nor does the order of the computations or what was found in the session before
(`analyze_invariant`).
-/
namespace FormSparsity

/-! ## Tables -/

namespace RegionTable

variable {α : Type} [Ord α] [Std.TransOrd α] [Std.LawfulEqOrd α]

/-- Tables that list the same for every region are equal. -/
theorem eq_of_lists {table table' : RegionTable α} {P : Region → α → Prop} (h : ∀ r, table.Lists r (P r))
    (h' : ∀ r, table'.Lists r (P r)) : table = table' := by
  refine Std.ExtTreeMap.ext_getElem? fun r => ?_
  have hmem : r ∈ table ↔ r ∈ table' := (h r).mem_iff.trans (h' r).mem_iff.symm
  have hset : table.getD r ∅ = table'.getD r ∅ :=
    Std.ExtTreeSet.ext_mem fun a => ((h r).getD_iff a).trans ((h' r).getD_iff a).symm
  rw [Std.ExtTreeMap.getD_eq_getD_getElem?, Std.ExtTreeMap.getD_eq_getD_getElem?] at hset
  rw [Std.ExtTreeMap.mem_iff_isSome_getElem?, Std.ExtTreeMap.mem_iff_isSome_getElem?] at hmem
  cases htable : table[r]? <;> cases htable' : table'[r]? <;> simp_all

end RegionTable

/-- Whether two outcomes of analyses are the same but for the order and the repetition of records. -/
structure Couplings.Same (c c' : Couplings) : Prop where
  pairs : c.pairs = c'.pairs
  boundaryPairs : c.boundaryPairs = c'.boundaryPairs
  variations : c.variations = c'.variations
  unknowns : c.unknowns = c'.unknowns
  roots : ∀ record, record ∈ c.roots ↔ record ∈ c'.roots

/-! ## Forms with the same integrals -/

namespace Form

/-- Whether two forms have the same integrals, in any order and with any repetitions. -/
def SameIntegrals (form form' : Form) : Prop := ∀ i, i ∈ form.integrals ↔ i ∈ form'.integrals

variable {form form' : Form} {domain : Domain} {roots roots' : List NodeId}

theorem SameIntegrals.symm (h : form.SameIntegrals form') : form'.SameIntegrals form := fun i => (h i).symm

theorem SameIntegrals.mem_iff (h : form.SameIntegrals form') (hlisted : form.integrands[domain]? = some roots)
    (hlisted' : form'.integrands[domain]? = some roots') {root : NodeId} : root ∈ roots ↔ root ∈ roots' := by
  rw [mem_integrands_iff hlisted, mem_integrands_iff hlisted', h]

/-- What is listed for a domain that a form has an integral over is listed for the same form otherwise
written. -/
theorem SameIntegrals.exists_integrands (h : form.SameIntegrals form')
    (hlisted : form.integrands[domain]? = some roots) {root : NodeId} (hroot : root ∈ roots) :
    ∃ roots', form'.integrands[domain]? = some roots' ∧ ∀ n, n ∈ roots ↔ n ∈ roots' := by
  obtain ⟨roots', hlisted'⟩ := Form.exists_integrands ((h _).mp ((mem_integrands_iff hlisted).mp hroot))
  exact ⟨roots', hlisted', fun n => h.mem_iff hlisted hlisted'⟩

end Form

namespace EquationSystem

variable {system system' : EquationSystem} {g : Graph} {settings settings' : Settings} {s t : Session}
variable {c c' : Couplings} {roots roots' : List NodeId} {computation : Computation}

/-- Whether two systems have the same integrals and are posed in the same functions. -/
structure Same (system system' : EquationSystem) : Prop where
  form : system.form.SameIntegrals system'.form
  boundary : system.boundary.SameIntegrals system'.boundary
  variations : system.variations = system'.variations
  unknowns : system.unknowns = system'.unknowns

/-- Whether two settings ask for the same computations, in any order and with any repetitions, on the same
forms. -/
structure SameTasks (settings settings' : Settings) : Prop where
  computations : ∀ computation, computation ∈ settings.computations ↔ computation ∈ settings'.computations
  includeBoundary : settings.includeBoundary = settings'.includeBoundary

namespace Same

theorem symm (h : system.Same system') : system'.Same system :=
  ⟨h.form.symm, h.boundary.symm, h.variations.symm, h.unknowns.symm⟩

theorem formOf (h : system.Same system') (b : Bool) : (system.formOf b).SameIntegrals (system'.formOf b) := by
  cases b
  · exact h.form
  · exact h.boundary

theorem demands_eq (h : system.Same system') (computation : Computation) (roots : List NodeId) :
    system.demands g computation roots = system'.demands g computation roots := by
  simp only [demands, demandOn, selected, h.variations, h.unknowns]

/-- The same integrands demand the same. -/
theorem demanded_iff (h : system.Same system') (hroots : ∀ n, n ∈ roots ↔ n ∈ roots') {n : NodeId} {k : Nat}
    {m : Mixed} : g.Demanded (system.demands g computation roots) n k m ↔
      g.Demanded (system'.demands g computation roots') n k m := by
  rw [h.demands_eq]
  constructor
  · refine Graph.Demanded.mono fun call hcall => ?_
    obtain ⟨root, hroot, rfl⟩ := List.mem_map.mp hcall
    exact List.mem_map_of_mem ((hroots root).mp hroot)
  · refine Graph.Demanded.mono fun call hcall => ?_
    obtain ⟨root, hroot, rfl⟩ := List.mem_map.mp hcall
    exact List.mem_map_of_mem ((hroots root).mpr hroot)

theorem isPair (h : system.Same system') {m : Mixed} (hm : system.IsPair m) : system'.IsPair m := by
  rwa [IsPair, ← h.variations, ← h.unknowns]

theorem implies (h : system.Same system') {b : Bool} {m : Mixed} {k : Coupling}
    (hk : system.Implies computation b m k) : system'.Implies computation b m k := by
  have hpair : ∀ {q}, system.IsPairOf q m → system'.IsPairOf q m := fun hq => by
    rwa [IsPairOf, ← h.variations, ← h.unknowns]
  cases hk with
  | variation hc horder hm hv => exact .variation hc horder hm (h.variations ▸ hv)
  | pair hc hq => exact .pair hc (hpair hq)
  | variationOfPair hc hq => exact .variationOfPair hc (hpair hq)
  | unknownOfPair hc hq => exact .unknownOfPair hc (hpair hq)

/-- If one of two forms with the same integrals is split, the other one is. -/
theorem isSplit (h : system.Same system') (b : Bool) (hsplit : system.IsSplit g (system.formOf b)) :
    system'.IsSplit g (system'.formOf b) := by
  intro domain roots' hlisted' root hroot m hm
  obtain ⟨roots, hlisted, hroots⟩ := (h.formOf b).symm.exists_integrands hlisted' hroot
  exact h.isPair (hsplit domain roots hlisted root ((hroots root).mp hroot) m
    ((h.symm.demanded_iff hroots).mp hm))

end Same

theorem SameTasks.symm (h : SameTasks settings settings') : SameTasks settings' settings :=
  ⟨fun computation => (h.computations computation).symm, h.includeBoundary.symm⟩

theorem Same.mem_tasks (h : system.Same system') (hsettings : SameTasks settings settings') {task : Task}
    (htask : task ∈ system.tasks settings) : task ∈ system'.tasks settings' := by
  obtain ⟨hb, hc, hi⟩ := mem_tasks_iff.mp htask
  exact mem_tasks_iff.mpr ⟨fun h' => hsettings.includeBoundary ▸ hb h', (hsettings.computations _).mp hc,
    (h.formOf _ _).mp hi⟩

/-! ## Outcomes -/

/-- What is required of an integrand determines the classification in its record. -/
theorem Finds.getElem?_iff {required : Mixed → Prop} {record : RootRecord}
    (h : system.Finds g required record) {m : Mixed} {v : Variability} :
    record.classification[m]? = some v ↔
      required m ∧ v = if m ∈ g.varying record.root m.order then .varying else .constant := by
  constructor
  · intro hv
    refine ⟨(h.mem_iff m).mp ?_, h.value_eq m v hv⟩
    rw [Std.ExtTreeMap.mem_iff_isSome_getElem?, hv]
    rfl
  · rintro ⟨hm, rfl⟩
    obtain ⟨v, hv⟩ := Option.isSome_iff_exists.mp
      (Std.ExtTreeMap.mem_iff_isSome_getElem?.mp ((h.mem_iff m).mpr hm))
    rw [hv, h.value_eq m v hv]

/-- The records of one analysis are among those of the other one. -/
theorem IsResult.mem_roots (h : system.Same system') (hsettings : SameTasks settings settings')
    (hresult : system.IsResult g settings c) (hresult' : system'.IsResult g settings' c') {record : RootRecord}
    (hrecord : record ∈ c.roots) : record ∈ c'.roots := by
  obtain ⟨htask, roots, hlisted, hfinds⟩ := hresult.isFound hrecord
  obtain ⟨record', hrecord', htask', roots', hlisted', hfinds'⟩ :=
    Covers.exists_record hresult' (h.mem_tasks hsettings htask)
  obtain ⟨domain, computation, b, root, classification⟩ := record
  obtain ⟨_, _, _, _, classification'⟩ := record'
  cases htask'
  have hroots : ∀ n, n ∈ roots ↔ n ∈ roots' := fun n => (h.formOf b).mem_iff hlisted hlisted'
  have hclassification : classification = classification' := Std.ExtTreeMap.ext_getElem? fun m =>
    Option.ext fun v => by rw [hfinds.getElem?_iff, hfinds'.getElem?_iff, h.demanded_iff hroots]
  rwa [hclassification]

/-- Outcomes with the same records have the same tables. -/
theorem IsResult.same (h : system.Same system') (hsettings : SameTasks settings settings')
    (hd : system.variations.Disjoint system.unknowns) (hresult : system.IsResult g settings c)
    (hresult' : system'.IsResult g settings' c') : c.Same c' := by
  have hroots : ∀ record, record ∈ c.roots ↔ record ∈ c'.roots := fun record =>
    ⟨hresult.mem_roots h hsettings hresult', hresult'.mem_roots h.symm hsettings.symm hresult⟩
  have htells := Covers.readOff hresult hd isReadOff_empty
  have htells' : ∀ r, c'.Tells r fun k => ∃ record ∈ c.roots, record.domain.region = r ∧
      ∃ m ∈ record.classification, system.Implies record.computation record.isBoundary m k := fun r => by
    refine (Covers.readOff hresult' (h.variations ▸ h.unknowns ▸ hd) isReadOff_empty r).congr fun k => ?_
    simp only [hroots]
    refine exists_congr fun record => and_congr_right fun _ => and_congr_right fun _ =>
      exists_congr fun m => and_congr_right fun _ => ⟨h.symm.implies, h.implies⟩
  exact
    { pairs := RegionTable.eq_of_lists (fun r => (htells r).pairs) fun r => (htells' r).pairs
      boundaryPairs := RegionTable.eq_of_lists (fun r => (htells r).boundaryPairs) fun r =>
        (htells' r).boundaryPairs
      variations := RegionTable.eq_of_lists (fun r => (htells r).variations) fun r => (htells' r).variations
      unknowns := RegionTable.eq_of_lists (fun r => (htells r).unknowns) fun r => (htells' r).unknowns
      roots := hroots }

/-- A form that was analysed gives no reason to fail to another one with the same integrals. -/
theorem IsResult.not_fails (hg : g.WellFormed) (hpoints : g.HasDiscretePoints) (h : system.Same system')
    (hsettings : SameTasks settings settings') (hresult : system.IsResult g settings c) {b : Bool}
    (hb : b = true → settings.includeBoundary = true) (e : Fault SystemError) :
    ¬system'.Fails g settings' (system'.formOf b) e := by
  rintro (⟨-, hne, hover | hnot⟩ | hmisses)
  · -- every integrand has a record, for which it was found
    refine hover fun i hi => ?_
    obtain ⟨computation, hc⟩ := List.exists_mem_of_ne_nil _ hne
    obtain ⟨record, hrecord, htask, -⟩ := hresult.exists_record hg hb ((hsettings.computations _).mpr hc)
      ((h.formOf b i).mpr hi)
    obtain ⟨-, roots, -, ⟨node, hnode⟩, -⟩ := hresult.isFound hrecord
    rw [← show record.root = i.integrand from congrArg Task.root htask]
    exact Graph.node?_lt hnode
  · exact hnot hpoints
  · refine (h.isSplit b ?_).not_misses hmisses
    refine Covers.isSplit hg hresult b (fun task htask => mem_tasks_iff.mpr ?_)
      ((hsettings.computations _).mpr hmisses.1)
    obtain ⟨rfl, hc, hi⟩ := Form.mem_tasks.mp htask
    exact ⟨hb, hc, hi⟩

/-- If one of two systems with the same integrals is analysed, the other one is, in any session in use. -/
theorem Same.exists_isResult (hg : g.WellFormed) (hpoints : g.HasDiscretePoints) (h : system.Same system')
    (hsettings : SameTasks settings settings') (ht : IsOrderly g t) (hresult : system.IsResult g settings c) :
    ∃ c' t', (system'.analyze g settings').run.run t = (.ok c', t') := by
  have hnever : Ends (system'.analyze g settings') t (fun _ _ => True) fun _ _ => False := by
    refine (ends_analysis hg settings' ht).mono (fun _ _ _ => trivial) fun e _ he => ?_
    rcases he.1 with he | ⟨hb, he⟩
    · exact hresult.not_fails hg hpoints h hsettings (b := false) (by simp) e he
    · exact hresult.not_fails hg hpoints h hsettings (b := true)
        (fun _ => hsettings.includeBoundary.trans hb) e he
  obtain ⟨c', t', hrun, -⟩ := hnever.exists_ok
  exact ⟨c', t', hrun⟩

/-- **Analyses depend only on the set of integrals.** Take two systems that are posed in the same functions
and have the same integrals in the form and in the boundary conditions, and two settings with the same
computations, whatever the order and the repetitions, and two sessions in use. The analysis of one system in
one session succeeds if and only if that of the other one in the other session does, and then the outcomes
have the same tables and the same records. Overflow of the counter of passes is set aside (`PassId`). -/
theorem analyze_invariant (hg : g.Built) (hpoints : g.HasDiscretePoints) {form form' boundary boundary' : Form}
    {variations unknowns : List FunctionId}
    (hsystem : ofForms g form boundary variations unknowns = .ok system)
    (hsystem' : ofForms g form' boundary' variations unknowns = .ok system')
    (hform : form.SameIntegrals form') (hboundary : boundary.SameIntegrals boundary')
    (hsettings : SameTasks settings settings') (hs : s.IsUsed g) (ht : t.IsUsed g) :
    ((∃ c s', (system.analyze g settings).run.run s = (.ok c, s')) ↔
      ∃ c' t', (system'.analyze g settings').run.run t = (.ok c', t')) ∧
    ∀ c s' c' t', (system.analyze g settings).run.run s = (.ok c, s') →
      (system'.analyze g settings').run.run t = (.ok c', t') → c.Same c' := by
  have hw := hg.wellFormed
  have hs := hs.isOrderly hw
  have ht := ht.isOrderly hw
  have hd := system.disjoint_of_ofForms hsystem
  have h : system.Same system' := by
    obtain ⟨rfl, -, -⟩ := system.role?_of_ofForms hsystem
    obtain ⟨rfl, -, -⟩ := system'.role?_of_ofForms hsystem'
    exact ⟨hform, hboundary, rfl, rfl⟩
  refine ⟨⟨?_, ?_⟩, fun c s' c' t' hrun hrun' => ?_⟩
  · rintro ⟨c, s', hrun⟩
    exact h.exists_isResult hw hpoints hsettings ht ((ends_analysis hw settings hs).of_ok hrun).1
  · rintro ⟨c', t', hrun'⟩
    exact h.symm.exists_isResult hw hpoints hsettings.symm hs ((ends_analysis hw settings' ht).of_ok hrun').1
  · exact IsResult.same h hsettings hd ((ends_analysis hw settings hs).of_ok hrun).1
      ((ends_analysis hw settings' ht).of_ok hrun').1

/-- The same integrals turned round, with one of them listed twice. -/
def mixedSystemRepeated : EquationSystem where
  form := ⟨[⟨⟨⟨"interior", 1⟩, ⟨.gauss, 2⟩⟩, 9⟩, ⟨⟨⟨"interior", 1⟩, ⟨.gauss, 2⟩⟩, 4⟩,
    ⟨⟨⟨"interior", 1⟩, ⟨.gauss, 2⟩⟩, 9⟩]⟩
  boundary := ⟨[⟨⟨⟨"left", 0⟩, ⟨.gauss, 1⟩⟩, 3⟩, ⟨⟨⟨"left", 0⟩, ⟨.gauss, 1⟩⟩, 3⟩]⟩
  variations := [7]
  unknowns := [5]

/-- In a session that has analysed the one system, the other one is analysed with the same outcome. -/
theorem analyze_invariant_mixedSystem :
    Graph.slopeOfMixedProduct.Built ∧ Graph.slopeOfMixedProduct.HasDiscretePoints ∧
    ofForms Graph.slopeOfMixedProduct mixedSystem.form mixedSystem.boundary [7] [5] = .ok mixedSystem ∧
    ofForms Graph.slopeOfMixedProduct mixedSystemRepeated.form mixedSystemRepeated.boundary [7] [5] =
      .ok mixedSystemRepeated ∧
    mixedSystem.form.SameIntegrals mixedSystemRepeated.form ∧
    mixedSystem.boundary.SameIntegrals mixedSystemRepeated.boundary ∧
    SameTasks .standard ⟨.high, [.matrixAndVector, .matrixAndVector], true⟩ ∧
    (Session.restart {}).IsUsed Graph.slopeOfMixedProduct ∧
    ∃ c s c' s', (mixedSystem.analyze Graph.slopeOfMixedProduct .standard).run.run (Session.restart {}) =
        (.ok c, s) ∧
      s.IsUsed Graph.slopeOfMixedProduct ∧
      (mixedSystemRepeated.analyze Graph.slopeOfMixedProduct
        ⟨.high, [.matrixAndVector, .matrixAndVector], true⟩).run.run s = (.ok c', s') ∧
      c.Same c' := by
  have hbuilt := Graph.built_slopeOfMixedProduct
  have hpoints := hasDiscretePoints_slopeOfMixedProduct
  have hsystem : ofForms Graph.slopeOfMixedProduct mixedSystem.form mixedSystem.boundary [7] [5] =
      .ok mixedSystem := by decide +kernel
  have hsystem' : ofForms Graph.slopeOfMixedProduct mixedSystemRepeated.form mixedSystemRepeated.boundary [7]
      [5] = .ok mixedSystemRepeated := by decide +kernel
  have hform : mixedSystem.form.SameIntegrals mixedSystemRepeated.form := fun i => by
    simp only [mixedSystem, mixedSystemRepeated, List.mem_cons, List.not_mem_nil, or_false]
    grind
  have hboundary : mixedSystem.boundary.SameIntegrals mixedSystemRepeated.boundary := fun i => by
    simp [mixedSystem, mixedSystemRepeated]
  have hsettings : SameTasks .standard ⟨.high, [.matrixAndVector, .matrixAndVector], true⟩ :=
    ⟨by simp [Settings.standard], rfl⟩
  obtain ⟨hover, hover'⟩ := isOver_mixedSystem
  obtain ⟨hflat, hflat'⟩ := isFlat_mixedSystem
  obtain ⟨c, s, hrun, -⟩ := exists_isResult hbuilt hpoints .standard (isUsed_restart _ {}) hover
    (fun _ => hover') hflat fun _ => hflat'
  have hs : s.IsUsed Graph.slopeOfMixedProduct := ⟨{}, .single (by
    have huse := Session.Use.analyze (g := Graph.slopeOfMixedProduct) mixedSystem .standard (Session.restart {})
    rwa [after, hrun] at huse)⟩
  obtain ⟨hok, hsame⟩ := analyze_invariant hbuilt hpoints hsystem hsystem' hform hboundary hsettings
    (isUsed_restart _ {}) hs
  obtain ⟨c', s', hrun'⟩ := hok.mp ⟨c, s, hrun⟩
  exact ⟨hbuilt, hpoints, hsystem, hsystem', hform, hboundary, hsettings, isUsed_restart _ _, c, s, c', s',
    hrun, hs, hrun', hsame c s c' s' hrun hrun'⟩

end EquationSystem

end FormSparsity
