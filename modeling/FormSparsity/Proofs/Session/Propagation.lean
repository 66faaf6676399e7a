import FormSparsity.Proofs.Session.Evaluators

/-!
Records and required sets. A node keeps a record of the demand that it has passed on, next to its required sets and
the mark that it is ready. The three are written at different times, and a demand may fail in between. In every
session that a run reaches they fit together all the same (`required_fits_record`): the required derivatives are the
nonzero part of the record, and a node has a record exactly if it is ready. So it does no harm that a demand which
the record covers is skipped. A visit of the node would find all operands provided for, and change nothing
(`ends_visit_of_fulfils`).
-/
namespace FormSparsity.Session

variable {g : Graph} {p : Pass} {q : PassId} {s s' s'' : Session} {n : NodeId} {k : Nat} {m : Mixed}
variable {demand record : Demand}

/-! ## The record of a node -/

/-- The required derivatives of an order that the record covers are those in it that are nonzero. -/
theorem Consistent.requiredSet_eq_inter (hs : s.Consistent g)
    (hrecord : s.propagated[(⟨q, n⟩ : NodeKey)]? = some record) (hk : k < record.length) :
    s.requiredSet q n k = record[k] ∩ g.nonzero n k := by
  apply Std.ExtTreeSet.ext_mem
  intro m
  rw [hs.mem_required, passed_eq, hrecord, Option.getD_some, Demand.mem_ofOrder, Std.ExtTreeSet.mem_inter_iff,
    List.getElem?_eq_getElem hk]
  simp

/-- Nothing is required of an order that the record does not cover. -/
theorem Consistent.requiredSet_eq_empty (hs : s.Consistent g)
    (hrecord : s.propagated[(⟨q, n⟩ : NodeKey)]? = some record) (hk : record.length ≤ k) :
    s.requiredSet q n k = ∅ := by
  apply Std.ExtTreeSet.ext_mem
  intro m
  rw [hs.mem_required, passed_eq, hrecord, Option.getD_some, Demand.mem_ofOrder, List.getElem?_eq_none hk]
  simp

/-- **What is left out of a demand** because it was passed on before is required, as far as it is nonzero. -/
theorem Consistent.mem_required_of_left_out (hs : s.Consistent g) (hm : m ∈ demand.ofOrder k)
    (hw : m ∈ g.nonzero n k) (hout : m ∉ ((s.unpropagated ⟨q, n⟩ demand).getD []).ofOrder k) :
    m ∈ s.requiredSet q n k := by
  apply (hs.mem_required q n k m).mpr
  refine ⟨?_, hw⟩
  cases hfresh : s.unpropagated ⟨q, n⟩ demand with
  | none =>
    obtain ⟨-, -, hall⟩ := unpropagated_eq_none_iff.mp hfresh
    exact hall k m hm
  | some fresh =>
    obtain ⟨-, -, hall⟩ := unpropagated_eq_some hfresh
    rw [hfresh, Option.getD_some] at hout
    exact (hall k m hm).resolve_left hout

/-! ## Demand that is fulfilled -/

/-- Whether two sessions have the same required sets and the same nodes that are ready. -/
structure SameDemanded (s s' : Session) : Prop where
  required : ∀ q n k, s'.requiredSet q n k = s.requiredSet q n k
  ready : ∀ key, key ∈ s'.ready ↔ key ∈ s.ready

theorem SameDemanded.of_looks (h : Looks s s') : SameDemanded s s' where
  required := h.requiredSet
  ready key := by rw [h.ready]

theorem SameDemanded.trans (h : SameDemanded s s') (h' : SameDemanded s' s'') : SameDemanded s s'' where
  required q n k := (h'.required q n k).trans (h.required q n k)
  ready key := (h'.ready key).trans (h.ready key)

/-- What determining a demand has added, if all that it brings was required before. -/
theorem Progress.sameDemanded (hs : s.Consistent g) (hparts : s.FulfilsParts g) (h : Fulfils g q s (n, demand))
    (hp : Progress g q [(n, demand)] s s') (hadds : AddsBrought g q (n, demand) s s') : SameDemanded s s' where
  required q' c k := by
    apply Std.ExtTreeSet.ext_mem
    intro m
    refine ⟨fun hm => ?_, hp.determines.required q' c k m⟩
    rcases hadds q' c k m hm with hm | ⟨rfl, hm⟩
    · exact hm
    · exact h.mem_of_brings hparts hm
  ready key := by
    refine ⟨fun hkey => ?_, hp.determines.ready key⟩
    rcases hp.addsOnly.ready key.pass key.node hkey with hkey | ⟨hpass, call, hcall, hbelow⟩
    · exact hkey
    · rw [List.mem_singleton.mp hcall] at hbelow
      have hready := hs.ready_below h.ready hbelow
      rwa [← hpass] at hready

/-- Determining demands that are fulfilled, one after the other, changes nothing. -/
theorem ends_requireAll_of_fulfils (hg : g.WellFormed) (p : Pass) (hs : s.Consistent g)
    (hparts : s.FulfilsParts g) {calls : List (NodeId × Demand)} (h : ∀ call ∈ calls, Fulfils g p.id s call) :
    Ends (requireAll g p calls) s (fun _ => SameDemanded s) fun _ => SameDemanded s := by
  refine (Ends.forM (E := fun _ => SameDemanded s)
    (fun _ s' => (s'.Consistent g ∧ s'.FulfilsParts g ∧ Widens s s') ∧ SameDemanded s s')
    (fun done call hcall s' h' => ?_) ⟨⟨hs, hparts, .refl s⟩, .of_looks (.refl s)⟩).mono
    (fun _ _ h => h.2) fun _ _ h => h
  obtain ⟨n, demand⟩ := call
  obtain ⟨⟨hs', hparts', hw⟩, hsame⟩ := h'
  have hfulfils : Fulfils g p.id s' (n, demand) := (h _ hcall).of_widens hw
  refine (((ends_require hg p hs' n demand).and (ends_require_fulfils hg p hs' hparts' n demand)).and
    (ends_require_addsBrought hg p hs' n demand)).mono (fun _ s'' h => ?_) fun _ s'' h => ?_
  · obtain ⟨⟨hmeets, hparts'', hw', -⟩, hadds⟩ := h
    exact ⟨⟨hmeets.progress.consistent, hparts'', hw.trans hw'⟩,
      hsame.trans (hmeets.progress.sameDemanded hs' hparts' hfulfils hadds)⟩
  · obtain ⟨⟨⟨-, hp⟩, -⟩, hadds⟩ := h
    exact hsame.trans (hp.sameDemanded hs' hparts' hfulfils hadds)

/-- **A visit with demand that is fulfilled changes nothing,** although it passes all of the demand on again. -/
theorem ends_visit_of_fulfils (hg : g.WellFormed) (p : Pass) (hs : s.Consistent g) (hparts : s.FulfilsParts g)
    (h : Fulfils g p.id s (n, demand)) :
    Ends (visit g p n (require g p) demand) s (fun _ => SameDemanded s) fun _ => SameDemanded s := by
  obtain ⟨node, hn⟩ := hs.exists_node _ _ h.ready
  refine ends_visit_of_parts hg p hs hn (fun k s' _ _ hl => .of_looks hl)
    fun parts s₁ _ hvalue hpasses hs₁ hl₁ => ?_
  have hparts₁ : s₁.FulfilsParts g := hparts.of_tellsApart hl₁.tellsApart
  have hgiven : ∀ call ∈ parts, Fulfils g p.id s₁ call := by
    intro call hcall
    have hgives := (Graph.gives_iff hn hvalue).mpr hcall
    exact (hparts p.id _ _ h hgives).of_widens (.of_looks hl₁)
  refine ((ends_requireAll hg p hs₁ parts).and (ends_requireAll_of_fulfils hg p hs₁ hparts₁ hgiven)).mono
    (fun _ s₂ h₂ => ?_) fun _ s₂ h₂ => (SameDemanded.of_looks hl₁).trans h₂.2
  obtain ⟨⟨hp, hprovides, -⟩, hsame⟩ := h₂
  refine ⟨hp.consistent, fun c part hpart => (hprovides c part hpart).1, fun s₃ _ hl₃ => ?_⟩
  have hsame₃ : SameDemanded s s₃ := ((SameDemanded.of_looks hl₁).trans hsame).trans (.of_looks hl₃)
  refine ⟨fun s₄ hadds => hsame₃.trans ?_, fun _ _ => hsame₃⟩
  -- what the visit adds in the end was required and ready all the time
  constructor
  · intro q c k
    apply Std.ExtTreeSet.ext_mem
    intro m
    rw [hadds.required, hsame₃.required]
    refine or_iff_left_of_imp ?_
    rintro ⟨⟨rfl, rfl⟩, hm⟩
    obtain ⟨hm, hw⟩ := Graph.mem_ofOrder_accepted.mp hm
    exact h.required k m hm hw
  · intro key
    rw [hadds.ready, hsame₃.ready]
    refine or_iff_left_of_imp ?_
    rintro rfl
    exact h.ready

/-- A demand that the record covers is skipped. -/
theorem run_require_of_seen (hseen : s.unpropagated ⟨p.id, n⟩ demand = none) :
    (require g p n demand).run.run s = (.ok (), s) := by
  have hskipped : Ends (require g p n demand) s (fun _ s' => s' = s) fun _ _ => False :=
    ends_require_of_seen hseen rfl
  obtain ⟨_, s', hrun, rfl⟩ := hskipped.exists_ok
  exact hrun

/-! ## Runs -/

/-- **Required sets fit the record.** In whichever state a run has left the session, also after calls that failed, a
node is ready exactly if it has a record of the demand that it has passed on. For the orders that the record covers
the required derivatives are its nonzero part, and for others there are none. So what is left out of a new demand
because it was passed on before is required already, as far as it is nonzero. If nothing is left of a demand then
determining it changes nothing; nor would a visit of the node with all of it change what is required or ready. -/
theorem required_fits_record (hg : g.Built) (hs : s.Reachable g) (p : Pass) (n : NodeId) :
    ((∃ record, s.propagated[(⟨p.id, n⟩ : NodeKey)]? = some record) ↔ ⟨p.id, n⟩ ∈ s.ready) ∧
    (∀ record, s.propagated[(⟨p.id, n⟩ : NodeKey)]? = some record →
      (∀ k (hk : k < record.length), s.requiredSet p.id n k = record[k] ∩ g.nonzero n k) ∧
      ∀ k, record.length ≤ k → s.requiredSet p.id n k = ∅) ∧
    (∀ demand k m, m ∈ Demand.ofOrder demand k → m ∈ g.nonzero n k →
      m ∉ ((s.unpropagated ⟨p.id, n⟩ demand).getD []).ofOrder k → m ∈ s.requiredSet p.id n k) ∧
    ∀ demand, s.unpropagated ⟨p.id, n⟩ demand = none →
      (require g p n demand).run.run s = (.ok (), s) ∧
      SameDemanded s (after (visit g p n (require g p) demand) s) := by
  have hw := hg.wellFormed
  have hconsistent := hs.consistent hw
  refine ⟨(hconsistent.ready_iff p.id n).symm, fun record hrecord => ?_, fun demand k m => ?_,
    fun demand hseen => ⟨run_require_of_seen hseen, ?_⟩⟩
  · exact ⟨fun k hk => hconsistent.requiredSet_eq_inter hrecord hk,
      fun k hk => hconsistent.requiredSet_eq_empty hrecord hk⟩
  · exact hconsistent.mem_required_of_left_out
  · exact (ends_visit_of_fulfils hw p hconsistent (hs.fulfilsParts hw) (.of_seen hconsistent hseen)).state

/-- A session in which much was demanded of the negative term in `-v + x0*v`, and then the derivative of the sum by
`v`, which the product refused. -/
def sumRefused : Session :=
  after (require Graph.sumWithProduct default 4 [∅, {.ofAtom (.functional 7 .value)}])
    (after (require Graph.sumWithProduct default 3
      [{1}, {.ofAtom (.coordinate 0), .ofAtom (.functional 7 .value)}]) productToldApart)

theorem reachable_sumRefused : sumRefused.Reachable Graph.sumWithProduct :=
  (reachable_productToldApart.require default 3 _).require default 4 _

/-- The negative term has passed on a demand for its value and for derivatives by `x0` and `v`, of which only the last
one is nonzero and required. The sum has no record, since the demand on it failed. -/
theorem required_fits_record_sumRefused :
    Graph.sumWithProduct.Built ∧ sumRefused.Reachable Graph.sumWithProduct ∧
    (⟨0, 4⟩ : NodeKey) ∉ sumRefused.ready ∧ (⟨0, 3⟩ : NodeKey) ∈ sumRefused.ready ∧
    (∃ record, sumRefused.propagated[(⟨0, 3⟩ : NodeKey)]? = some record ∧ record.length = 2 ∧
      ∃ h : 1 < record.length, .ofAtom (.coordinate 0) ∈ record[1] ∧
        sumRefused.requiredSet 0 3 1 = record[1] ∩ Graph.sumWithProduct.nonzero 3 1) ∧
    sumRefused.unpropagated ⟨0, 3⟩ [∅, {.ofAtom (.functional 7 .value)}] = none ∧
    SameDemanded sumRefused (after (visit Graph.sumWithProduct default 3 (require Graph.sumWithProduct default)
      [∅, {.ofAtom (.functional 7 .value)}]) sumRefused) := by
  have hg := Graph.built_sumWithProduct
  have hs := reachable_sumRefused
  obtain ⟨hrecord, hrequired, -, hskipped⟩ := required_fits_record hg hs default 3
  have hready : (⟨0, 3⟩ : NodeKey) ∈ sumRefused.ready := by decide +kernel
  obtain ⟨record, (hkept : sumRefused.propagated[(⟨0, 3⟩ : NodeKey)]? = some record)⟩ := hrecord.mpr hready
  have hcontent : sumRefused.propagated[(⟨0, 3⟩ : NodeKey)]?.any
      (fun record => record.length == 2 && record[1]?.any (.ofAtom (.coordinate 0) ∈ ·)) = true := by decide +kernel
  obtain ⟨hlength, hmem⟩ : record.length = 2 ∧ record[1]?.any (.ofAtom (.coordinate 0) ∈ ·) = true := by
    simpa [hkept] using hcontent
  have hone : 1 < record.length := by omega
  have hseen : sumRefused.unpropagated ⟨0, 3⟩ [∅, {.ofAtom (.functional 7 .value)}] = none := by decide +kernel
  refine ⟨hg, hs, by decide +kernel, hready, ⟨record, hkept, hlength, hone, ?_, (hrequired record hkept).1 1 hone⟩,
    hseen, (hskipped _ hseen).2⟩
  simpa [List.getElem?_eq_getElem hone] using hmem

end FormSparsity.Session
