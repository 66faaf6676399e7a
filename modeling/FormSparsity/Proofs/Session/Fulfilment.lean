import FormSparsity.Proofs.Analysis.Passing
import FormSparsity.Proofs.Session.Refusal

/-!
Fulfilled demand. A demand on a node is fulfilled in a session (`Fulfils`) if the node is ready, all nonzero
derivatives demanded are required, and the node has passed on a demand that covers some order if this one does.
In every session that a run reaches a demand that is fulfilled has been passed on: the demands that the rule of
the node makes of it are fulfilled as well (`Reachable.fulfilsParts`). So a demand that is determined, also one
that covers no order at all, adds to required sets exactly what it brings to the nodes below
(`Reachable.mem_requiredSet_iff`).
-/
namespace FormSparsity.Session

variable {g : Graph} {p : Pass} {q : PassId} {s s' s'' : Session} {n c : NodeId} {k : Nat} {m : Mixed}
variable {demand fresh : Demand} {call part : NodeId × Demand}

/-- The part of a demand that is left over brings no more than the whole. -/
theorem brings_of_fresh (hg : g.WellFormed) (hfresh : s.unpropagated ⟨q, n⟩ demand = some fresh)
    (h : g.Brings (n, fresh) c k m) : g.Brings (n, demand) c k m := by
  obtain ⟨hlength, hsub, -⟩ := unpropagated_eq_some hfresh
  refine h.of_part hg (fun hne => ?_) hsub
  rwa [← List.length_pos_iff, ← hlength, List.length_pos_iff]

/-! ## Sessions in which no less is required -/

/-- Whether in the second session no less is ready, required or passed on. -/
structure Widens (s s' : Session) : Prop where
  ready : ∀ key, key ∈ s.ready → key ∈ s'.ready
  required : ∀ q n k m, m ∈ s.requiredSet q n k → m ∈ s'.requiredSet q n k
  fed : ∀ q n, s.passed q n ≠ [] → s'.passed q n ≠ []

theorem Widens.of_eq (hready : s'.ready = s.ready) (hrequired : ∀ q n k, s'.requiredSet q n k = s.requiredSet q n k)
    (hpropagated : s'.propagated = s.propagated) : Widens s s' where
  ready key hkey := by rwa [hready]
  required q n k m hm := by rwa [hrequired]
  fed q n hn := by rwa [passed, hpropagated]

theorem Widens.of_tellsApart (h : TellsApart s s') : Widens s s' := .of_eq h.ready h.required h.propagated

theorem Widens.of_looks (h : Looks s s') : Widens s s' := .of_tellsApart h.tellsApart

theorem Widens.refl (s : Session) : Widens s s := .of_looks (.refl s)

theorem Widens.trans (h : Widens s s') (h' : Widens s' s'') : Widens s s'' where
  ready key hkey := h'.ready key (h.ready key hkey)
  required q n k m hm := h'.required q n k m (h.required q n k m hm)
  fed q n hn := h'.fed q n (h.fed q n hn)

theorem Widens.of_adds {addition : Demand} (h : Adds q n demand addition s s') : Widens s s' where
  ready key hkey := (h.ready key).mpr (.inl hkey)
  required q' c k m hm := (h.required q' c k m).mpr (.inl hm)
  fed q' c hc := by
    rw [passed_eq, h.propagated]
    split
    · rename_i heq
      cases heq
      exact fun hnil => hc (Demand.merge_eq_nil.mp hnil).1
    · rwa [← passed_eq]

/-! ## Fulfilled demand -/

/-- Whether a demand on a node has been met, and the node has passed on something if this is more than
nothing. -/
structure Fulfils (g : Graph) (q : PassId) (s : Session) (call : NodeId × Demand) : Prop where
  ready : ⟨q, call.1⟩ ∈ s.ready
  fed : call.2 ≠ [] → s.passed q call.1 ≠ []
  required : ∀ k m, m ∈ call.2.ofOrder k → m ∈ g.nonzero call.1 k → m ∈ s.requiredSet q call.1 k

/-- Whether each demand that is fulfilled has been passed on. -/
def FulfilsParts (g : Graph) (s : Session) : Prop :=
  ∀ q call part, Fulfils g q s call → g.Gives call part → Fulfils g q s part

theorem Fulfils.of_widens (h : Fulfils g q s call) (hw : Widens s s') : Fulfils g q s' call where
  ready := hw.ready _ h.ready
  fed hne := hw.fed _ _ (h.fed hne)
  required k m hm hnonzero := hw.required _ _ _ _ (h.required k m hm hnonzero)

/-- A demand that leaves nothing over to be passed on is fulfilled. -/
theorem Fulfils.of_seen (hs : s.Consistent g) (h : s.unpropagated ⟨q, n⟩ demand = none) :
    Fulfils g q s (n, demand) := by
  obtain ⟨hseen, hlength, hsub⟩ := unpropagated_eq_none_iff.mp h
  refine ⟨(hs.ready_iff q n).mpr hseen, fun hne => ?_, fun k m hm hw => ?_⟩
  · rw [← List.length_pos_iff] at hne ⊢
    exact Nat.lt_of_lt_of_le hne hlength
  · exact (hs.mem_required q n k m).mpr ⟨hsub k m hm, hw⟩

/-- What a node that is ready has passed on is fulfilled. -/
theorem Fulfils.of_ready (hs : s.Consistent g) (h : ⟨q, n⟩ ∈ s.ready) : Fulfils g q s (n, s.passed q n) :=
  .of_seen hs (unpropagated_eq_none_iff.mpr ⟨(hs.ready_iff q n).mp h, Nat.le_refl _, fun _ _ hm => hm⟩)

/-- What a demand is passed on as further down is fulfilled if it is. -/
theorem Fulfils.reaches (hparts : s.FulfilsParts g) (h : Fulfils g q s call)
    (hreach : Relation.ReflTransGen g.Gives call part) : Fulfils g q s part := by
  induction hreach with
  | refl => exact h
  | tail _ hgives ih => exact hparts q _ _ ih hgives

/-- **What a fulfilled demand brings is required.** -/
theorem Fulfils.mem_of_brings (hparts : s.FulfilsParts g) (h : Fulfils g q s call) (hm : g.Brings call c k m) :
    m ∈ s.requiredSet q c k := by
  obtain ⟨part, hreach, hm, hw⟩ := hm
  exact (h.reaches hparts hreach).required k m hm hw

/-- Nothing but demand makes a difference. -/
theorem FulfilsParts.of_eq (hs : s.FulfilsParts g) (hready : s'.ready = s.ready)
    (hrequired : ∀ q n k, s'.requiredSet q n k = s.requiredSet q n k) (hpropagated : s'.propagated = s.propagated) :
    s'.FulfilsParts g := by
  intro q call part hcall hgives
  have hback : Widens s' s := .of_eq hready.symm (fun q n k => (hrequired q n k).symm) hpropagated.symm
  exact (hs q call part (hcall.of_widens hback) hgives).of_widens (.of_eq hready hrequired hpropagated)

theorem FulfilsParts.of_tellsApart (hs : s.FulfilsParts g) (h : TellsApart s s') : s'.FulfilsParts g :=
  hs.of_eq h.ready h.required h.propagated

/-! ## Visits -/

/-- A node that has passed on a demand which covers some order has made each operand do so. -/
theorem passed_operand_ne_nil (hg : g.WellFormed) (hs : s.Consistent g) (hparts : s.FulfilsParts g)
    (hc : g.IsOperand n c) (hne : s.passed q n ≠ []) : s.passed q c ≠ [] := by
  have hready : ⟨q, n⟩ ∈ s.ready := by
    refine (hs.ready_iff q n).mpr (Option.ne_none_iff_exists'.mp fun hnone => hne ?_)
    rw [passed_eq, hnone, Option.getD_none]
  obtain ⟨part, hpart⟩ := Graph.exists_gives hg hc (s.passed q n)
  exact (hparts q _ _ (.of_ready hs hready) hpart).fed (hpart.ne_nil hg hne)

/-- **A visit keeps demand fulfilled** all the way down, if it ends once what it has passed on is fulfilled. -/
theorem FulfilsParts.of_adds (hg : g.WellFormed) (hs : s.Consistent g) (hs' : s'.Consistent g)
    (hold : s.FulfilsParts g) (hparts : ∀ part, g.Gives (n, fresh) part → Fulfils g q s part)
    (h : Adds q n fresh (g.accepted n fresh) s s') : s'.FulfilsParts g := by
  have hw : Widens s s' := .of_adds h
  rintro q' ⟨n', d⟩ ⟨c, part⟩ hcall hgives
  have hop := hgives.isOperand hg
  by_cases hkey : (⟨q, n⟩ : NodeKey) = ⟨q', n'⟩
  · cases hkey
    obtain ⟨part₀, hpart₀⟩ := Graph.exists_gives hg hop fresh
    have hpassed : s'.passed q n ≠ [] → s'.passed q c ≠ [] := by
      rw [h.passed_eq]
      intro hne
      refine hw.fed q c ?_
      by_cases hfresh : fresh = []
      · refine passed_operand_ne_nil hg hs hold hop fun hnil => hne ?_
        exact Demand.merge_eq_nil.mpr ⟨hnil, hfresh⟩
      · exact (hparts _ hpart₀).fed (hpart₀.ne_nil hg hfresh)
    by_cases hnil : s'.passed q n = []
    · -- the node has passed on nothing but demands without any order, so this is the one of the visit
      obtain rfl : d = [] := by
        by_contra hd
        exact hcall.fed hd hnil
      rw [h.passed_eq] at hnil
      obtain rfl : fresh = [] := (Demand.merge_eq_nil.mp hnil).2
      exact (hparts _ hgives).of_widens hw
    · refine ⟨hw.ready _ (hparts _ hpart₀).ready, fun _ => hpassed hnil, fun k m hm hnonzero => ?_⟩
      rcases hgives.sound hg hm hnonzero with ⟨j, r, hr, hrw, hasks⟩ | halways
      · exact hs'.closed q n j r c k m (hcall.required j r hr hrw) hasks
      · exact hs'.closed_always q n c k m hnil halways
  · have hback : Fulfils g q' s (n', d) := by
      refine ⟨((h.ready _).mp hcall.ready).resolve_right (Ne.symm hkey), fun hne => ?_, fun k m hm hnonzero => ?_⟩
      · have := hcall.fed hne
        rwa [passed_eq, h.propagated, if_neg hkey, ← passed_eq] at this
      · refine ((h.required _ _ _ _).mp (hcall.required k m hm hnonzero)).resolve_right ?_
        rintro ⟨⟨rfl, rfl⟩, -⟩
        exact hkey rfl
    exact (hold q' _ _ hback hgives).of_widens hw

/-- A demand of which a part was left over is fulfilled at the end of the visit with this part. -/
theorem Adds.fulfils (hs' : s'.Consistent g) (hfresh : s''.unpropagated ⟨q, n⟩ demand = some fresh)
    (hpassed : s.passed q n = s''.passed q n) (h : Adds q n fresh (g.accepted n fresh) s s') :
    Fulfils g q s' (n, demand) := by
  obtain ⟨hlength, -, hall⟩ := unpropagated_eq_some hfresh
  refine .of_seen hs' (h.unpropagated_eq_none (by omega) fun k m hm => ?_)
  rw [hpassed]
  exact (hall k m hm).symm

/-! ## Determining a demand -/

/-- **Determining a demand keeps demand fulfilled** all the way down, whether it fails or not. If it does not
fail, the demand is fulfilled. -/
theorem ends_require_fulfils (hg : g.WellFormed) (p : Pass) (hs : s.Consistent g) (hold : s.FulfilsParts g)
    (n : NodeId) (demand : Demand) :
    Ends (require g p n demand) s
      (fun _ s' => s'.FulfilsParts g ∧ Widens s s' ∧ Fulfils g p.id s' (n, demand))
      (fun _ s' => s'.FulfilsParts g ∧ Widens s s') := by
  induction n using Nat.strongRecOn generalizing s demand with
  | ind n ih =>
    -- that the session is consistent in the end is known
    suffices h : Ends (require g p n demand) s
        (fun _ s' => s'.Consistent g → s'.FulfilsParts g ∧ Widens s s' ∧ Fulfils g p.id s' (n, demand))
        (fun _ s' => s'.FulfilsParts g ∧ Widens s s') from
      ((ends_require hg p hs n demand).and h).mono (fun _ _ h => h.2 h.1.progress.consistent) fun _ _ h => h.2
    have hlooks : ∀ {s'}, Looks s s' → s'.FulfilsParts g ∧ Widens s s' := fun hl =>
      ⟨hold.of_tellsApart hl.tellsApart, .of_looks hl⟩
    cases hn : g.node? n with
    | none =>
      exact (ends_require_of_none hg p hs hn demand).mono (fun _ _ h => h.elim) fun _ _ h => hlooks h.2.2
    | some node =>
      refine ends_require_by_parts hg p hs hn (fun hseen _ => ⟨hold, .refl s, .of_seen hs hseen⟩)
        (fun _ _ _ _ _ _ hl => hlooks hl) fun fresh parts s₁ hfresh _ hvalue hpasses hs₁ hl => ?_
      obtain ⟨hold₁, hw₁⟩ := hlooks hl
      have hloop : Ends (requireAll g p parts) s₁
          (fun _ s₂ => s₂.FulfilsParts g ∧ Widens s s₂ ∧ ∀ call ∈ parts, Fulfils g p.id s₂ call)
          fun _ s₂ => s₂.FulfilsParts g ∧ Widens s s₂ := by
        refine (Ends.forM (fun done s₂ => s₂.Consistent g ∧ s₂.FulfilsParts g ∧ Widens s s₂ ∧
          ∀ call ∈ done, Fulfils g p.id s₂ call) (E := fun _ s₂ => s₂.FulfilsParts g ∧ Widens s s₂)
          (fun done b hb s₂ h => ?_) ⟨hs₁, hold₁, hw₁, by simp⟩).mono (fun _ _ h => h.2) fun _ _ h => h
        obtain ⟨c, part⟩ := b
        obtain ⟨hs₂, hold₂, hw₂, hdone⟩ := h
        have hlt : c < n := hg.child_lt n node hn c (hpasses.mem_children c part hb)
        refine ((ends_require hg p hs₂ c part).and (ih c hlt hs₂ hold₂ part)).mono (fun _ s₃ h => ?_)
          fun _ _ h => ⟨h.2.1, hw₂.trans h.2.2⟩
        obtain ⟨hmeets, hold₃, hw₃, hcall⟩ := h
        refine ⟨hmeets.progress.consistent, hold₃, hw₂.trans hw₃, fun call hmem => ?_⟩
        rcases List.mem_append.mp hmem with hmem | hmem
        · exact (hdone call hmem).of_widens hw₃
        · rwa [List.mem_singleton.mp hmem]
      refine (((ends_requireAll hg p hs₁ parts).and (ends_requireAll_passesMore hg p hs₁ parts)).and hloop).mono
        (fun _ s₂ h s₃ hs₃ hl₃ => ⟨fun s₄ hadds hs₄ => ?_, fun _ _ => ?_⟩) fun _ _ h => h.2
      all_goals obtain ⟨⟨⟨hp, -⟩, hmore⟩, hold₂, hw₂, hparts⟩ := h
      · have hsame : SameAt p.id n s s₃ :=
          ((SameAt.of_looks hl).trans (.of_parts hg hn hpasses hp hmore)).trans (.of_looks hl₃)
        have hw₃ := hw₂.trans (.of_looks hl₃)
        have hold₃ := hold₂.of_tellsApart hl₃.tellsApart
        refine ⟨.of_adds hg hs₃ hs₄ hold₃ (fun part hpart => ?_) hadds, hw₃.trans (.of_adds hadds),
          hadds.fulfils hs₄ hfresh (by rw [passed_eq, hsame.propagated, ← passed_eq])⟩
        exact (hparts part ((Graph.gives_iff hn hvalue).mp hpart)).of_widens (.of_looks hl₃)
      · exact ⟨hold₂.of_tellsApart hl₃.tellsApart, hw₂.trans (.of_looks hl₃)⟩

/-- Whether nothing got required from the first to the second session but what a demand in a pass brings. -/
def AddsBrought (g : Graph) (q : PassId) (call : NodeId × Demand) (s s' : Session) : Prop :=
  ∀ q' c k m, m ∈ s'.requiredSet q' c k → m ∈ s.requiredSet q' c k ∨ q' = q ∧ g.Brings call c k m

theorem AddsBrought.of_looks (h : Looks s s') : AddsBrought g q call s s' := fun q' c k m hm =>
  .inl (by rwa [← h.requiredSet])

theorem AddsBrought.trans (h : AddsBrought g q call s s') (h' : AddsBrought g q call s' s'') :
    AddsBrought g q call s s'' := fun q' c k m hm => (h' q' c k m hm).elim (h q' c k m) .inr

theorem AddsBrought.of_brings (h : AddsBrought g q part s s')
    (hcall : ∀ c k m, g.Brings part c k m → g.Brings call c k m) : AddsBrought g q call s s' :=
  fun q' c k m hm => (h q' c k m hm).imp_right fun ⟨hq, hm⟩ => ⟨hq, hcall c k m hm⟩

/-- **Nothing gets required but what the demand brings,** whether it fails or not. -/
theorem ends_require_addsBrought (hg : g.WellFormed) (p : Pass) (hs : s.Consistent g) (n : NodeId)
    (demand : Demand) :
    Ends (require g p n demand) s (fun _ s' => AddsBrought g p.id (n, demand) s s')
      (fun _ s' => AddsBrought g p.id (n, demand) s s') := by
  induction n using Nat.strongRecOn generalizing s demand with
  | ind n ih =>
    cases hn : g.node? n with
    | none =>
      exact (ends_require_of_none hg p hs hn demand).mono (fun _ _ h => h.elim) fun _ _ h => .of_looks h.2.2
    | some node =>
      refine ends_require_by_parts hg p hs hn (fun _ => .of_looks (.refl s)) (fun _ _ _ _ _ _ hl => .of_looks hl)
        fun fresh parts s₁ hfresh _ hvalue hpasses hs₁ hl => ?_
      refine (Ends.forM (fun _ s₂ => s₂.Consistent g ∧ AddsBrought g p.id (n, demand) s s₂)
        (E := fun _ s₂ => AddsBrought g p.id (n, demand) s s₂) (fun _ b hb s₂ h => ?_)
        ⟨hs₁, .of_looks hl⟩).mono (fun _ s₂ h s₃ _ hl₃ => ⟨fun s₄ hadds => ?_, fun _ _ => ?_⟩) fun _ _ h => h
      · obtain ⟨c, part⟩ := b
        have hpart : ∀ c' k m, g.Brings (c, part) c' k m → g.Brings (n, demand) c' k m := fun c' k m h =>
          brings_of_fresh hg hfresh (h.gives ((Graph.gives_iff hn hvalue).mpr hb))
        have hlt : c < n := hg.child_lt n node hn c (hpasses.mem_children c part hb)
        refine ((ends_require hg p h.1 c part).and (ih c hlt h.1 part)).mono (fun _ s₃ h' => ?_) fun _ s₃ h' => ?_
        · exact ⟨h'.1.progress.consistent, h.2.trans (h'.2.of_brings hpart)⟩
        · exact h.2.trans (h'.2.of_brings hpart)
      · refine (h.2.trans (.of_looks hl₃)).trans fun q c k m hm => ?_
        refine ((hadds.required q c k m).mp hm).imp_right fun h => ⟨h.1.1, ?_⟩
        obtain ⟨⟨-, rfl⟩, hm⟩ := h
        obtain ⟨hm, hw⟩ := Graph.mem_ofOrder_accepted.mp hm
        exact brings_of_fresh hg hfresh (Graph.brings_self hm hw)
      · exact h.2.trans (.of_looks hl₃)

/-! ## Runs -/

theorem fulfilsParts_restart (g : Graph) (s : Session) : s.restart.FulfilsParts g := by
  intro q call part hcall _
  have := hcall.ready
  simp [restart] at this

/-- **One step** of a run keeps demand fulfilled all the way down. -/
theorem Step.fulfilsParts (hg : g.WellFormed) (hs : s.Consistent g) (hold : s.FulfilsParts g)
    (h : Step g s s') : s'.FulfilsParts g := by
  cases h with
  | call p c =>
    by_cases hc : c.IsRequire
    · cases c with
      | require n demand =>
        exact ((ends_require_fulfils hg p hs hold n demand).mono (fun _ _ h => h.1) fun _ _ h => h.1).state
      | _ => exact hc.elim
    · exact hold.of_tellsApart (ends_find hg p hs c hc).state.2
  | openPass => exact hold.of_eq rfl (fun _ _ _ => rfl) rfl

/-- **In every session that a run reaches** demand that is fulfilled has been passed on. -/
theorem Reachable.fulfilsParts (hg : g.WellFormed) (h : s.Reachable g) : s.FulfilsParts g := by
  obtain ⟨s₀, h⟩ := h
  induction h with
  | refl => exact fulfilsParts_restart g s₀
  | tail hlater hstep ih => exact hstep.fulfilsParts hg (Reachable.consistent hg ⟨s₀, hlater⟩) ih

/-- **What a demand adds** if it is determined is what it brings. -/
theorem Reachable.mem_requiredSet_iff (hg : g.WellFormed) (hs : s.Reachable g) {a : Unit}
    (hrun : (Session.require g p n demand).run.run s = (.ok a, s')) :
    m ∈ s'.requiredSet p.id c k ↔ m ∈ s.requiredSet p.id c k ∨ g.Brings (n, demand) c k m := by
  have hconsistent := hs.consistent hg
  obtain ⟨hparts, hw, hfulfils⟩ := (ends_require_fulfils hg p hconsistent (hs.fulfilsParts hg) n demand).of_ok hrun
  have hadds := (ends_require_addsBrought hg p hconsistent n demand).of_ok hrun
  refine ⟨fun hm => (hadds p.id c k m hm).imp_right And.right, ?_⟩
  rintro (hm | hm)
  · exact hw.required _ _ _ _ hm
  · exact hfulfils.mem_of_brings hparts hm

end FormSparsity.Session
