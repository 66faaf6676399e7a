import FormSparsity.Proofs.Session.Evaluators

/-!
Readiness. A node is ready in a pass once a demand on it has been determined there, whether the demand was made
on the node itself or came down to it from a demand on another node (`Succeeds`), and also if this other demand
failed in the end (`Succeeds.ready`, `ends_require_readyBy`). So the history of a session tells which nodes are
ready (`History.ready_iff`). Sets, classifications and evaluators are found of these nodes exactly, and nothing
changes where they are not (`found_iff_ready`).
-/
namespace FormSparsity.Session

variable {g : Graph} {p : Pass} {q : PassId} {s s' s₁ s₂ : Session} {n c : NodeId} {demand fresh : Demand}
variable {call part : NodeId × Demand}

/-! ## Demand within demand -/

/-- Notes in the journal that a demand on a node is being determined. -/
def announce (g : Graph) (p : Pass) (n : NodeId) (fresh : Demand) : AnalysisM Unit :=
  report p .medium .debug fun _ => do
    let expr ← checked (g.describe n)
    let input := ", ".intercalate (fresh.map MixedSet.text)
    return s!"Determining required set of {expr} in {p.text} from input [{input}]"

/-- What comes before parts of a demand are passed on. There are none if all of it was passed on before. -/
def opening (g : Graph) (p : Pass) (n : NodeId) (demand : Demand) :
    AnalysisM (Option (Demand × Preparation)) := do
  match (← get).unpropagated ⟨p.id, n⟩ demand with
  | none => return none
  | some fresh =>
    announce g p n fresh
    return some (fresh, ← prepare g p n fresh)

/-- After its opening a demand is determined by passing its parts on, one after the other, and finishing the
visit. -/
theorem require_eq (g : Graph) (p : Pass) (n : NodeId) (demand : Demand) :
    require g p n demand = opening g p n demand >>= fun
      | none => pure ()
      | some (fresh, v) =>
        (v.parts.forM fun (c, part) => (if c < n then require g p c else fun _ => unorderedNode g c) part) >>=
          fun _ => finish g p n fresh v := by
  conv_lhs => rw [require, recurse_eq]
  rw [opening, bind_assoc]
  refine bind_congr fun s => ?_
  cases s.unpropagated ⟨p.id, n⟩ demand with
  | none => rw [pure_bind]
  | some fresh =>
    rw [bind_assoc]
    refine bind_congr fun _ => ?_
    rw [bind_assoc]
    simp only [pure_bind]
    exact visit_eq g p n (fun c => if c < n then require g p c else fun _ => unorderedNode g c) fresh

theorem ends_announce (g : Graph) (p : Pass) (n : NodeId) (fresh : Demand) (s : Session) :
    Ends (announce g p n fresh) s (fun _ s' => ∃ j, s' = { s with journal := j }) fun _ s' => s' = s := by
  refine ends_report ?_ fun j => ⟨j, rfl⟩
  rw [ends_bind]
  exact ends_checked_describe rfl fun _ _ => rfl

theorem BearsRequired.respects_announce {I : Session → Session → Prop} (hI : BearsRequired p.id I) (n : NodeId)
    (fresh : Demand) : Respects I (announce g p n fresh) :=
  hI.respects_report ((respects_checked _).bind fun _ => respects_pure _)

theorem IsFrame.keeps_opening {I : Session → Prop} (hI : IsFrame I) (n : NodeId) (demand : Demand) :
    Keeps I (opening g p n demand) := by
  intro s hs
  rw [opening, ends_bind, ends_get]
  split
  · exact hs
  · rename_i fresh _
    exact ((hI.bears p.id).bearsRequired.respects_announce n fresh).keeps.bind
      (fun _ => (hI.keeps_prepare n fresh).bind fun _ => keeps_pure _) s hs

/-- The opening of a demand finds nonzero sets at most. If it yields parts, the node exists, and they are what
its rule passes on. -/
theorem ends_opening (hg : g.WellFormed) (p : Pass) (hs : s.Consistent g) (n : NodeId) (demand : Demand) :
    Ends (opening g p n demand) s
      (fun r s' => s'.Consistent g ∧ Looks s s' ∧ ∀ fresh v, r = some (fresh, v) →
        s.unpropagated ⟨p.id, n⟩ demand = some fresh ∧ g.node? n = some v.node ∧
        (v.node.demand g fresh (g.accepted n fresh)).value g.nonzeroAt = .ok v.parts ∧
        g.PassesOn n v.node fresh v.parts)
      (fun _ s' => Looks s s') := by
  rw [opening, ends_bind, ends_get]
  split
  · exact ⟨hs, .refl s, fun _ _ h => by cases h⟩
  · rename_i fresh hfresh
    rw [ends_bind]
    refine (ends_announce g p n fresh s).mono (fun _ s₀ h => ?_) fun _ _ h => h ▸ .refl s
    obtain ⟨j, rfl⟩ := h
    have hl := looks_journal s j
    rw [ends_bind]
    cases hn : g.node? n with
    | none =>
      exact (ends_prepare_of_none hg p (hs.journal j) hn fresh).mono (fun _ _ h => h.elim) fun _ _ h =>
        hl.trans h.2.2
    | some node =>
      refine (ends_prepare hg p (hs.journal j) hn fresh).mono (fun v s₁ h => ?_) fun _ _ h => ?_
      · obtain ⟨-, -, rfl, hvalue, hpasses, hs₁, hl₁⟩ := h
        refine ⟨hs₁, hl.trans hl₁, fun fresh' v' h => ?_⟩
        cases h
        exact ⟨hfresh, rfl, hvalue, hpasses⟩
      · obtain ⟨k, -, -, -, hl₁⟩ := h
        exact hl.trans hl₁

/-- The session in which a demand ends, from its opening on. -/
theorem require_of_opening (hg : g.WellFormed) (hs : s.Consistent g) {v : Preparation}
    (hopen : (opening g p n demand).run.run s = (.ok (some (fresh, v)), s₁)) :
    (require g p n demand).run.run s =
      (requireAll g p v.parts >>= fun _ => finish g p n fresh v).run.run s₁ := by
  obtain ⟨-, -, hparts⟩ := (ends_opening hg p hs n demand).of_ok hopen
  obtain ⟨-, hn, -, hpasses⟩ := hparts fresh v rfl
  rw [require_eq, run_bind, hopen]
  dsimp only
  rw [forM_operand hg p hn hpasses]

/-- Whether, in the course of a demand on a node that is made in a session, a demand on another node is
determined without failure: the whole demand, or one that some part comes down to once all parts before it have
been determined. -/
inductive Succeeds (g : Graph) (p : Pass) : NodeId × Demand → Session → NodeId → Prop
  | self {n : NodeId} {demand : Demand} {s s' : Session} (hrun : (require g p n demand).run.run s = (.ok (), s')) :
      Succeeds g p (n, demand) s n
  | part {n c : NodeId} {demand fresh : Demand} {v : Preparation} {done rest : List (NodeId × Demand)}
      {part : NodeId × Demand} {s s₁ s₂ : Session}
      (hopen : (opening g p n demand).run.run s = (.ok (some (fresh, v)), s₁))
      (hparts : v.parts = done ++ part :: rest) (hdone : (requireAll g p done).run.run s₁ = (.ok (), s₂))
      (hpart : Succeeds g p part s₂ c) : Succeeds g p (n, demand) s c

/-! ## What has succeeded is ready -/

theorem bearsDemand_ready (q : PassId) (key : NodeKey) : BearsDemand q fun s t => s = t ∧ key ∈ s.ready :=
  .of_eq (.of_eq (fun _ h _ _ _ _ => h) fun _ h _ => h) (fun _ h _ _ => h) (fun _ h _ _ => h)
    fun _ h _ => Std.ExtTreeSet.mem_insert.mpr (.inr h)

theorem keeps_ready_requireAll (key : NodeKey) (calls : List (NodeId × Demand)) :
    Keeps (fun s => key ∈ s.ready) (requireAll g p calls) :=
  (Respects.forM fun call _ => (bearsDemand_ready p.id key).respects_require call.1 call.2).keeps

/-- **What a demand comes down to is ready** once it has been determined there, however the demand ends. -/
theorem Succeeds.ready (hg : g.WellFormed) (hs : s.Consistent g) (h : Succeeds g p call s c) :
    ⟨p.id, c⟩ ∈ (after (require g p call.1 call.2) s).ready := by
  induction h with
  | @self n demand s s' hrun =>
    rw [after, hrun]
    exact (((ends_require hg p hs n demand).of_ok hrun).provides n demand (List.mem_singleton_self _)).1
  | @part n c demand fresh v done rest part s s₁ s₂ hopen hparts hdone hpart ih =>
    have hs₁ := ((ends_opening hg p hs n demand).of_ok hopen).1
    have hs₂ := ((ends_requireAll hg p hs₁ done).of_ok hdone).1.consistent
    rw [after, require_of_opening hg hs hopen, hparts]
    have hvisits := (bearsDemand_ready p.id ⟨p.id, c⟩).bearsVisits
    refine Keeps.after_bind (fun _ => (hvisits.respects_finish n fresh v).keeps) ?_
    rw [requireAll_append, after_bind hdone]
    exact Keeps.after_bind (fun _ => keeps_ready_requireAll _ rest) (ih hs₂)

/-! ## What is ready has succeeded -/

/-- Whether all nodes that have got ready did so when a demand came down to them. -/
def ReadyBy (g : Graph) (p : Pass) (call : NodeId × Demand) (s s' : Session) : Prop :=
  ∀ key ∈ s'.ready, key ∈ s.ready ∨ key.pass = p.id ∧ Succeeds g p call s key.node

theorem ReadyBy.of_looks (h : Looks s s') : ReadyBy g p call s s' := fun key hkey => .inl (by rwa [← h.ready])

/-- **Nodes get ready by demands alone that were determined,** however the whole demand ends. -/
theorem ends_require_readyBy (hg : g.WellFormed) (p : Pass) (hs : s.Consistent g) (n : NodeId)
    (demand : Demand) :
    Ends (require g p n demand) s (fun _ s' => ReadyBy g p (n, demand) s s')
      (fun _ s' => ReadyBy g p (n, demand) s s') := by
  induction n using Nat.strongRecOn generalizing s demand with
  | ind n ih =>
    -- the node itself gets ready at the very end, when nothing can fail any more
    suffices h : Ends (require g p n demand) s
        (fun _ s' => ∃ s₁, ReadyBy g p (n, demand) s s₁ ∧ ∀ key ∈ s'.ready, key ∈ s₁.ready ∨ key = ⟨p.id, n⟩)
        (fun _ s' => ReadyBy g p (n, demand) s s') by
      refine (h.and (ends_run _ s)).mono (fun _ s' h key hkey => ?_) fun _ _ h => h.1
      obtain ⟨⟨s₁, hs₁, hlast⟩, hrun⟩ := h
      rcases hlast key hkey with hkey | rfl
      · exact hs₁ key hkey
      · exact .inr ⟨rfl, .self hrun⟩
    rw [require_eq, ends_bind]
    refine ((ends_opening hg p hs n demand).and (ends_run _ s)).mono (fun r s₁ h => ?_)
      fun _ _ h => .of_looks h.1
    obtain ⟨⟨hs₁, hl, hparts⟩, hopen⟩ := h
    cases r with
    | none => exact ⟨s₁, .of_looks hl, fun key hkey => .inl hkey⟩
    | some found =>
      obtain ⟨fresh, v⟩ := found
      obtain ⟨-, hn, -, hpasses⟩ := hparts fresh v rfl
      dsimp only
      rw [forM_operand hg p hn hpasses, ends_bind]
      refine ((ends_requireAll hg p hs₁ v.parts).and (Ends.forM_split
        (fun done s' => s'.Consistent g ∧ (requireAll g p done).run.run s₁ = (.ok (), s') ∧
          ReadyBy g p (n, demand) s s')
        (E := fun _ s' => ReadyBy g p (n, demand) s s') (fun done b rest hsplit s' h => ?_)
        ⟨hs₁, rfl, .of_looks hl⟩)).mono (fun _ s₂ h => ?_) fun _ _ h => h.2
      · obtain ⟨c, part⟩ := b
        obtain ⟨hs', hdone, hready⟩ := h
        have hlt : c < n := hg.child_lt n v.node hn c (hpasses.mem_children c part (by simp [hsplit]))
        have hpart : ∀ {s''}, ReadyBy g p (c, part) s' s'' → ReadyBy g p (n, demand) s s'' :=
          fun h key hkey => (h key hkey).elim (hready key) fun ⟨hpass, hsucceeds⟩ =>
            .inr ⟨hpass, .part hopen hsplit hdone hsucceeds⟩
        refine (((ends_require hg p hs' c part).and (ih c hlt hs' part)).and (ends_run _ s')).mono
          (fun _ s'' h => ?_) fun _ _ h => hpart h.1.2
        refine ⟨h.1.1.progress.consistent, ?_, hpart h.1.2⟩
        rw [requireAll_append, run_bind, hdone]
        dsimp only
        rw [requireAll, List.forM, run_bind, h.2]
        rfl
      · obtain ⟨⟨-, hprovides, -⟩, hs₂, -, hready⟩ := h
        have hoperand : ∀ c ∈ v.node.children, ⟨p.id, c⟩ ∈ s₂.ready := fun c hc =>
          hprovides.operand_ready hpasses hc
        refine (ends_finish hg p hs₂ hoperand n fresh).mono (fun _ s₄ h => ⟨s₂, hready, fun key hkey => ?_⟩)
          fun _ _ h key hkey => hready key (by rwa [← h.2.2.ready])
        obtain ⟨s₃, -, hl₃, hadds⟩ := h
        rw [← hl₃.ready]
        exact (hadds.ready key).mp hkey

/-! ## Histories -/

/-- How a session has come about: the calls that were made, each with its pass and the session in which it was
made. -/
inductive History (g : Graph) : List (Pass × Call × Session) → Session → Prop
  | start (s₀ : Session) : History g [] s₀.restart
  | call {log : List (Pass × Call × Session)} {s : Session} (h : History g log s) (p : Pass) (c : Call) :
      History g (log ++ [(p, c, s)]) (after (c.run g p) s)
  | openPass {log : List (Pass × Call × Session)} {s : Session} (h : History g log s) (domain : Domain)
      (computation : Computation) (verbosity : Verbosity) :
      History g log (after (openPass domain computation verbosity : AnalysisM Pass) s)

theorem History.reachable {log : List (Pass × Call × Session)} (h : History g log s) : s.Reachable g := by
  induction h with
  | start s₀ => exact ⟨s₀, .refl⟩
  | call _ p c ih => exact ih.call p c
  | openPass _ domain computation verbosity ih => exact ih.later (.single (.openPass domain computation verbosity _))

theorem Reachable.exists_history (h : s.Reachable g) : ∃ log, History g log s := by
  obtain ⟨s₀, h⟩ := h
  induction h with
  | refl => exact ⟨[], .start s₀⟩
  | tail _ hstep ih =>
    obtain ⟨log, hlog⟩ := ih
    cases hstep with
    | call p c => exact ⟨_, hlog.call p c⟩
    | openPass domain computation verbosity => exact ⟨log, hlog.openPass domain computation verbosity⟩

/-- Whether one of the calls of a history determined a demand on a node in a pass, itself or on its way down. -/
def HasDetermined (g : Graph) (log : List (Pass × Call × Session)) (q : PassId) (n : NodeId) : Prop :=
  ∃ p c demand s, (p, .require c demand, s) ∈ log ∧ p.id = q ∧ Succeeds g p (c, demand) s n

theorem hasDetermined_append {log : List (Pass × Call × Session)} {c : Call} :
    HasDetermined g (log ++ [(p, c, s)]) q n ↔ HasDetermined g log q n ∨
      ∃ m demand, c = .require m demand ∧ p.id = q ∧ Succeeds g p (m, demand) s n := by
  simp only [HasDetermined, List.mem_append, List.mem_singleton, Prod.mk.injEq]
  constructor
  · rintro ⟨p', m, demand, s', hlog | ⟨rfl, rfl, rfl⟩, hq, hsucceeds⟩
    · exact .inl ⟨p', m, demand, s', hlog, hq, hsucceeds⟩
    · exact .inr ⟨m, demand, rfl, hq, hsucceeds⟩
  · rintro (⟨p', m, demand, s', hlog, hq, hsucceeds⟩ | ⟨m, demand, rfl, hq, hsucceeds⟩)
    · exact ⟨p', m, demand, s', .inl hlog, hq, hsucceeds⟩
    · exact ⟨p, m, demand, s, .inr ⟨rfl, rfl, rfl⟩, hq, hsucceeds⟩

/-- **One call** makes those nodes ready at which it has determined a demand. -/
theorem mem_ready_after (hg : g.WellFormed) (hs : s.Consistent g) (p : Pass) (c : Call) :
    ⟨q, n⟩ ∈ (after (c.run g p) s).ready ↔ ⟨q, n⟩ ∈ s.ready ∨
      ∃ m demand, c = .require m demand ∧ p.id = q ∧ Succeeds g p (m, demand) s n := by
  by_cases hc : c.IsRequire
  · cases c with
    | require m demand =>
      simp only [Call.run, Call.require.injEq, and_assoc, exists_and_left, exists_eq_left']
      constructor
      · intro h
        refine ((ends_require_readyBy hg p hs m demand).state _ h).imp_right fun ⟨hq, hsucceeds⟩ => ?_
        exact ⟨hq.symm, hsucceeds⟩
      · rintro (h | ⟨rfl, hsucceeds⟩)
        · exact ((bearsDemand_ready p.id ⟨q, n⟩).respects_require m demand).keeps s h |>.state
        · exact hsucceeds.ready hg hs
    | _ => exact hc.elim
  · rw [after, (ends_find hg p hs c hc).state.2.ready]
    refine ⟨.inl, ?_⟩
    rintro (h | ⟨m, demand, rfl, -⟩)
    · exact h
    · exact absurd trivial hc

/-- **The history of a session tells which nodes are ready:** those at which a demand was determined. -/
theorem History.ready_iff (hg : g.WellFormed) {log : List (Pass × Call × Session)} (h : History g log s)
    (q : PassId) (n : NodeId) : ⟨q, n⟩ ∈ s.ready ↔ HasDetermined g log q n := by
  induction h with
  | start s₀ => simp [restart, HasDetermined]
  | call h p c ih => rw [mem_ready_after hg (h.reachable.consistent hg), ih, hasDetermined_append]
  | openPass _ _ _ _ ih => exact ih

/-! ## What is found -/

/-- Whether a search in a session succeeds if a node is ready, and otherwise fails because it is not and leaves
the session as it was. -/
def FoundIfReady {α : Type} (g : Graph) (p : Pass) (n : NodeId) (s : Session) (x : AnalysisM α) : Prop :=
  (⟨p.id, n⟩ ∈ s.ready → ∃ a s', x.run.run s = (.ok a, s')) ∧
  (⟨p.id, n⟩ ∉ s.ready → x.run.run s = (.error (.error (.notReady (g.text n) p.text)), s))

theorem FoundIfReady.of_ends {α : Type} {x : AnalysisM α} (hn : ∃ node, g.node? n = some node)
    {ok : α → Session → Prop} (hready : Ends x s ok (NotReady g p s n))
    (hnot : ⟨p.id, n⟩ ∉ s.ready → Ends x s (fun _ _ => False) (FindsNothing g p n s)) :
    FoundIfReady g p n s x := by
  refine ⟨fun h => ?_, fun h => ?_⟩
  · obtain ⟨a, s', hrun, -⟩ := (hready.mono (fun _ _ h => h) fun _ _ he => absurd h he.1).exists_ok
    exact ⟨a, s', hrun⟩
  · obtain ⟨e, s', hrun, he, rfl⟩ := (hnot h).exists_error
    rcases he with rfl | ⟨-, hnone⟩
    · exact hrun
    · obtain ⟨node, hnode⟩ := hn
      simp [hnone] at hnode

/-- **Sets are found of the nodes that are ready,** and exactly of those. In every session that a run reaches,
all nodes below a node that is ready are ready. Up to `maxOrder` its required, constant and varying sets are
found, and so is its classification. If the node is not ready, each of these searches fails with an error that
says so, and the session stays as it was. The evaluator of a node is found if and only if the node is ready.
Whichever calls have led to the session, the node is ready if and only if one of them, in the pass, determined
a demand on it: the demand of the call itself, or one that it was passed on as, be it that the call failed
later. -/
theorem found_iff_ready (hg : g.Built) (hs : s.Reachable g) (p : Pass) (hn : n < g.size) :
    (⟨p.id, n⟩ ∈ s.ready → ∀ c, Relation.ReflTransGen g.IsOperand n c → ⟨p.id, c⟩ ∈ s.ready) ∧
    (∀ k ≤ maxOrder, FoundIfReady g p n s (findRequired g p n k) ∧
      FoundIfReady g p n s (findConstant g p n k) ∧ FoundIfReady g p n s (findVarying g p n k)) ∧
    FoundIfReady g p n s (classify g p n) ∧
    ((∃ e s', (findEvaluator g p n).run.run s = (.ok e, s')) ↔ ⟨p.id, n⟩ ∈ s.ready) ∧
    (∃ log, History g log s) ∧
    ∀ log, History g log s → (⟨p.id, n⟩ ∈ s.ready ↔ HasDetermined g log p.id n) := by
  have hw := hg.wellFormed
  have hconsistent := hs.consistent hw
  have hnode := Graph.exists_node? hn
  refine ⟨fun h c => hconsistent.ready_below h, fun k hk => ⟨?_, ?_, ?_⟩, ?_, ⟨?_, fun h => ?_⟩,
    hs.exists_history, fun log hlog => hlog.ready_iff hw p.id n⟩
  · exact .of_ends hnode (ends_findRequired hconsistent p n k) fun h => ends_findRequired_of_not_ready h g k
  · exact .of_ends hnode (ends_findConstant hw p hconsistent n k) fun h =>
      ends_findConstant_of_not_ready h hconsistent hk
  · exact .of_ends hnode (ends_findVarying hw p hconsistent n k) fun h =>
      ends_findVarying_of_not_ready h hconsistent hk
  · exact .of_ends hnode (ends_classify hw p hconsistent n) fun h => ends_classify_of_not_ready h hconsistent
  · rintro ⟨e, s', hrun⟩
    obtain ⟨heval, hkept⟩ := (ends_findEvaluator hw p hconsistent (hs.evaluated hw) n).of_ok hrun
    rw [← heval.tellsApart.ready]
    exact heval.evaluated.ready heval.consistent hkept
  · obtain ⟨e, hrun⟩ := run_findEvaluator hw hs h
    exact ⟨e, _, hrun⟩

/-- The session in which the product has refused the derivative of the sum by `v`. -/
def productRefused : Session :=
  after (require Graph.sumWithProduct default 4 [∅, {.ofAtom (.functional 7 .value)}]) productToldApart

/-- The negative term is ready by then, as its part of the demand came first. The sum is not, and nothing is
found of it. -/
theorem found_iff_ready_productRefused :
    Graph.sumWithProduct.Built ∧ productRefused.Reachable Graph.sumWithProduct ∧
    3 < Graph.sumWithProduct.size ∧ 4 < Graph.sumWithProduct.size ∧
    (∃ log, History Graph.sumWithProduct log productRefused ∧ HasDetermined Graph.sumWithProduct log 0 3 ∧
      ¬HasDetermined Graph.sumWithProduct log 0 4) ∧
    (∃ a s', (findVarying Graph.sumWithProduct default 3 1).run.run productRefused = (.ok a, s')) ∧
    (findVarying Graph.sumWithProduct default 4 1).run.run productRefused =
      (.error (.error (.notReady (Graph.sumWithProduct.text 4) (Pass.text default))), productRefused) := by
  have hg := Graph.built_sumWithProduct
  have hs : productRefused.Reachable Graph.sumWithProduct := reachable_productToldApart.require default 4 _
  have h3 : 3 < Graph.sumWithProduct.size := by decide
  have h4 : 4 < Graph.sumWithProduct.size := by decide
  have hready : (⟨(default : Pass).id, 3⟩ : NodeKey) ∈ productRefused.ready := by decide +kernel
  have hnot : (⟨(default : Pass).id, 4⟩ : NodeKey) ∉ productRefused.ready := by decide +kernel
  obtain ⟨-, hsets, -, -, ⟨log, hlog⟩, hdetermined⟩ := found_iff_ready hg hs default h3
  obtain ⟨-, hsets', -, -, -, hdetermined'⟩ := found_iff_ready hg hs default h4
  refine ⟨hg, hs, h3, h4, ⟨log, hlog, (hdetermined log hlog).mp hready, fun h => ?_⟩,
    (hsets 1 (by decide)).2.2.1 hready, (hsets' 1 (by decide)).2.2.2 hnot⟩
  exact hnot ((hdetermined' log hlog).mpr h)

end FormSparsity.Session
