import FormSparsity.Proofs.Session.Classify
import FormSparsity.Proofs.Session.Require

/-!
Runs of a session. A session is reached from one that knows nothing by calls in any passes, of which
some may have failed, and by opening passes. Every step keeps a session consistent and extends it
(`Step.consistent_extends`), so every session that is reached is consistent (`Reachable.consistent`).
-/
namespace FormSparsity.Session

/-- A call on a session. -/
inductive Call where
  | nonzero (n : NodeId) (k : Nat)
  | required (n : NodeId) (k : Nat)
  | constant (n : NodeId) (k : Nat)
  | varying (n : NodeId) (k : Nat)
  | require (n : NodeId) (demand : Demand)
  | classify (n : NodeId)
  | evaluate (n : NodeId)

/-- The node that a call is about. -/
def Call.node : Call → NodeId
  | nonzero n _ | required n _ | constant n _ | varying n _ | require n _ | classify n | evaluate n => n

/-- Carries out a call in a pass. -/
def Call.run (g : Graph) (p : Pass) : Call → AnalysisM Unit
  | nonzero n k => discard (findNonzero g p n k)
  | required n k => discard (findRequired g p n k)
  | constant n k => discard (findConstant g p n k)
  | varying n k => discard (findVarying g p n k)
  | require n demand => Session.require g p n demand
  | classify n => discard (Session.classify g p n)
  | evaluate n => discard (findEvaluator g p n)

/-- One step of a run. What a call found before it failed stays in the session. -/
inductive Step (g : Graph) : Session → Session → Prop
  | call (p : Pass) (c : Call) (s : Session) : Step g s ((c.run g p).run.run s).2
  | openPass (domain : Domain) (computation : Computation) (verbosity : Verbosity) (s : Session) :
      Step g s ((openPass domain computation verbosity : AnalysisM Pass).run.run s).2

/-- Whether the second session comes later in some run that goes through the first one. -/
def Later (g : Graph) : Session → Session → Prop := Relation.ReflTransGen (Step g)

/-- Whether a session is reached from one that knows nothing. -/
def Reachable (g : Graph) (s : Session) : Prop := ∃ s₀ : Session, Later g s₀.restart s

variable {g : Graph} {s s' : Session}

/-- What a computation ends with does not matter where nothing is said of it. -/
theorem ends_discard {α : Type} {x : AnalysisM α} {I : Session → Prop} (h : Ends x s (fun _ => I) fun _ => I) :
    Ends (discard x) s (fun _ => I) fun _ => I :=
  (ends_map _).mpr h

/-- Whether a call determines required sets. -/
def Call.IsRequire : Call → Prop
  | require .. => True
  | _ => False

/-- A call that does not determine required sets finds sets alone, whether it fails or not. -/
theorem ends_find (hg : g.WellFormed) (p : Pass) (hs : s.Consistent g) (c : Call) (hc : ¬c.IsRequire) :
    Ends (c.run g p) s (fun _ s' => s'.Consistent g ∧ TellsApart s s') fun _ s' =>
      s'.Consistent g ∧ TellsApart s s' := by
  cases c with
  | nonzero n k =>
    exact ends_discard ((ends_findNonzero hg p hs n k).mono (fun _ _ h => ⟨h.2.1, h.2.2.tellsApart⟩)
      fun _ _ h => ⟨h.2.2.1, h.2.2.2.tellsApart⟩)
  | required n k =>
    exact ends_discard ((ends_findRequired hs p n k).mono (fun _ s' h => by rw [h.2.2]; exact ⟨hs, .refl s⟩)
      fun _ _ h => h.2.2)
  | constant n k =>
    exact ends_discard ((ends_findConstant hg p hs n k).mono (fun _ _ h => ⟨h.2.1, h.2.2.1⟩)
      fun _ _ h => h.2.2)
  | varying n k =>
    exact ends_discard ((ends_findVarying hg p hs n k).mono (fun _ _ h => ⟨h.2.1, h.2.2.1⟩)
      fun _ _ h => h.2.2)
  | classify n =>
    exact ends_discard ((ends_classify hg p hs n).mono (fun _ _ h => h.2.2) fun _ _ h => h.2.2)
  | evaluate n => exact ends_discard (keeps_findEvaluator hg p s n s ⟨hs, .refl s⟩)
  | require n demand => exact absurd trivial hc

/-- What work in one pass leaves behind: a session that is consistent and extends the earlier one, in which
no pass was opened and no node of another pass got ready. -/
structure WorksIn (g : Graph) (p : PassId) (s s' : Session) : Prop where
  consistent : s'.Consistent g
  extension : Extends s s'
  passes : s'.passes = s.passes
  ready : ∀ q n, ⟨q, n⟩ ∈ s'.ready → ⟨q, n⟩ ∈ s.ready ∨ q = p

theorem WorksIn.of_tellsApart {p : PassId} (hs : s'.Consistent g) (h : TellsApart s s') : WorksIn g p s s' :=
  ⟨hs, h.extends, h.passes, fun q n hn => .inl (by rwa [← h.ready])⟩

theorem WorksIn.of_progress {p : PassId} {calls : List (NodeId × Demand)} (h : Progress g p calls s s') :
    WorksIn g p s s' :=
  ⟨h.consistent, h.determines.extends, h.determines.passes, fun q n hn =>
    (h.addsOnly.ready q n hn).imp_right And.left⟩

theorem WorksIn.trans {p : PassId} {s'' : Session} (h : WorksIn g p s s') (h' : WorksIn g p s' s'') :
    WorksIn g p s s'' where
  consistent := h'.consistent
  extension := h.extension.trans h'.extension
  passes := h'.passes.trans h.passes
  ready q n hn := (h'.ready q n hn).elim (h.ready q n) .inr

/-- **Every call works in its pass,** whether it fails or not. -/
theorem ends_call (hg : g.WellFormed) (p : Pass) (c : Call) (hs : s.Consistent g) :
    Ends (c.run g p) s (fun _ => WorksIn g p.id s) fun _ => WorksIn g p.id s := by
  by_cases hc : c.IsRequire
  · cases c with
    | require n demand =>
      exact (ends_require hg p hs n demand).mono (fun _ _ h => .of_progress h.progress)
        fun _ _ h => .of_progress h.2
    | _ => exact hc.elim
  · exact (ends_find hg p hs c hc).mono (fun _ _ h => .of_tellsApart h.1 h.2)
      fun _ _ h => .of_tellsApart h.1 h.2

/-- **One step** of a run keeps a session consistent and loses nothing of what was found. -/
theorem Step.consistent_extends (hg : g.WellFormed) (hs : s.Consistent g) (h : Step g s s') :
    s'.Consistent g ∧ Extends s s' := by
  cases h with
  | call p c =>
    have h := (ends_call hg p c hs).state
    exact ⟨h.consistent, h.extension⟩
  | openPass domain computation verbosity =>
    exact ⟨hs.passes _, fun _ _ _ _ h => h, fun _ _ _ _ => rfl, fun _ _ _ h => h, fun _ h => h⟩

/-- **A run** keeps a session consistent and loses nothing of what was found. -/
theorem Later.consistent_extends (hg : g.WellFormed) (hs : s.Consistent g) (h : Later g s s') :
    s'.Consistent g ∧ Extends s s' := by
  induction h with
  | refl => exact ⟨hs, .refl s⟩
  | tail _ hstep ih =>
    obtain ⟨hs', he⟩ := ih
    obtain ⟨hs'', he'⟩ := hstep.consistent_extends hg hs'
    exact ⟨hs'', he.trans he'⟩

theorem Reachable.consistent (hg : g.WellFormed) (h : s.Reachable g) : s.Consistent g := by
  obtain ⟨s₀, h⟩ := h
  exact (h.consistent_extends hg (consistent_restart g s₀)).1

theorem Reachable.later (hs : s.Reachable g) (h : Later g s s') : s'.Reachable g := by
  obtain ⟨s₀, hs⟩ := hs
  exact ⟨s₀, hs.trans h⟩

theorem Reachable.call (hs : s.Reachable g) (p : Pass) (c : Call) : ((c.run g p).run.run s).2.Reachable g :=
  hs.later (.single (.call p c s))

theorem Reachable.require (hs : s.Reachable g) (p : Pass) (n : NodeId) (demand : Demand) :
    (after (Session.require g p n demand) s).Reachable g :=
  hs.call p (.require n demand)

end FormSparsity.Session
