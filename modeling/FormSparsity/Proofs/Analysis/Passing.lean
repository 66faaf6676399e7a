import FormSparsity.Proofs.Analysis.Demand

/-!
What a demand brings to the nodes below it. The rule of a node makes a demand on the node into demands on its
operands (`Graph.Gives`), which their rules make into demands further below. A demand brings a nonzero
derivative to a node if one of the demands that it ends up as there asks for the derivative (`Graph.Brings`).
A part of a demand brings no more than the whole (`Brings.of_part`), although the rules look at how many orders
are demanded and at derivatives that are zero.
-/
namespace FormSparsity.Graph

variable {g : Graph} {n c : NodeId} {demand part : Demand} {call call' : NodeId × Demand} {j k : Nat}
variable {r m : Mixed}

/-! ## From a node to its operands -/

/-- Whether the rule of a node passes a demand on it on as another demand, on one of its operands. -/
def Gives (g : Graph) (call part : NodeId × Demand) : Prop :=
  ∃ node parts, g.node? call.1 = some node ∧
    (node.demand g call.2 (g.accepted call.1 call.2)).value g.nonzeroAt = .ok parts ∧ part ∈ parts

theorem gives_iff {node : Node} {parts : List (NodeId × Demand)} (hn : g.node? n = some node)
    (hvalue : (node.demand g demand (g.accepted n demand)).value g.nonzeroAt = .ok parts) :
    g.Gives (n, demand) call ↔ call ∈ parts := by
  constructor
  · rintro ⟨node', parts', hn', hvalue', hcall⟩
    obtain rfl : node = node' := by simpa [hn] using hn'
    obtain rfl : parts = parts' := by simpa [hvalue] using hvalue'
    exact hcall
  · exact fun hcall => ⟨node, parts, hn, hvalue, hcall⟩

section Rules

variable (hg : g.WellFormed)
include hg

/-- What the rule of a node gives, as a list. -/
theorem exists_parts (hn : ∃ node, g.node? n = some node) (demand : Demand) :
    ∃ node parts, g.node? n = some node ∧ g.PassesOn n node demand parts ∧
      ∀ call, g.Gives (n, demand) call ↔ call ∈ parts := by
  obtain ⟨node, hn⟩ := hn
  obtain ⟨parts, hvalue, hpasses⟩ := exists_passesOn hg demand hn
  exact ⟨node, parts, hn, hpasses, fun _ => gives_iff hn hvalue⟩

theorem Gives.exists_parts (h : g.Gives (n, demand) call) :
    ∃ node parts, g.node? n = some node ∧ g.PassesOn n node demand parts ∧ call ∈ parts := by
  obtain ⟨node, parts, hn, hpasses, hiff⟩ := Graph.exists_parts hg (h.imp fun _ ⟨_, hn, _⟩ => hn) demand
  exact ⟨node, parts, hn, hpasses, (hiff call).mp h⟩

theorem Gives.isOperand (h : g.Gives (n, demand) (c, part)) : g.IsOperand n c := by
  obtain ⟨node, parts, hn, hpasses, hpart⟩ := h.exists_parts hg
  exact ⟨node, hn, hpasses.mem_children c part hpart⟩

/-- No operand is left out. -/
theorem exists_gives (h : g.IsOperand n c) (demand : Demand) : ∃ part, g.Gives (n, demand) (c, part) := by
  obtain ⟨node, hn, hc⟩ := h
  obtain ⟨node', parts, hn', hpasses, hiff⟩ := exists_parts hg ⟨node, hn⟩ demand
  obtain rfl : node = node' := by simpa [hn] using hn'
  obtain ⟨part, hpart⟩ := hpasses.exists_part c hc
  exact ⟨part, (hiff _).mpr hpart⟩

/-- What is given is asked for by something demanded, or in any case. -/
theorem Gives.sound (h : g.Gives (n, demand) (c, part)) (hm : m ∈ part.ofOrder k) (hw : m ∈ g.nonzero c k) :
    (∃ j r, r ∈ demand.ofOrder j ∧ r ∈ g.nonzero n j ∧ g.Asks n j r c k m) ∨ g.AsksAlways n c k m := by
  obtain ⟨node, parts, -, hpasses, hpart⟩ := h.exists_parts hg
  exact hpasses.sound c part k m hpart hm hw

theorem Gives.ne_nil (h : g.Gives (n, demand) (c, part)) (hne : demand ≠ []) : part ≠ [] := by
  obtain ⟨node, parts, -, hpasses, hpart⟩ := h.exists_parts hg
  exact hpasses.ne_nil c part hne hpart

theorem Asks.exists_gives (h : g.Asks n j r c k m) (hr : r ∈ demand.ofOrder j) (hw : r ∈ g.nonzero n j) :
    ∃ part, g.Gives (n, demand) (c, part) ∧ m ∈ part.ofOrder k := by
  obtain ⟨node, parts, -, hpasses, hiff⟩ := exists_parts hg (h.exists_node.imp fun _ h => h.1) demand
  obtain ⟨part, hpart, hm⟩ := hpasses.complete j r c k m hr hw h
  exact ⟨part, (hiff _).mpr hpart, hm⟩

theorem AsksAlways.exists_gives (h : g.AsksAlways n c k m) (hne : demand ≠ []) :
    ∃ part, g.Gives (n, demand) (c, part) ∧ m ∈ part.ofOrder k := by
  obtain ⟨node, parts, -, hpasses, hiff⟩ := exists_parts hg (h.exists_node.imp fun _ h => h.1) demand
  obtain ⟨part, hpart, hm⟩ := hpasses.complete_always c k m hne h
  exact ⟨part, (hiff _).mpr hpart, hm⟩

end Rules

/-! ## All the way down -/

/-- Whether a demand on a node brings a nonzero derivative to a node: the demand asks for it itself, or a
demand that it is passed on as does. -/
def Brings (g : Graph) (call : NodeId × Demand) (c : NodeId) (k : Nat) (m : Mixed) : Prop :=
  ∃ part, Relation.ReflTransGen g.Gives call (c, part) ∧ m ∈ part.ofOrder k ∧ m ∈ g.nonzero c k

theorem brings_self (hm : m ∈ demand.ofOrder k) (hw : m ∈ g.nonzero n k) : g.Brings (n, demand) n k m :=
  ⟨demand, .refl, hm, hw⟩

theorem Brings.mem_nonzero (h : g.Brings call c k m) : m ∈ g.nonzero c k :=
  h.choose_spec.2.2

/-- What one of its parts brings is brought by a demand. -/
theorem Brings.gives (h : g.Brings call' c k m) (hgives : g.Gives call call') : g.Brings call c k m := by
  obtain ⟨part, hpart, hm⟩ := h
  exact ⟨part, .head hgives hpart, hm⟩

/-- Whether a demand is included in what another demand is passed on as, taken together. -/
structure Includes (g : Graph) (call : NodeId × Demand) (n : NodeId) (demand : Demand) : Prop where
  reached : ∃ d, Relation.ReflTransGen g.Gives call (n, d)
  ne_nil : demand ≠ [] → ∃ d, Relation.ReflTransGen g.Gives call (n, d) ∧ d ≠ []
  brings : ∀ k m, m ∈ demand.ofOrder k → m ∈ g.nonzero n k → g.Brings call n k m

/-- **One step** down keeps a demand included. -/
theorem Includes.gives (hg : g.WellFormed) (h : g.Includes call n demand)
    (hgives : g.Gives (n, demand) (c, part)) : g.Includes call c part := by
  have hop := hgives.isOperand hg
  -- a demand that covers some order, or else the same one, reaches the node
  have hnode : (∃ d, Relation.ReflTransGen g.Gives call (n, d) ∧ d ≠ []) ∨
      demand = [] ∧ Relation.ReflTransGen g.Gives call (n, demand) := by
    by_cases hd : demand = []
    · obtain ⟨d, hreach⟩ := h.reached
      by_cases hd' : d = []
      · exact .inr ⟨hd, by rwa [hd, ← hd']⟩
      · exact .inl ⟨d, hreach, hd'⟩
    · exact .inl (h.ne_nil hd)
  refine ⟨?_, fun hpart => ?_, fun k m hm hw => ?_⟩
  · obtain ⟨d, hreach⟩ := h.reached
    obtain ⟨d', hd'⟩ := exists_gives hg hop d
    exact ⟨d', hreach.tail hd'⟩
  · rcases hnode with ⟨d, hreach, hd⟩ | ⟨-, hreach⟩
    · obtain ⟨d', hd'⟩ := exists_gives hg hop d
      exact ⟨d', hreach.tail hd', hd'.ne_nil hg hd⟩
    · exact ⟨part, hreach.tail hgives, hpart⟩
  · rcases hgives.sound hg hm hw with ⟨j, r, hr, hrw, hasks⟩ | halways
    · obtain ⟨d, hreach, hrd, -⟩ := h.brings j r hr hrw
      obtain ⟨d', hd', hm'⟩ := hasks.exists_gives hg hrd hrw
      exact ⟨d', hreach.tail hd', hm', hw⟩
    · rcases hnode with ⟨d, hreach, hd⟩ | ⟨-, hreach⟩
      · obtain ⟨d', hd', hm'⟩ := halways.exists_gives hg hd
        exact ⟨d', hreach.tail hd', hm', hw⟩
      · exact ⟨part, hreach.tail hgives, hm, hw⟩

/-- What a demand brings is brought where the demand is included. -/
theorem Brings.of_includes (hg : g.WellFormed) (h : g.Brings (n, demand) c k m)
    (hin : g.Includes call n demand) : g.Brings call c k m := by
  obtain ⟨part, hreach, hm, hw⟩ := h
  have hall : ∀ call', Relation.ReflTransGen g.Gives (n, demand) call' → g.Includes call call'.1 call'.2 := by
    intro call' hreach
    induction hreach with
    | refl => exact hin
    | tail _ hgives ih => exact ih.gives hg hgives
  exact (hall _ hreach).brings k m hm hw

/-- **A part of a demand brings no more** than the whole. -/
theorem Brings.of_part (hg : g.WellFormed) (h : g.Brings (n, part) c k m) (hne : part ≠ [] → demand ≠ [])
    (hsub : ∀ j r, r ∈ part.ofOrder j → r ∈ demand.ofOrder j) : g.Brings (n, demand) c k m :=
  h.of_includes hg ⟨⟨demand, .refl⟩, fun hpart => ⟨demand, .refl, hne hpart⟩, fun _ _ hm hw =>
    brings_self (hsub _ _ hm) hw⟩

end FormSparsity.Graph
