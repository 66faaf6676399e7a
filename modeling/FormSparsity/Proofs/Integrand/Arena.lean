import FormSparsity.Integrand.Arena
import FormSparsity.Proofs.Integrand.Expansion

/-!
Arenas under construction calls. In an arena a call does to the graph what it does to a graph alone, and it keeps
the register in step with the nodes (`Construction.alongside`), so that a function is found in the register
exactly where it is declared. Therefore every sequence of calls, misuses included, keeps an arena in order
(`Arena.calls_keep_order`).
-/
namespace FormSparsity

namespace Graph

variable {g : Graph}

/-- Whether a node declares a function. -/
def Declares (g : Graph) (n : NodeId) (f : FunctionId) : Prop :=
  ∃ node, g.node? n = some node ∧ node.function? = some f

theorem declares_of_function? {f : FunctionId} {n : NodeId} (h : g.function? f = some n) : g.Declares n f := by
  rw [function?, Array.findIdx?_eq_some_iff_getElem] at h
  obtain ⟨hlt, hf, -⟩ := h
  exact ⟨_, Array.getElem?_eq_getElem hlt, by simpa using hf⟩

/-- A function that is declared once is found at the only node that declares it. -/
theorem DeclaresOnce.function?_eq_some_iff (hg : g.DeclaresOnce) {f : FunctionId} {n : NodeId} :
    g.function? f = some n ↔ g.Declares n f ∧ ∀ m, g.Declares m f → m = n := by
  constructor
  · intro h
    refine ⟨declares_of_function? h, ?_⟩
    rintro m ⟨node, hm, hf⟩
    exact Option.some.inj ((hg m node f hm hf).symm.trans h)
  · rintro ⟨⟨node, hn, hf⟩, -⟩
    exact hg n node f hn hf

/-- Descending from nodes to operands comes to an end. -/
theorem WellFormed.wellFounded (hg : g.WellFormed) : WellFounded fun c n => g.IsOperand n c := by
  refine Subrelation.wf ?_ Nat.lt_wfRel.wf
  rintro c n ⟨node, hn, hc⟩
  exact hg.child_lt n node hn c hc

end Graph

namespace Arena

variable {a a' : Arena}

/-- Whether the register of an arena has every function where its graph declares it. -/
def IsIndexed (a : Arena) : Prop := ∀ f, a.functions[f]? = a.graph.function? f

/-- Whether an arena has a given graph, with its register in step. -/
def IsOn (a : Arena) (g : Graph) : Prop := a.graph = g ∧ a.IsIndexed

/-! ## Calls in an arena -/

theorem run_unregistered (y : Builder NodeId) (a : Arena) :
    (unregistered y).run.run a = ((y.run.run a.graph).1, { a with graph := after y a.graph }) := by
  show (ofExcept (y.run.run a.graph).1 : ArenaM NodeId).run.run { a with graph := after y a.graph } = _
  cases (y.run.run a.graph).1 <;> rfl

/-- Calls that register nothing and declare nothing keep the register in step. -/
theorem alongside_unregistered {y : Builder NodeId}
    (hy : ∀ F : FunctionId → Option NodeId, Keeps (fun g => ∀ f, F f = g.function? f) y) :
    Alongside IsOn (unregistered y) y := by
  rintro a g ⟨rfl, ha⟩
  rw [after, run_unregistered]
  exact ⟨rfl, rfl, (hy (a.functions[·]?) a.graph ha).state⟩

theorem run_declare (f : FunctionId) (node : Node) (g : Graph) :
    (Builder.declare f node).run.run g =
      if (g.function? f).isSome then (.error (.functionInUse f), g) else (Builder.push node).run.run g := by
  show (if _ then _ else _ : Builder NodeId).run.run g = _
  split <;> rfl

theorem run_register (f : FunctionId) (node : Node) (a : Arena) :
    (register f node).run.run a =
      if a.functions.contains f then (.error (.functionInUse f), a) else
        (do
          let n ← unregistered (Builder.push node)
          modify fun a => { a with functions := a.functions.insert f n }
          return n : ArenaM NodeId).run.run a := by
  show (if _ then _ else _ : ArenaM NodeId).run.run a = _
  split <;> rfl

/-- A function is registered where its node is added. -/
theorem alongside_register {f : FunctionId} {node : Node} (hf : node.function? = some f) :
    Alongside IsOn (register f node) (Builder.declare f node) := by
  rintro a g ⟨rfl, ha⟩
  have hcontains : a.functions.contains f = (a.graph.function? f).isSome := by
    rw [← ha f, Std.ExtTreeMap.contains_eq_isSome_getElem?]
  rw [after, after, run_register, run_declare, hcontains]
  split
  · exact ⟨rfl, rfl, ha⟩
  · rename_i hnew
    have hnew : a.graph.function? f = none := by simpa using hnew
    rw [run_bind, run_unregistered, after]
    cases hpush : (Builder.push node).run.run a.graph with
    | mk result g =>
      cases result with
      | error e =>
        obtain rfl := (Builder.ends_push_eq node).of_error hpush
        exact ⟨rfl, rfl, ha⟩
      | ok n =>
        obtain ⟨rfl, rfl⟩ := (Builder.ends_push_eq node).of_ok hpush
        refine ⟨rfl, rfl, fun f' => ?_⟩
        show (a.functions.insert f a.graph.size)[f']? =
          Graph.function? { a.graph with nodes := a.graph.nodes.push node } f'
        rw [Graph.function?_push, hf, Std.ExtTreeMap.getElem?_insert, ha f']
        by_cases hsame : f = f'
        · obtain rfl := hsame
          simp [hnew]
        · simp [hsame]

theorem alongside_unknownAt (name : String) (f : FunctionId) (point : NodeId) :
    Alongside IsOn (Construction.unknownAt name f point).carryOut (Builder.unknownAt name f point) := by
  refine .get_bind fun a g h => ?_
  obtain ⟨rfl, -⟩ := h
  refine (alongside_ofExcept _).bind fun node => ?_
  cases node.isDiscrete with
  | true => exact alongside_register rfl
  | false => exact alongside_throw _

end Arena

open Arena in
/-- **Calls in an arena are calls in its graph:** they end alike, with the same graph, and the register of the arena
stays in step with the nodes that declare functions. -/
theorem Construction.alongside (c : Construction) : Alongside IsOn c.carryOut c.build := by
  cases hc : c.function? with
  | none =>
    have hcarryOut : c.carryOut = unregistered c.build := by
      cases c with
      | symbolic | unknown | unknownAt | variation | discrete => cases hc
      | _ => rfl
    rw [hcarryOut]
    refine alongside_unregistered fun F => Construction.keeps_of_function?_eq_none (fun g node hg _ hf f => ?_) hc
    simp [hg f, Graph.function?_push, hf]
  | some f =>
    cases c with
    | symbolic | unknown | variation | discrete => exact alongside_register rfl
    | unknownAt name f point => exact alongside_unknownAt name f point
    | _ => cases hc

namespace Arena

variable {a : Arena}

/-- The arena after calls one after the other, of which some may be misuses. -/
def afterCalls (a : Arena) (calls : List Construction) : Arena := calls.foldl (fun a c => after c.carryOut a) a

/-- What construction calls keep of an arena: its graph is one that calls build, and its register is in step. -/
structure Built (a : Arena) : Prop where
  graph : a.graph.Built
  isIndexed : a.IsIndexed

theorem built_empty {dimension : Nat} (h : empty dimension = .ok a) : a.Built := by
  unfold empty at h
  cases hgraph : Graph.empty dimension with
  | error e => rw [hgraph] at h; cases h
  | ok g =>
    rw [hgraph] at h
    cases h
    refine ⟨.empty hgraph, fun f => ?_⟩
    unfold Graph.empty at hgraph
    split at hgraph
    · cases hgraph
      simp [Graph.function?]
    · cases hgraph

theorem Built.call (ha : a.Built) (c : Construction) : (after c.carryOut a).Built := by
  obtain ⟨-, hgraph, hindexed⟩ := c.alongside a a.graph ⟨rfl, ha.isIndexed⟩
  exact ⟨hgraph ▸ ha.graph.call c, hindexed⟩

theorem Built.afterCalls (ha : a.Built) (calls : List Construction) : (a.afterCalls calls).Built := by
  induction calls generalizing a with
  | nil => exact ha
  | cons c calls ih => exact ih (ha.call c)

/-- What a call does to a graph is only to add nodes to it. -/
theorem Built.extends_afterCalls (ha : a.Built) (calls : List Construction) :
    a.graph.Extends (a.afterCalls calls).graph := by
  induction calls generalizing a with
  | nil => exact .refl a.graph
  | cons c calls ih =>
    obtain ⟨-, hgraph, -⟩ := c.alongside a a.graph ⟨rfl, ha.isIndexed⟩
    have hkeeps := c.keeps (I := a.graph.Extends) (fun g node hg _ => hg.trans (Graph.extends_push g node)) a.graph
      (.refl a.graph)
    have hcall : a.graph.Extends (after c.carryOut a).graph := hgraph ▸ hkeeps.state
    exact hcall.trans (ih (ha.call c))

/-- Whether an arena is in order: operands come before the nodes built on them, directions are directions of space,
a function is in the register under the only node that declares it, and descending along operands comes to an
end, so that every node can be written out. -/
structure IsOrdered (a : Arena) : Prop where
  child_lt : ∀ n node, a.graph.node? n = some node → ∀ c ∈ node.children, c < n
  isInSpace : ∀ n node, a.graph.node? n = some node → node.IsInSpace a.graph.dimension
  functions_iff : ∀ (f : FunctionId) n,
    a.functions[f]? = some n ↔ a.graph.Declares n f ∧ ∀ m, a.graph.Declares m f → m = n
  wellFounded : WellFounded fun c n => a.graph.IsOperand n c
  exists_expansion? : ∀ n < a.graph.size, ∃ e, a.graph.expansion? n = some e

theorem Built.isOrdered (ha : a.Built) : a.IsOrdered where
  child_lt := ha.graph.wellFormed.child_lt
  isInSpace := ha.graph.wellFormed.isInSpace
  functions_iff f n := by
    rw [ha.isIndexed f]
    exact ha.graph.declaresOnce.function?_eq_some_iff
  wellFounded := ha.graph.wellFormed.wellFounded
  exists_expansion? _ hn := ha.graph.wellFormed.exists_expansion? hn

/-- Whether all that an arena has is the same in a later one. -/
structure IsKeptBy (a a' : Arena) : Prop where
  dimension_eq : a'.graph.dimension = a.graph.dimension
  node?_eq : ∀ n node, a.graph.node? n = some node → a'.graph.node? n = some node
  functions_eq : ∀ (f : FunctionId) n, a.functions[f]? = some n → a'.functions[f]? = some n
  expansion?_eq : ∀ n < a.graph.size, a'.graph.expansion? n = a.graph.expansion? n

theorem Built.isKeptBy_afterCalls (ha : a.Built) (calls : List Construction) : a.IsKeptBy (a.afterCalls calls) := by
  have ha' := ha.afterCalls calls
  have hextends := ha.extends_afterCalls calls
  refine ⟨hextends.dimension_eq, fun n node hn => hextends.node?_eq hn, fun f n hf => ?_, fun n hn => ?_⟩
  · obtain ⟨⟨node, hn, hnode⟩, -⟩ := (ha.isOrdered.functions_iff f n).mp hf
    rw [ha'.isIndexed f]
    exact ha'.graph.declaresOnce n node f (hextends.node?_eq hn) hnode
  · exact hextends.expansion?_eq ha.graph.wellFormed ha'.graph.wellFormed hn

/-- **Calls keep an arena in order.** After every sequence of construction calls on an empty arena, of which some may
be misuses that leave behind the nodes they had added, the arena is in order. Whatever calls come later, nodes and
registrations stay as they are. A call that is no misuse returns the number of a node at which the expression stands
that the call asks for. -/
theorem calls_keep_order {dimension : Nat} {start : Arena} (h : empty dimension = .ok start)
    (calls : List Construction) :
    (start.afterCalls calls).IsOrdered ∧
    (∀ later, (start.afterCalls calls).IsKeptBy ((start.afterCalls calls).afterCalls later)) ∧
    ∀ (c : Construction) n a', c.carryOut.run.run (start.afterCalls calls) = (.ok n, a') → c.HasBuilt n a'.graph := by
  have ha := (built_empty h).afterCalls calls
  refine ⟨ha.isOrdered, ha.isKeptBy_afterCalls, fun c n a' hrun => ?_⟩
  obtain ⟨hresult, hgraph, -⟩ := c.alongside _ _ ⟨rfl, ha.isIndexed⟩
  have ha' := ha.call c
  rw [after, hrun] at hgraph ha'
  rw [hrun] at hresult
  exact hgraph ▸ (c.ends_build _).of_ok (run_eq_of_ok hresult.symm) (hgraph ▸ ha'.graph.wellFormed)

/-- A scalar product of gradients with a node that does not exist leaves a derivative behind, and a second function is
refused the number of the first one. After them a difference of products is built. -/
theorem calls_keep_order_misuses :
    let start : Arena := { graph := ⟨2, #[]⟩ }
    let a := start.afterCalls [.variation "v" 7, .coordinate 0, .gradDotGrad 0 9, .discrete "w" 7, .product [0, 1, 0]]
    empty 2 = .ok start ∧ a.graph.nodes = #[.symbolic "v" 7 .variation .zero, .coordinate 0, .derivative 0 0,
      .product 0 1, .product 3 0] ∧ a.IsOrdered ∧
    ∃ a', (Construction.sub 4 1).carryOut.run.run a = (.ok 6, a') ∧ (Construction.sub 4 1).HasBuilt 6 a'.graph := by
  intro start a
  have hstart : empty 2 = .ok start := rfl
  obtain ⟨hordered, -, hbuilt⟩ := calls_keep_order hstart
    [.variation "v" 7, .coordinate 0, .gradDotGrad 0 9, .discrete "w" 7, .product [0, 1, 0]]
  have hresult : ((Construction.sub 4 1).carryOut.run.run a).1 = .ok 6 := by decide +kernel
  have hrun := run_eq_of_ok hresult
  exact ⟨hstart, by decide +kernel, hordered, _, hrun, hbuilt _ _ _ hrun⟩

end Arena

end FormSparsity
