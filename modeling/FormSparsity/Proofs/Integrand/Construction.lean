import FormSparsity.Integrand.Builder
import FormSparsity.Proofs.Outcome
import Mathlib.Logic.Relation

/-!
Graphs that construction calls build. A graph is built if it is reached from an empty one by
construction calls, some of which may have been misuses. Whatever the calls, nodes are added one at a
time (`Graph.Built.of_push`), so that operands have smaller numbers than the nodes built on them,
directions are directions of space (`Graph.Built.wellFormed`) and no function is declared twice
(`Graph.Built.declaresOnce`). What lies below a node, operand by operand (`Graph.IsOperand`), comes before it.
Nodes stay what they are (`Graph.Extends`).
-/
namespace FormSparsity

/-- Whether the directions that a node names are directions of space. -/
def Node.IsInSpace (dimension : Nat) : Node → Prop
  | coordinate d | derivative d _ => d < dimension
  | _ => True

namespace Graph

/-- The graphs that construction calls lead to. What a call built before it turned out to be a misuse
stays in the graph. -/
inductive Built : Graph → Prop
  | empty {dimension : Nat} {g : Graph} : Graph.empty dimension = .ok g → Built g
  | call {g : Graph} (c : Construction) : Built g → Built (c.build.run.run g).2

/-- What holds of every graph that is built: space has at most three directions, operands come before
the nodes built on them, and directions are directions of space. -/
structure WellFormed (g : Graph) : Prop where
  dimension_le : g.dimension ≤ maxDimension
  child_lt : ∀ n node, g.node? n = some node → ∀ c ∈ node.children, c < n
  isInSpace : ∀ n node, g.node? n = some node → node.IsInSpace g.dimension

/-- Whether symbolic functions are evaluated at zero or at discrete functions alone. -/
def HasDiscretePoints (g : Graph) : Prop :=
  ∀ n name f role point, g.node? n = some (.symbolic name f role (.discrete point)) →
    ∃ node, g.node? point = some node ∧ node.isDiscrete = true

/-- Where a function is evaluated is said by a node. -/
theorem exists_symbolic_of_evalPoint? {g : Graph} {f : FunctionId} {point : EvalPoint}
    (h : g.evalPoint? f = some point) :
    ∃ n name f' role, g.node? n = some (.symbolic name f' role point) := by
  simp only [evalPoint?, Option.bind_eq_bind, Option.bind_eq_some_iff] at h
  obtain ⟨n, -, node, hnode, h⟩ := h
  split at h
  · obtain rfl := Option.some.inj h
    exact ⟨n, _, _, _, hnode⟩
  · cases h

theorem node?_lt {g : Graph} {n : NodeId} {node : Node} (h : g.node? n = some node) : n < g.size :=
  (Array.getElem?_eq_some_iff.mp h).1

theorem exists_node? {g : Graph} {n : NodeId} (h : n < g.size) : ∃ node, g.node? n = some node :=
  ⟨_, Array.getElem?_eq_getElem h⟩

theorem node?_ne_none {g : Graph} {n : NodeId} (h : n < g.size) : g.node? n ≠ none := by
  obtain ⟨node, hn⟩ := exists_node? h
  simp [hn]

theorem node_eq_ok {g : Graph} {n : NodeId} {node : Node} (h : g.node? n = some node) :
    g.node n = .ok node := by
  simp [Graph.node, h]

theorem node_eq_error {g : Graph} {n : NodeId} (h : g.node? n = none) :
    g.node n = .error (.outOfBounds g.size n) := by
  simp [Graph.node, h]

theorem WellFormed.node?_child {g : Graph} (hg : g.WellFormed) {n : NodeId} {node : Node}
    (h : g.node? n = some node) {c : NodeId} (hc : c ∈ node.children) : ∃ child, g.node? c = some child :=
  exists_node? (Nat.lt_trans (hg.child_lt n node h c hc) (node?_lt h))

/-- Whether `c` is an operand of `n`. -/
def IsOperand (g : Graph) (n c : NodeId) : Prop := ∃ node, g.node? n = some node ∧ c ∈ node.children

/-- Nodes come after what lies below them. -/
theorem WellFormed.lt_of_transGen {g : Graph} {n c : NodeId} (hg : g.WellFormed)
    (h : Relation.TransGen g.IsOperand n c) : c < n := by
  induction h with
  | single hop =>
    obtain ⟨node, hn, hc⟩ := hop
    exact hg.child_lt n node hn _ hc
  | tail _ hop ih =>
    obtain ⟨node, hn, hc⟩ := hop
    exact Nat.lt_trans (hg.child_lt _ node hn _ hc) ih

theorem WellFormed.le_of_reflTransGen {g : Graph} {n c : NodeId} (hg : g.WellFormed)
    (h : Relation.ReflTransGen g.IsOperand n c) : c ≤ n := by
  rcases Relation.reflTransGen_iff_eq_or_transGen.mp h with rfl | h
  · exact Nat.le_refl _
  · exact Nat.le_of_lt (hg.lt_of_transGen h)

theorem wellFormed_empty {dimension : Nat} {g : Graph} (h : Graph.empty dimension = .ok g) :
    g.WellFormed := by
  unfold Graph.empty at h
  split at h
  · rename_i hd
    cases h
    exact ⟨hd.2, by simp [node?], by simp [node?]⟩
  · cases h

theorem node?_push {g : Graph} {node : Node} {n : NodeId} :
    ({ g with nodes := g.nodes.push node } : Graph).node? n =
      if n = g.size then some node else g.node? n := by
  simp only [node?, size, Array.getElem?_push]
  rfl

theorem WellFormed.push {g : Graph} (hg : g.WellFormed) {node : Node} (hc : ∀ c ∈ node.children, c < g.size)
    (hs : node.IsInSpace g.dimension) : ({ g with nodes := g.nodes.push node } : Graph).WellFormed where
  dimension_le := hg.dimension_le
  child_lt n node' h := by
    rw [node?_push] at h
    split at h
    · rename_i hn
      obtain rfl : node = node' := by simpa using h
      rwa [hn]
    · exact hg.child_lt n node' h
  isInSpace n node' h := by
    rw [node?_push] at h
    split at h
    · obtain rfl : node = node' := by simpa using h
      exact hs
    · exact hg.isInSpace n node' h

end Graph

/-! ## Construction calls add nodes one at a time -/

/-- Whether a construction call may add a node: its operands exist, the directions that it names are
directions of space, and the function that it declares is not declared yet. -/
structure Graph.Admits (g : Graph) (node : Node) : Prop where
  child_lt : ∀ c ∈ node.children, c < g.size
  isInSpace : node.IsInSpace g.dimension
  isNew : ∀ f, node.function? = some f → g.function? f = none

namespace Builder

variable {I : Graph → Prop} {node : Node}

theorem ends_push {g : Graph} (hg : I g)
    (hI : g.Admits node → I { g with nodes := g.nodes.push node }) (hs : node.IsInSpace g.dimension)
    (hf : ∀ f, node.function? = some f → g.function? f = none) :
    Ends (push node) g (fun _ => I) fun _ => I := by
  simp only [push, ends_bind, ends_get]
  split
  · exact hg
  · rename_i hnone
    have hc : ∀ c ∈ node.children, c < g.size := by
      intro c hc
      simpa using List.find?_eq_none.mp hnone c hc
    exact hI ⟨hc, hs, hf⟩

theorem keeps_declare (hI : ∀ g node, I g → g.Admits node → I { g with nodes := g.nodes.push node })
    {f : FunctionId} (hs : ∀ d, node.IsInSpace d) (hf : node.function? = some f) :
    Keeps I (declare f node) := by
  intro g hg
  simp only [declare, ends_bind, ends_get]
  split
  · exact hg
  · rename_i hnone
    have hnew : g.function? f = none := by simpa using hnone
    exact ends_push hg (hI g node hg) (hs _) (by simp [hf, hnew])

theorem keeps_unknownAt (hI : ∀ g node, I g → g.Admits node → I { g with nodes := g.nodes.push node })
    (name : String) (f : FunctionId) (point : NodeId) : Keeps I (unknownAt name f point) := by
  intro g hg
  simp only [unknownAt, ends_bind, ends_get]
  cases g.node point with
  | error e => exact hg
  | ok node =>
    refine ends_ite.mpr ⟨fun _ => ?_, fun _ => ?_⟩
    · exact keeps_declare hI (fun _ => by trivial) rfl g hg
    · exact hg

section Undeclared

-- The calls below declare no function, so that they keep what nodes without a function keep.
variable (hI : ∀ g node, I g → g.Admits node → node.function? = none →
  I { g with nodes := g.nodes.push node })
include hI

/-- A node that names no direction and declares no function can be added to any graph. -/
theorem keeps_push (hs : ∀ d, node.IsInSpace d) (hf : node.function? = none) : Keeps I (push node) := by
  intro g hg
  exact ends_push hg (hI g node hg · hf) (hs _) (by simp [hf])

theorem keeps_derivative (d : Nat) (arg : NodeId) : Keeps I (derivative d arg) := by
  intro g hg
  simp only [derivative, ends_bind, ends_get]
  split
  · rename_i hd
    exact ends_push hg (hI g _ hg · rfl) hd (by simp [Node.function?])
  · exact hg

theorem keeps_coordinate (d : Nat) : Keeps I (coordinate d) := by
  intro g hg
  simp only [coordinate, ends_bind, ends_get]
  split
  · rename_i hd
    exact ends_push hg (hI g _ hg · rfl) hd (by simp [Node.function?])
  · exact hg

theorem keeps_sum (terms : List NodeId) : Keeps I (sum terms) := by
  intro g hg
  simp only [sum]
  split
  · exact hg
  · exact keeps_push hI (fun _ => by trivial) rfl g hg

theorem keeps_constant (value : Binary64) : Keeps I (constant value) :=
  keeps_push hI (fun _ => by trivial) rfl

theorem keeps_mul (a b : NodeId) : Keeps I (mul a b) := keeps_push hI (fun _ => by trivial) rfl

theorem keeps_product : ∀ factors : List NodeId, Keeps I (product factors)
  | [] => keeps_throw _
  | _ :: _ => fun _ hg => Ends.foldlM (fun _ _ => I)
      (fun _ b _ a g' hg' => keeps_mul hI a b g' hg') hg

theorem keeps_gradDotGrad (a b : NodeId) : Keeps I (gradDotGrad a b) := by
  intro g hg
  simp only [gradDotGrad, ends_bind, ends_get]
  have hterm : ∀ d : Nat, Keeps I (do
      let da ← derivative d a
      let db ← derivative d b
      mul da db) := fun d =>
    (keeps_derivative hI d a).bind fun _ => (keeps_derivative hI d b).bind fun _ => keeps_mul hI _ _
  have hterms := Keeps.mapM (l := List.range g.dimension) fun d _ => hterm d
  exact (hterms g hg).mono (fun terms g' hg' => keeps_sum hI terms g' hg') fun _ _ h => h

end Undeclared

end Builder

namespace Construction

variable {I : Graph → Prop}

/-- What holds of a graph with one more node that may be added and declares no function holds after
every call that declares no function. -/
theorem keeps_of_function?_eq_none (hI : ∀ g node, I g → g.Admits node → node.function? = none →
    I { g with nodes := g.nodes.push node }) {c : Construction} (hc : c.function? = none) :
    Keeps I c.build := by
  cases c with
  | coordinate d => exact Builder.keeps_coordinate hI d
  | derivative d arg => exact Builder.keeps_derivative hI d arg
  | derivativeAlong index arg =>
    show Keeps I (Builder.derivativeAlong index arg)
    unfold Builder.derivativeAlong
    split
    · exact Builder.keeps_derivative hI _ arg
    · exact keeps_throw _
  | constant value => exact Builder.keeps_constant hI value
  | zero => exact Builder.keeps_constant hI 0
  | neg | mul | nonlinear => exact Builder.keeps_push hI (fun _ => by trivial) rfl
  | symbolic | unknown | unknownAt | variation | discrete => cases hc
  | sum terms => exact Builder.keeps_sum hI terms
  | add a b => exact Builder.keeps_sum hI [a, b]
  | sub a b =>
    have hneg : Keeps I (Builder.neg b) := Builder.keeps_push hI (fun _ => by trivial) rfl
    exact hneg.bind fun _ => Builder.keeps_sum hI _
  | product factors => exact Builder.keeps_product hI factors
  | gradDotGrad a b => exact Builder.keeps_gradDotGrad hI a b

/-- What holds of a graph with one more node that may be added holds after every construction call, also
if the call turns out to be a misuse. -/
theorem keeps (hI : ∀ g node, I g → g.Admits node → I { g with nodes := g.nodes.push node })
    (c : Construction) : Keeps I c.build := by
  cases hc : c.function? with
  | none => exact keeps_of_function?_eq_none (fun g node hg hnode _ => hI g node hg hnode) hc
  | some f =>
    cases c with
    | symbolic | unknown | variation | discrete =>
      exact Builder.keeps_declare hI (fun _ => by trivial) rfl
    | unknownAt name f point => exact Builder.keeps_unknownAt hI name f point
    | _ => cases hc

end Construction

namespace Graph

/-- **Built graphs are built up node by node:** what holds of empty graphs and is kept when a node is
added that may be added holds of every graph that is built. -/
theorem Built.of_push {I : Graph → Prop} (empty : ∀ dimension g, Graph.empty dimension = .ok g → I g)
    (push : ∀ g node, I g → g.Admits node → I { g with nodes := g.nodes.push node }) {g : Graph}
    (h : g.Built) : I g := by
  induction h with
  | empty h => exact empty _ _ h
  | call c _ ih => exact (c.keeps push _ ih).state

/-- Every graph that is built is well-formed. -/
theorem Built.wellFormed {g : Graph} (h : g.Built) : g.WellFormed :=
  h.of_push (fun _ _ => wellFormed_empty) fun _ _ hg hnode => hg.push hnode.child_lt hnode.isInSpace

/-- Calls one after the other lead from a built graph to a built graph. -/
theorem Built.calls {g : Graph} (h : g.Built) (calls : List Construction) :
    (calls.foldl (fun g c => (c.build.run.run g).2) g).Built := by
  induction calls generalizing g with
  | nil => exact h
  | cons c calls ih => exact ih (h.call c)

/-- What calls build from an empty graph is built. -/
theorem built_of_calls {g : Graph} (calls : List Construction)
    (h : (Graph.empty g.dimension).map (calls.foldl fun g c => (c.build.run.run g).2) = .ok g) : g.Built := by
  cases hempty : Graph.empty g.dimension with
  | error e => simp [hempty, Except.map] at h
  | ok start =>
    obtain rfl : calls.foldl (fun g c => (c.build.run.run g).2) start = g := by
      simpa [hempty, Except.map] using h
    exact (Built.empty hempty).calls calls

/-! ## Functions are declared once -/

theorem function?_push {g : Graph} {node : Node} {f : FunctionId} :
    ({ g with nodes := g.nodes.push node } : Graph).function? f =
      (g.function? f).or (if node.function? = some f then some g.size else none) := by
  simp [function?, size, Array.findIdx?_push]

/-- Whether every node that declares a function is found under that function. -/
def DeclaresOnce (g : Graph) : Prop :=
  ∀ n node f, g.node? n = some node → node.function? = some f → g.function? f = some n

theorem DeclaresOnce.push {g : Graph} (hg : g.DeclaresOnce) {node : Node}
    (hnew : ∀ f, node.function? = some f → g.function? f = none) :
    ({ g with nodes := g.nodes.push node } : Graph).DeclaresOnce := by
  intro n node' f hn hf
  rw [node?_push] at hn
  rw [function?_push]
  split at hn
  · rename_i hsize
    obtain rfl : node = node' := by simpa using hn
    simp [hnew f hf, hf, hsize]
  · simp [hg n node' f hn hf]

/-- In a graph that is built no function is declared twice. -/
theorem Built.declaresOnce {g : Graph} (h : g.Built) : g.DeclaresOnce := by
  refine h.of_push (fun dimension g hempty => ?_) fun g node hg hnode => hg.push hnode.isNew
  unfold Graph.empty at hempty
  split at hempty
  · cases hempty
    intro n node f hn
    simp [node?] at hn
  · cases hempty

end Graph

/-! ## Calls that do what they are called for -/

namespace Graph

variable {g g' g'' : Graph}

/-- Whether a graph has all nodes of another one under their numbers. -/
structure Extends (g g' : Graph) : Prop where
  dimension_eq : g'.dimension = g.dimension
  node?_eq : ∀ {n node}, g.node? n = some node → g'.node? n = some node

theorem Extends.trans (h : Extends g g') (h' : Extends g' g'') : Extends g g'' where
  dimension_eq := h'.dimension_eq.trans h.dimension_eq
  node?_eq hn := h'.node?_eq (h.node?_eq hn)

theorem Extends.lt_size (h : Extends g g') {n : NodeId} (hn : n < g.size) : n < g'.size := by
  obtain ⟨node, hnode⟩ := exists_node? hn
  exact node?_lt (h.node?_eq hnode)

theorem extends_push (g : Graph) (node : Node) : Extends g { g with nodes := g.nodes.push node } where
  dimension_eq := rfl
  node?_eq hn := by
    rw [node?_push, if_neg]
    · exact hn
    · exact Nat.ne_of_lt (node?_lt hn)

end Graph

theorem Construction.keeps_built (c : Construction) : Keeps Graph.Built c.build := by
  intro g hg
  have hcall := hg.call c
  unfold Ends
  split
  · simp_all
  · simp_all

/-- A call that adds nodes to a graph that is built leads to one that is built. -/
theorem Construction.ends_built {g : Graph} (c : Construction) (hg : g.Built) {node : Node}
    (h : Ends c.build g (fun n g' => Graph.Extends g g' ∧ g'.node? n = some node) fun _ _ => False) :
    Ends c.build g (fun n g' => g'.Built ∧ Graph.Extends g g' ∧ g'.node? n = some node) fun _ _ => False :=
  ((c.keeps_built g hg).and h).mono (fun _ _ h => h) fun _ _ h => h.2

namespace Builder

variable {g : Graph} {a b : NodeId} {d : Nat}

/-- A node on operands that exist is added. -/
theorem ends_push_node {node : Node} (hc : ∀ c ∈ node.children, c < g.size) :
    Ends (push node) g (fun n g' => Graph.Extends g g' ∧ g'.node? n = some node) fun _ _ => False := by
  have hnone : node.children.find? (g.size ≤ ·) = none := List.find?_eq_none.mpr (by simpa using hc)
  simp only [push, ends_bind, ends_get, hnone, ends_set, ends_pure]
  exact ⟨Graph.extends_push g node, by simp [Graph.node?_push]⟩

theorem ends_mul (hg : g.Built) (ha : a < g.size) (hb : b < g.size) :
    Ends (mul a b) g (fun n g' => g'.Built ∧ Graph.Extends g g' ∧ g'.node? n = some (.product a b))
      fun _ _ => False :=
  (Construction.mul a b).ends_built hg (ends_push_node (by simp [Node.children, ha, hb]))

theorem ends_add (hg : g.Built) (ha : a < g.size) (hb : b < g.size) :
    Ends (add a b) g (fun n g' => g'.Built ∧ Graph.Extends g g' ∧ g'.node? n = some (.sum [a, b]))
      fun _ _ => False :=
  (Construction.add a b).ends_built hg (ends_push_node (by simp [Node.children, ha, hb]))

theorem ends_derivative (hg : g.Built) (hd : d < g.dimension) (ha : a < g.size) :
    Ends (derivative d a) g (fun n g' => g'.Built ∧ Graph.Extends g g' ∧ g'.node? n = some (.derivative d a))
      fun _ _ => False := by
  refine (Construction.derivative d a).ends_built hg ?_
  simp only [Construction.build, derivative, ends_bind, ends_get, hd]
  exact ends_push_node (by simp [Node.children, ha])

end Builder

/-! ## A small graph -/

namespace Graph

/-- The graph of `D0[x0*v]` on an interval, with the coordinate, the variation, their product and its
derivative as nodes 0 to 3. -/
def slopeOfProduct : Graph where
  dimension := 1
  nodes := #[.coordinate 0, .symbolic "v" 7 .variation .zero, .product 0 1, .derivative 0 2]

theorem built_slopeOfProduct : slopeOfProduct.Built :=
  built_of_calls [.coordinate 0, .variation "v" 7, .mul 0 1, .derivative 0 2] (by with_unfolding_all rfl)

theorem hasDiscretePoints_slopeOfProduct : slopeOfProduct.HasDiscretePoints := by
  intro n name f role point h
  have hmem := Array.mem_of_getElem? h
  simp [slopeOfProduct] at hmem

end Graph

end FormSparsity
