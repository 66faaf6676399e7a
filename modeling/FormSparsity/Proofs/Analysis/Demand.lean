import FormSparsity.Analysis.Demand
import FormSparsity.Proofs.Analysis.Nonzero

/-!
What a derivative of a node takes of the operands. `Graph.Asks` says, one kind of node at a time, which
nonzero derivatives of an operand a derivative of a node is computed from; a spatial derivative asks
for some of its operand whatever is demanded of it (`Graph.AsksAlways`). The rule of a node passes a
demand on exactly in this way: what it asks of an operand is asked for by something demanded, all that
is asked for is passed on, and no operand is left out (`Graph.exists_passesOn`).

A list of demands on nodes demands, directly or through other nodes, the derivatives of
`Graph.Demanded`.
-/
namespace FormSparsity

namespace Demand

/-- The derivatives of an order that a demand asks for. -/
def ofOrder (demand : Demand) (k : Nat) : MixedSet := demand.getD k ∅

variable {demand other : Demand} {k : Nat} {m : Mixed}

theorem mem_ofOrder : m ∈ demand.ofOrder k ↔ ∃ set, demand[k]? = some set ∧ m ∈ set := by
  unfold ofOrder
  rw [List.getD_eq_getElem?_getD]
  cases demand[k]? <;> simp

theorem mem_ofOrder_lt (h : m ∈ demand.ofOrder k) : k < demand.length := by
  obtain ⟨set, hset, -⟩ := mem_ofOrder.mp h
  exact (List.getElem?_eq_some_iff.mp hset).1

@[simp] theorem ofOrder_nil : ofOrder [] k = ∅ := rfl

@[simp] theorem ofOrder_cons_zero {set : MixedSet} : ofOrder (set :: demand) 0 = set := rfl

@[simp] theorem ofOrder_cons_succ {set : MixedSet} :
    ofOrder (set :: demand) (k + 1) = demand.ofOrder k := rfl

theorem mem_ofOrder_without :
    m ∈ (without demand other).ofOrder k ↔ m ∈ demand.ofOrder k ∧ m ∉ other.ofOrder k := by
  fun_induction without demand other generalizing k with
  | case1 => simp
  | case2 => simp
  | case3 a demand b other ih =>
    cases k with
    | zero => simp [Std.ExtTreeSet.mem_diff_iff]
    | succ k => simpa using ih

theorem length_without : (without demand other).length = demand.length := by
  fun_induction without demand other with
  | case1 => rfl
  | case2 => rfl
  | case3 a demand b other ih => simpa using ih

theorem mem_ofOrder_merge :
    m ∈ (merge demand other).ofOrder k ↔ m ∈ demand.ofOrder k ∨ m ∈ other.ofOrder k := by
  fun_induction merge demand other generalizing k with
  | case1 => simp
  | case2 => simp
  | case3 a demand b other ih =>
    cases k with
    | zero => simp [Std.ExtTreeSet.mem_union_iff]
    | succ k => simpa using ih

theorem length_merge : (merge demand other).length = max demand.length other.length := by
  fun_induction merge demand other with
  | case1 => simp
  | case2 => simp
  | case3 a demand b other ih => simpa using ih

theorem merge_eq_nil : merge demand other = [] ↔ demand = [] ∧ other = [] := by
  cases demand <;> cases other <;> simp [merge]

theorem isNonempty_iff : demand.isNonempty = true ↔ ∃ k m, m ∈ demand.ofOrder k := by
  simp only [isNonempty, List.any_eq_true, Bool.not_eq_true', mem_ofOrder]
  constructor
  · rintro ⟨set, hset, hne⟩
    obtain ⟨k, hk⟩ := List.mem_iff_getElem?.mp hset
    obtain ⟨m, hm⟩ := MixedSet.isEmpty_eq_false_iff.mp hne
    exact ⟨k, m, set, hk, hm⟩
  · rintro ⟨k, m, set, hk, hm⟩
    exact ⟨set, List.mem_of_getElem? hk, MixedSet.isEmpty_eq_false_iff.mpr ⟨m, hm⟩⟩

theorem mem_ofOrder_collect {length : Nat} {parts : List (Nat × MixedSet)} :
    m ∈ (collect length parts).ofOrder k ↔ k < length ∧ ∃ set, (k, set) ∈ parts ∧ m ∈ set := by
  simp only [mem_ofOrder, collect, List.getElem?_map]
  by_cases hk : k < length
  · simp only [List.getElem?_range hk, Option.map_some, Option.some.injEq, exists_eq_left', hk, true_and,
      SortedSet.mem_unions, List.mem_filterMap]
    constructor
    · rintro ⟨set, ⟨⟨j, set'⟩, hpart, hset⟩, hm⟩
      split at hset
      · rename_i hj
        obtain rfl : set' = set := by simpa using hset
        exact ⟨set', hj ▸ hpart, hm⟩
      · simp at hset
    · rintro ⟨set, hpart, hm⟩
      exact ⟨set, ⟨(k, set), hpart, by simp⟩, hm⟩
  · simp [hk]

theorem length_collect {length : Nat} {parts : List (Nat × MixedSet)} :
    (collect length parts).length = length := by
  simp [collect]

end Demand

/-! ## What derivatives ask for -/

namespace Graph

/-- Computing the derivative `r` of order `j` of a node takes the derivative `m` of order `k` of an
operand. -/
inductive Asks (g : Graph) : NodeId → Nat → Mixed → NodeId → Nat → Mixed → Prop
  | term {n k m term terms} : g.node? n = some (.sum terms) → term ∈ terms → m ∈ g.nonzero term k →
      Asks g n k m term k m
  | negated {n k m arg} : g.node? n = some (.neg arg) → m ∈ g.nonzero arg k → Asks g n k m arg k m
  | left {n a b i j s t} : g.node? n = some (.product a b) → s ∈ g.nonzero a i → t ∈ g.nonzero b j →
      Asks g n (i + j) (s * t) a i s
  | right {n a b i j s t} : g.node? n = some (.product a b) → s ∈ g.nonzero a i → t ∈ g.nonzero b j →
      Asks g n (i + j) (s * t) b j t
  | value {n j r f arg m} : g.node? n = some (.nonlinear f arg) → m ∈ g.nonzero arg 0 → Asks g n j r arg 0 m
  | factor {n r f arg factors m} : g.node? n = some (.nonlinear f arg) →
      IsFactorization (g.nonzero arg) r factors → m ∈ factors → Asks g n r.order r arg m.order m
  | chain {n j r d arg c} : g.node? n = some (.derivative d arg) → j ≤ derivativeMaxOrder →
      c ∈ g.chainAtoms (g.nonzero arg 1) d → c * r ∈ g.nonzero arg (j + 1) →
      Asks g n j r arg (j + 1) (c * r)
  | shift {n j r d arg m} : g.node? n = some (.derivative d arg) → j ≤ derivativeMaxOrder →
      m ∈ g.nonzero arg j → r ∈ m.shifts (.axis d) → Asks g n j r arg j m

/-- What a spatial derivative takes of its operand whatever is demanded of it: the value, and the
derivative by the coordinate of its direction. -/
inductive AsksAlways (g : Graph) : NodeId → NodeId → Nat → Mixed → Prop
  | value {n d arg m} : g.node? n = some (.derivative d arg) → m ∈ g.nonzero arg 0 → AsksAlways g n arg 0 m
  | direction {n d arg} : g.node? n = some (.derivative d arg) →
      .ofAtom (.coordinate d) ∈ g.nonzero arg 1 → AsksAlways g n arg 1 (.ofAtom (.coordinate d))

variable {g : Graph} {n c : NodeId} {j k : Nat} {r m : Mixed}

/-- Only nonzero derivatives are asked for. -/
theorem Asks.mem_nonzero (h : g.Asks n j r c k m) : m ∈ g.nonzero c k := by
  cases h with
  | term _ _ h | negated _ h | left _ h _ | right _ _ h | value _ h | chain _ _ _ h | shift _ _ h _ =>
    exact h
  | factor _ h hm => exact h.mem m hm

theorem AsksAlways.mem_nonzero (h : g.AsksAlways n c k m) : m ∈ g.nonzero c k := by
  cases h with
  | value _ h | direction _ h => exact h

theorem Asks.exists_node (h : g.Asks n j r c k m) : ∃ node, g.node? n = some node ∧ c ∈ node.children := by
  cases h with
  | term hn hterm _ => exact ⟨_, hn, hterm⟩
  | negated hn _ | value hn _ | factor hn _ _ | chain hn _ _ _ | shift hn _ _ _ =>
    exact ⟨_, hn, List.mem_singleton_self c⟩
  | left hn _ _ | right hn _ _ => exact ⟨_, hn, by simp [Node.children]⟩

theorem AsksAlways.exists_node (h : g.AsksAlways n c k m) :
    ∃ node, g.node? n = some node ∧ c ∈ node.children := by
  cases h with
  | value hn _ | direction hn _ => exact ⟨_, hn, List.mem_singleton_self c⟩

/-- The part of a demand on a node that is nonzero. -/
def accepted (g : Graph) (n : NodeId) (demand : Demand) : Demand :=
  demand.zipIdx.map fun (set, order) => set ∩ g.nonzero n order

theorem mem_ofOrder_accepted {demand : Demand} :
    m ∈ (g.accepted n demand).ofOrder k ↔ m ∈ demand.ofOrder k ∧ m ∈ g.nonzero n k := by
  simp only [Demand.mem_ofOrder, accepted, List.getElem?_map, List.getElem?_zipIdx]
  cases demand[k]? <;> simp [Std.ExtTreeSet.mem_inter_iff]

theorem length_accepted {demand : Demand} : (g.accepted n demand).length = demand.length := by
  simp [accepted]

/-- What a node passes on to its operands in order to answer a demand. -/
structure PassesOn (g : Graph) (n : NodeId) (node : Node) (demand : Demand)
    (parts : List (NodeId × Demand)) : Prop where
  mem_children : ∀ c part, (c, part) ∈ parts → c ∈ node.children
  exists_part : ∀ c ∈ node.children, ∃ part, (c, part) ∈ parts
  sound : ∀ c part k m, (c, part) ∈ parts → m ∈ part.ofOrder k → m ∈ g.nonzero c k →
    (∃ j r, r ∈ demand.ofOrder j ∧ r ∈ g.nonzero n j ∧ g.Asks n j r c k m) ∨ g.AsksAlways n c k m
  complete : ∀ j r c k m, r ∈ demand.ofOrder j → r ∈ g.nonzero n j → g.Asks n j r c k m →
    ∃ part, (c, part) ∈ parts ∧ m ∈ part.ofOrder k
  complete_always : ∀ c k m, demand ≠ [] → g.AsksAlways n c k m →
    ∃ part, (c, part) ∈ parts ∧ m ∈ part.ofOrder k
  ne_nil : ∀ c part, demand ≠ [] → (c, part) ∈ parts → part ≠ []

end Graph

/-! ## The rule of every kind of node -/

open Inquiry

variable {g : Graph} (hg : g.WellFormed) {n : NodeId} (demand : Demand)

/-- The rule for demand asks for nonzero derivatives of the operands alone. -/
theorem Node.asksOnly_demand (input nonzero : Demand) (node : Node) :
    (node.demand g input nonzero).AsksOnly fun place => place.node ∈ node.children := by
  cases node with
  | constant | coordinate | symbolic | discrete | sum | neg => exact asksOnly_pure _
  | derivative d arg =>
    have harg : ∀ k, (answer (⟨arg, k⟩ : Place)).AsksOnly
        fun place => place.node ∈ (Node.derivative d arg).children :=
      fun k => asksOnly_answer (List.mem_singleton_self arg)
    refine asksOnly_bind (harg 1) fun _ => asksOnly_bind (asksOnly_gather fun _ _ => ?_) fun _ =>
      asksOnly_pure _
    exact asksOnly_bind (harg _) fun _ => asksOnly_bind (harg _) fun _ => asksOnly_pure _
  | product a b =>
    refine asksOnly_bind (asksOnly_gather fun _ _ => ?_) fun _ => asksOnly_pure _
    exact asksOnly_bind (asksOnly_answer (by simp [children])) fun _ =>
      asksOnly_bind (asksOnly_answer (by simp [children])) fun _ => asksOnly_pure _
  | nonlinear f arg =>
    refine asksOnly_ite (fun _ => asksOnly_pure _) fun _ => ?_
    refine asksOnly_bind (asksOnly_gather fun k _ => asksOnly_answer (by simp [children])) fun _ => ?_
    exact asksOnly_pure _

namespace Graph

/-- A node without operands passes nothing on. -/
theorem passesOn_nil {node : Node} (hn : g.node? n = some node) (hleaf : node.children = []) :
    g.PassesOn n node demand [] where
  mem_children := by simp
  exists_part := by simp [hleaf]
  sound := by simp
  complete j r c k m _ _ h := by
    obtain ⟨node', hn', hc⟩ := h.exists_node
    obtain rfl : node = node' := by simpa [hn] using hn'
    simp [hleaf] at hc
  complete_always c k m _ h := by
    obtain ⟨node', hn', hc⟩ := h.exists_node
    obtain rfl : node = node' := by simpa [hn] using hn'
    simp [hleaf] at hc
  ne_nil := by simp

theorem passesOn_sum {terms : List NodeId} (hn : g.node? n = some (.sum terms)) :
    g.PassesOn n (.sum terms) demand (terms.map (·, g.accepted n demand)) where
  mem_children c part h := by
    obtain ⟨term, hterm, h⟩ := List.mem_map.mp h
    cases h
    exact hterm
  exists_part c hc := ⟨_, List.mem_map_of_mem hc⟩
  sound c part k m h hm hw := by
    obtain ⟨term, hterm, h⟩ := List.mem_map.mp h
    cases h
    obtain ⟨hmd, hmn⟩ := mem_ofOrder_accepted.mp hm
    exact .inl ⟨k, m, hmd, hmn, .term hn hterm hw⟩
  complete j r c k m hr hrn h := by
    cases h with
    | term h hterm hw =>
      obtain rfl : _ = terms := by simpa [hn] using h.symm
      exact ⟨_, List.mem_map_of_mem hterm, mem_ofOrder_accepted.mpr ⟨hr, hrn⟩⟩
    | _ => simp_all
  complete_always c k m _ h := by
    cases h <;> simp_all
  ne_nil c part hd h := by
    obtain ⟨term, -, h⟩ := List.mem_map.mp h
    cases h
    rwa [← List.length_pos_iff, length_accepted, List.length_pos_iff]

theorem passesOn_neg {arg : NodeId} (hn : g.node? n = some (.neg arg)) :
    g.PassesOn n (.neg arg) demand [(arg, g.accepted n demand)] where
  mem_children := by simp [Node.children]
  exists_part := by simp [Node.children]
  sound c part k m h hm hw := by
    obtain ⟨rfl, rfl⟩ : c = arg ∧ part = g.accepted n demand := by simpa using h
    obtain ⟨hmd, hmn⟩ := mem_ofOrder_accepted.mp hm
    exact .inl ⟨k, m, hmd, hmn, .negated hn hw⟩
  complete j r c k m hr hrn h := by
    cases h with
    | negated h hw =>
      obtain rfl : _ = arg := by simpa [hn] using h.symm
      exact ⟨_, List.mem_singleton_self _, mem_ofOrder_accepted.mpr ⟨hr, hrn⟩⟩
    | _ => simp_all
  complete_always c k m _ h := by
    cases h <;> simp_all
  ne_nil c part hd h := by
    obtain ⟨-, rfl⟩ : c = arg ∧ part = g.accepted n demand := by simpa using h
    rwa [← List.length_pos_iff, length_accepted, List.length_pos_iff]

/-! ### Spatial derivatives -/

theorem mem_zipIdx_take {α : Type} {l : List α} {i j : Nat} {a : α} :
    (a, i) ∈ (l.take j).zipIdx ↔ i < j ∧ l[i]? = some a := by
  rw [List.mk_mem_zipIdx_iff_getElem?, List.getElem?_take]
  split <;> simp [*]

theorem value_demand_derivative (g : Graph) (w : Place → MixedSet) (d : Nat) (arg : NodeId)
    (demand nonzero : Demand) :
    ∃ part, ((Node.derivative d arg).demand g demand nonzero).value w = .ok [(arg, part)] ∧
      part.length = demand.length + 1 ∧
      ∀ k m, m ∈ part.ofOrder k ↔ k < demand.length + 1 ∧ (k = 0 ∧ m = 1 ∨
        k = 1 ∧ m = .ofAtom (.coordinate d) ∨
        ∃ j ≤ derivativeMaxOrder, ∃ r ∈ demand.ofOrder j, m ∈ w ⟨arg, k⟩ ∧
          ((k = j + 1 ∧ ∃ c ∈ g.chainAtoms (w ⟨arg, 1⟩) d, c * r = m) ∨
            k = j ∧ m ∈ r.shifts (-.axis d))) := by
  simp only [Node.demand, value_bind, value_pure, value_answer, value_gather]
  refine ⟨_, rfl, Demand.length_collect, fun k m => ?_⟩
  rw [Demand.mem_ofOrder_collect]
  refine and_congr_right fun _ => ?_
  simp only [List.mem_cons, Prod.mk.injEq, List.mem_flatten, List.mem_map, Prod.exists, mem_zipIdx_take]
  constructor
  · rintro ⟨set, ⟨rfl, rfl⟩ | ⟨rfl, rfl⟩ | ⟨_, ⟨asked, j, ⟨hj, hasked⟩, rfl⟩, hset⟩, hm⟩
    · exact .inl ⟨rfl, MixedSet.mem_one.mp hm⟩
    · exact .inr (.inl ⟨rfl, MixedSet.mem_ofDirection.mp hm⟩)
    · simp only [List.mem_cons, Prod.mk.injEq, List.not_mem_nil, or_false] at hset
      rcases hset with ⟨rfl, rfl⟩ | ⟨rfl, rfl⟩
      · obtain ⟨hm, hw⟩ := Std.ExtTreeSet.mem_inter_iff.mp hm
        obtain ⟨c, hc, r, hr, rfl⟩ := MixedSet.mem_mul.mp hm
        exact .inr (.inr ⟨j, by omega, r, Demand.mem_ofOrder.mpr ⟨asked, hasked, hr⟩, hw,
          .inl ⟨rfl, c, hc, rfl⟩⟩)
      · obtain ⟨hm, hw⟩ := Std.ExtTreeSet.mem_inter_iff.mp hm
        obtain ⟨r, hr, hm⟩ := MixedSet.mem_shift.mp hm
        exact .inr (.inr ⟨k, by omega, r, Demand.mem_ofOrder.mpr ⟨asked, hasked, hr⟩, hw, .inr ⟨rfl, hm⟩⟩)
  · rintro (⟨rfl, rfl⟩ | ⟨rfl, rfl⟩ | ⟨j, hj, r, hr, hw, h⟩)
    · exact ⟨1, .inl ⟨rfl, rfl⟩, MixedSet.mem_one.mpr rfl⟩
    · exact ⟨_, .inr (.inl ⟨rfl, rfl⟩), MixedSet.mem_ofDirection.mpr rfl⟩
    · obtain ⟨asked, hasked, hra⟩ := Demand.mem_ofOrder.mp hr
      rcases h with ⟨rfl, c, hc, rfl⟩ | ⟨rfl, hm⟩
      · refine ⟨_, .inr (.inr ⟨_, ⟨asked, j, ⟨by omega, hasked⟩, rfl⟩, List.mem_cons_self⟩), ?_⟩
        exact Std.ExtTreeSet.mem_inter_iff.mpr ⟨MixedSet.mem_mul.mpr ⟨c, hc, r, hra, rfl⟩, hw⟩
      · refine ⟨_, .inr (.inr ⟨_, ⟨asked, k, ⟨by omega, hasked⟩, rfl⟩,
          List.mem_cons_of_mem _ List.mem_cons_self⟩), ?_⟩
        exact Std.ExtTreeSet.mem_inter_iff.mpr ⟨MixedSet.mem_shift.mpr ⟨r, hra, hm⟩, hw⟩

include hg in
/-- What a spatial derivative asks of its operand goes back to nonzero derivatives of its own, although
the rule does not look whether what is demanded of it is nonzero. -/
theorem passesOn_derivative {d : Nat} {arg : NodeId} (hn : g.node? n = some (.derivative d arg)) :
    ∃ parts, ((Node.derivative d arg).demand g demand (g.accepted n demand)).value g.nonzeroAt = .ok parts ∧
      g.PassesOn n (.derivative d arg) demand parts := by
  have hd : d < maxDimension := Nat.lt_of_lt_of_le (hg.isInSpace n _ hn) hg.dimension_le
  obtain ⟨part, hvalue, hlength, hmem⟩ :=
    value_demand_derivative g g.nonzeroAt d arg demand (g.accepted n demand)
  refine ⟨_, hvalue, by simp [Node.children], by simp [Node.children], ?_, ?_, ?_, ?_⟩
  · intro c part' k m h hm hw
    obtain ⟨rfl, rfl⟩ : c = arg ∧ part' = part := by simpa using h
    obtain ⟨-, ⟨rfl, rfl⟩ | ⟨rfl, rfl⟩ | ⟨j, hj, r, hr, -, ⟨rfl, a, ha, rfl⟩ | ⟨rfl, hm⟩⟩⟩ :=
      (hmem k m).mp hm
    · exact .inr (.value hn hw)
    · exact .inr (.direction hn hw)
    · refine .inl ⟨j, r, hr, ?_, .chain hn hj ha hw⟩
      exact (mem_nonzero_derivative hg hn).mpr ⟨hj, .inl ⟨a, ha, hw⟩⟩
    · have hr' := Mixed.mem_shifts_axis_of_neg hd hm
      refine .inl ⟨k, r, hr, ?_, .shift hn hj hw hr'⟩
      exact (mem_nonzero_derivative hg hn).mpr ⟨hj, .inr ⟨m, hw, hr'⟩⟩
  · intro j r c k m hr hrn h
    have hj : j < demand.length := Demand.mem_ofOrder_lt hr
    cases h with
    | chain h hj' ha hw =>
      obtain ⟨rfl, rfl⟩ : d = _ ∧ arg = c := by simpa [hn] using h
      refine ⟨part, List.mem_singleton_self _, (hmem _ _).mpr ⟨by omega, .inr (.inr ?_)⟩⟩
      exact ⟨j, hj', r, hr, hw, .inl ⟨rfl, _, ha, rfl⟩⟩
    | shift h hj' hw hm =>
      obtain ⟨rfl, rfl⟩ : d = _ ∧ arg = c := by simpa [hn] using h
      refine ⟨part, List.mem_singleton_self _, (hmem _ _).mpr ⟨by omega, .inr (.inr ?_)⟩⟩
      have hm := Mixed.mem_shifts_neg (isRegular_of_mem_nonzero hg hw).isCanonical hm
      exact ⟨j, hj', r, hr, hw, .inr ⟨rfl, hm⟩⟩
    | _ => simp_all
  · intro c k m hne h
    have hlen := List.length_pos_iff.mpr hne
    cases h with
    | value h hw =>
      obtain ⟨rfl, rfl⟩ : d = _ ∧ arg = c := by simpa [hn] using h
      obtain rfl := eq_one_of_mem_nonzero_zero hg hw
      exact ⟨part, List.mem_singleton_self _, (hmem _ _).mpr ⟨by omega, .inl ⟨rfl, rfl⟩⟩⟩
    | direction h hw =>
      obtain ⟨rfl, rfl⟩ : d = _ ∧ arg = c := by simpa [hn] using h
      exact ⟨part, List.mem_singleton_self _, (hmem _ _).mpr ⟨by omega, .inr (.inl ⟨rfl, rfl⟩)⟩⟩
  · intro c part' _ h
    obtain ⟨-, rfl⟩ : c = arg ∧ part' = part := by simpa using h
    exact List.ne_nil_of_length_eq_add_one hlength

/-! ### Products -/

theorem mem_splits {demand : Demand} {set : MixedSet} {i j : Nat} :
    (set, i, j) ∈ (demand.zipIdx.flatMap fun (required, order) =>
      if required.isEmpty then [] else (List.range (order + 1)).map (required, ·, order)) ↔
      demand[j]? = some set ∧ set.isEmpty = false ∧ i ≤ j := by
  simp only [List.mem_flatMap, Prod.exists, List.mk_mem_zipIdx_iff_getElem?]
  constructor
  · rintro ⟨set', j', hset, h⟩
    split at h
    · simp at h
    · rename_i hne
      obtain ⟨i', hi, h⟩ := List.mem_map.mp h
      obtain ⟨rfl, rfl, rfl⟩ : set' = set ∧ i' = i ∧ j' = j := by simpa using h
      exact ⟨hset, by simpa using hne, Nat.lt_succ_iff.mp (List.mem_range.mp hi)⟩
  · rintro ⟨hset, hne, hi⟩
    refine ⟨set, j, hset, ?_⟩
    rw [hne]
    exact List.mem_map.mpr ⟨i, List.mem_range.mpr (Nat.lt_succ_of_le hi), rfl⟩

theorem value_demand_product (g : Graph) (a b : NodeId) (demand nonzero : Demand) :
    ∃ left right,
      ((Node.product a b).demand g demand nonzero).value g.nonzeroAt = .ok [(a, left), (b, right)] ∧
      left.length = nonzero.length ∧ right.length = nonzero.length ∧
      (∀ i s, s ∈ left.ofOrder i ↔ s ∈ g.nonzero a i ∧
        ∃ j t, t ∈ g.nonzero b j ∧ s * t ∈ nonzero.ofOrder (i + j)) ∧
      ∀ j t, t ∈ right.ofOrder j ↔ t ∈ g.nonzero b j ∧
        ∃ i s, s ∈ g.nonzero a i ∧ s * t ∈ nonzero.ofOrder (i + j) := by
  simp only [Node.demand, value_bind, value_pure, value_answer, value_gather]
  refine ⟨_, _, rfl, Demand.length_collect, Demand.length_collect, fun i s => ?_, fun j t => ?_⟩
  all_goals
    rw [Demand.mem_ofOrder_collect]
    simp only [List.map_map, List.mem_map, Prod.exists, Function.comp_apply, Prod.mk.injEq, mem_splits]
    constructor
  · rintro ⟨-, _, ⟨asked, i', k, ⟨hasked, -, hi⟩, rfl, rfl⟩, hs⟩
    obtain ⟨hs, hw⟩ := Std.ExtTreeSet.mem_inter_iff.mp hs
    obtain ⟨t, ht, hst⟩ := MixedSet.mem_div_iff.mp hs
    refine ⟨hw, k - i', t, ht, Demand.mem_ofOrder.mpr ⟨asked, ?_, ?_⟩⟩
    · rwa [Nat.add_sub_cancel' hi]
    · rwa [mul_comm]
  · rintro ⟨hw, j, t, ht, hst⟩
    have hlt := Demand.mem_ofOrder_lt hst
    obtain ⟨asked, hasked, hst⟩ := Demand.mem_ofOrder.mp hst
    refine ⟨by omega, _, ⟨asked, i, i + j, ⟨hasked, ?_, Nat.le_add_right i j⟩, rfl, rfl⟩, ?_⟩
    · exact MixedSet.isEmpty_eq_false_iff.mpr ⟨_, hst⟩
    · rw [Std.ExtTreeSet.mem_inter_iff, MixedSet.mem_div_iff, Nat.add_sub_cancel_left]
      exact ⟨⟨t, ht, by rwa [mul_comm]⟩, hw⟩
  · rintro ⟨-, _, ⟨asked, i, k, ⟨hasked, -, hi⟩, rfl, rfl⟩, ht⟩
    obtain ⟨ht, hw⟩ := Std.ExtTreeSet.mem_inter_iff.mp ht
    obtain ⟨s, hs, hst⟩ := MixedSet.mem_div_iff.mp ht
    refine ⟨hw, i, s, hs, Demand.mem_ofOrder.mpr ⟨asked, ?_, hst⟩⟩
    rwa [Nat.add_sub_cancel' hi]
  · rintro ⟨hw, i, s, hs, hst⟩
    have hlt := Demand.mem_ofOrder_lt hst
    obtain ⟨asked, hasked, hst⟩ := Demand.mem_ofOrder.mp hst
    refine ⟨by omega, _, ⟨asked, i, i + j, ⟨hasked, ?_, Nat.le_add_right i j⟩,
      Nat.add_sub_cancel_left i j, rfl⟩, ?_⟩
    · exact MixedSet.isEmpty_eq_false_iff.mpr ⟨_, hst⟩
    · rw [Std.ExtTreeSet.mem_inter_iff, MixedSet.mem_div_iff]
      exact ⟨⟨s, hs, hst⟩, by rwa [Nat.add_sub_cancel_left]⟩

theorem passesOn_product {a b : NodeId} (hn : g.node? n = some (.product a b)) :
    ∃ parts, ((Node.product a b).demand g demand (g.accepted n demand)).value g.nonzeroAt = .ok parts ∧
      g.PassesOn n (.product a b) demand parts := by
  obtain ⟨left, right, hvalue, hlen, hlen', hleft, hright⟩ :=
    value_demand_product g a b demand (g.accepted n demand)
  refine ⟨_, hvalue, ?_, by simp [Node.children], ?_, ?_, ?_, ?_⟩
  · intro c part h
    rcases List.mem_cons.mp h with h | h <;> simp_all [Node.children]
  · intro c part k m h hm hw
    obtain ⟨rfl, rfl⟩ | ⟨rfl, rfl⟩ : c = a ∧ part = left ∨ c = b ∧ part = right := by simpa using h
    · obtain ⟨-, j, t, ht, hst⟩ := (hleft k m).mp hm
      obtain ⟨hd, hst⟩ := mem_ofOrder_accepted.mp hst
      exact .inl ⟨k + j, m * t, hd, hst, .left hn hw ht⟩
    · obtain ⟨-, i, s, hs, hst⟩ := (hright k m).mp hm
      obtain ⟨hd, hst⟩ := mem_ofOrder_accepted.mp hst
      exact .inl ⟨i + k, s * m, hd, hst, .right hn hs hw⟩
  · intro j r c k m hr hrn h
    have hr := mem_ofOrder_accepted.mpr ⟨hr, hrn⟩
    cases h with
    | left h hs ht =>
      obtain ⟨rfl, rfl⟩ : a = c ∧ b = _ := by simpa [hn] using h
      exact ⟨left, by simp, (hleft _ _).mpr ⟨hs, _, _, ht, hr⟩⟩
    | right h hs ht =>
      obtain ⟨rfl, rfl⟩ : a = _ ∧ b = c := by simpa [hn] using h
      exact ⟨right, by simp, (hright _ _).mpr ⟨ht, _, _, hs, hr⟩⟩
    | _ => simp_all
  · intro c k m _ h
    cases h <;> simp_all
  · intro c part hne h
    have hlen'' : (g.accepted n demand).length = demand.length := length_accepted
    have hpos := List.length_pos_iff.mpr hne
    obtain ⟨rfl, rfl⟩ | ⟨rfl, rfl⟩ : c = a ∧ part = left ∨ c = b ∧ part = right := by simpa using h
    · exact List.length_pos_iff.mp (by omega)
    · exact List.length_pos_iff.mp (by omega)

/-! ### Nonlinear functions -/

include hg in
theorem value_demand_nonlinear (f : Nonlinearity) (arg : NodeId) (demand nonzero : Demand)
    (horder : ∀ j r, r ∈ nonzero.ofOrder j → r.order = j) :
    ∃ part, ((Node.nonlinear f arg).demand g demand nonzero).value g.nonzeroAt = .ok [(arg, part)] ∧
      part.length = max nonzero.length 1 ∧
      ∀ k m, m ∈ part.ofOrder k ↔ ∃ j, ∃ r ∈ nonzero.ofOrder j, k = 0 ∧ m = 1 ∨
        k = m.order ∧ ∃ factors, IsFactorization (g.nonzero arg) r factors ∧ m ∈ factors := by
  have hfactor : ∀ {m : Mixed}, m ∈ (nonzero.flatMap (·.toList)).flatMap (fun r =>
        (factorizations (orderTable (g.nonzero arg)) r).flatten) ↔
      ∃ j, ∃ r ∈ nonzero.ofOrder j, ∃ factors, IsFactorization (g.nonzero arg) r factors ∧ m ∈ factors := by
    intro m
    simp only [List.mem_flatMap, Std.ExtTreeSet.mem_toList,
      mem_flatten_factorizations (isGraded_nonzero hg arg), Demand.mem_ofOrder]
    constructor
    · rintro ⟨r, ⟨set, hset, hr⟩, h⟩
      obtain ⟨j, hj⟩ := List.mem_iff_getElem?.mp hset
      exact ⟨j, r, ⟨set, hj, hr⟩, h⟩
    · rintro ⟨j, r, ⟨set, hj, hr⟩, h⟩
      exact ⟨r, ⟨set, List.mem_of_getElem? hj, hr⟩, h⟩
  have hlt : ∀ {m : Mixed} {j r factors}, r ∈ nonzero.ofOrder j →
    IsFactorization (g.nonzero arg) r factors →
      m ∈ factors → m.order < nonzero.length := by
    intro m j r factors hr hfac hm
    have := Demand.mem_ofOrder_lt hr
    have := hfac.order_le hm
    rw [horder j r hr] at this
    omega
  simp only [Node.demand, value_ite, value_pure, value_bind, value_gather, value_answer]
  split
  · rename_i hempty
    refine ⟨_, rfl, Demand.length_collect, fun k m => ?_⟩
    rw [Demand.mem_ofOrder_collect]
    simp only [List.not_mem_nil, false_and, exists_false, and_false, false_iff]
    rintro ⟨j, r, hr, -⟩
    simp [Demand.isNonempty_iff.mpr ⟨j, r, hr⟩] at hempty
  · rename_i hne
    have hne : ∃ j r, r ∈ nonzero.ofOrder j := Demand.isNonempty_iff.mp (by simpa using hne)
    split
    · rename_i m hfind
      exfalso
      have hm := List.mem_of_find?_eq_some hfind
      obtain ⟨j, r, hr, factors, hfac, hm⟩ := hfactor.mp hm
      have := hlt hr hfac hm
      have := List.find?_some hfind
      simp only [decide_eq_true_eq] at this
      omega
    · refine ⟨_, rfl, Demand.length_collect, fun k m => ?_⟩
      rw [Demand.mem_ofOrder_collect]
      simp only [List.mem_cons, List.mem_map, Prod.mk.injEq]
      constructor
      · rintro ⟨-, set, ⟨rfl, rfl⟩ | ⟨m', hm', rfl, rfl⟩, hm⟩
        · obtain ⟨j, r, hr⟩ := hne
          exact ⟨j, r, hr, .inl ⟨rfl, MixedSet.mem_one.mp hm⟩⟩
        · obtain rfl := MixedSet.mem_singleton.mp hm
          obtain ⟨j, r, hr, h⟩ := hfactor.mp hm'
          exact ⟨j, r, hr, .inr ⟨rfl, h⟩⟩
      · rintro ⟨j, r, hr, ⟨rfl, rfl⟩ | ⟨rfl, factors, hfac, hm⟩⟩
        · exact ⟨by omega, 1, .inl ⟨rfl, rfl⟩, MixedSet.mem_one.mpr rfl⟩
        · have := hlt hr hfac hm
          refine ⟨by omega, {m}, .inr ⟨m, ?_, rfl, rfl⟩, MixedSet.mem_singleton.mpr rfl⟩
          exact hfactor.mpr ⟨j, r, hr, factors, hfac, hm⟩

include hg in
theorem passesOn_nonlinear {f : Nonlinearity} {arg : NodeId} (hn : g.node? n = some (.nonlinear f arg)) :
    ∃ parts, ((Node.nonlinear f arg).demand g demand (g.accepted n demand)).value g.nonzeroAt = .ok parts ∧
      g.PassesOn n (.nonlinear f arg) demand parts := by
  have horder : ∀ j r, r ∈ (g.accepted n demand).ofOrder j → r.order = j :=
    fun j r hr => order_of_mem_nonzero hg (mem_ofOrder_accepted.mp hr).2
  obtain ⟨part, hvalue, hlength, hmem⟩ := value_demand_nonlinear hg f arg demand (g.accepted n demand) horder
  refine ⟨_, hvalue, by simp [Node.children], by simp [Node.children], ?_, ?_, ?_, ?_⟩
  · intro c part' k m h hm hw
    obtain ⟨rfl, rfl⟩ : c = arg ∧ part' = part := by simpa using h
    obtain ⟨j, r, hr, h⟩ := (hmem k m).mp hm
    obtain ⟨hd, hrn⟩ := mem_ofOrder_accepted.mp hr
    rcases h with ⟨rfl, rfl⟩ | ⟨rfl, factors, hfac, hm⟩
    · exact .inl ⟨j, r, hd, hrn, .value hn hw⟩
    · obtain rfl := horder j r hr
      exact .inl ⟨r.order, r, hd, hrn, .factor hn hfac hm⟩
  · intro j r c k m hr hrn h
    have hr := mem_ofOrder_accepted.mpr ⟨hr, hrn⟩
    cases h with
    | value h hw =>
      obtain ⟨rfl, rfl⟩ : f = _ ∧ arg = c := by simpa [hn] using h
      obtain rfl := eq_one_of_mem_nonzero_zero hg hw
      exact ⟨part, List.mem_singleton_self _, (hmem _ _).mpr ⟨j, r, hr, .inl ⟨rfl, rfl⟩⟩⟩
    | factor h hfac hm =>
      obtain ⟨rfl, rfl⟩ : f = _ ∧ arg = c := by simpa [hn] using h
      exact ⟨part, List.mem_singleton_self _, (hmem _ _).mpr ⟨_, r, hr, .inr ⟨rfl, _, hfac, hm⟩⟩⟩
    | _ => simp_all
  · intro c k m _ h
    cases h <;> simp_all
  · intro c part' _ h
    obtain ⟨-, rfl⟩ : c = arg ∧ part' = part := by simpa using h
    exact List.length_pos_iff.mp (by omega)

include hg in
/-- **What a node passes on.** The rule for demand does not fail on the nonzero part of a demand, and it
passes on what the derivatives demanded ask for. -/
theorem exists_passesOn {node : Node} (hn : g.node? n = some node) :
    ∃ parts, (node.demand g demand (g.accepted n demand)).value g.nonzeroAt = .ok parts ∧
      g.PassesOn n node demand parts := by
  cases node with
  | constant | coordinate | symbolic | discrete => exact ⟨_, rfl, passesOn_nil demand hn rfl⟩
  | sum => exact ⟨_, rfl, passesOn_sum demand hn⟩
  | neg => exact ⟨_, rfl, passesOn_neg demand hn⟩
  | derivative => exact passesOn_derivative hg demand hn
  | product => exact passesOn_product demand hn
  | nonlinear => exact passesOn_nonlinear hg demand hn

/-! ## Demand on several nodes -/

/-- Whether `n` is one of the nodes on which something is demanded, or below one. -/
def IsVisited (g : Graph) (calls : List (NodeId × Demand)) (n : NodeId) : Prop :=
  ∃ call ∈ calls, Relation.ReflTransGen g.IsOperand call.1 n

/-- The derivatives that demands on nodes demand directly or through other nodes. -/
inductive Demanded (g : Graph) (calls : List (NodeId × Demand)) : NodeId → Nat → Mixed → Prop
  | call {n demand k m} : (n, demand) ∈ calls → m ∈ demand.ofOrder k → m ∈ g.nonzero n k →
      Demanded g calls n k m
  | asked {n j r c k m} : Demanded g calls n j r → g.Asks n j r c k m → Demanded g calls c k m
  | always {n c k m} : g.IsVisited calls n → g.AsksAlways n c k m → Demanded g calls c k m

variable {calls calls' : List (NodeId × Demand)} {c : NodeId} {k : Nat} {m : Mixed}

theorem Demanded.mem_nonzero (h : g.Demanded calls n k m) : m ∈ g.nonzero n k := by
  cases h with
  | call _ _ h => exact h
  | asked _ h => exact h.mem_nonzero
  | always _ h => exact h.mem_nonzero

theorem IsVisited.operand (h : g.IsVisited calls n) (hc : g.IsOperand n c) : g.IsVisited calls c := by
  obtain ⟨call, hcall, h⟩ := h
  exact ⟨call, hcall, h.tail hc⟩

/-- Demands whose roots lie below those of others visit no other nodes than these. -/
theorem IsVisited.trans (hvisited : ∀ call ∈ calls, g.IsVisited calls' call.1) (h : g.IsVisited calls n) :
    g.IsVisited calls' n := by
  obtain ⟨call, hcall, h⟩ := h
  obtain ⟨call', hcall', h'⟩ := hvisited call hcall
  exact ⟨call', hcall', h'.trans h⟩

/-- Derivatives are demanded of visited nodes alone. -/
theorem Demanded.isVisited (h : g.Demanded calls n k m) : g.IsVisited calls n := by
  induction h with
  | call hcall _ _ => exact ⟨_, hcall, .refl⟩
  | asked _ hasks ih => exact ih.operand hasks.exists_node
  | always hn hasks => exact hn.operand hasks.exists_node

/-- A demand whose roots lie below those of other demands, and which asks for what these demand,
demands nothing else. -/
theorem Demanded.trans (hvisited : ∀ call ∈ calls, g.IsVisited calls' call.1)
    (hcalls : ∀ n demand k m, (n, demand) ∈ calls → m ∈ demand.ofOrder k → m ∈ g.nonzero n k →
      g.Demanded calls' n k m)
    (h : g.Demanded calls n k m) : g.Demanded calls' n k m := by
  induction h with
  | call hcall hm hw => exact hcalls _ _ _ _ hcall hm hw
  | asked _ h ih => exact ih.asked h
  | always h ha => exact .always (h.trans hvisited) ha

theorem Demanded.mono (hcalls : ∀ call ∈ calls, call ∈ calls') (h : g.Demanded calls n k m) :
    g.Demanded calls' n k m :=
  h.trans (fun call hcall => ⟨call, hcalls call hcall, .refl⟩) fun _ _ _ _ hcall hm hw =>
    .call (hcalls _ hcall) hm hw

end Graph

end FormSparsity
