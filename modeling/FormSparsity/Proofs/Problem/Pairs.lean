import FormSparsity.Problem.Analyze
import FormSparsity.Proofs.Analysis.Varying
import Mathlib.Data.List.Permutation

/-!
Second derivatives and pairs. Of a whole integrand an analysis demands those nonzero derivatives of each
order that are by the right functions (`mem_demandOn_iff`), so second derivatives by a variation and an
unknown alone (`isPair_of_mem_demandOn`), and such second derivatives alone tell of a coupling
(`splitPair_eq_ok_iff`). What is required of an integrand can be more than what was demanded of it as a
whole, if it is also part of another integrand.
-/
namespace FormSparsity

/-! ## Functions of a derivative -/

theorem Atom.le_of_isLE_compare {f f' : FunctionId} {p p' : Operator}
    (h : (compare (Atom.functional f p) (.functional f' p')).isLE) : f ≤ f' := by
  have hkey : compare (Atom.functional f p) (.functional f' p') =
      ((compare (1 : Int) 1).then ((compare (f : Int) f').then (List.compareLex compare p.key p'.key))) := by
    rw [← List.compareLex_cons_cons, ← List.compareLex_cons_cons]
    rfl
  by_contra hlt
  have hgt : compare (f : Int) f' = .gt :=
    Std.OrientedCmp.gt_of_lt (Int.compare_eq_lt.mpr (Int.ofNat_lt.mpr (Nat.lt_of_not_le hlt)))
  simp [hkey, hgt] at h

theorem Atom.function_eq_ok_iff {a : Atom} {f : FunctionId} : a.function = .ok f ↔ ∃ p, a = .functional f p := by
  cases a <;> simp [function]

theorem Atom.function_eq_error_iff {a : Atom} {e : AtomError} :
    a.function = .error e ↔ a.isCoordinate = true ∧ e = .notFunctional a := by
  cases a <;> simp [function, isCoordinate, eq_comm]

/-- The functions of a derivative are listed in increasing order. -/
theorem Mixed.pairwise_functions (m : Mixed) : m.functions.Pairwise (· ≤ ·) := by
  refine List.pairwise_filterMap.mpr (m.sorted.imp fun {a b} hab f hf f' hf' => ?_)
  cases a <;> cases b <;> cases hf <;> cases hf'
  exact Atom.le_of_isLE_compare hab

theorem Mixed.length_functions_add (m : Mixed) : m.functions.length + m.coordinateOrder = m.order := by
  have hfunctions : m.functions.length = m.atoms.countP fun a => decide ¬a.isCoordinate = true := by
    rw [functions, List.length_filterMap_eq_countP]
    refine List.countP_congr fun a _ => ?_
    cases a <;> simp [Atom.function?, Atom.isCoordinate]
  rw [hfunctions, Nat.add_comm]
  exact (List.length_eq_countP_add_countP _).symm

theorem Mixed.atoms_of_coordinateOrder_eq_zero {m : Mixed} (h : m.coordinateOrder = 0) :
    ∀ a ∈ m.atoms, ∃ f p, a = .functional f p := by
  intro a ha
  cases a with
  | coordinate d =>
    have := List.countP_eq_zero.mp h _ ha
    simp [Atom.isCoordinate] at this
  | functional f p => exact ⟨f, p, rfl⟩

/-- The first derivatives that have a function are those by an atom of it. -/
theorem Mixed.order_one_functions_iff {m : Mixed} {v : FunctionId} :
    m.order = 1 ∧ v ∈ m.functions ↔ ∃ operator, m = .ofAtom (.functional v operator) := by
  constructor
  · rintro ⟨horder, hv⟩
    obtain ⟨a, ha⟩ := List.length_eq_one_iff.mp horder
    obtain rfl := eq_ofAtom_of_atoms ha
    cases a with
    | coordinate d => simp [functions, ofAtom, Atom.function?] at hv
    | functional f operator =>
      obtain rfl : v = f := by simpa [functions, ofAtom, Atom.function?] using hv
      exact ⟨operator, rfl⟩
  · rintro ⟨operator, rfl⟩
    exact ⟨rfl, by simp [functions, ofAtom, Atom.function?]⟩

theorem Mixed.eq_ofAtom_mul_ofAtom {m : Mixed} {a b : Atom} (h : m.atoms = [a, b]) :
    m = .ofAtom a * .ofAtom b :=
  eq_of_perm (h ▸ (perm_ofAtom_mul (a := a) (m := .ofAtom b)).symm)

/-- The derivatives by two functions, each under some operator, are those without coordinates that have
these functions. -/
theorem Mixed.functions_perm_pair_iff {m : Mixed} {v u : FunctionId} :
    m.coordinateOrder = 0 ∧ m.functions.Perm [v, u] ↔
      ∃ p q, m = .ofAtom (.functional v p) * .ofAtom (.functional u q) := by
  constructor
  · rintro ⟨hcoordinate, hperm⟩
    have hlength : m.atoms.length = 2 := by
      rw [← order, ← length_functions_add, hcoordinate, hperm.length_eq]
      rfl
    obtain ⟨a, b, hab⟩ := List.length_eq_two.mp hlength
    have hfunctional := atoms_of_coordinateOrder_eq_zero hcoordinate
    rw [hab] at hfunctional
    obtain ⟨f, p, rfl⟩ := hfunctional a (by simp)
    obtain ⟨h, q, rfl⟩ := hfunctional b (by simp)
    have hm := eq_ofAtom_mul_ofAtom hab
    have hlist : m.functions = [f, h] := by simp [functions, hab, Atom.function?]
    rw [hlist, List.perm_pair] at hperm
    rcases hperm with ⟨⟨⟩⟩ | ⟨⟨⟩⟩
    · exact ⟨p, q, hm⟩
    · exact ⟨q, p, by rw [hm, mul_comm']⟩
  · rintro ⟨p, q, rfl⟩
    have hperm := perm_ofAtom_mul (a := .functional v p) (m := .ofAtom (.functional u q))
    exact ⟨hperm.countP_eq _, hperm.filterMap _⟩

/-! ## Selection -/

/-- Coordinates that nonzero derivatives are taken by are directions of space. -/
theorem Graph.lt_maxDimension_of_mem_nonzero {g : Graph} (hg : g.WellFormed) {n : NodeId}
    {k : Nat} {m : Mixed} (h : m ∈ g.nonzero n k) {d : Nat} (hd : .coordinate d ∈ m) : d < maxDimension := by
  have hatom : ∀ a ∈ m, ∀ d, a = .coordinate d → d < maxDimension := by
    intro a ha
    refine atom_induction hg (P := fun _ a => ∀ d, a = .coordinate d → d < maxDimension) ?_ ?_ ?_ ?_ ?_ h ha
    · rintro n d hn _ ⟨⟩
      exact Nat.lt_of_lt_of_le (hg.isInSpace n _ hn) hg.dimension_le
    · rintro _ _ _ _ _ _ _ ⟨⟩
    · rintro _ _ _ d _ hd _ ⟨⟩
      exact Nat.lt_of_lt_of_le hd hg.dimension_le
    · exact fun _ _ _ _ _ _ h => h
    · rintro _ d' _ a b _ _ hshift d rfl
      obtain ⟨f, p, α, -, -, -, hb⟩ := Atom.shift?_eq_some_iff.mp hshift
      cases hb
  exact hatom _ hd d rfl

/-- Without a multi-index in demand, the derivatives that are selected are those by lists of functions
that are in demand. -/
theorem Mixed.isSelected_of_directions {m : Mixed} (h : ∀ d, .coordinate d ∈ m → d < maxDimension)
    (functionLists : SortedSet (List FunctionId)) :
    m.isSelected functionLists ∅ = .ok (decide (m.coordinateOrder = 0 ∧ m.functions ∈ functionLists)) := by
  rw [isSelected]
  split
  · simp [*, pure, Except.pure]
  · rename_i hcoordinate
    have hdirections : ∀ d ∈ m.directions, d < maxDimension := by
      intro d hd
      obtain ⟨a, ha, hda⟩ := List.mem_filterMap.mp hd
      cases a with
      | coordinate d' => exact h d (by cases hda; exact ha)
      | functional f p => cases hda
    have hindex : ∀ (ds : List Nat) (α : MultiIndex), (∀ d ∈ ds, d < maxDimension) →
        ∃ β, ds.foldlM (fun α d => (α + ·) <$> MultiIndex.unit d) α = .ok β := by
      intro ds
      induction ds with
      | nil => exact fun α _ => ⟨α, rfl⟩
      | cons d ds ih =>
        intro α hds
        rw [List.foldlM_cons, MultiIndex.unit_of_lt (hds d (by simp))]
        exact ih _ fun d' hd' => hds d' (by simp [hd'])
    obtain ⟨α, hα⟩ := hindex m.directions 0 hdirections
    rw [coordinateIndex, hα]
    simp [hcoordinate, bind, Except.bind, pure, Except.pure]

namespace EquationSystem

variable (system : EquationSystem) (g : Graph)

/-! ## Demand on whole integrands -/

/-- The nonzero derivatives of an integrand of some order that a computation takes: those by variations
and unknowns alone. -/
def selected (computation : Computation) (root : NodeId) (k : Nat) : MixedSet :=
  SortedSet.select (fun m => m.coordinateOrder = 0 ∧
    m.functions ∈ computation.functionLists system.variations system.unknowns) (g.nonzero root k)

/-- The demand of a computation on a whole integrand. -/
def demandOn (computation : Computation) (root : NodeId) : Demand :=
  .collect (computation.orders.foldl max 0 + 1)
    (computation.orders.map fun k => (k, system.selected g computation root k))

/-- The demands on all integrands of a domain. -/
def demands (computation : Computation) (roots : List NodeId) : List (NodeId × Demand) :=
  roots.map fun root => (root, system.demandOn g computation root)

/-- Whether a list has the functions that a whole integrand is differentiated by at some order, in any
order. -/
def Takes (system : EquationSystem) : Nat → List FunctionId → Prop
  | 0, fs => fs = []
  | 1, fs => ∃ v ∈ system.variations, fs = [v]
  | _, fs => ∃ v ∈ system.variations, ∃ u ∈ system.unknowns, fs.Perm [v, u]

/-- Whether a derivative is by a variation and an unknown, each under some operator. -/
def IsPair (m : Mixed) : Prop :=
  ∃ v p u q, v ∈ system.variations ∧ u ∈ system.unknowns ∧
    m = .ofAtom (.functional v p) * .ofAtom (.functional u q)

/-- Whether a derivative is by the variation and the unknown of a pair. -/
def IsPairOf (q : FunctionPair) (m : Mixed) : Prop :=
  q.variation ∈ system.variations ∧ q.unknown ∈ system.unknowns ∧
    m.coordinateOrder = 0 ∧ m.functions.Perm [q.variation, q.unknown]

variable {system g} {computation : Computation} {root : NodeId} {k : Nat} {m : Mixed}

theorem isPair_iff : system.IsPair m ↔ ∃ q, system.IsPairOf q m := by
  constructor
  · rintro ⟨v, p, u, q, hv, hu, hm⟩
    exact ⟨⟨v, u⟩, hv, hu, Mixed.functions_perm_pair_iff.mpr ⟨p, q, hm⟩⟩
  · rintro ⟨⟨v, u⟩, hv, hu, hm⟩
    obtain ⟨p, q, rfl⟩ := Mixed.functions_perm_pair_iff.mp hm
    exact ⟨v, p, u, q, hv, hu, rfl⟩

theorem perm_functionPair {v u : FunctionId} : (Computation.functionPair v u).Perm [v, u] := by
  rw [Computation.functionPair]
  split
  · exact .refl _
  · exact .swap _ _ _

theorem pairwise_functionPair {v u : FunctionId} : (Computation.functionPair v u).Pairwise (· ≤ ·) := by
  rw [Computation.functionPair]
  split
  · simpa
  · rename_i h
    simpa using Nat.le_of_not_le h

/-- A list in increasing order is that of two functions if it has these functions. -/
theorem functionPair_eq_iff {v u : FunctionId} {fs : List FunctionId} (h : fs.Pairwise (· ≤ ·)) :
    Computation.functionPair v u = fs ↔ fs.Perm [v, u] := by
  constructor
  · rintro rfl
    exact perm_functionPair
  · intro hperm
    exact (perm_functionPair.trans hperm.symm).eq_of_pairwise
      (fun _ _ _ _ hab hba => Nat.le_antisymm hab hba) pairwise_functionPair h

/-- The lists of functions of some order have the functions that are taken, in increasing order. -/
theorem mem_functionListsOfOrder {fs : List FunctionId} (h : fs.Pairwise (· ≤ ·)) :
    fs ∈ Computation.functionListsOfOrder system.variations system.unknowns k ↔ system.Takes k fs := by
  match k with
  | 0 => simp [Computation.functionListsOfOrder, Takes]
  | 1 => simp [Computation.functionListsOfOrder, Takes, eq_comm]
  | k + 2 =>
    simp only [Computation.functionListsOfOrder, Takes, List.mem_flatMap, List.mem_map,
      functionPair_eq_iff h]

theorem Takes.length_eq {fs : List FunctionId} (h : system.Takes k fs) (hk : k ≤ 2) : fs.length = k := by
  match k, h with
  | 0, h => rw [h, List.length_nil]
  | 1, ⟨_, _, h⟩ => rw [h, List.length_singleton]
  | 2, ⟨_, _, _, _, h⟩ => exact h.length_eq

theorem selectM_isSelected (hg : g.WellFormed) :
    (g.nonzero root k).selectM
      (Mixed.isSelected (computation.functionLists system.variations system.unknowns) ∅) =
      .ok (system.selected g computation root k) := by
  obtain ⟨set, hset, hmem⟩ := MixedSet.exists_selectM (s := g.nonzero root k) fun m hm =>
    Mixed.isSelected_of_directions (fun d hd => Graph.lt_maxDimension_of_mem_nonzero hg hm hd)
      (computation.functionLists system.variations system.unknowns)
  rw [hset, show set = system.selected g computation root k from
    Std.ExtTreeSet.ext_mem fun m => by rw [hmem, selected, SortedSet.mem_select]]

theorem mem_demandOn : m ∈ (system.demandOn g computation root).ofOrder k ↔
    k ∈ computation.orders ∧ m ∈ g.nonzero root k ∧ m.coordinateOrder = 0 ∧
      m.functions ∈ computation.functionLists system.variations system.unknowns := by
  have hlt : k ∈ computation.orders → k < computation.orders.foldl max 0 + 1 := by
    cases computation <;> simp [Computation.orders] <;> omega
  simp only [demandOn, selected, Demand.mem_ofOrder_collect, List.mem_map, Prod.mk.injEq]
  constructor
  · rintro ⟨-, _, ⟨_, hk, rfl, rfl⟩, hm⟩
    exact ⟨hk, by simpa using hm⟩
  · rintro ⟨horder, hm⟩
    exact ⟨hlt horder, _, ⟨k, horder, rfl, rfl⟩, by simpa using hm⟩

theorem demandOn_ne_nil : system.demandOn g computation root ≠ [] := fun h => by
  have := congrArg List.length h
  simp [demandOn, Demand.length_collect] at this

theorem le_two_of_mem_orders (h : k ∈ computation.orders) : k ≤ 2 := by
  cases computation <;> simp [Computation.orders] at h <;> omega

/-- **The demand on a whole integrand:** at every order that is taken, the nonzero derivatives without
coordinates that have the functions of this order. -/
theorem mem_demandOn_iff (hg : g.WellFormed) : m ∈ (system.demandOn g computation root).ofOrder k ↔
    k ∈ computation.orders ∧ m ∈ g.nonzero root k ∧ m.coordinateOrder = 0 ∧ system.Takes k m.functions := by
  rw [mem_demandOn]
  refine and_congr_right fun hk => and_congr_right fun hm => and_congr_right fun hcoordinate => ?_
  -- the number of its functions tells of which order a list is
  have hlength : m.functions.length = k := by
    rw [← Graph.order_of_mem_nonzero hg hm, ← m.length_functions_add, hcoordinate, Nat.add_zero]
  rw [Computation.functionLists, SortedSet.mem_ofValues, List.mem_flatMap]
  simp only [mem_functionListsOfOrder m.pairwise_functions]
  constructor
  · rintro ⟨j, hj, htakes⟩
    rwa [← hlength, htakes.length_eq (le_two_of_mem_orders hj)]
  · exact fun htakes => ⟨k, hk, htakes⟩

/-- The second derivatives that are demanded of a whole integrand are by a variation and an unknown. -/
theorem isPair_of_mem_demandOn (hg : g.WellFormed)
    (h : m ∈ (system.demandOn g computation root).ofOrder 2) :
    system.IsPair m := by
  obtain ⟨-, -, hcoordinate, v, hv, u, hu, hperm⟩ := (mem_demandOn_iff hg).mp h
  exact isPair_iff.mpr ⟨⟨v, u⟩, hv, hu, hcoordinate, hperm⟩

/-! ## Pairs that couple -/

theorem mapM_function_eq_ok {l : List Atom} {fs : List FunctionId} (h : l.mapM Atom.function = .ok fs) :
    List.Forall₂ (fun a f => ∃ p, a = .functional f p) l fs :=
  (forall₂_of_mapM_eq_ok h).imp fun _ _ => Atom.function_eq_ok_iff.mp

theorem mapM_function_pair {f h : FunctionId} {p q : Operator} :
    [Atom.functional f p, .functional h q].mapM Atom.function = .ok [f, h] := rfl

theorem mapM_function_eq_error {l : List Atom} {e : AtomError} (h : l.mapM Atom.function = .error e) :
    ∃ a ∈ l, a.isCoordinate = true ∧ e = .notFunctional a := by
  obtain ⟨a, ha, he⟩ := exists_of_mapM_eq_error h
  exact ⟨a, ha, Atom.function_eq_error_iff.mp he⟩

/-- What a derivative is split into are its functions. -/
theorem isPairOf_of_splitPair {q : FunctionPair} (h : system.splitPair g root m = .ok q) :
    system.IsPairOf q m := by
  rw [splitPair] at h
  split at h
  · cases h
  · rename_i a b hfs
    obtain ⟨_, _, ⟨p, rfl⟩, hrest, hm⟩ := List.forall₂_cons_right_iff.mp (mapM_function_eq_ok hfs)
    obtain ⟨_, _, ⟨p', rfl⟩, hnil, rfl⟩ := List.forall₂_cons_right_iff.mp hrest
    obtain rfl := List.forall₂_nil_right_iff.mp hnil
    have hm := Mixed.eq_ofAtom_mul_ofAtom hm
    split at h
    · rename_i hab
      cases h
      exact ⟨hab.1, hab.2, Mixed.functions_perm_pair_iff.mpr ⟨p, p', hm⟩⟩
    · split at h
      · rename_i hba
        cases h
        exact ⟨hba.1, hba.2, Mixed.functions_perm_pair_iff.mpr ⟨p', p, by rw [hm, Mixed.mul_comm']⟩⟩
      · cases h
  · cases h

/-- **The second derivatives by a variation and an unknown** are those that tell of a coupling. -/
theorem splitPair_eq_ok_iff : (∃ pair, system.splitPair g root m = .ok pair) ↔ system.IsPair m := by
  constructor
  · rintro ⟨pair, h⟩
    exact isPair_iff.mpr ⟨pair, isPairOf_of_splitPair h⟩
  · rintro ⟨v, p, u, q, hv, hu, rfl⟩
    have hperm := Mixed.perm_ofAtom_mul (a := .functional v p) (m := .ofAtom (.functional u q))
    rcases List.perm_pair.mp hperm with hatoms | hatoms
    · rw [splitPair, hatoms, mapM_function_pair]
      exact ⟨_, if_pos ⟨hv, hu⟩⟩
    · rw [splitPair, hatoms, mapM_function_pair]
      by_cases huv : u ∈ system.variations ∧ v ∈ system.unknowns
      · exact ⟨_, if_pos huv⟩
      · exact ⟨_, (if_neg huv).trans (if_pos ⟨hv, hu⟩)⟩

/-- If no variation is an unknown too, a derivative tells of one pair alone. -/
theorem splitPair_eq_ok (hd : system.variations.Disjoint system.unknowns) {q : FunctionPair} :
    system.splitPair g root m = .ok q ↔ system.IsPairOf q m := by
  constructor
  · exact isPairOf_of_splitPair
  · intro hq
    obtain ⟨⟨v, u⟩, hsplit⟩ : ∃ pair, system.splitPair g root m = .ok pair :=
      splitPair_eq_ok_iff.mpr (isPair_iff.mpr ⟨q, hq⟩)
    obtain ⟨v', u'⟩ := q
    obtain ⟨hv, hu, -, hperm⟩ := isPairOf_of_splitPair hsplit
    obtain ⟨hv', hu', -, hperm'⟩ := hq
    rcases List.perm_pair.mp (hperm.symm.trans hperm') with ⟨⟨⟩⟩ | ⟨⟨⟩⟩
    · exact hsplit
    · exact absurd hu (hd hv')

/-- Why a derivative is not split: it is by a coordinate, or not by a variation and an unknown. -/
theorem splitPair_eq_error {cause : AnalysisError} (h : system.splitPair g root m = .error cause) :
    (∃ a ∈ m, a.isCoordinate = true ∧ cause = .invalidAtom (g.text root) (.notFunctional a)) ∨
      cause = .malformedSecondOrder (g.text root) m.text := by
  rw [splitPair] at h
  split at h
  · rename_i e he
    cases h
    obtain ⟨a, ha, hc, rfl⟩ := mapM_function_eq_error he
    exact .inl ⟨a, ha, hc, rfl⟩
  · split at h
    · cases h
    · split at h
      · cases h
      · cases h
        exact .inr rfl
  · cases h
    exact .inr rfl

end EquationSystem

end FormSparsity
