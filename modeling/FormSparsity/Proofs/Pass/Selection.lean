import FormSparsity.Proofs.Problem.Pairs

/-!
The filter for the derivatives of whole integrands. A derivative is compared with the functions that are in
demand by its list of functions, which comes out in increasing order because the atoms of a derivative are
kept so. The lists that pass are those of the value itself, of the derivatives by a variation, and of the
derivatives by a variation and an unknown (`Mixed.isSelected_functionLists_iff`).
-/
namespace FormSparsity

variable {m : Mixed} {v : FunctionId} {variations unknowns : List FunctionId}
variable {functionLists : SortedSet (List FunctionId)}

namespace Mixed

/-! ## Few functions -/

theorem coordinateOrder_eq_zero_iff : m.coordinateOrder = 0 ↔ ∀ d, .coordinate d ∉ m := by
  rw [coordinateOrder, List.countP_eq_zero]
  constructor
  · exact fun h d hd => h _ hd rfl
  · intro h a ha hcoordinate
    cases a with
    | coordinate d => exact h d ha
    | functional f p => cases hcoordinate

/-- The value itself is what has neither coordinates nor functions. -/
theorem functions_eq_nil_iff : m.coordinateOrder = 0 ∧ m.functions = [] ↔ m = 1 := by
  constructor
  · rintro ⟨hcoordinate, hfunctions⟩
    refine order_eq_zero.mp ?_
    rw [← m.length_functions_add, hcoordinate, hfunctions]
    rfl
  · rintro rfl
    exact ⟨rfl, rfl⟩

/-- The derivatives by one function, under some operator, are those that have this function alone. -/
theorem functions_eq_singleton_iff :
    m.coordinateOrder = 0 ∧ m.functions = [v] ↔ ∃ p, m = .ofAtom (.functional v p) := by
  constructor
  · rintro ⟨hcoordinate, hfunctions⟩
    refine order_one_functions_iff.mp ⟨?_, by simp [hfunctions]⟩
    rw [← m.length_functions_add, hcoordinate, hfunctions]
    rfl
  · rintro ⟨p, rfl⟩
    exact ⟨rfl, rfl⟩

end Mixed

/-! ## Lists of functions in demand -/

/-- Whether a computation takes a derivative of a whole integrand. -/
def Computation.TakesOf (computation : Computation) (variations unknowns : List FunctionId) (m : Mixed) :
    Prop :=
  m = 1 ∧ 0 ∈ computation.orders ∨
    (∃ v ∈ variations, ∃ p, m = .ofAtom (.functional v p)) ∧ 1 ∈ computation.orders ∨
    (∃ v ∈ variations, ∃ u ∈ unknowns, ∃ p q,
      m = .ofAtom (.functional v p) * .ofAtom (.functional u q)) ∧ 2 ∈ computation.orders

namespace Mixed

/-- The derivatives of each order that is taken have a list of their own. -/
theorem mem_functionLists_iff {computation : Computation} (h : m.coordinateOrder = 0) :
    m.functions ∈ computation.functionLists variations unknowns ↔
      computation.TakesOf variations unknowns m := by
  have hvalue : m.functions ∈ Computation.functionListsOfOrder variations unknowns 0 ↔ m = 1 := by
    simp [Computation.functionListsOfOrder, ← functions_eq_nil_iff, h]
  have hfirst : m.functions ∈ Computation.functionListsOfOrder variations unknowns 1 ↔
      ∃ v ∈ variations, ∃ p, m = .ofAtom (.functional v p) := by
    simp [Computation.functionListsOfOrder, ← functions_eq_singleton_iff, h, eq_comm]
  have hsecond : m.functions ∈ Computation.functionListsOfOrder variations unknowns 2 ↔
      ∃ v ∈ variations, ∃ u ∈ unknowns, ∃ p q,
        m = .ofAtom (.functional v p) * .ofAtom (.functional u q) := by
    simp [Computation.functionListsOfOrder, ← functions_perm_pair_iff, h,
      EquationSystem.functionPair_eq_iff m.pairwise_functions]
  rw [Computation.functionLists, SortedSet.mem_ofValues, List.mem_flatMap, Computation.TakesOf, ← hvalue,
    ← hfirst, ← hsecond]
  constructor
  · rintro ⟨k, hk, hm⟩
    have hle := EquationSystem.le_two_of_mem_orders hk
    obtain rfl | rfl | rfl : k = 0 ∨ k = 1 ∨ k = 2 := by omega
    · exact .inl ⟨hm, hk⟩
    · exact .inr (.inl ⟨hm, hk⟩)
    · exact .inr (.inr ⟨hm, hk⟩)
  · rintro (⟨hm, hk⟩ | ⟨hm, hk⟩ | ⟨hm, hk⟩)
    all_goals exact ⟨_, hk, hm⟩

/-! ## What is selected -/

/-- Without a multi-index in demand, lists of functions alone select. -/
theorem isSelected_eq_true_iff :
    m.isSelected functionLists ∅ = .ok true ↔ m.coordinateOrder = 0 ∧ m.functions ∈ functionLists := by
  by_cases h : m.coordinateOrder = 0
  · simp [isSelected, h, pure, Except.pure]
  · rw [isSelected, if_neg h]
    cases hindex : m.coordinateIndex <;> simp [h, bind, Except.bind, pure, Except.pure]

/-- Coordinates that make up a multi-index are directions of space. -/
theorem lt_maxDimension_of_coordinateIndex {α : MultiIndex} (h : m.coordinateIndex = .ok α) {d : Nat}
    (hd : .coordinate d ∈ m) : d < maxDimension := by
  have hindex : ∀ (ds : List Nat) (β : MultiIndex),
      ds.foldlM (fun α d => (α + ·) <$> MultiIndex.unit d) β = .ok α → ∀ d ∈ ds, d < maxDimension := by
    intro ds
    induction ds with
    | nil => simp
    | cons d ds ih =>
      intro β h
      rw [List.foldlM_cons, MultiIndex.unit] at h
      split at h
      · exact List.forall_mem_cons.mpr ⟨‹_›, ih _ h⟩
      · cases h
  exact hindex m.directions 0 h d (List.mem_filterMap.mpr ⟨_, hd, rfl⟩)

/-- A derivative is turned down, other than as a misuse, if its coordinates are directions of space. -/
theorem isSelected_eq_false_iff : m.isSelected functionLists ∅ = .ok false ↔
    ¬(m.coordinateOrder = 0 ∧ m.functions ∈ functionLists) ∧
      ∀ d, .coordinate d ∈ m → d < maxDimension := by
  constructor
  · intro h
    refine ⟨fun hselected => by simp [isSelected_eq_true_iff.mpr hselected] at h, fun d hd => ?_⟩
    rw [isSelected, if_neg fun hcoordinate => coordinateOrder_eq_zero_iff.mp hcoordinate d hd] at h
    cases hindex : m.coordinateIndex with
    | error e => simp [hindex, bind, Except.bind] at h
    | ok α => exact lt_maxDimension_of_coordinateIndex hindex hd
  · rintro ⟨h, hspace⟩
    rw [isSelected_of_directions hspace, decide_eq_false h]

/-- **What a computation selects of a whole integrand** are derivatives without coordinates: the value
itself, the derivatives by an atom of a variation, and those by an atom of a variation and an atom of an
unknown, each if the computation takes derivatives of this order. The operators of the atoms do not matter,
nor which of the two functions has the larger number. Every other derivative is turned down, or is a misuse
if it has a coordinate that is no direction of space. -/
theorem isSelected_functionLists_iff (computation : Computation) (variations unknowns : List FunctionId)
    (m : Mixed) :
    (m.isSelected (computation.functionLists variations unknowns) ∅ = .ok true ↔
      (∀ d, .coordinate d ∉ m) ∧ computation.TakesOf variations unknowns m) ∧
    (m.isSelected (computation.functionLists variations unknowns) ∅ = .ok false ↔
      ¬((∀ d, .coordinate d ∉ m) ∧ computation.TakesOf variations unknowns m) ∧
        ∀ d, .coordinate d ∈ m → d < maxDimension) := by
  have hlisted : (m.coordinateOrder = 0 ∧ m.functions ∈ computation.functionLists variations unknowns) ↔
      (∀ d, .coordinate d ∉ m) ∧ computation.TakesOf variations unknowns m := by
    rw [← coordinateOrder_eq_zero_iff]
    exact and_congr_right mem_functionLists_iff
  rw [isSelected_eq_true_iff, isSelected_eq_false_iff, hlisted]
  exact ⟨.rfl, .rfl⟩

example : (Mixed.ofAtom (.functional 2 .value) * .ofAtom (.functional 9 .divergence)).isSelected
    (Computation.matrixAndVector.functionLists [9] [2]) ∅ = .ok true := by decide +kernel

end Mixed

end FormSparsity
