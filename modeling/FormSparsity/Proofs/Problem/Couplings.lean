import FormSparsity.Proofs.Problem.Form
import FormSparsity.Proofs.Problem.Pairs

/-!
What couplings tell. The tables of couplings list, for every region, exactly what the records of the
integrands imply (`EquationSystem.IsReadOff`): one derivative more adds what it implies
(`tells_of_addDerivative`), and so do the derivatives of one record more (`IsReadOff.push`). A region has an
entry only if something is listed for it.
-/
namespace FormSparsity

/-! ## Tables by region -/

namespace RegionTable

variable {α : Type} [Ord α] [Std.TransOrd α] {table : RegionTable α} {r r' : Region}
variable {P Q : α → Prop} {a : α}

/-- Whether a table lists exactly the values with some property for a region, which has an entry only if
there are any. -/
structure Lists (table : RegionTable α) (r : Region) (P : α → Prop) : Prop where
  mem_iff : r ∈ table ↔ ∃ a, P a
  getD_iff : ∀ a, a ∈ table.getD r ∅ ↔ P a

theorem Lists.congr (h : table.Lists r P) (hiff : ∀ a, P a ↔ Q a) : table.Lists r Q := by
  rwa [← funext fun a => propext (hiff a)]

theorem lists_empty : (∅ : RegionTable α).Lists r fun _ => False where
  mem_iff := by simp
  getD_iff := by simp

theorem lists_add [Std.LawfulEqOrd α] (h : table.Lists r P) :
    (table.add r' a).Lists r fun b => P b ∨ r' = r ∧ b = a where
  mem_iff := by
    rw [add, Std.ExtTreeMap.mem_insert, Std.LawfulEqOrd.compare_eq_iff_eq, h.mem_iff]
    grind
  getD_iff b := by
    rw [add, Std.ExtTreeMap.getD_insert]
    by_cases hr : r' = r
    · subst hr
      simp only [Std.ReflOrd.compare_self, if_true, Std.ExtTreeSet.mem_insert,
        Std.LawfulEqOrd.compare_eq_iff_eq, h.getD_iff]
      grind
    · simp [hr, h.getD_iff]

end RegionTable

/-! ## Couplings -/

/-- Something that an analysis finds out about a region. -/
inductive Coupling where
  | pair (isBoundary : Bool) (q : FunctionPair)
  | variation (v : FunctionId)
  | unknown (u : FunctionId)

namespace Couplings

variable {c c' : Couplings} {r r' : Region} {P Q : Coupling → Prop}

/-- Whether couplings tell exactly what has some property of a region. -/
structure Tells (c : Couplings) (r : Region) (P : Coupling → Prop) : Prop where
  pairs : c.pairs.Lists r fun q => P (.pair false q)
  boundaryPairs : c.boundaryPairs.Lists r fun q => P (.pair true q)
  variations : c.variations.Lists r fun v => P (.variation v)
  unknowns : c.unknowns.Lists r fun u => P (.unknown u)

theorem Tells.congr (h : c.Tells r P) (hiff : ∀ k, P k ↔ Q k) : c.Tells r Q := by
  rwa [← funext fun k => propext (hiff k)]

theorem Tells.withRoots (h : c.Tells r P) (roots : Array RootRecord) : Tells { c with roots } r P :=
  ⟨h.pairs, h.boundaryPairs, h.variations, h.unknowns⟩

theorem tells_empty : ({} : Couplings).Tells r fun _ => False :=
  ⟨RegionTable.lists_empty, RegionTable.lists_empty, RegionTable.lists_empty, RegionTable.lists_empty⟩

theorem Tells.addVariation {v : FunctionId} (h : c.Tells r P) :
    (c.addVariation r' v).Tells r fun k => P k ∨ r' = r ∧ k = .variation v where
  pairs := h.pairs.congr (by simp)
  boundaryPairs := h.boundaryPairs.congr (by simp)
  variations := (RegionTable.lists_add h.variations).congr (by simp)
  unknowns := h.unknowns.congr (by simp)

theorem Tells.addPair {q : FunctionPair} {isBoundary : Bool} (h : c.Tells r P) :
    (c.addPair r' q isBoundary).Tells r fun k => P k ∨ r' = r ∧
      (k = .pair isBoundary q ∨ k = .variation q.variation ∨ k = .unknown q.unknown) := by
  cases isBoundary
  · exact
      { pairs := (RegionTable.lists_add h.pairs).congr (by simp)
        boundaryPairs := h.boundaryPairs.congr (by simp)
        variations := (RegionTable.lists_add h.variations).congr (by simp)
        unknowns := (RegionTable.lists_add h.unknowns).congr (by simp) }
  · exact
      { pairs := h.pairs.congr (by simp)
        boundaryPairs := (RegionTable.lists_add h.boundaryPairs).congr (by simp)
        variations := (RegionTable.lists_add h.variations).congr (by simp)
        unknowns := (RegionTable.lists_add h.unknowns).congr (by simp) }

@[simp] theorem roots_addVariation {v : FunctionId} : (c.addVariation r v).roots = c.roots := rfl

@[simp] theorem roots_addPair {q : FunctionPair} {isBoundary : Bool} :
    (c.addPair r q isBoundary).roots = c.roots := by
  cases isBoundary <;> rfl

theorem Tells.foldl_addVariation {vs : List FunctionId} (h : c.Tells r P) :
    (vs.foldl (·.addVariation r') c).Tells r fun k => P k ∨ r' = r ∧ ∃ v ∈ vs, k = .variation v := by
  induction vs generalizing c P with
  | nil => exact h.congr (by simp)
  | cons v vs ih =>
    refine (ih h.addVariation).congr fun k => ?_
    simp only [List.mem_cons, exists_eq_or_imp]
    grind

@[simp] theorem roots_foldl_addVariation {vs : List FunctionId} :
    (vs.foldl (·.addVariation r) c).roots = c.roots := by
  induction vs generalizing c with
  | nil => rfl
  | cons v vs ih => rw [List.foldl_cons, ih, roots_addVariation]

end Couplings

namespace EquationSystem

variable (system : EquationSystem)

/-! ## Accepted systems -/

theorem checkRoles_cons {g : Graph} {role : Role} {seen fs : List FunctionId} {f : FunctionId} :
    checkRoles g role seen (f :: fs) = .ok () ↔
      f ∉ seen ∧ g.role? f = some role ∧ checkRoles g role (f :: seen) fs = .ok () := by
  rw [checkRoles]
  split
  · simp [*]
  · split
    · simp [*]
    · split <;> simp [*]

theorem role?_of_checkRoles {g : Graph} {role : Role} {seen fs : List FunctionId}
    (h : checkRoles g role seen fs = .ok ()) : ∀ f ∈ fs, g.role? f = some role := by
  induction fs generalizing seen with
  | nil => simp
  | cons f fs ih =>
    obtain ⟨-, hrole, h⟩ := checkRoles_cons.mp h
    exact List.forall_mem_cons.mpr ⟨hrole, ih h⟩

theorem nodup_of_checkRoles {g : Graph} {role : Role} {seen fs : List FunctionId}
    (h : checkRoles g role seen fs = .ok ()) : fs.Nodup ∧ ∀ f ∈ fs, f ∉ seen := by
  induction fs generalizing seen with
  | nil => simp
  | cons f fs ih =>
    obtain ⟨hf, -, h⟩ := checkRoles_cons.mp h
    obtain ⟨hnodup, hseen⟩ := ih h
    refine ⟨List.nodup_cons.mpr ⟨fun hmem => hseen f hmem List.mem_cons_self, hnodup⟩, ?_⟩
    exact List.forall_mem_cons.mpr ⟨hf, fun f' hf' hmem => hseen f' hf' (List.mem_cons_of_mem _ hmem)⟩

theorem checkRoles_of_ofForms {g : Graph} {form boundary : Form} {variations unknowns : List FunctionId}
    (h : ofForms g form boundary variations unknowns = .ok system) :
    system = ⟨form, boundary, variations, unknowns⟩ ∧ checkRoles g .variation [] variations = .ok () ∧
      checkRoles g .unknown [] unknowns = .ok () := by
  rw [ofForms] at h
  cases hv : checkRoles g .variation [] variations with
  | error e => rw [hv] at h; cases h
  | ok =>
    cases hu : checkRoles g .unknown [] unknowns with
    | error e => rw [hv, hu] at h; cases h
    | ok =>
      rw [hv, hu] at h
      cases h
      exact ⟨rfl, rfl, rfl⟩

/-- **In a system that is accepted** the variations and the unknowns have these roles. -/
theorem role?_of_ofForms {g : Graph} {form boundary : Form} {variations unknowns : List FunctionId}
    (h : ofForms g form boundary variations unknowns = .ok system) :
    system = ⟨form, boundary, variations, unknowns⟩ ∧
      (∀ v ∈ variations, g.role? v = some .variation) ∧ ∀ u ∈ unknowns, g.role? u = some .unknown := by
  obtain ⟨hsystem, hv, hu⟩ := system.checkRoles_of_ofForms h
  exact ⟨hsystem, role?_of_checkRoles hv, role?_of_checkRoles hu⟩

/-- No function is listed twice among the variations or among the unknowns of a system that is accepted. -/
theorem nodup_of_ofForms {g : Graph} {form boundary : Form} {variations unknowns : List FunctionId}
    (h : ofForms g form boundary variations unknowns = .ok system) :
    system = ⟨form, boundary, variations, unknowns⟩ ∧ variations.Nodup ∧ unknowns.Nodup := by
  obtain ⟨hsystem, hv, hu⟩ := system.checkRoles_of_ofForms h
  exact ⟨hsystem, (nodup_of_checkRoles hv).1, (nodup_of_checkRoles hu).1⟩

/-- No variation of a system that is accepted is an unknown too. -/
theorem disjoint_of_ofForms {g : Graph} {form boundary : Form} {variations unknowns : List FunctionId}
    (h : ofForms g form boundary variations unknowns = .ok system) :
    system.variations.Disjoint system.unknowns := by
  obtain ⟨rfl, hv, hu⟩ := system.role?_of_ofForms h
  intro f hfv hfu
  simpa [hv f hfv] using hu f hfu

/-! ## What derivatives imply -/

/-- What a derivative that is required of an integrand implies. -/
inductive Implies (computation : Computation) (isBoundary : Bool) (m : Mixed) : Coupling → Prop
  | variation {v} (hc : computation ≠ .functionalOnly) (horder : m.order = 1) (hm : v ∈ m.functions)
      (hv : v ∈ system.variations) : Implies computation isBoundary m (.variation v)
  | pair {q} (hc : computation = .matrixAndVector) (hq : system.IsPairOf q m) :
      Implies computation isBoundary m (.pair isBoundary q)
  | variationOfPair {q} (hc : computation = .matrixAndVector) (hq : system.IsPairOf q m) :
      Implies computation isBoundary m (.variation q.variation)
  | unknownOfPair {q} (hc : computation = .matrixAndVector) (hq : system.IsPairOf q m) :
      Implies computation isBoundary m (.unknown q.unknown)

/-- Whether the tables of couplings tell what the records imply of the regions, and nothing else. -/
def IsReadOff (c : Couplings) : Prop :=
  ∀ r, c.Tells r fun k => ∃ record ∈ c.roots, record.domain.region = r ∧
    ∃ m ∈ record.classification, system.Implies record.computation record.isBoundary m k

variable {system} {g : Graph} {p : Pass} {isBoundary : Bool} {root : NodeId} {c c' : Couplings} {m : Mixed}

theorem IsPairOf.order_eq {q : FunctionPair} (h : system.IsPairOf q m) : m.order = 2 := by
  rw [← m.length_functions_add, h.2.2.1, h.2.2.2.length_eq]
  rfl

theorem isReadOff_empty : system.IsReadOff {} := fun r => Couplings.tells_empty.congr (by simp)

/-- Derivatives change the tables alone. -/
theorem roots_of_addDerivative (h : system.addDerivative g p isBoundary root c m = .ok c') :
    c'.roots = c.roots := by
  unfold addDerivative at h
  dsimp only at h
  split at h
  · cases h
    exact Couplings.roots_foldl_addVariation
  · split at h
    · cases hsplit : system.splitPair g root m with
      | error cause => rw [hsplit] at h; cases h
      | ok q =>
        rw [hsplit] at h
        cases h
        exact Couplings.roots_addPair
    · cases h
      rfl

/-- **One derivative** adds what it implies. -/
theorem tells_of_addDerivative (hd : system.variations.Disjoint system.unknowns)
    (h : system.addDerivative g p isBoundary root c m = .ok c') {r : Region} {P : Coupling → Prop}
    (ht : c.Tells r P) :
    c'.Tells r fun k => P k ∨ p.domain.region = r ∧ system.Implies p.computation isBoundary m k := by
  unfold addDerivative at h
  dsimp only at h
  split at h
  · rename_i hfirst
    obtain ⟨horder, hc⟩ := hfirst
    cases h
    refine ht.foldl_addVariation.congr fun k => or_congr_right (and_congr_right fun _ => ?_)
    simp only [List.mem_filter, decide_eq_true_eq]
    constructor
    · rintro ⟨v, ⟨hm, hv⟩, rfl⟩
      exact .variation hc horder hm hv
    · rintro (⟨-, -, hm, hv⟩ | ⟨-, hq⟩ | ⟨-, hq⟩ | ⟨-, hq⟩)
      · exact ⟨_, ⟨hm, hv⟩, rfl⟩
      all_goals exact absurd (horder.symm.trans hq.order_eq) (by decide)
  · rename_i hfirst
    split at h
    · rename_i hsecond
      obtain ⟨horder, hc⟩ := hsecond
      cases hsplit : system.splitPair g root m with
      | error cause => rw [hsplit] at h; cases h
      | ok q =>
        rw [hsplit] at h
        cases h
        refine ht.addPair.congr fun k => or_congr_right (and_congr_right fun _ => ?_)
        have hq := isPairOf_of_splitPair hsplit
        have hunique : ∀ q', system.IsPairOf q' m → q' = q := fun q' hq' => by
          have hsplit' : system.splitPair g root m = .ok q' := (splitPair_eq_ok hd).mpr hq'
          simpa [hsplit, eq_comm] using hsplit'
        constructor
        · rintro (rfl | rfl | rfl)
          · exact .pair hc hq
          · exact .variationOfPair hc hq
          · exact .unknownOfPair hc hq
        · rintro (⟨-, horder', -, -⟩ | ⟨-, hq'⟩ | ⟨-, hq'⟩ | ⟨-, hq'⟩)
          · exact absurd (horder.symm.trans horder') (by decide)
          all_goals
            rw [hunique _ hq']
            simp
    · rename_i hsecond
      cases h
      refine ht.congr fun k => (or_iff_left ?_).symm
      rintro ⟨-, ⟨hc, horder, -, -⟩ | ⟨hc, hq⟩ | ⟨hc, hq⟩ | ⟨hc, hq⟩⟩
      · exact hfirst ⟨horder, hc⟩
      all_goals exact hsecond ⟨hq.order_eq, hc⟩

theorem roots_of_foldlM_addDerivative {ms : List Mixed}
    (h : ms.foldlM (system.addDerivative g p isBoundary root) c = .ok c') : c'.roots = c.roots := by
  induction ms generalizing c with
  | nil =>
    cases h
    rfl
  | cons m ms ih =>
    rw [List.foldlM_cons] at h
    cases hm : system.addDerivative g p isBoundary root c m with
    | error cause => rw [hm] at h; cases h
    | ok c₁ =>
      rw [hm] at h
      exact (ih h).trans (roots_of_addDerivative hm)

/-- **Derivatives** add what any of them implies. -/
theorem tells_of_foldlM_addDerivative (hd : system.variations.Disjoint system.unknowns) {ms : List Mixed}
    (h : ms.foldlM (system.addDerivative g p isBoundary root) c = .ok c') {r : Region} {P : Coupling → Prop}
    (ht : c.Tells r P) :
    c'.Tells r fun k => P k ∨ p.domain.region = r ∧
      ∃ m ∈ ms, system.Implies p.computation isBoundary m k := by
  induction ms generalizing c P with
  | nil =>
    cases h
    exact ht.congr (by simp)
  | cons m ms ih =>
    rw [List.foldlM_cons] at h
    cases hm : system.addDerivative g p isBoundary root c m with
    | error cause => rw [hm] at h; cases h
    | ok c₁ =>
      rw [hm] at h
      refine (ih h (tells_of_addDerivative hd hm ht)).congr fun k => ?_
      simp only [List.mem_cons, exists_eq_or_imp]
      grind

/-- **One record more** adds what its derivatives imply. -/
theorem IsReadOff.push (hd : system.variations.Disjoint system.unknowns) (hc : system.IsReadOff c)
    {classification : Classification}
    (h : classification.keys.foldlM (system.addDerivative g p isBoundary root) c = .ok c') :
    system.IsReadOff { c' with
      roots := c'.roots.push ⟨p.domain, p.computation, isBoundary, root, classification⟩ } := by
  intro r
  refine ((tells_of_foldlM_addDerivative hd h (hc r)).withRoots _).congr fun k => ?_
  simp only [roots_of_foldlM_addDerivative h, Array.mem_push, Std.ExtTreeMap.mem_keys]
  grind

end EquationSystem

end FormSparsity
