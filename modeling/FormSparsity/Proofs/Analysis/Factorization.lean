import FormSparsity.Analysis.Nonzero
import FormSparsity.Proofs.Analysis.Inquiry
import FormSparsity.Proofs.Derivative.Product

/-!
Factorizations are complete. What is listed are the factorizations in which each factor has the first atom left
over (`mem_factorizations_iff`). Every factorization can be put into such an order (`exists_perm_takesFirst`),
if atoms repeat perhaps into several ones, so all are listed up to the order of the factors
(`factorizations_complete`). The products that the chain rule forms order by order are exactly the derivatives
that have a factorization (`mem_chainProducts`).
-/
namespace FormSparsity

/-- Whether the sets of derivatives listed by order hold derivatives of that order alone, and none
above `maxOrder`. -/
def IsGraded (w : Nat → MixedSet) : Prop := ∀ k, ∀ m ∈ w k, m.order = k ∧ k ≤ maxOrder

/-- A way to write a derivative as a product of listed derivatives of order one and above. -/
structure IsFactorization (w : Nat → MixedSet) (m : Mixed) (factors : List Mixed) : Prop where
  prod_eq : factors.prod = m
  order_pos : ∀ f ∈ factors, 0 < f.order
  mem : ∀ f ∈ factors, f ∈ w f.order

/-- The sets of the orders that are tracked, as a table. -/
def orderTable (w : Nat → MixedSet) : List MixedSet := (List.range (maxOrder + 1)).map w

theorem getElem?_orderTable {w : Nat → MixedSet} {k : Nat} (h : k ≤ maxOrder) :
    (orderTable w)[k]? = some (w k) := by
  simp [orderTable, List.getElem?_range (show k < maxOrder + 1 by omega)]

variable {w : Nat → MixedSet}

theorem IsFactorization.nil : IsFactorization w 1 [] := ⟨rfl, by simp, by simp⟩

theorem IsFactorization.cons {m f : Mixed} {fs : List Mixed} (h : IsFactorization w m fs) (hf : 0 < f.order)
    (hmem : f ∈ w f.order) : IsFactorization w (f * m) (f :: fs) where
  prod_eq := by rw [List.prod_cons, h.prod_eq]
  order_pos := by simpa using ⟨hf, h.order_pos⟩
  mem := by simpa using ⟨hmem, h.mem⟩

theorem IsFactorization.erase {m f : Mixed} {fs : List Mixed} (h : IsFactorization w m fs) (hf : f ∈ fs) :
    ∃ r, m = f * r ∧ IsFactorization w r (fs.erase f) := by
  refine ⟨(fs.erase f).prod, ?_, rfl, ?_, ?_⟩
  · rw [← h.prod_eq, (List.perm_cons_erase hf).prod_eq, List.prod_cons]
  · exact fun f' hf' => h.order_pos f' (List.mem_of_mem_erase hf')
  · exact fun f' hf' => h.mem f' (List.mem_of_mem_erase hf')

theorem IsFactorization.order_le {m f : Mixed} {fs : List Mixed} (h : IsFactorization w m fs)
    (hf : f ∈ fs) :
    f.order ≤ m.order := by
  obtain ⟨r, rfl, -⟩ := h.erase hf
  simp

/-! ## The factorizations that are listed -/

theorem mem_drop_take {α : Type} {l : List α} {a : α} {j : Nat} :
    a ∈ (l.take (j + 1)).drop 1 ↔ ∃ k, 0 < k ∧ k ≤ j ∧ l[k]? = some a := by
  simp only [List.mem_iff_getElem?, List.getElem?_drop, List.getElem?_take]
  constructor
  · rintro ⟨i, hi⟩
    split at hi
    · exact ⟨1 + i, by omega, by omega, hi⟩
    · simp at hi
  · rintro ⟨k, hk, hkj, ha⟩
    refine ⟨k - 1, ?_⟩
    rw [show 1 + (k - 1) = k by omega, if_pos (by omega), ha]

/-- Whether a table lists a derivative under some order from one to `j`. -/
def IsListedUpTo (t : List MixedSet) (j : Nat) (f : Mixed) : Prop :=
  ∃ k, 0 < k ∧ k ≤ j ∧ ∃ set, t[k]? = some set ∧ f ∈ set

/-- Whether each factor has the first atom that the factors before it leave over. -/
inductive TakesFirst : List Mixed → Prop
  | nil : TakesFirst []
  | cons {f fs a l} : (f :: fs).prod.atoms = a :: l → a ∈ f → TakesFirst fs → TakesFirst (f :: fs)

/-- One step of the listing: a factor with the first atom, and a factorization of what it leaves. -/
theorem mem_factorizations_of_atoms {t : List MixedSet} {m : Mixed} {a : Atom} {l : List Atom}
    (h : m.atoms = a :: l) {fs : List Mixed} :
    fs ∈ factorizations t m ↔ ∃ f r fs', fs = f :: fs' ∧ a ∈ f ∧ m = f * r ∧ fs' ∈ factorizations t r ∧
      IsListedUpTo t (min m.order maxOrder) f := by
  rw [factorizations]
  split
  · rename_i h'
    simp [h] at h'
  · rename_i a' l' h'
    obtain ⟨rfl, rfl⟩ : a' = a ∧ l' = l := by simpa [h, eq_comm] using h'
    simp only [List.mem_flatMap, mem_drop_take, Std.ExtTreeSet.mem_toList]
    constructor
    · rintro ⟨s, ⟨k, hk, hkm, hs⟩, f, hf, hfs⟩
      split at hfs
      · rename_i ha
        split at hfs
        · rename_i r hr
          obtain ⟨fs', hfs', rfl⟩ := List.mem_map.mp hfs
          exact ⟨f, r, fs', rfl, ha, (Mixed.divide?_eq_some_iff.mp hr).symm, hfs', k, hk, hkm, s, hs, hf⟩
        · simp at hfs
      · simp at hfs
    · rintro ⟨f, r, fs', rfl, ha, hm, hfs', k, hk, hkm, s, hs, hf⟩
      refine ⟨s, ⟨k, hk, hkm, hs⟩, f, hf, ?_⟩
      rw [dif_pos ha]
      have hr : m.divide? f = some r := Mixed.divide?_eq_some_iff.mpr hm.symm
      split
      · rename_i r' hr'
        obtain rfl : r' = r := by simpa [hr] using hr'.symm
        exact List.mem_map_of_mem hfs'
      · rename_i hr'
        simp [hr] at hr'

theorem factorizations_one {t : List MixedSet} : factorizations t 1 = [[]] := by
  rw [factorizations]

theorem order_lt_of_atoms {m f r : Mixed} {a : Atom} (ha : a ∈ f) (hm : m = f * r) : r.order < m.order := by
  have hf : 0 < f.order := List.length_pos_of_mem ha
  rw [hm, Mixed.order_mul]
  omega

theorem order_le_order_prod {fs : List Mixed} {f : Mixed} (hf : f ∈ fs) : f.order ≤ fs.prod.order := by
  rw [(List.perm_cons_erase hf).prod_eq, List.prod_cons, Mixed.order_mul]
  exact Nat.le_add_right _ _

/-- Whether a table lists derivatives under their own order alone, as far as orders are tracked. -/
def IsGradedTable (t : List MixedSet) : Prop :=
  ∀ k ≤ maxOrder, ∀ set, t[k]? = some set → ∀ f ∈ set, f.order = k

/-- **What is listed** are the ways to write a derivative as a product of factors out of the table each of
which takes the first atom left over. -/
theorem mem_factorizations_iff {t : List MixedSet} (ht : IsGradedTable t) {m : Mixed} {fs : List Mixed} :
    fs ∈ factorizations t m ↔ fs.prod = m ∧ (∀ f ∈ fs, IsListedUpTo t maxOrder f) ∧ TakesFirst fs := by
  cases hm : m.atoms with
  | nil =>
    obtain rfl : m = 1 := Mixed.eq_of_atoms_eq hm
    rw [factorizations_one, List.mem_singleton]
    constructor
    · rintro rfl
      exact ⟨rfl, by simp, .nil⟩
    · rintro ⟨hprod, -, hfirst⟩
      cases hfirst with
      | nil => rfl
      | cons hatoms => simp [hprod] at hatoms
  | cons a l =>
    rw [mem_factorizations_of_atoms hm]
    constructor
    · rintro ⟨f, r, fs', rfl, ha, rfl, hfs', k, hk, hkm, hf⟩
      obtain ⟨hprod, hlisted, hfirst⟩ := (mem_factorizations_iff ht).mp hfs'
      have hprod' : (f :: fs').prod = f * r := by rw [List.prod_cons, hprod]
      refine ⟨hprod', List.forall_mem_cons.mpr ⟨⟨k, hk, by omega, hf⟩, hlisted⟩, ?_⟩
      exact .cons (by rw [hprod', hm]) ha hfirst
    · rintro ⟨hprod, hlisted, hfirst⟩
      cases hfirst with
      | nil => simp [← hprod] at hm
      | @cons f fs' a' l' hatoms ha hfirst =>
        obtain ⟨rfl, rfl⟩ : a' = a ∧ l' = l := by simpa [hprod, hm, eq_comm] using hatoms
        obtain ⟨⟨k, hk, hkm, set, hset, hf⟩, hlisted⟩ := List.forall_mem_cons.mp hlisted
        have hle : f.order ≤ m.order := hprod ▸ order_le_order_prod List.mem_cons_self
        have horder := ht k hkm set hset f hf
        have hm' : m = f * fs'.prod := by rw [← hprod, List.prod_cons]
        exact ⟨f, fs'.prod, fs', rfl, ha, hm', (mem_factorizations_iff ht).mpr ⟨rfl, hlisted, hfirst⟩,
          k, hk, by omega, set, hset, hf⟩
termination_by m.order
decreasing_by all_goals exact order_lt_of_atoms ‹_› ‹_›

/-- Factors of order one and above can be put into an order in which each takes the first atom left over. -/
theorem exists_perm_takesFirst {fs : List Mixed} (h : ∀ f ∈ fs, 0 < f.order) :
    ∃ fs', fs'.Perm fs ∧ TakesFirst fs' := by
  cases hatoms : fs.prod.atoms with
  | nil =>
    have hfs : fs = [] := List.eq_nil_iff_forall_not_mem.mpr fun f hf => by
      have hle := order_le_order_prod hf
      have hpos := h f hf
      simp only [Mixed.order, hatoms, List.length_nil] at hle hpos
      omega
    exact ⟨[], by rw [hfs], .nil⟩
  | cons a l =>
    obtain ⟨f, hf, ha⟩ := Mixed.mem_prod.mp (Mixed.mem_of_atoms_eq_cons hatoms)
    have hlt : (fs.erase f).length < fs.length := by
      have := List.length_pos_of_mem hf
      rw [List.length_erase_of_mem hf]
      omega
    obtain ⟨fs', hperm, hfirst⟩ := exists_perm_takesFirst fun f' hf' => h f' (List.mem_of_mem_erase hf')
    have hperm' : (f :: fs').Perm fs := (hperm.cons f).trans (List.perm_cons_erase hf).symm
    exact ⟨f :: fs', hperm', .cons (by rw [hperm'.prod_eq, hatoms]) ha hfirst⟩
termination_by fs.length

theorem isGradedTable_orderTable (hw : IsGraded w) : IsGradedTable (orderTable w) := by
  intro k hk set hset f hf
  rw [getElem?_orderTable hk] at hset
  obtain rfl : w k = set := by simpa using hset
  exact (hw k f hf).1

theorem isListedUpTo_orderTable (hw : IsGraded w) {f : Mixed} :
    IsListedUpTo (orderTable w) maxOrder f ↔ 0 < f.order ∧ f ∈ w f.order := by
  constructor
  · rintro ⟨k, hk, hkm, set, hset, hf⟩
    obtain rfl := isGradedTable_orderTable hw k hkm set hset f hf
    rw [getElem?_orderTable hkm] at hset
    obtain rfl : w f.order = set := by simpa using hset
    exact ⟨hk, hf⟩
  · rintro ⟨hpos, hf⟩
    have hkm := (hw _ f hf).2
    exact ⟨f.order, hpos, hkm, _, getElem?_orderTable hkm, hf⟩

/-- What is listed is a factorization. -/
theorem isFactorization_of_mem (hw : IsGraded w) (m : Mixed) {fs : List Mixed}
    (h : fs ∈ factorizations (orderTable w) m) : IsFactorization w m fs := by
  obtain ⟨hprod, hlisted, -⟩ := (mem_factorizations_iff (isGradedTable_orderTable hw)).mp h
  have hlisted : ∀ f ∈ fs, 0 < f.order ∧ f ∈ w f.order := fun f hf =>
    (isListedUpTo_orderTable hw).mp (hlisted f hf)
  exact ⟨hprod, fun f hf => (hlisted f hf).1, fun f hf => (hlisted f hf).2⟩

/-- **Every factorization is listed,** up to the order of its factors. -/
theorem factorizations_complete (hw : IsGraded w) (m : Mixed) {fs : List Mixed}
    (h : IsFactorization w m fs) :
    ∃ fs' ∈ factorizations (orderTable w) m, fs'.Perm fs := by
  obtain ⟨fs', hperm, hfirst⟩ := exists_perm_takesFirst h.order_pos
  refine ⟨fs', (mem_factorizations_iff (isGradedTable_orderTable hw)).mpr ⟨?_, fun f hf => ?_, hfirst⟩, hperm⟩
  · rw [hperm.prod_eq, h.prod_eq]
  · have hf := hperm.mem_iff.mp hf
    exact (isListedUpTo_orderTable hw).mpr ⟨h.order_pos f hf, h.mem f hf⟩

theorem factorizations_ne_nil_iff (hw : IsGraded w) {m : Mixed} :
    factorizations (orderTable w) m ≠ [] ↔ ∃ fs, IsFactorization w m fs := by
  rw [Ne, List.eq_nil_iff_forall_not_mem]
  push Not
  constructor
  · rintro ⟨fs, hfs⟩
    exact ⟨fs, isFactorization_of_mem hw m hfs⟩
  · rintro ⟨fs, hfs⟩
    obtain ⟨fs', hfs', -⟩ := factorizations_complete hw m hfs
    exact ⟨fs', hfs'⟩

/-- The factors that occur in the listing are those that occur in some factorization. -/
theorem mem_flatten_factorizations (hw : IsGraded w) {m f : Mixed} :
    f ∈ (factorizations (orderTable w) m).flatten ↔ ∃ fs, IsFactorization w m fs ∧ f ∈ fs := by
  rw [List.mem_flatten]
  constructor
  · rintro ⟨fs, hfs, hf⟩
    exact ⟨fs, isFactorization_of_mem hw m hfs, hf⟩
  · rintro ⟨fs, hfs, hf⟩
    obtain ⟨fs', hfs', hp⟩ := factorizations_complete hw m hfs
    exact ⟨fs', hfs', hp.mem_iff.mpr hf⟩

/-! ## The products of the chain rule -/

namespace Inquiry

theorem chainProducts_zero (arg : NodeId) : chainProducts arg 0 = pure 1 := by
  rw [chainProducts, recurse_eq, if_pos rfl]

theorem chainProducts_succ (arg : NodeId) (order : Nat) :
    chainProducts arg (order + 1) = union
      (fun k => do
        let first ← answer ⟨arg, k + 1⟩
        if first.isEmpty then
          return ∅
        else
          return first * (← chainProducts arg (order - k)))
      (List.range (order + 1)) := by
  rw [chainProducts, recurse_eq, if_neg (by omega)]
  congr 1
  funext k
  have hk : order - k < order + 1 := by omega
  simp only [Nat.add_sub_add_right, hk, if_true]
  rfl

theorem asksOnly_chainProducts (arg : NodeId) (order : Nat) :
    (chainProducts arg order).AsksOnly fun place => place.node = arg := by
  induction order using Nat.strongRecOn with
  | ind order ih =>
    cases order with
    | zero =>
      rw [chainProducts_zero]
      exact asksOnly_pure _
    | succ order =>
      rw [chainProducts_succ]
      refine asksOnly_union fun k hk => asksOnly_bind (asksOnly_answer rfl) fun first => ?_
      refine asksOnly_ite (fun _ => asksOnly_pure _) fun _ => ?_
      exact asksOnly_bind (ih _ (by have := List.mem_range.mp hk; omega)) fun _ => asksOnly_pure _

/-- **The chain rule yields the derivatives that have a factorization.** -/
theorem mem_chainProducts {answers : Place → MixedSet} {arg : NodeId}
    (hw : IsGraded fun k => answers ⟨arg, k⟩) (order : Nat) {m : Mixed} :
    m ∈ (chainProducts arg order).value answers ↔
      m.order = order ∧ ∃ fs, IsFactorization (fun k => answers ⟨arg, k⟩) m fs := by
  induction order using Nat.strongRecOn generalizing m with
  | ind order ih =>
    cases order with
    | zero =>
      rw [chainProducts_zero, value_pure, MixedSet.mem_one, Mixed.order_eq_zero]
      constructor
      · rintro rfl
        exact ⟨rfl, [], .nil⟩
      · exact fun h => h.1
    | succ order =>
      have step : m ∈ (chainProducts arg (order + 1)).value answers ↔ ∃ k ≤ order,
          ∃ f ∈ answers ⟨arg, k + 1⟩, ∃ r ∈ (chainProducts arg (order - k)).value answers, f * r = m := by
        rw [chainProducts_succ]
        simp only [value_union, SortedSet.mem_unions, List.mem_map, List.mem_range, Nat.lt_succ_iff,
          exists_exists_and_eq_and, value_bind, value_answer, value_ite, value_pure]
        refine exists_congr fun k => and_congr_right fun _ => ?_
        split
        · rename_i he
          rw [Std.ExtTreeSet.isEmpty_iff.mp he]
          simp
        · rw [MixedSet.mem_mul]
      rw [step]
      constructor
      · rintro ⟨k, hk, f, hf, r, hr, rfl⟩
        obtain ⟨hfk, -⟩ := hw _ f hf
        obtain ⟨hrk, fs, hfs⟩ := (ih _ (by omega)).mp hr
        refine ⟨by rw [Mixed.order_mul]; omega, f :: fs, hfs.cons (by omega) ?_⟩
        rwa [hfk]
      · rintro ⟨hm, fs, hfs⟩
        cases fs with
        | nil =>
          rw [← hfs.prod_eq] at hm
          simp at hm
        | cons f fs =>
          have hpos := hfs.order_pos f (by simp)
          have hle := hfs.order_le (f := f) (by simp)
          obtain ⟨r, rfl, hr⟩ := hfs.erase (f := f) (by simp)
          rw [Mixed.order_mul] at hm
          have hf : f ∈ answers ⟨arg, f.order - 1 + 1⟩ := by
            rw [Nat.sub_add_cancel hpos]
            exact hfs.mem f (by simp)
          refine ⟨f.order - 1, by omega, f, hf, r, ?_, rfl⟩
          exact (ih _ (by omega)).mpr ⟨by omega, _, hr⟩

end Inquiry

end FormSparsity
