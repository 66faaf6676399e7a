import FormSparsity.Proofs.Session.Runs
import Mathlib.Data.List.Nodup

/-!
Required derivatives told apart. In every session that a run reaches, the required derivatives of a node
that is ready are told apart as if all nonzero derivatives had been demanded (`told_apart_unrestricted`).
Once they have been told apart they stay the same, and the constant and the varying ones make up a
partition of them whenever they are found (`told_apart_for_good`).
-/
namespace FormSparsity.Session

variable {g : Graph} {s s' : Session} {p : Pass} {n : NodeId} {k : Nat}

/-! ## Calls on nodes that exist and on nodes that are ready -/

theorem run_findNonzero (hg : g.WellFormed) (hs : s.Consistent g) {node : Node} (hn : g.node? n = some node)
    (k : Nat) : ∃ s', (findNonzero g p n k).run.run s = (.ok (g.nonzero n k), s') := by
  obtain ⟨_, s', h, rfl, -⟩ :=
    ((ends_findNonzero hg p hs n k).mono (fun _ _ h => h) fun _ _ h => by simp [NotThere, hn] at h).exists_ok
  exact ⟨s', h⟩

/-- Nonzero sets of a node that exists are found, and the session is consistent still. -/
theorem ends_findNonzero_of_lt (hg : g.WellFormed) (p : Pass) (hs : s.Consistent g) (hn : n < g.size) (k : Nat) :
    Ends (findNonzero g p n k) s (fun set s' => set = g.nonzero n k ∧ s'.Consistent g) fun _ _ => False := by
  obtain ⟨node, hnode⟩ := Graph.exists_node? hn
  exact (ends_findNonzero hg p hs n k).mono (fun _ _ h => ⟨h.1, h.2.1⟩) fun _ _ h => by simp [NotThere, hnode] at h

theorem run_findNonzero_consistent (hg : g.WellFormed) (p : Pass) (hs : s.Consistent g) (hn : n < g.size) (k : Nat) :
    ∃ s', (findNonzero g p n k).run.run s = (.ok (g.nonzero n k), s') ∧ s'.Consistent g := by
  obtain ⟨_, s', hrun, rfl, hs'⟩ := (ends_findNonzero_of_lt hg p hs hn k).exists_ok
  exact ⟨s', hrun, hs'⟩

theorem run_findRequired (hs : s.Consistent g) (hn : ⟨p.id, n⟩ ∈ s.ready) (k : Nat) :
    (findRequired g p n k).run.run s = (.ok (s.requiredSet p.id n k), s) := by
  obtain ⟨_, _, h, rfl, -, rfl⟩ :=
    ((ends_findRequired hs p n k).mono (fun _ _ h => h) fun _ _ h => absurd hn h.1).exists_ok
  exact h

theorem run_findVarying (hg : g.WellFormed) (hs : s.Consistent g) (hn : ⟨p.id, n⟩ ∈ s.ready) (k : Nat) :
    ∃ s', (findVarying g p n k).run.run s = (.ok (g.varying n k ∩ s.requiredSet p.id n k), s') := by
  obtain ⟨_, s', h, ⟨rfl, -⟩, -⟩ :=
    ((ends_findVarying hg p hs n k).mono (fun _ _ h => h) fun _ _ h => absurd hn h.1).exists_ok
  exact ⟨s', h⟩

theorem run_findConstant (hg : g.WellFormed) (hs : s.Consistent g) (hn : ⟨p.id, n⟩ ∈ s.ready) (k : Nat) :
    ∃ s', (findConstant g p n k).run.run s = (.ok (s.requiredSet p.id n k \ g.varying n k), s') := by
  obtain ⟨_, s', h, ⟨rfl, -⟩, -⟩ :=
    ((ends_findConstant hg p hs n k).mono (fun _ _ h => h) fun _ _ h => absurd hn h.1).exists_ok
  exact ⟨s', h⟩

theorem run_classify (hg : g.WellFormed) (hs : s.Consistent g) (hn : ⟨p.id, n⟩ ∈ s.ready) :
    ∃ c s', (classify g p n).run.run s = (.ok c, s') ∧
      s.Classifies g p.id n (List.range (maxOrder + 1)) c := by
  obtain ⟨c, s', h, hc, -⟩ :=
    ((ends_classify hg p hs n).mono (fun _ _ h => h) fun _ _ h => absurd hn h.1).exists_ok
  exact ⟨c, s', h, hc⟩

/-! ## Variability does not depend on demand -/

/-- A session in which the derivative of `D0[x0*v]` by the variation was demanded. -/
def slopeDemanded : Session :=
  (((Call.require 3 [∅, {.ofAtom (.functional 7 .value)}]).run Graph.slopeOfProduct default).run.run {}).2

theorem reachable_slopeDemanded : slopeDemanded.Reachable Graph.slopeOfProduct :=
  Reachable.call ⟨{}, .refl⟩ default (.require 3 _)

/-- A session in which the derivatives of `D0[x0*v]` by the variation and by its slope were demanded. -/
def slopesDemanded : Session :=
  after (require Graph.slopeOfProduct default 3
    [∅, {.ofAtom (.functional 7 .value), .ofAtom (.functional 7 (.derivative ⟨1, 0, 0⟩))}]) {}

theorem reachable_slopesDemanded : slopesDemanded.Reachable Graph.slopeOfProduct :=
  Reachable.require ⟨{}, .refl⟩ default 3 _

/-- **The required derivatives of a node that is ready are told apart as if all nonzero derivatives had
been demanded,** in whichever state a run has left the session. So whether a required derivative varies
is the same in all passes of all sessions. -/
theorem told_apart_unrestricted (hg : g.Built) (hs : s.Reachable g) (p : Pass) (hn : ⟨p.id, n⟩ ∈ s.ready) :
    (∀ k, ∃ required, (findRequired g p n k).run.run s = (.ok required, s) ∧
      (∃ s', (findVarying g p n k).run.run s = (.ok (g.varying n k ∩ required), s')) ∧
      ∃ s', (findConstant g p n k).run.run s = (.ok (required \ g.varying n k), s')) ∧
    ∀ (t : Session) (q : Pass), t.Reachable g → ⟨q.id, n⟩ ∈ t.ready →
      ∃ (table other : Classification) (s' t' : Session),
        (classify g p n).run.run s = (.ok table, s') ∧ (classify g q n).run.run t = (.ok other, t') ∧
          ∀ (m : Mixed) (v w : Variability), table[m]? = some v → other[m]? = some w → v = w := by
  have hs := hs.consistent hg.wellFormed
  refine ⟨fun k => ⟨_, run_findRequired hs hn k, run_findVarying hg.wellFormed hs hn k,
    run_findConstant hg.wellFormed hs hn k⟩, fun t q ht hq => ?_⟩
  obtain ⟨table, s', htable, hlists⟩ := run_classify hg.wellFormed hs hn
  obtain ⟨other, t', hother, hlists'⟩ := run_classify hg.wellFormed (ht.consistent hg.wellFormed) hq
  refine ⟨table, other, s', t', htable, hother, fun m v w hv hw => ?_⟩
  rw [((hlists m v).mp hv).2.2, ((hlists' m w).mp hw).2.2]

/-- The mixed derivative of the product by the coordinate and the variation is constant. With the derivative of
`D0[x0*v]` by the slope of the variation, that of the product by the variation is required too, and varies. Both
sessions tell the derivatives of the product apart in the same way. -/
theorem told_apart_unrestricted_slopeDemanded :
    Graph.slopeOfProduct.Built ∧ slopeDemanded.Reachable Graph.slopeOfProduct ∧
    (⟨0, 2⟩ : NodeKey) ∈ slopeDemanded.ready ∧
    Mixed.ofList [.coordinate 0, .functional 7 .value] ∈ slopeDemanded.requiredSet 0 2 2 ∧
    Mixed.ofList [.coordinate 0, .functional 7 .value] ∉ Graph.slopeOfProduct.varying 2 2 ∧
    (∃ required, (findRequired Graph.slopeOfProduct default 2 2).run.run slopeDemanded =
      (.ok required, slopeDemanded) ∧
      (∃ s', (findVarying Graph.slopeOfProduct default 2 2).run.run slopeDemanded =
        (.ok (Graph.slopeOfProduct.varying 2 2 ∩ required), s')) ∧
      ∃ s', (findConstant Graph.slopeOfProduct default 2 2).run.run slopeDemanded =
        (.ok (required \ Graph.slopeOfProduct.varying 2 2), s')) ∧
    slopesDemanded.Reachable Graph.slopeOfProduct ∧ (⟨0, 2⟩ : NodeKey) ∈ slopesDemanded.ready ∧
    (∃ required, (findRequired Graph.slopeOfProduct default 2 1).run.run slopesDemanded =
      (.ok required, slopesDemanded) ∧
      Mixed.ofAtom (.functional 7 .value) ∈ Graph.slopeOfProduct.varying 2 1 ∩ required ∧
      ∃ s', (findVarying Graph.slopeOfProduct default 2 1).run.run slopesDemanded =
        (.ok (Graph.slopeOfProduct.varying 2 1 ∩ required), s')) ∧
    ∃ (table other : Classification) (s' t' : Session),
      (classify Graph.slopeOfProduct default 2).run.run slopeDemanded = (.ok table, s') ∧
      (classify Graph.slopeOfProduct default 2).run.run slopesDemanded = (.ok other, t') ∧
      ∀ (m : Mixed) (v w : Variability), table[m]? = some v → other[m]? = some w → v = w := by
  have hg := Graph.built_slopeOfProduct
  have hready : (⟨0, 2⟩ : NodeKey) ∈ slopeDemanded.ready := by decide +kernel
  have hready' : (⟨0, 2⟩ : NodeKey) ∈ slopesDemanded.ready := by decide +kernel
  obtain ⟨hsets, htables⟩ := told_apart_unrestricted hg reachable_slopeDemanded default hready
  obtain ⟨required, hrequired, hvarying, -⟩ :=
    (told_apart_unrestricted hg reachable_slopesDemanded default hready').1 1
  have hs := reachable_slopesDemanded.consistent hg.wellFormed
  obtain ⟨rfl, -⟩ := (ends_findRequired hs default 2 1).of_ok hrequired
  exact ⟨hg, reachable_slopeDemanded, hready, by decide +kernel, by decide +kernel, hsets 2,
    reachable_slopesDemanded, hready', ⟨_, hrequired, by decide +kernel, hvarying⟩,
    htables slopesDemanded default reachable_slopesDemanded hready'⟩

/-! ## Required derivatives are told apart for good -/

/-- The entries that the constant and the varying derivatives of the orders from zero to `maxOrder` make
up, one after the other. -/
def entriesOf (constant varying : Nat → MixedSet) : List (Mixed × Variability) :=
  (List.range (maxOrder + 1)).flatMap fun k =>
    (constant k).toList.map (·, .constant) ++ (varying k).toList.map (·, .varying)

theorem mem_entriesOf {constant varying : Nat → MixedSet} {m : Mixed} {v : Variability} :
    (m, v) ∈ entriesOf constant varying ↔
      ∃ k ≤ maxOrder, m ∈ constant k ∧ v = .constant ∨ m ∈ varying k ∧ v = .varying := by
  simp only [entriesOf, List.mem_flatMap, List.mem_range, Nat.lt_succ_iff, List.mem_append, List.mem_map,
    Prod.mk.injEq, Std.ExtTreeSet.mem_toList, eq_comm (b := v)]
  simp

theorem nodup_toList {set : MixedSet} : set.toList.Nodup :=
  Std.ExtTreeSet.distinct_toList.imp fun h heq => h (Std.LawfulEqOrd.compare_eq_iff_eq.mpr heq)

/-- No derivative has two entries of one kind if the derivatives of an order are of that order. -/
theorem nodup_entriesOf {constant varying : Nat → MixedSet} (hconstant : ∀ k, ∀ m ∈ constant k, m.order = k)
    (hvarying : ∀ k, ∀ m ∈ varying k, m.order = k) : (entriesOf constant varying).Nodup := by
  have hinj : ∀ v : Variability, Function.Injective fun m : Mixed => (m, v) := fun v m m' h => by
    simpa using h
  refine List.nodup_flatMap.mpr ⟨fun k _ => ?_, ?_⟩
  · refine (nodup_toList.map (hinj _)).append (nodup_toList.map (hinj _)) fun e he he' => ?_
    obtain ⟨m, -, rfl⟩ := List.mem_map.mp he
    obtain ⟨m', -, h⟩ := List.mem_map.mp he'
    cases h
  · refine (List.nodup_range).imp fun {j k} hjk e he he' => hjk ?_
    have horder : ∀ i, e ∈ (constant i).toList.map (·, .constant) ++ (varying i).toList.map (·, .varying) →
        e.1.order = i := by
      intro i hi
      rcases List.mem_append.mp hi with hi | hi
      · obtain ⟨m, hm, rfl⟩ := List.mem_map.mp hi
        exact hconstant i m (Std.ExtTreeSet.mem_toList.mp hm)
      · obtain ⟨m, hm, rfl⟩ := List.mem_map.mp hi
        exact hvarying i m (Std.ExtTreeSet.mem_toList.mp hm)
    rw [← horder j he, horder k he']

/-- A classification has the constant and the varying derivatives as its entries: no entry was put in the
place of another one. -/
theorem Classifies.perm_entriesOf (hg : g.WellFormed) (hs : s.Consistent g) {c : Classification}
    (hc : s.Classifies g p.id n (List.range (maxOrder + 1)) c) :
    c.toList.Perm (entriesOf (fun k => s.requiredSet p.id n k \ g.varying n k)
      fun k => g.varying n k ∩ s.requiredSet p.id n k) := by
  have horder : ∀ {k m}, m ∈ s.requiredSet p.id n k → m.order = k := fun hm =>
    Graph.order_of_mem_nonzero hg (hs.mem_nonzero hm)
  refine (List.perm_ext_iff_of_nodup ?_ (nodup_entriesOf ?_ ?_)).mpr fun e => ?_
  · exact Std.ExtTreeMap.distinct_keys_toList.imp fun h heq =>
      h (Std.LawfulEqOrd.compare_eq_iff_eq.mpr (congrArg Prod.fst heq))
  · exact fun k m hm => horder (Std.ExtTreeSet.mem_diff_iff.mp hm).1
  · exact fun k m hm => horder (Std.ExtTreeSet.mem_inter_iff.mp hm).2
  · obtain ⟨m, v⟩ := e
    rw [Std.ExtTreeMap.mem_toList_iff_getElem?_eq_some, hc m v, mem_entriesOf]
    simp only [Std.ExtTreeSet.mem_diff_iff, Std.ExtTreeSet.mem_inter_iff, List.mem_range, Nat.lt_succ_iff]
    constructor
    · rintro ⟨hk, hm, rfl⟩
      by_cases hv : m ∈ g.varying n m.order
      · exact ⟨m.order, hk, .inr ⟨⟨hv, hm⟩, if_pos hv⟩⟩
      · exact ⟨m.order, hk, .inl ⟨⟨hm, hv⟩, if_neg hv⟩⟩
    · rintro ⟨k, hk, ⟨⟨hm, hv⟩, rfl⟩ | ⟨⟨hv, hm⟩, rfl⟩⟩
      · obtain rfl := horder hm
        exact ⟨hk, hm, (if_neg hv).symm⟩
      · obtain rfl := horder hm
        exact ⟨hk, hm, (if_pos hv).symm⟩

/-- **Required derivatives are told apart for good.** In whichever state a run has left the session,
only nonzero derivatives are required. Once the constant or the varying ones of a place have been found,
now or on the way, the required ones stay what they are for the rest of the run, and constant and
varying ones found at any later times make up a partition of them. The classification of a node that is
ready has the constant and the varying ones of all orders as its entries, each of them once. -/
theorem told_apart_for_good (hg : g.Built) (hs : s.Reachable g) (p : Pass) (n : NodeId) :
    (∀ k required nonzero s₁ s₂, (findRequired g p n k).run.run s = (.ok required, s₁) →
      (findNonzero g p n k).run.run s = (.ok nonzero, s₂) → ∀ m ∈ required, m ∈ nonzero) ∧
    (∀ k ≤ maxOrder, ∀ set s₁, (findConstant g p n k).run.run s = (.ok set, s₁) ∨
        (findVarying g p n k).run.run s = (.ok set, s₁) ∨ s.isClassified p.id n k = true ∧ s₁ = s →
      ∃ required, (findRequired g p n k).run.run s = (.ok required, s) ∧
        ∀ t u, Later g s₁ t → Later g s₁ u →
          (findRequired g p n k).run.run t = (.ok required, t) ∧
          ∃ constant varying t' u', (findConstant g p n k).run.run t = (.ok constant, t') ∧
            (findVarying g p n k).run.run u = (.ok varying, u') ∧
            (∀ m, m ∈ required ↔ m ∈ constant ∨ m ∈ varying) ∧ ∀ m ∈ constant, m ∉ varying) ∧
    (⟨p.id, n⟩ ∈ s.ready → ∃ (c : Classification) (s₁ : Session) (constant varying : Nat → MixedSet),
      (classify g p n).run.run s = (.ok c, s₁) ∧
      (∀ k ≤ maxOrder, (∃ t, (findConstant g p n k).run.run s = (.ok (constant k), t)) ∧
        ∃ t, (findVarying g p n k).run.run s = (.ok (varying k), t)) ∧
      c.toList.Perm (entriesOf constant varying)) := by
  have hw := hg.wellFormed
  have hs := hs.consistent hw
  refine ⟨fun k required nonzero s₁ s₂ hr hn m hm => ?_, fun k hk set s₁ hset => ?_, fun hn => ?_⟩
  · obtain ⟨rfl, -⟩ := (ends_findRequired hs p n k).of_ok hr
    obtain ⟨rfl, -⟩ := (ends_findNonzero hw p hs n k).of_ok hn
    exact hs.mem_nonzero hm
  · obtain ⟨hready, hs₁, ht, hclass⟩ : ⟨p.id, n⟩ ∈ s.ready ∧ s₁.Consistent g ∧ TellsApart s s₁ ∧
        s₁.isClassified p.id n k = true := by
      rcases hset with hset | hset | ⟨hclass, rfl⟩
      · obtain ⟨hright, hs₁, ht, hkept⟩ := (ends_findConstant hw p hs n k).of_ok hset
        exact ⟨hright.2 hk, hs₁, ht, isClassified_iff.mpr ⟨_, .inl rfl, _, hkept⟩⟩
      · obtain ⟨hright, hs₁, ht, hkept⟩ := (ends_findVarying hw p hs n k).of_ok hset
        exact ⟨hright.2 hk, hs₁, ht, isClassified_iff.mpr ⟨_, .inr rfl, _, hkept⟩⟩
      · exact ⟨hs.ready_of_isClassified hk hclass, hs, .refl s₁, hclass⟩
    -- whatever comes later has the same required derivatives
    have hlater : ∀ t, Later g s₁ t → t.Consistent g ∧ ⟨p.id, n⟩ ∈ t.ready ∧
        t.requiredSet p.id n k = s.requiredSet p.id n k := by
      intro t hlater
      obtain ⟨hcons, hext⟩ := hlater.consistent_extends hw hs₁
      exact ⟨hcons, hext.ready _ (ht.ready ▸ hready), (hext.frozen _ _ _ hclass).trans (ht.required _ _ _)⟩
    refine ⟨_, run_findRequired hs hready k, fun t u hlt hlu => ?_⟩
    obtain ⟨hct, hrt, het⟩ := hlater t hlt
    obtain ⟨hcu, hru, heu⟩ := hlater u hlu
    obtain ⟨t', ht'⟩ := run_findConstant hw hct hrt k
    obtain ⟨u', hu'⟩ := run_findVarying hw hcu hru k
    refine ⟨by rw [run_findRequired hct hrt k, het], _, _, t', u', ht', hu', fun m => ?_, fun m hm hv => ?_⟩
    · rw [het, heu, Std.ExtTreeSet.mem_diff_iff, Std.ExtTreeSet.mem_inter_iff]
      grind
    · exact (Std.ExtTreeSet.mem_diff_iff.mp hm).2 (Std.ExtTreeSet.mem_inter_iff.mp hv).1
  · obtain ⟨c, s₁, hc, hclass⟩ := run_classify hw hs hn
    exact ⟨c, s₁, _, _, hc, fun k _ => ⟨run_findConstant hw hs hn k, run_findVarying hw hs hn k⟩,
      hclass.perm_entriesOf hw hs⟩

/-- The session in which the required derivatives of the product have then been told apart. -/
def slopeToldApart : Session :=
  (((Call.classify 2).run Graph.slopeOfProduct default).run.run slopeDemanded).2

theorem reachable_slopeToldApart : slopeToldApart.Reachable Graph.slopeOfProduct :=
  reachable_slopeDemanded.call default (.classify 2)

/-- In that session the second derivatives of the product can be found at any later time. -/
theorem told_apart_for_good_slopeToldApart :
    Graph.slopeOfProduct.Built ∧ slopeToldApart.Reachable Graph.slopeOfProduct ∧
    2 ≤ maxOrder ∧ slopeToldApart.isClassified 0 2 2 = true ∧
    ∃ required, (findRequired Graph.slopeOfProduct default 2 2).run.run slopeToldApart =
        (.ok required, slopeToldApart) ∧
      ∀ t u, Later Graph.slopeOfProduct slopeToldApart t → Later Graph.slopeOfProduct slopeToldApart u →
        (findRequired Graph.slopeOfProduct default 2 2).run.run t = (.ok required, t) ∧
        ∃ constant varying t' u',
          (findConstant Graph.slopeOfProduct default 2 2).run.run t = (.ok constant, t') ∧
          (findVarying Graph.slopeOfProduct default 2 2).run.run u = (.ok varying, u') ∧
          (∀ m, m ∈ required ↔ m ∈ constant ∨ m ∈ varying) ∧ ∀ m ∈ constant, m ∉ varying := by
  have hclass : slopeToldApart.isClassified 0 2 2 = true := by decide +kernel
  have hle : 2 ≤ maxOrder := by decide
  exact ⟨Graph.built_slopeOfProduct, reachable_slopeToldApart, hle, hclass,
    (told_apart_for_good Graph.built_slopeOfProduct reachable_slopeToldApart default 2).2.1 2 hle ∅
      slopeToldApart (.inr (.inr ⟨hclass, rfl⟩))⟩

end FormSparsity.Session
