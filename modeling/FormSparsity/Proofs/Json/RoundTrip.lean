import FormSparsity.Json.Derivative
import FormSparsity.Json.Pass
import FormSparsity.Proofs.Json.Codec
import Mathlib.Data.List.Perm.Basic

/-!
Derivatives, domains and settings as texts. Values of each type are read as they are written, if their numbers fit
into the widths of the format, and no others are read (`isFaithful_codec`). Mixed derivatives and their sets are read
in any order (`Mixed.decode_eq_of_reorders`, `MixedSet.decode_eq_of_relists`) and written in one, so that texts have
normal forms (`codecs_areLossless`).
-/
namespace FormSparsity

open Json

/-! ## Derivatives -/

/-- Functions are numbers of 32 bits. -/
def FunctionId.Fits (f : FunctionId) : Prop := f < 0x100000000

theorem FunctionId.isFaithful_codec : FunctionId.codec.IsFaithful FunctionId.Fits where
  isDefinite f := isDefinite_ofInt f
  decode_encode h := nat?_ofNat h
  fits h := nat?_eq_some h

/-- The entries of a multi-index are integers of 32 bits. -/
def MultiIndex.Fits (α : MultiIndex) : Prop := ∀ n ∈ α.entries, -0x80000000 ≤ n ∧ n ≤ 0x7fffffff

theorem MultiIndex.isFaithful_codec : MultiIndex.codec.IsFaithful MultiIndex.Fits where
  isDefinite α := isDefinite_array (List.forall_mem_map.mpr fun n _ => isDefinite_ofInt n)
  decode_encode {α} h := by
    have hlist := list?_array fun n hn => int?_ofInt (h n hn)
    exact Option.bind_eq_some_iff.mpr ⟨α.entries, hlist, rfl⟩
  fits {v α} h := by
    obtain ⟨l, hl, h⟩ := Option.bind_eq_some_iff.mp h
    split at h
    · cases h
      intro n hn
      obtain ⟨w, hw⟩ := exists_of_mem_list? hl hn
      exact int?_eq_some hw
    · cases h

/-- The order of a normal derivative is a number of 32 bits. -/
def Operator.Fits : Operator → Prop
  | derivative α => α.Fits
  | normal k => k < 0x100000000
  | _ => True

theorem Operator.isFaithful_codec : Operator.codec.IsFaithful Operator.Fits where
  isDefinite
    | value => isDefinite_ofString _
    | derivative α => isDefinite_ofVariant (MultiIndex.isFaithful_codec.isDefinite α)
    | divergence => isDefinite_ofString _
    | normal k => isDefinite_ofVariant (isDefinite_ofNat k)
  decode_encode {p} h := by
    cases p with
    | value => rfl
    | derivative α => exact congrArg (Option.map derivative) (MultiIndex.isFaithful_codec.decode_encode h)
    | divergence => rfl
    | normal k => exact congrArg (Option.map normal) (nat?_ofNat h)
  fits {v p} h := by
    obtain ⟨⟨name, content⟩, -, h⟩ := Option.bind_eq_some_iff.mp h
    split at h
    · obtain ⟨α, hα, rfl⟩ := Option.map_eq_some_iff.mp h
      exact MultiIndex.isFaithful_codec.fits hα
    · obtain ⟨k, hk, rfl⟩ := Option.map_eq_some_iff.mp h
      exact nat?_eq_some hk
    · obtain ⟨name, -, h⟩ := Option.bind_eq_some_iff.mp h
      split at h <;> cases h <;> trivial

/-- Directions are numbers of 64 bits. -/
def Atom.Fits : Atom → Prop
  | coordinate d => d < 0x10000000000000000
  | functional f p => f.Fits ∧ p.Fits

theorem Atom.isFaithful_codec : Atom.codec.IsFaithful Atom.Fits where
  isDefinite
    | coordinate d => isDefinite_ofVariant (isDefinite_ofNat d)
    | functional f p => isDefinite_ofVariant <|
      isDefinite_pair (FunctionId.isFaithful_codec.isDefinite f) (Operator.isFaithful_codec.isDefinite p)
  decode_encode {a} h := by
    cases a with
    | coordinate d => exact congrArg (Option.map coordinate) (nat?_ofNat h)
    | functional f p =>
      have hf := FunctionId.isFaithful_codec.decode_encode h.1
      have hp := Operator.isFaithful_codec.decode_encode h.2
      -- The names of the parts are closed texts, so that the parts are found by computation.
      exact Option.bind_eq_some_iff.mpr ⟨f, hf, Option.bind_eq_some_iff.mpr ⟨p, hp, rfl⟩⟩
  fits {v a} h := by
    obtain ⟨⟨name, content⟩, -, h⟩ := Option.bind_eq_some_iff.mp h
    split at h
    · obtain ⟨d, hd, rfl⟩ := Option.map_eq_some_iff.mp h
      exact nat?_eq_some hd
    · obtain ⟨_, _, _, _, hf, hp, rfl⟩ := exists_of_pair h
      exact ⟨FunctionId.isFaithful_codec.fits hf, Operator.isFaithful_codec.fits hp⟩
    · cases h

/-- All atoms of a mixed derivative fit. -/
def Mixed.Fits (m : Mixed) : Prop := ∀ a ∈ m.atoms, a.Fits

theorem Mixed.isFaithful_codec : Mixed.codec.IsFaithful Mixed.Fits where
  isDefinite m := isDefinite_array (List.forall_mem_map.mpr fun a _ => Atom.isFaithful_codec.isDefinite a)
  decode_encode {m} h := by
    have hlist := list?_array fun a ha => Atom.isFaithful_codec.decode_encode (h a ha)
    exact Option.map_eq_some_iff.mpr ⟨m.atoms, hlist, ofList_atoms⟩
  fits {v m} h a ha := by
    obtain ⟨l, hl, rfl⟩ := Option.map_eq_some_iff.mp h
    obtain ⟨w, hw⟩ := exists_of_mem_list? hl (perm_ofList.mem_iff.mp ha)
    exact Atom.isFaithful_codec.fits hw

/-- All members of a set fit. -/
def MixedSet.Fits (s : MixedSet) : Prop := ∀ m ∈ s, m.Fits

theorem MixedSet.ofValues_toList (s : MixedSet) : SortedSet.ofValues s.toList = s :=
  Std.ExtTreeSet.ext_mem fun _ => SortedSet.mem_ofValues.trans Std.ExtTreeSet.mem_toList

theorem MixedSet.isFaithful_codec : MixedSet.codec.IsFaithful MixedSet.Fits where
  isDefinite s := isDefinite_array (List.forall_mem_map.mpr fun m _ => Mixed.isFaithful_codec.isDefinite m)
  decode_encode {s} h := by
    have hlist := list?_array fun (m : Mixed) (hm : m ∈ s.toList) =>
      Mixed.isFaithful_codec.decode_encode (h m (Std.ExtTreeSet.mem_toList.mp hm))
    exact Option.map_eq_some_iff.mpr ⟨s.toList, hlist, ofValues_toList s⟩
  fits {v s} h m hm := by
    obtain ⟨l, hl, rfl⟩ := Option.map_eq_some_iff.mp h
    obtain ⟨w, hw⟩ := exists_of_mem_list? hl (SortedSet.mem_ofValues.mp hm)
    exact Mixed.isFaithful_codec.fits hw

/-! ## Domains -/

/-- The dimension of a region is a number of 64 bits. -/
def Region.Fits (r : Region) : Prop := r.cellDimension < 0x10000000000000000

theorem Region.isFaithful_codec : Region.codec.IsFaithful Region.Fits where
  isDefinite r := isDefinite_pair (isDefinite_ofString r.name) (isDefinite_ofNat r.cellDimension)
  decode_encode {r} h := Option.bind_eq_some_iff.mpr ⟨r.cellDimension, nat?_ofNat h, rfl⟩
  fits {v r} h := by
    obtain ⟨_, _, _, _, -, hdimension, rfl⟩ := exists_of_pair h
    exact nat?_eq_some hdimension

theorem QuadratureFamily.isFaithful_codec : QuadratureFamily.codec.IsFaithful fun _ => True where
  isDefinite f := isDefinite_ofString f.text
  decode_encode {f} _ := by cases f <;> rfl
  fits _ := trivial

/-- The order of a rule is a number of 64 bits. -/
def Quadrature.Fits (q : Quadrature) : Prop := q.order < 0x10000000000000000

theorem Quadrature.isFaithful_codec : Quadrature.codec.IsFaithful Quadrature.Fits where
  isDefinite q := isDefinite_pair (QuadratureFamily.isFaithful_codec.isDefinite q.family) (isDefinite_ofNat q.order)
  decode_encode {q} h := by
    have hfamily := QuadratureFamily.isFaithful_codec.decode_encode (a := q.family) trivial
    exact Option.bind_eq_some_iff.mpr ⟨q.family, hfamily, Option.bind_eq_some_iff.mpr ⟨_, nat?_ofNat h, rfl⟩⟩
  fits {v q} h := by
    obtain ⟨_, _, _, _, -, horder, rfl⟩ := exists_of_pair h
    exact nat?_eq_some horder

/-- Region and rule fit. -/
def Domain.Fits (d : Domain) : Prop := d.region.Fits ∧ d.quadrature.Fits

theorem Domain.isFaithful_codec : Domain.codec.IsFaithful Domain.Fits where
  isDefinite d := isDefinite_pair (Region.isFaithful_codec.isDefinite d.region)
    (Quadrature.isFaithful_codec.isDefinite d.quadrature)
  decode_encode {d} h := by
    have hregion := Region.isFaithful_codec.decode_encode h.1
    have hquadrature := Quadrature.isFaithful_codec.decode_encode h.2
    exact Option.bind_eq_some_iff.mpr ⟨_, hregion, Option.bind_eq_some_iff.mpr ⟨_, hquadrature, rfl⟩⟩
  fits {v d} h := by
    obtain ⟨_, _, _, _, hregion, hquadrature, rfl⟩ := exists_of_pair h
    exact ⟨Region.isFaithful_codec.fits hregion, Quadrature.isFaithful_codec.fits hquadrature⟩

/-! ## Settings -/

theorem Computation.isFaithful_codec : Computation.codec.IsFaithful fun _ => True where
  isDefinite c := isDefinite_ofString c.text
  decode_encode {c} _ := by cases c <;> rfl
  fits _ := trivial

theorem Verbosity.isFaithful_codec : Verbosity.codec.IsFaithful fun _ => True where
  isDefinite v := isDefinite_ofString v.text
  decode_encode {v} _ := by cases v <;> rfl
  fits _ := trivial

theorem Settings.isFaithful_codec : Settings.codec.IsFaithful fun _ => True where
  isDefinite s := by
    have hverbosity := Verbosity.isFaithful_codec.isDefinite s.verbosity
    have hcomputations : (Json.array (s.computations.map Computation.codec.encode)).IsDefinite :=
      isDefinite_array (List.forall_mem_map.mpr fun c _ => Computation.isFaithful_codec.isDefinite c)
    have hboundary : (ofBool s.includeBoundary).IsDefinite := isDefinite_scalar trivial
    exact isDefinite_ofFields (by simp [hverbosity, hcomputations, hboundary])
  decode_encode {s} _ := by
    have hcomputations := list?_array fun c (_ : c ∈ s.computations) =>
      Computation.isFaithful_codec.decode_encode (a := c) trivial
    have hverbosity := Verbosity.isFaithful_codec.decode_encode (a := s.verbosity) trivial
    exact Option.bind_eq_some_iff.mpr ⟨_, hverbosity, Option.bind_eq_some_iff.mpr ⟨_, hcomputations, rfl⟩⟩
  fits _ := trivial

/-! ## Normal forms -/

namespace Json

/-- Values that differ at most in the order of the items of an array. -/
inductive Reorders : Json → Json → Prop
  | refl (v : Json) : Reorders v v
  | array {items items' : List Json} (h : items.Perm items') : Reorders (.array items) (.array items')

/-- Arrays that list the same items up to the order in them, each in any place and any number of times. -/
inductive Relists : Json → Json → Prop
  | array {items items' : List Json} (h : ∀ v ∈ items, ∃ w ∈ items', Reorders v w)
      (h' : ∀ w ∈ items', ∃ v ∈ items, Reorders v w) : Relists (.array items) (.array items')

end Json

namespace Mixed

theorem decode_eq_some_iff {items : List Json} {m : Mixed} : codec.decode (.array items) = some m ↔
    ∃ l, List.Forall₂ (fun v a => Atom.codec.decode v = some a) items l ∧ m.atoms.Perm l := by
  constructor
  · intro h
    obtain ⟨l, hl, rfl⟩ := Option.map_eq_some_iff.mp h
    exact ⟨l, mapM_eq_some_iff.mp hl, perm_ofList⟩
  · rintro ⟨l, hl, hm⟩
    exact Option.map_eq_some_iff.mpr ⟨l, mapM_eq_some_iff.mpr hl, eq_of_perm (perm_ofList.trans hm.symm)⟩

theorem decode_of_perm {items items' : List Json} (h : items.Perm items') {m : Mixed}
    (hm : codec.decode (.array items) = some m) : codec.decode (.array items') = some m := by
  obtain ⟨l, hl, hm⟩ := decode_eq_some_iff.mp hm
  obtain ⟨l', hl', hperm⟩ := List.perm_comp_forall₂ h.symm hl
  exact decode_eq_some_iff.mpr ⟨l', hl', hm.trans hperm.symm⟩

theorem decode_eq_of_reorders {v w : Json} (h : v.Reorders w) : codec.decode v = codec.decode w := by
  cases h with
  | refl => rfl
  | array h => exact Option.ext fun m => ⟨decode_of_perm h, decode_of_perm h.symm⟩

end Mixed

namespace MixedSet

/-- The members of a set are what the items stand for, each of which stands for something. -/
theorem decode_eq_some_iff {items : List Json} {s : MixedSet} : codec.decode (.array items) = some s ↔
    (∀ v ∈ items, ∃ m ∈ s, Mixed.codec.decode v = some m) ∧
      ∀ m ∈ s, ∃ v ∈ items, Mixed.codec.decode v = some m := by
  constructor
  · intro h
    obtain ⟨l, hl, rfl⟩ := Option.map_eq_some_iff.mp h
    simpa only [SortedSet.mem_ofValues] using mem_of_mapM_eq_some hl
  · rintro ⟨hitems, hmembers⟩
    obtain ⟨l, hl⟩ := exists_mapM_eq_some fun v hv => (hitems v hv).imp fun _ hm => hm.2
    obtain ⟨-, hvalues⟩ := mem_of_mapM_eq_some hl
    refine Option.map_eq_some_iff.mpr ⟨l, hl, Std.ExtTreeSet.ext_mem fun m => ?_⟩
    rw [SortedSet.mem_ofValues]
    constructor
    · intro hm
      obtain ⟨v, hv, hvm⟩ := hvalues m hm
      obtain ⟨n, hn, hvn⟩ := hitems v hv
      exact Option.some.inj (hvm.symm.trans hvn) ▸ hn
    · intro hm
      obtain ⟨v, hv, hvm⟩ := hmembers m hm
      obtain ⟨n, hn, hvn⟩ := (mem_of_mapM_eq_some hl).1 v hv
      exact Option.some.inj (hvm.symm.trans hvn) ▸ hn

theorem decode_of_relists {items items' : List Json} (h : ∀ v ∈ items, ∃ w ∈ items', v.Reorders w)
    (h' : ∀ w ∈ items', ∃ v ∈ items, v.Reorders w) {s : MixedSet}
    (hs : codec.decode (.array items) = some s) : codec.decode (.array items') = some s := by
  obtain ⟨hitems, hmembers⟩ := decode_eq_some_iff.mp hs
  refine decode_eq_some_iff.mpr ⟨fun w hw => ?_, fun m hm => ?_⟩
  · obtain ⟨v, hv, hvw⟩ := h' w hw
    exact Mixed.decode_eq_of_reorders hvw ▸ hitems v hv
  · obtain ⟨v, hv, hvm⟩ := hmembers m hm
    obtain ⟨w, hw, hvw⟩ := h v hv
    exact ⟨w, hw, Mixed.decode_eq_of_reorders hvw ▸ hvm⟩

theorem decode_eq_of_relists {v w : Json} (h : v.Relists w) : codec.decode v = codec.decode w := by
  have hsymm {v w : Json} (h : v.Reorders w) : w.Reorders v := by
    cases h with
    | refl => exact .refl _
    | array h => exact .array h.symm
  cases h with
  | array h h' =>
    refine Option.ext fun s => ⟨decode_of_relists h h', decode_of_relists (fun w hw => ?_) fun v hv => ?_⟩
    · exact (h' w hw).imp fun v hv => hv.imp_right hsymm
    · exact (h v hv).imp fun w hw => hw.imp_right hsymm

end MixedSet

/-! ## Texts -/

/-- What is read from a text are the atoms in it, put in order. -/
theorem Mixed.of_read {s : String} {m : Mixed} (h : codec.read s = some m) :
    m.atoms.Pairwise (compare · · |>.isLE) ∧ ∃ items l, parse? s = some (.array items) ∧
      List.Forall₂ (fun v a => Atom.codec.decode v = some a) items l ∧ m.atoms.Perm l := by
  obtain ⟨v, hv, hm⟩ := Option.bind_eq_some_iff.mp h
  cases v with
  | array items =>
    obtain ⟨l, hl, hperm⟩ := decode_eq_some_iff.mp hm
    exact ⟨m.sorted, items, l, hv, hl, hperm⟩
  | _ => cases hm

/-- What is read from a text are the mixed derivatives in it, in order and each once. -/
theorem MixedSet.of_read {s : String} {t : MixedSet} (h : codec.read s = some t) :
    t.toList.Pairwise (compare · · = .lt) ∧ ∃ items, parse? s = some (.array items) ∧
      ∀ m, m ∈ t ↔ ∃ v ∈ items, Mixed.codec.decode v = some m := by
  obtain ⟨v, hv, ht⟩ := Option.bind_eq_some_iff.mp h
  cases v with
  | array items =>
    obtain ⟨hitems, hmembers⟩ := decode_eq_some_iff.mp ht
    refine ⟨Std.ExtTreeSet.ordered_toList, items, hv, fun m => ⟨hmembers m, fun ⟨v, hv, hvm⟩ => ?_⟩⟩
    obtain ⟨n, hn, hvn⟩ := hitems v hv
    exact Option.some.inj (hvm.symm.trans hvn) ▸ hn
  | _ => cases ht

/-- **Texts carry values without loss and have normal forms.** Functions, multi-indices, operators, atoms, mixed
derivatives and their sets, regions, rules, domains, computations, verbosities and settings are read from the texts
that are written for them. All of them that fit into the widths of their numbers are, and no others are ever read.

A text of a mixed derivative is read as the atoms in it, put in order, and so alike in whatever order it lists them.
A text of a set is read as the mixed derivatives in it, in order and without repetitions, and so alike in whatever
order and however often it lists them and in whatever order each lists its atoms; texts that are not accepted are so
in any order. What was read is read again from what is written for it, so that a text which was read and written
stays as it is when it is read and written again. -/
theorem codecs_areLossless :
    FunctionId.codec.IsLossless FunctionId.Fits ∧ MultiIndex.codec.IsLossless MultiIndex.Fits ∧
    Operator.codec.IsLossless Operator.Fits ∧ Atom.codec.IsLossless Atom.Fits ∧
    Mixed.codec.IsLossless Mixed.Fits ∧ MixedSet.codec.IsLossless MixedSet.Fits ∧
    Region.codec.IsLossless Region.Fits ∧ Quadrature.codec.IsLossless Quadrature.Fits ∧
    Domain.codec.IsLossless Domain.Fits ∧ Computation.codec.IsLossless (fun _ => True) ∧
    Verbosity.codec.IsLossless (fun _ => True) ∧ Settings.codec.IsLossless (fun _ => True) ∧
    Mixed.codec.IsNormalizing Reorders ∧ MixedSet.codec.IsNormalizing Relists ∧
    (∀ s m, Mixed.codec.read s = some m → m.atoms.Pairwise (compare · · |>.isLE) ∧
      ∃ items l, parse? s = some (.array items) ∧
        List.Forall₂ (fun v a => Atom.codec.decode v = some a) items l ∧ m.atoms.Perm l) ∧
    (∀ s t, MixedSet.codec.read s = some t → t.toList.Pairwise (compare · · = .lt) ∧
      ∃ items, parse? s = some (.array items) ∧ ∀ m, m ∈ t ↔ ∃ v ∈ items, Mixed.codec.decode v = some m) :=
  ⟨FunctionId.isFaithful_codec.isLossless, MultiIndex.isFaithful_codec.isLossless,
    Operator.isFaithful_codec.isLossless, Atom.isFaithful_codec.isLossless, Mixed.isFaithful_codec.isLossless,
    MixedSet.isFaithful_codec.isLossless, Region.isFaithful_codec.isLossless, Quadrature.isFaithful_codec.isLossless,
    Domain.isFaithful_codec.isLossless, Computation.isFaithful_codec.isLossless,
    Verbosity.isFaithful_codec.isLossless, Settings.isFaithful_codec.isLossless,
    Mixed.isFaithful_codec.isLossless.isNormalizing fun _ _ => Mixed.decode_eq_of_reorders,
    MixedSet.isFaithful_codec.isLossless.isNormalizing fun _ _ => MixedSet.decode_eq_of_relists,
    fun _ _ => Mixed.of_read, fun _ _ => MixedSet.of_read⟩

/-- The name of a region has escaped characters; a set is listed in another order and with a repetition. -/
theorem codecs_areLossless_relistedSet :
    let r : Region := ⟨"a\"\\\n\x01é", 2⟩
    let a : Atom := .functional 7 (.derivative ⟨-1, 0, 2⟩)
    let s := "[[\x7b\"Coordinate\":1\x7d,\x7b\"Coordinate\":0\x7d],[]]"
    let s' := "[[],[\x7b\"Coordinate\":0\x7d,\x7b\"Coordinate\":1\x7d],[]]"
    let t := "[[],[\x7b\"Coordinate\":0\x7d,\x7b\"Coordinate\":1\x7d]]"
    (r.Fits ∧ Region.codec.read (Region.codec.write r) = some r) ∧
    (a.Fits ∧ Atom.codec.read (Atom.codec.write a) = some a) ∧
    MixedSet.codec.read s = MixedSet.codec.read s' ∧
    MixedSet.codec.normalize s = some t ∧ MixedSet.codec.normalize t = some t := by
  intro r a s s' t
  obtain ⟨-, -, -, hatom, -, -, hregion, -, -, -, -, -, -, hset, -, -⟩ := codecs_areLossless
  have hr : r.Fits := show 2 < 0x10000000000000000 by decide
  have ha : a.Fits := ⟨show 7 < 0x100000000 by decide,
    show ∀ n ∈ [(-1 : Int), 0, 2], -0x80000000 ≤ n ∧ n ≤ 0x7fffffff by decide⟩
  have hs : parse? s = some (.array [.array [Atom.codec.encode (.coordinate 1),
    Atom.codec.encode (.coordinate 0)], .array []]) := by simp only [s]; rfl
  have hs' : parse? s' = some (.array [.array [], .array [Atom.codec.encode (.coordinate 0),
    Atom.codec.encode (.coordinate 1)], .array []]) := by simp only [s']; rfl
  have hrelists (v w : Json) : Relists (.array [.array [v, w], .array []])
      (.array [.array [], .array [w, v], .array []]) := by
    have hswap : Reorders (.array [v, w]) (.array [w, v]) := .array (.swap w v [])
    have hnil : Reorders (.array []) (.array []) := .refl _
    exact .array (by simp [hswap, hnil]) (by simp [hswap, hnil])
  have ht : MixedSet.codec.normalize s = some t := by decide +kernel
  exact ⟨⟨hr, hregion.read_write r hr⟩, ⟨ha, hatom.read_write a ha⟩,
    hset.read_eq s s' _ _ hs hs' (hrelists _ _), ht, hset.normalize_normalize s t ht⟩

end FormSparsity
