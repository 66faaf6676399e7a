import FormSparsity.Json.Codec
import FormSparsity.Proofs.Json.Text

/-!
Codecs that lose nothing. A codec is faithful if it reads what it writes, for the values that fit into its
format, and reads no others (`Codec.IsFaithful`); its texts then carry values without loss (`Codec.IsLossless`).
The parts of a format are read as they are written: numbers within their bounds (`int?_ofInt`, `nat?_ofNat`) and
lists (`list?_array`). What is read from a list or a record comes from its parts (`exists_of_mem_list?`,
`exists_of_pair`). If texts differ in nothing that counts, a lossless codec gives them one form
(`Codec.IsNormalizing`).
-/
namespace FormSparsity

/-! ## Definite values -/

namespace Json

theorem Token.IsMark.isDefinite {t : Token} (ht : t.IsMark) : t.IsDefinite := by
  cases t with
  | scalar value => exact ht.elim
  | _ => trivial

theorem mem_itemTokens {t : Token} {items : List Json} (ht : t ∈ itemTokens items) :
    t.IsMark ∨ ∃ v ∈ items, t ∈ v.tokens := by
  induction items with
  | nil =>
    obtain rfl := List.mem_singleton.mp ht
    exact .inl trivial
  | cons v items ih =>
    cases items with
    | nil =>
      rw [itemTokens, List.mem_append, List.mem_singleton] at ht
      rcases ht with hv | rfl
      · exact .inr ⟨v, List.mem_cons_self, hv⟩
      · exact .inl trivial
    | cons w items =>
      rw [itemTokens, List.mem_append, List.mem_cons] at ht
      rcases ht with hv | rfl | hitems
      · exact .inr ⟨v, List.mem_cons_self, hv⟩
      · exact .inl trivial
      · exact (ih hitems).imp_right fun h => h.imp fun _ hu => hu.imp_left (List.mem_cons_of_mem _)

theorem isDefinite_array {items : List Json} (h : ∀ v ∈ items, v.IsDefinite) : (array items).IsDefinite := by
  intro t ht
  rcases List.mem_cons.mp ht with rfl | ht
  · trivial
  · rcases mem_itemTokens ht with hmark | ⟨v, hv, ht⟩
    · exact hmark.isDefinite
    · exact h v hv t ht

/-- The tokens of the fields of an object are marks, keys, and tokens of the values. -/
theorem mem_fieldTokens {t : Token} {fields : List (Option String × Json)} (ht : t ∈ fieldTokens fields) :
    t.IsMark ∨ ∃ field ∈ fields, t = .scalar (.string field.1) ∨ t ∈ field.2.tokens := by
  induction fields with
  | nil =>
    obtain rfl := List.mem_singleton.mp ht
    exact .inl trivial
  | cons field fields ih =>
    obtain ⟨k, v⟩ := field
    have hhere (h : t = .scalar (.string k) ∨ t ∈ v.tokens) :
        ∃ field ∈ (k, v) :: fields, t = .scalar (.string field.1) ∨ t ∈ field.2.tokens :=
      ⟨(k, v), List.mem_cons_self, h⟩
    cases fields with
    | nil =>
      rw [fieldTokens, List.mem_cons, List.mem_cons, List.mem_append, List.mem_singleton] at ht
      rcases ht with hk | rfl | hv | rfl
      · exact .inr (hhere (.inl hk))
      · exact .inl trivial
      · exact .inr (hhere (.inr hv))
      · exact .inl trivial
    | cons other fields =>
      rw [fieldTokens, List.mem_cons, List.mem_cons, List.mem_append, List.mem_cons] at ht
      rcases ht with hk | rfl | hv | rfl | hfields
      · exact .inr (hhere (.inl hk))
      · exact .inl trivial
      · exact .inr (hhere (.inr hv))
      · exact .inl trivial
      · exact (ih hfields).imp_right fun h => h.imp fun _ hu => hu.imp_left (List.mem_cons_of_mem _)

theorem isDefinite_scalar {value : Scalar} (h : value.IsDefinite) : (scalar value).IsDefinite := by
  intro t ht
  obtain rfl := List.mem_singleton.mp ht
  exact h

theorem isDefinite_ofInt (n : Int) : (ofInt n).IsDefinite := isDefinite_scalar trivial

theorem isDefinite_ofNat (n : Nat) : (ofNat n).IsDefinite := isDefinite_ofInt n

theorem isDefinite_ofString (s : String) : (ofString s).IsDefinite := isDefinite_scalar trivial

theorem isDefinite_ofFields {fields : List (String × Json)} (h : ∀ field ∈ fields, field.2.IsDefinite) :
    (ofFields fields).IsDefinite := by
  intro t ht
  rcases List.mem_cons.mp ht with rfl | ht
  · trivial
  · rcases mem_fieldTokens ht with hmark | ⟨field, hfield, ht⟩
    · exact hmark.isDefinite
    · obtain ⟨named, hnamed, rfl⟩ := List.mem_map.mp hfield
      rcases ht with rfl | ht
      · trivial
      · exact h named hnamed t ht

theorem isDefinite_ofVariant {name : String} {content : Json} (h : content.IsDefinite) :
    (ofVariant name content).IsDefinite :=
  isDefinite_ofFields (List.forall_mem_singleton.mpr h)

theorem isDefinite_pair {name₁ name₂ : String} {v₁ v₂ : Json} (h₁ : v₁.IsDefinite) (h₂ : v₂.IsDefinite) :
    (ofFields [(name₁, v₁), (name₂, v₂)]).IsDefinite :=
  isDefinite_ofFields (List.forall_mem_cons.mpr ⟨h₁, List.forall_mem_singleton.mpr h₂⟩)

/-! ## Parts -/

theorem int?_ofInt {low high n : Int} (h : low ≤ n ∧ n ≤ high) : (ofInt n).int? low high = some n := if_pos h

theorem int?_eq_some {low high n : Int} {v : Json} (h : v.int? low high = some n) : low ≤ n ∧ n ≤ high := by
  unfold int? at h
  split at h
  · obtain ⟨hn, heq⟩ := Option.ite_none_right_eq_some.mp h
    exact Option.some.inj heq ▸ hn
  · cases h

theorem nat?_ofNat {bound n : Nat} (h : n < bound) : (ofNat n).nat? bound = some n := by
  rw [nat?, ofNat, int?_ofInt (by omega)]
  rfl

theorem nat?_eq_some {bound n : Nat} {v : Json} (h : v.nat? bound = some n) : n < bound := by
  obtain ⟨k, hk, rfl⟩ := Option.map_eq_some_iff.mp h
  have := int?_eq_some hk
  omega

/-! ## Lists -/

section Option

variable {β γ : Type} {f : β → Option γ} {l : List β} {r : List γ}

/-- A list of values is the list of the values of each. -/
theorem mapM_eq_some_iff : l.mapM f = some r ↔ List.Forall₂ (fun b c => f b = some c) l r := by
  induction l generalizing r with
  | nil => simp [eq_comm]
  | cons b l ih =>
    simp only [List.mapM_cons, Option.bind_eq_bind, Option.pure_def, Option.bind_eq_some_iff, ih,
      List.forall₂_cons_left_iff, Option.some.injEq]
    constructor
    · rintro ⟨c, hc, cs, hcs, rfl⟩
      exact ⟨c, cs, hc, hcs, rfl⟩
    · rintro ⟨c, cs, hc, hcs, rfl⟩
      exact ⟨c, hc, cs, hcs, rfl⟩

theorem mem_of_mapM_eq_some (h : l.mapM f = some r) :
    (∀ b ∈ l, ∃ c ∈ r, f b = some c) ∧ ∀ c ∈ r, ∃ b ∈ l, f b = some c := by
  have hresults := mapM_eq_some_iff.mp h
  clear h
  induction hresults with
  | nil => simp
  | cons hb _ ih =>
    simp only [List.mem_cons, forall_eq_or_imp, exists_eq_or_imp]
    exact ⟨⟨.inl hb, fun b hb => .inr (ih.1 b hb)⟩, .inl hb, fun c hc => .inr (ih.2 c hc)⟩

/-- If each of a list has a value, there is the list of the values. -/
theorem exists_mapM_eq_some (h : ∀ b ∈ l, ∃ c, f b = some c) : ∃ r, l.mapM f = some r := by
  induction l with
  | nil => exact ⟨[], rfl⟩
  | cons b l ih =>
    obtain ⟨c, hc⟩ := h b List.mem_cons_self
    obtain ⟨r, hr⟩ := ih fun b hb => h b (List.mem_cons_of_mem _ hb)
    exact ⟨c :: r, by rw [List.mapM_cons, hc, hr]; rfl⟩

end Option

variable {α : Type} {encode : α → Json} {decode : Json → Option α}

theorem list?_array {l : List α} (h : ∀ a ∈ l, decode (encode a) = some a) :
    (array (l.map encode)).list? decode = some l := by
  show (l.map encode).mapM decode = some l
  rw [mapM_eq_some_iff, List.forall₂_map_left_iff, List.forall₂_same]
  exact h

/-- Every value of a list is that of some item. -/
theorem exists_of_mem_list? {v : Json} {l : List α} (h : v.list? decode = some l) {a : α} (ha : a ∈ l) :
    ∃ w, decode w = some a := by
  obtain ⟨items, -, hitems⟩ := Option.bind_eq_some_iff.mp h
  obtain ⟨w, -, hw⟩ := (mem_of_mapM_eq_some hitems).2 a ha
  exact ⟨w, hw⟩

/-! ## Records -/

/-- A record of two parts has the values of both. -/
theorem exists_of_pair {β γ δ : Type} {parts : Option (List Json)} {f : Json → Option β} {g : Json → Option γ}
    {mk : β → γ → δ} {d : δ}
    (h : (do match ← parts with | [v, w] => return mk (← f v) (← g w) | _ => none) = some d) :
    ∃ v w b c, f v = some b ∧ g w = some c ∧ mk b c = d := by
  obtain ⟨parts, -, h⟩ := Option.bind_eq_some_iff.mp h
  split at h
  · obtain ⟨b, hb, h⟩ := Option.bind_eq_some_iff.mp h
    obtain ⟨c, hc, h⟩ := Option.bind_eq_some_iff.mp h
    exact ⟨_, _, b, c, hb, hc, Option.some.inj h⟩
  · cases h

end Json

/-! ## Codecs -/

namespace Codec

variable {α : Type} {codec : Codec α} {Fits : α → Prop}

/-- The values that fit into the format of a codec are read as they are written, and no others are read. -/
structure IsFaithful (codec : Codec α) (Fits : α → Prop) : Prop where
  isDefinite (a : α) : (codec.encode a).IsDefinite
  decode_encode {a : α} (ha : Fits a) : codec.decode (codec.encode a) = some a
  fits {v : Json} {a : α} (h : codec.decode v = some a) : Fits a

/-- The texts of a codec carry the values that fit into its format. -/
structure IsLossless (codec : Codec α) (Fits : α → Prop) : Prop where
  read_write (a : α) (ha : Fits a) : codec.read (codec.write a) = some a
  fits_of_read (s : String) (a : α) (h : codec.read s = some a) : Fits a

theorem IsFaithful.isLossless (h : codec.IsFaithful Fits) : codec.IsLossless Fits where
  read_write a ha := by
    rw [read, write, Json.parse?_render (h.isDefinite a)]
    exact h.decode_encode ha
  fits_of_read s a hs := by
    obtain ⟨v, -, hv⟩ := Option.bind_eq_some_iff.mp hs
    exact h.fits hv

/-- A text as it is written for the value that is read from it. -/
def normalize (codec : Codec α) (s : String) : Option String := (codec.read s).map codec.write

/-- **Normal forms** are their own normal forms. -/
theorem IsLossless.normalize_normalize (h : codec.IsLossless Fits) {s t : String}
    (ht : codec.normalize s = some t) : codec.normalize t = some t := by
  obtain ⟨a, ha, rfl⟩ := Option.map_eq_some_iff.mp ht
  rw [normalize, h.read_write a (h.fits_of_read s a ha)]
  rfl

/-- Texts whose values are in relation are read alike, and what is read is written in one form. -/
structure IsNormalizing (codec : Codec α) (Same : Json → Json → Prop) : Prop where
  read_eq (s s' : String) (v v' : Json) (hv : Json.parse? s = some v) (hv' : Json.parse? s' = some v')
    (h : Same v v') : codec.read s = codec.read s'
  read_write_of_read (s : String) (a : α) (ha : codec.read s = some a) : codec.read (codec.write a) = some a
  normalize_normalize (s t : String) (ht : codec.normalize s = some t) : codec.normalize t = some t

theorem IsLossless.isNormalizing (h : codec.IsLossless Fits) {Same : Json → Json → Prop}
    (hsame : ∀ v v', Same v v' → codec.decode v = codec.decode v') : codec.IsNormalizing Same where
  read_eq s s' v v' hv hv' hvv' := by
    rw [read, read, hv, hv']
    exact hsame v v' hvv'
  read_write_of_read s a ha := h.read_write a (h.fits_of_read s a ha)
  normalize_normalize _ _ ht := h.normalize_normalize ht

end Codec

end FormSparsity
