import FormSparsity.Derivative.MixedSet
import FormSparsity.Json.Codec

/-!
JSON forms of derivatives. Mixed derivatives and their sets are written in order and may be read in
any order; a set may also be read with repetitions.

| here | there |
| --- | --- |
| `MultiIndex.codec`, `Operator.codec`, `Atom.codec` | the stored forms of `MultiIndex`, `SpatialOp`, `Deriv` |
| `Mixed.codec`, `MixedSet.codec` | the stored forms of `MultipleDeriv`, `DerivSet` |
-/
namespace FormSparsity

/-- Functions are numbers of 32 bits. -/
def FunctionId.codec : Codec FunctionId := ⟨Json.ofNat, Json.nat? 0x100000000⟩

/-- Multi-indices are arrays of three integers of 32 bits. -/
def MultiIndex.codec : Codec MultiIndex where
  encode α := .array (α.entries.map Json.ofInt)
  decode v := do
    match ← v.list? (Json.int? (-0x80000000) 0x7fffffff) with
    | [x, y, z] => some ⟨x, y, z⟩
    | _ => none

/-- Operators are named alternatives; the partial derivative has its multi-index as content and the
normal derivative its order. -/
def Operator.codec : Codec Operator where
  encode
    | .value => .ofString "Identity"
    | .derivative α => .ofVariant "Partial" (MultiIndex.codec.encode α)
    | .divergence => .ofString "Divergence"
    | .normal k => .ofVariant "Normal" (.ofNat k)
  decode v := do
    match ← v.variant? with
    | ("Partial", some content) => .derivative <$> MultiIndex.codec.decode content
    | ("Normal", some content) => .normal <$> content.nat? 0x100000000
    | _ =>
      match ← v.name? with
      | "Identity" => some .value
      | "Divergence" => some .divergence
      | _ => none

/-- Atoms are named alternatives with a direction, or a function and an operator, as content. -/
def Atom.codec : Codec Atom where
  encode
    | .coordinate d => .ofVariant "Coordinate" (.ofNat d)
    | .functional f p =>
      .ofVariant "Functional" <|
        .ofFields [("func", FunctionId.codec.encode f), ("op", Operator.codec.encode p)]
  decode v := do
    match ← v.variant? with
    | ("Coordinate", some content) => .coordinate <$> content.nat? 0x10000000000000000
    | ("Functional", some content) =>
      match ← content.fields? ["func", "op"] with
      | [f, p] => return .functional (← FunctionId.codec.decode f) (← Operator.codec.decode p)
      | _ => none
    | _ => none

/-- Mixed derivatives are arrays of atoms. -/
def Mixed.codec : Codec Mixed where
  encode m := .array (m.atoms.map Atom.codec.encode)
  decode v := .ofList <$> v.list? Atom.codec.decode

/-- Sets of mixed derivatives are arrays of their members. -/
def MixedSet.codec : Codec MixedSet where
  encode s := .array (s.toList.map Mixed.codec.encode)
  decode v := SortedSet.ofValues <$> v.list? Mixed.codec.decode

end FormSparsity
