import FormSparsity.Json.Codec
import FormSparsity.Pass.Domain
import FormSparsity.Pass.Settings

/-!
JSON forms of domains and settings. What settings leave out is as in the standard ones.

| here | there |
| --- | --- |
| `Region.codec`, `Quadrature.codec`, `Domain.codec` | the stored forms of `Region`, `QuadratureRule`, `RegionQuadCombo` |
| `Computation.codec`, `Verbosity.codec`, `Settings.codec` | the stored forms of `ComputationType`, `Verbosity`, `AnalysisSettings` |
-/
namespace FormSparsity

/-- Regions are records of a name and a dimension. -/
def Region.codec : Codec Region where
  encode r := .ofFields [("name", .ofString r.name), ("cell_dim", .ofNat r.cellDimension)]
  decode v := do
    match ← v.fields? ["name", "cell_dim"] with
    | [name, dimension] => return ⟨← name.string?, ← dimension.nat? 0x10000000000000000⟩
    | _ => none

/-- Families of rules are named. -/
def QuadratureFamily.codec : Codec QuadratureFamily where
  encode f := .ofString f.text
  decode v := do
    match ← v.name? with
    | "Gauss" => some .gauss
    | "GaussLobatto" => some .gaussLobatto
    | _ => none

/-- Rules are records of a family and an order. -/
def Quadrature.codec : Codec Quadrature where
  encode q := .ofFields [("family", QuadratureFamily.codec.encode q.family),
    ("order", .ofNat q.order)]
  decode v := do
    match ← v.fields? ["family", "order"] with
    | [family, order] =>
      return ⟨← QuadratureFamily.codec.decode family, ← order.nat? 0x10000000000000000⟩
    | _ => none

/-- Domains are records of a region and a rule. -/
def Domain.codec : Codec Domain where
  encode d := .ofFields [("region", Region.codec.encode d.region),
    ("quadrature", Quadrature.codec.encode d.quadrature)]
  decode v := do
    match ← v.fields? ["region", "quadrature"] with
    | [region, quadrature] =>
      return ⟨← Region.codec.decode region, ← Quadrature.codec.decode quadrature⟩
    | _ => none

/-- Computations are named. -/
def Computation.codec : Codec Computation where
  encode c := .ofString c.text
  decode v := do
    match ← v.name? with
    | "MatrixAndVector" => some .matrixAndVector
    | "VectorOnly" => some .vectorOnly
    | "FunctionalOnly" => some .functionalOnly
    | "FunctionalAndGradient" => some .functionalAndGradient
    | _ => none

/-- Verbosities are named. -/
def Verbosity.codec : Codec Verbosity where
  encode v := .ofString v.text
  decode v := do
    match ← v.name? with
    | "Silent" => some .silent
    | "Low" => some .low
    | "Medium" => some .medium
    | "High" => some .high
    | _ => none

/-- Settings are records whose parts may be left out. -/
def Settings.codec : Codec Settings where
  encode s := .ofFields [("verbosity", Verbosity.codec.encode s.verbosity),
    ("computations", .array (s.computations.map Computation.codec.encode)),
    ("include_bc", .ofBool s.includeBoundary)]
  decode v := do
    match ← v.optionalFields? ["verbosity", "computations", "include_bc"] with
    | [verbosity, computations, includeBoundary] =>
      return {
        verbosity := ← partOr verbosity Verbosity.codec.decode Settings.standard.verbosity
        computations := ← partOr computations (Json.list? Computation.codec.decode)
          Settings.standard.computations
        includeBoundary := ← partOr includeBoundary Json.bool? Settings.standard.includeBoundary }
    | _ => none
where
  /-- The value of a part, or the given one where the part is missing. -/
  partOr {α : Type} (part : Option Json) (decode : Json → Option α) (missing : α) : Option α :=
    match part with
    | none => some missing
    | some v => decode v

end FormSparsity
