/-
  How a graph is built.
-/
import Mispredict.Error
import Mispredict.Json.Decode

namespace Mispredict

/-- One of several names as an option value. -/
def optionByName {α : Type} (names : List (String × α)) (text : String) : Except Error α :=
  match names.find? (·.1 == text) with
  | some (_, a) => .ok a
  | none => .error (.unknownOption text)

/-- How speculative control flow is laid out. -/
inductive Layout where
  /-- A marker for the begin and one for the end of the speculation at each branch; the analysis
      counts the window. -/
  | light
  /-- The mispredicted paths of each branch as nodes of their own, up to the window. -/
  | unrolled
  deriving DecidableEq, Repr

/-- The name of the layout as an option value. -/
def Layout.name : Layout → String
  | .light => "light"
  | .unrolled => "meta"

/-- The layouts by their names. -/
def Layout.names : List (String × Layout) := [("light", .light), ("meta", .unrolled)]

/-- What happens at the end of a mispredicted path. -/
inductive SpeculationMode where
  /-- The path ends. -/
  | discard
  /-- Execution returns to the committed path, and contexts must close in the order opposite to
      that in which they opened. -/
  | stackGuard
  deriving DecidableEq, Repr

/-- The name of the mode as an option value. -/
def SpeculationMode.name : SpeculationMode → String
  | .discard => "discard"
  | .stackGuard => "stack-guard"

/-- The modes of speculation by their names. -/
def SpeculationMode.names : List (String × SpeculationMode) :=
  [("discard", .discard), ("stack-guard", .stackGuard)]

/-- How a graph is built. -/
structure BuildOptions where
  /-- The most instructions on a mispredicted path. -/
  windowSize : Int := 8
  layout : Layout := .light
  speculation : SpeculationMode := .discard
  deriving DecidableEq, Repr, Inhabited

namespace BuildOptions

/-- All options, defaults too. -/
def toJson (o : BuildOptions) : Json :=
  .obj [("windowSize", .int o.windowSize), ("mode", .str o.layout.name),
    ("speculationMode", .str o.speculation.name)]

/-- Reads options. What is left out has its default. -/
def ofJson (j : Json) : Decoded BuildOptions := do
  let fields ← j.record ["windowSize", "mode", "speculationMode"] 0
  let d : BuildOptions := {}
  return {
    windowSize := ← Json.withDefault fields "windowSize" Json.asInt d.windowSize
    layout := ← Json.withDefault fields "mode" (Json.asName Layout.names) d.layout
    speculation :=
      ← Json.withDefault fields "speculationMode" (Json.asName SpeculationMode.names) d.speculation }

end BuildOptions

end Mispredict
