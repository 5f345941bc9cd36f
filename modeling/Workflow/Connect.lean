import Workflow.Graph.Basic

/-!
# Connections

The user of the editor draws edges one by one. `Graph.check` decides about one: it may be accepted,
take the place of an edge that leaves the same output, be there already, or be refused because the
error outputs of states, and nothing else, lead to error-catch nodes. `Graph.connect` does what was
decided.
-/

namespace Workflow

/-- Why an edge is refused. -/
inductive Refusal where
  /-- The error output of a state leads to no error-catch node. -/
  | errorOutputToState (port : Port)
  /-- Another output of a state leads to an error-catch node. -/
  | outputToCatch (port : Port)
  /-- A node that is no state leads to an error-catch node. -/
  | specialToCatch
  deriving DecidableEq, Repr

/-- The message of a refusal. -/
def Refusal.message : Refusal → String
  | errorOutputToState port =>
    "error output " ++ toString port ++ " must lead to an error-catch node"
  | outputToCatch port =>
    "output " ++ toString port ++
      " is not an error output and cannot lead to an error-catch node"
  | specialToCatch => "error-catch nodes only accept edges from states"

/-- What is decided about an edge. -/
inductive Verdict where
  /-- It is added. -/
  | accept
  /-- It is added, and `displaced` gives way to it. -/
  | replace (displaced : Edge)
  /-- It is there already. -/
  | unchanged
  /-- It is not added. -/
  | reject (reason : Refusal)
  deriving DecidableEq, Repr

/-- Whether the edge is there once the verdict has been carried out. -/
def Verdict.isApplied : Verdict → Bool
  | reject _ => false
  | _ => true

namespace Graph

variable {T : Type} [NodeSpec T]

/-- Why an output of `source` must not lead to `target`. -/
def refusal? (c : Catalog T) (source target : Node) (output : Port) :
    Except Error (Option Refusal) :=
  if source.isPrimitive then do
    let t ← c.lookup source.kind
    match NodeSpec.errorPort? t == some output, target.isCatch with
    | true, false => return some (.errorOutputToState output)
    | false, true => return some (.outputToCatch output)
    | _, _ => return none
  else return if target.isCatch then some .specialToCatch else none

/-- Decides about an edge. -/
def check (c : Catalog T) (g : Graph) (e : Edge) : Except Error Verdict := do
  let source ← g.node e.source
  let target ← g.node e.target
  if !e.output.isWithin source.outputs then throw (.portOutOfRange e.source e.output)
  if !e.input.isWithin target.inputs then throw (.portOutOfRange e.target e.input)
  if g.containsEdge e then return .unchanged
  match ← refusal? c source target e.output with
  | some reason => return .reject reason
  | none =>
    if source.allowsFanOut e.output then return .accept
    else match g.edgeOn? e.source e.output with
      | some displaced => return .replace displaced
      | none => return .accept

/-- Adds an edge where `verdict` asks for it: the graph after that, and the verdict or the reason
why the edge cannot be added. -/
def adopt (g : Graph) (e : Edge) (verdict : Verdict) : Graph × Except Error Verdict :=
  match g.addEdge e with
  | .ok g' => (g', .ok verdict)
  | .error reason => (g, .error reason)

/-- Decides about an edge and does what was decided: the graph after that, and the verdict or an
error. An edge that had to give way stays removed when the new edge cannot be added, because others
leave the same output. -/
def connect (c : Catalog T) (g : Graph) (e : Edge) : Graph × Except Error Verdict :=
  match g.check c e with
  | .error reason => (g, .error reason)
  | .ok verdict =>
    match verdict with
    | .accept => g.adopt e verdict
    | .replace displaced => ((g.eraseEdge? displaced).getD g).adopt e verdict
    | .unchanged | .reject _ => (g, .ok verdict)

end Graph

end Workflow
