import TensorLowering.Graph.Apply

/-!
# Construction scripts

The steps that build a graph, as data. A script can be replayed, where a step that fails changes
nothing (`Graph.replay`), or run as a whole, where the first failure stops it (`Graph.runScript`).
A graph is reachable when some script replayed from the empty graph builds it
(`Graph.Reachable`).
-/

namespace TensorLowering

/-- Who supplies a tensor that is declared: the host, as an input or as a weight, or the graph. -/
inductive Declaration where
  | input
  | weight
  | intermediate
  deriving DecidableEq, Repr

/-- The role of a declared tensor. -/
def Declaration.role : Declaration → Role
  | input => .input
  | weight => .weight
  | intermediate => .intermediate

/-- A step that changes a graph. -/
inductive Edit where
  | addSymbol (label : String)
  | addTensor (declaration : Declaration) (name : String) (order : Order) (extents : List Extent)
  | addOperator (name : Option String) (kind : OperatorKind)
  | markOutput (id : TensorId)
  | changeOrder (id : TensorId) (target : Order)
  | apply (id : OperatorId) (inputs : List TensorId)
  | bind (k : SymbolId) (value : Int64)
  | revalidate
  deriving DecidableEq, Repr

/-- The graph after a step. -/
def Edit.run (g : Graph) : Edit → Lowering Graph
  | addSymbol label => pure (g.addSymbol label).1
  | addTensor declaration name order extents =>
    (g.addTensor declaration.role name order extents).map Prod.fst
  | addOperator name kind => pure (g.addOperator name kind).1
  | markOutput id => g.markOutput id
  | changeOrder id target => g.changeOrder id target
  | apply id inputs => (g.apply id inputs).map Prod.fst
  | bind k value => g.bind k value
  | revalidate => g.revalidate

namespace Graph

/-- The graph after a step that may fail; a failure changes nothing. -/
def attempt (g : Graph) (e : Edit) : Graph :=
  match e.run g with
  | .ok after => after
  | .error _ => g

/-- The graph after all steps of a script, whether they fail or not. -/
def replay (g : Graph) (script : List Edit) : Graph := script.foldl attempt g

/-- The graph after a script, or the first failure. -/
def runScript (g : Graph) (script : List Edit) : Lowering Graph := script.foldlM Edit.run g

/-- A graph that some script builds from nothing. -/
def Reachable (g : Graph) : Prop := ∃ script, empty.replay script = g

theorem Reachable.empty : Reachable .empty := ⟨[], rfl⟩

theorem Reachable.attempt {g : Graph} (h : g.Reachable) (e : Edit) : (g.attempt e).Reachable := by
  obtain ⟨script, rfl⟩ := h
  exact ⟨script ++ [e], by simp [replay]⟩

theorem Reachable.run {g after : Graph} (h : g.Reachable) {e : Edit} (he : e.run g = .ok after) :
    after.Reachable := by
  have := h.attempt e
  rwa [Graph.attempt, he] at this

end Graph

end TensorLowering
