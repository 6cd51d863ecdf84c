import TensorLowering.Proofs.Graph.Growth

/-!
# Applying and binding in place

A graph that is changed in place keeps what a step did before it failed. Here operators are applied
and symbols bound in that way: one node and one edge after the other, each look-up and each check
where it falls due, the extents of the result counted only when the result is added
(`Graph.applyInPlace`, `Graph.bindInPlace`). A step that fails has changed nothing yet, and a step
that succeeds has done what the step on values does (`Graph.applyInPlace_allOrNothing`,
`Graph.bindInPlace_allOrNothing`): after the checks nothing can fail any more.
-/

namespace TensorLowering

/-- A step that changes a graph in place: it may fail, and keeps what it did up to there. -/
abbrev Construction (α : Type) := ExceptT LoweringError (StateM Graph) α

namespace Construction

variable {α β : Type} {g h : Graph}

/-- A step in place does what a step on values does, and nothing at all where that one fails. -/
structure AllOrNothing (c : Construction α) (g : Graph) (step : Lowering (Graph × α)) : Prop where
  all : ∀ h a, step = .ok (h, a) → c.run g = (.ok a, h)
  nothing : ∀ e, step = .error e → c.run g = (.error e, g)

theorem allOrNothing_done {c : Construction α} {a : α} (hrun : c.run g = (.ok a, h)) :
    c.AllOrNothing g (pure (h, a)) := by
  refine ⟨?_, ?_⟩
  · intro h' a' heq
    cases heq
    exact hrun
  · intro e heq
    cases heq

theorem allOrNothing_throw (e : LoweringError) :
    (throw e : Construction α).AllOrNothing g (throw e) := by
  refine ⟨?_, ?_⟩
  · intro h a heq
    cases heq
  · intro e' heq
    cases heq
    rfl

/-- Reading the graph changes nothing. -/
theorem allOrNothing_get {f : Graph → Construction α} {step : Lowering (Graph × α)}
    (hf : (f g).AllOrNothing g step) : (get >>= f : Construction α).AllOrNothing g step :=
  ⟨hf.all, hf.nothing⟩

/-- After a step that succeeds the next one goes on with its result. -/
theorem run_bind {c : Construction α} {f : α → Construction β} {a : α} (hc : c.run g = (.ok a, h)) :
    (c >>= f).run g = (f a).run h := by
  change (match c.run g with | (r, g') => ExceptT.bindCont f r g') = _
  rw [hc]
  rfl

/-- A check that fails changes nothing, and the step goes on with its result otherwise. -/
theorem allOrNothing_lift {x : Lowering α} {f : α → Construction β}
    {step : α → Lowering (Graph × β)} (hf : ∀ a, x = .ok a → (f a).AllOrNothing g (step a)) :
    (liftM x >>= f : Construction β).AllOrNothing g (x >>= step) := by
  cases x with
  | ok a => exact hf a rfl
  | error e => exact allOrNothing_throw e

/-- A guard that does not let the step through changes nothing. -/
theorem allOrNothing_guard {c : Prop} [Decidable c] {e : LoweringError}
    {f : Unit → Construction α} {step : Unit → Lowering (Graph × α)}
    (hf : ¬ c → (f ()).AllOrNothing g (step ())) :
    (if c then throw e >>= f else f () : Construction α).AllOrNothing g
      (if c then throw e >>= step else step ()) := by
  by_cases hc : c
  · rw [if_pos hc, if_pos hc]
    exact allOrNothing_throw e
  · rw [if_neg hc, if_neg hc]
    exact hf hc

end Construction

namespace Graph

variable {g h : Graph} {op : Operator}

/-! ## Applying an operator -/

/-- Adds a tensor, if it has one extent for each axis. -/
def pushTensor (role : Role) (name : String) (order : Order) (extents : List Extent) :
    Construction TensorId := do
  let g : Graph ← get
  let (after, id) ← liftM (g.addTensor role name order extents)
  set after
  pure id

/-- Names the producer of a tensor. -/
def setProducer (g : Graph) (id : TensorId) (op : OperatorId) : Graph :=
  { g with tensors := g.tensors.modify id ({ · with producer := some op }) }

/-- Lists an operator as a consumer of a tensor. -/
def listConsumer (g : Graph) (op : OperatorId) (id : TensorId) : Graph :=
  { g with tensors := g.tensors.modify id (·.addConsumer op) }

/-- Records what an operator was applied to. -/
def record (g : Graph) (op : OperatorId) (a : Application) : Graph :=
  { g with operators := g.operators.modify op ({ · with application := some a }) }

/-- Adds the result of an operator, then its edges one by one. -/
def attachInPlace (id : OperatorId) (op : Operator) (data parameter : TensorId) (shape : Shape)
    (pending : List Obligation) : Construction TensorId := do
  let result ← pushTensor .intermediate (op.name ++ "_" ++ op.kind.resultSlot) shape.order
    shape.extents
  modify (setProducer · result id)
  [data, parameter].forM fun input => modify (listConsumer · id input)
  modify (record · id ⟨data, parameter, result, pending⟩)
  pure result

/-- Applies an operator in place: first the checks, then the result with its edges. -/
def applyInPlace (id : OperatorId) (inputs : List TensorId) : Construction TensorId := do
  let g : Graph ← get
  let op ← liftM (g.operator id)
  if op.isApplied then
    throw (.operatorReapplied op.label)
  match inputs with
  | [data, parameter] =>
    let x ← liftM (g.tensor data)
    let s ← liftM (g.tensor parameter)
    let operands : Operands := ⟨op.label, some x, some s⟩
    let obligations ← liftM (op.kind.obligations operands)
    let pending ← liftM (Obligation.settle op.label g.symbols obligations)
    let shape ← liftM (op.kind.resultShape g.symbols operands)
    attachInPlace id op data parameter shape pending
  | _ =>
    throw (.unsupported (.operator op.label) (.wrongArity op.kind.inputSlots inputs.length))

/-- The result can always be added. -/
theorem run_pushTensor (g : Graph) (role : Role) (name : String) (shape : Shape) :
    (pushTensor role name shape.order shape.extents).run g =
      (.ok g.tensors.length,
        { g with tensors := g.tensors ++ [⟨g.tensors.length, name, role, shape, none, []⟩] }) := by
  have hadd : g.addTensor role name shape.order shape.extents = .ok
      ({ g with tensors := g.tensors ++ [⟨g.tensors.length, name, role, shape, none, []⟩] },
        g.tensors.length) :=
    addTensor_eq_ok.2 ⟨shape.length_extents, rfl⟩
  change (liftM (g.addTensor role name shape.order shape.extents) >>= fun r =>
    (set r.1 >>= fun _ => pure r.2 : Construction TensorId)).run g = _
  rw [hadd]
  rfl

/-- The last element of a list is changed at its position. -/
theorem modify_concat_length {α : Type} (items : List α) (a : α) (f : α → α) :
    (items ++ [a]).modify items.length f = items ++ [f a] := by
  induction items with
  | nil => rfl
  | cons b rest ih =>
    change b :: (rest ++ [a]).modify rest.length f = b :: (rest ++ [f a])
    rw [ih]

/-- A tensor that was just added gets its producer. -/
theorem setProducer_concat (g : Graph) (x : Tensor) (op : OperatorId) :
    setProducer { g with tensors := g.tensors ++ [x] } g.tensors.length op =
      { g with tensors := g.tensors ++ [{ x with producer := some op }] } := by
  unfold setProducer
  rw [modify_concat_length]

/-- Adding the result and its edges one by one attaches it. -/
theorem run_attachInPlace (g : Graph) (op : Operator) (data parameter : TensorId) (shape : Shape)
    (pending : List Obligation) :
    (attachInPlace op.id op data parameter shape pending).run g =
      (.ok g.tensors.length, g.attach op data parameter shape pending) := by
  let name := op.name ++ "_" ++ op.kind.resultSlot
  let pushed : Graph := { g with
    tensors := g.tensors ++ [⟨g.tensors.length, name, .intermediate, shape, none, []⟩] }
  unfold attachInPlace
  rw [Construction.run_bind (run_pushTensor g _ _ shape)]
  show (Except.ok g.tensors.length,
    record (listConsumer (listConsumer (setProducer pushed g.tensors.length op.id) op.id data)
      op.id parameter) op.id ⟨data, parameter, g.tensors.length, pending⟩) = _
  rw [setProducer_concat]
  rfl

/-- Applying an operator in place does what applying it does. -/
theorem applyInPlace_allOrNothing (hg : g.Coherent) (id : OperatorId) (inputs : List TensorId) :
    (applyInPlace id inputs).AllOrNothing g (g.apply id inputs) := by
  refine Construction.allOrNothing_get (Construction.allOrNothing_lift ?_)
  intro op hop
  refine Construction.allOrNothing_guard ?_
  intro _
  cases hg.operator_id id op (operator_eq_ok.1 hop)
  match inputs with
  | [data, parameter] =>
    refine Construction.allOrNothing_lift ?_
    intro x _
    refine Construction.allOrNothing_lift ?_
    intro s _
    refine Construction.allOrNothing_lift ?_
    intro obligations _
    refine Construction.allOrNothing_lift ?_
    intro pending _
    refine Construction.allOrNothing_lift ?_
    intro shape _
    exact Construction.allOrNothing_done (run_attachInPlace g op data parameter shape pending)
  | [] | [_] | _ :: _ :: _ :: _ => exact Construction.allOrNothing_throw _

/-! ## Binding a symbol -/

/-- Gives operators, one by one, their open obligations. -/
def commit : List Operator → List (List Obligation) → List Operator
  | op :: operators, pending :: settled => op.withPending pending :: commit operators settled
  | operators, _ => operators

/-- Binds a symbol in place: the larger table and the obligations that are open under it are made
beside the graph and put in at the end. -/
def bindInPlace (k : SymbolId) (value : Int64) : Construction Unit := do
  let g : Graph ← get
  match ← liftM (g.symbols.bind k value) with
  | none => pure ()
  | some t =>
    let settled ← liftM (g.operators.mapM fun op => Obligation.settle op.label t op.pending)
    modify fun g => { g with symbols := t }
    modify fun g => { g with operators := commit g.operators settled }

/-- Settling operators is settling their obligations and putting in what is open. -/
theorem mapM_settleOperator (t : SymbolTable) (operators : List Operator) :
    operators.mapM (settleOperator t) =
      commit operators <$> operators.mapM fun op => Obligation.settle op.label t op.pending := by
  induction operators with
  | nil => rfl
  | cons op rest ih =>
    rw [List.mapM_cons, List.mapM_cons, ih, settleOperator]
    cases Obligation.settle op.label t op.pending with
    | error e => rfl
    | ok pending =>
      cases rest.mapM fun op => Obligation.settle op.label t op.pending with
      | error e => rfl
      | ok settled => rfl

/-- Binding a symbol in place does what binding it does. -/
theorem bindInPlace_allOrNothing (g : Graph) (k : SymbolId) (value : Int64) :
    (bindInPlace k value).AllOrNothing g ((·, ()) <$> g.bind k value) := by
  unfold bind
  rw [map_bind]
  refine Construction.allOrNothing_get (Construction.allOrNothing_lift ?_)
  intro bound _
  cases bound with
  | none => exact Construction.allOrNothing_done rfl
  | some t =>
    dsimp only [settle]
    rw [map_bind, mapM_settleOperator, bind_map_left]
    refine Construction.allOrNothing_lift ?_
    intro settled _
    exact Construction.allOrNothing_done rfl

end Graph

end TensorLowering
