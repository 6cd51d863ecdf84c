import TensorLowering.Schedule.Basic

/-!
# Building a schedule

Operators run first come, first served. Every operator keeps count of the operands it waits for, and
the queue starts with those that wait for none, by handle. When an operator has run, those that it
feeds count one operand less, an operator with two such operands two less; one whose count reaches
zero joins the queue at the back. The queue works on a `Precedence`, the list of producers of each
operator, so it does not look at the graph (`Precedence.order`).
-/

namespace TensorLowering

/-- What each operator waits for: operators by handle, each with the producers of its operands. An
operator that produces both operands stands twice. -/
abbrev Precedence := List (OperatorId × List OperatorId)

/-- The operators that have run, in sequence, those that may run next, and the number of operands
that each operator still waits for. -/
structure Queue where
  done : List OperatorId
  ready : List OperatorId
  waiting : List (OperatorId × Nat)
  deriving DecidableEq, Repr

namespace Queue

/-- The number of operands that an operator still waits for. -/
def count (q : Queue) (id : OperatorId) : Nat := (q.waiting.lookup id).getD 0

/-- Counts one operand less for an operator, which joins the queue when it waits for none any
more. -/
def notify (q : Queue) (id : OperatorId) : Queue :=
  { q with
    ready := if q.count id - 1 = 0 then q.ready ++ [id] else q.ready
    waiting := q.waiting.map fun (k, n) => (k, if k = id then n - 1 else n) }

end Queue

namespace Precedence

/-- The queue before any operator has run. -/
def start (p : Precedence) : Queue where
  done := []
  ready := (p.filter fun (_, producers) => producers.isEmpty).map Prod.fst
  waiting := p.map fun (id, producers) => (id, producers.length)

/-- The operators that an operator feeds, by handle, once for each operand. -/
def fed (p : Precedence) (op : OperatorId) : List OperatorId :=
  p.flatMap fun (id, producers) => (producers.filter (· == op)).map fun _ => id

/-- Runs the operator at the front of the queue. -/
def advance (p : Precedence) (q : Queue) : Queue :=
  match q.ready with
  | [] => q
  | op :: rest => (p.fed op).foldl Queue.notify { q with done := q.done ++ [op], ready := rest }

/-- Runs up to `n` operators. -/
def run (p : Precedence) : Nat → Queue → Queue
  | 0, q => q
  | n + 1, q => p.run n (p.advance q)

/-- The sequence in which the operators run. Each runs at most once, so as many steps as there are
operators are enough. -/
def order (p : Precedence) : List OperatorId := (p.run p.length p.start).done

end Precedence

namespace Graph

/-- What each applied operator waits for. -/
def precedence (g : Graph) : Lowering Precedence :=
  g.applied.mapM fun op => do
    let producers ← g.producers op
    producers.forM fun (slot, producer) => do
      let source ← g.operator producer
      if !source.isApplied then
        throw (.invalidGraph (.unappliedProducer op.label slot producer))
    pure (op.id, producers.map Prod.snd)

/-- The schedule of the applied operators. -/
def schedule (g : Graph) : Lowering Schedule := do
  let p ← g.precedence
  let ordered := p.order
  if ordered.length ≠ p.length then
    throw (.invalidGraph (.cycle ordered.length p.length))
  pure ⟨ordered⟩

end Graph

end TensorLowering
