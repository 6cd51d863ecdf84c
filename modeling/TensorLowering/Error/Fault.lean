import TensorLowering.Extent.Basic
import TensorLowering.Order.Basic
import TensorLowering.Storage

/-!
# Faults

The rules that a graph, a schedule, a layout or a setting can break, each with the values a reader
needs to find the mistake. The wording of a fault lives in its `describe` function.
-/

namespace TensorLowering

/-! ## Mismatched axes and extents -/

/-- Axis sets, ranks or extents that do not fit together. -/
inductive ShapeFault where
  | repeatedAxis (axis : Axis) (axes : List Axis)
  | rankMismatch (extents : Nat) (order : Order)
  | axisSetsDiffer (source target : Order)
  | unequal (description lhs : String) (lhsValue : Int64) (rhs : String) (rhsValue : Int64)
  | notPositive (description extent : String) (value : Int64)
  | wrongAxes (slot : String) (required found : Order)
  | missingScaledAxis (axis : Axis) (found : Order)
  | notScaleVector (axis : Axis) (found : Order)
  | negativeCount (count : String) (value : Int64)
  | hostLength (supplied needed : Nat)
  | negativeExtent (value : Int64)
  deriving DecidableEq, Repr

/-- The wording of a shape fault. -/
def ShapeFault.describe : ShapeFault → String
  | repeatedAxis axis axes =>
    "axis " ++ axis.text ++ " appears more than once in "
      ++ String.ofList (axes.map Axis.letter)
  | rankMismatch extents order =>
    "shape has " ++ toString extents ++ " extents but order " ++ order.text ++ " has rank "
      ++ toString order.rank
  | axisSetsDiffer source target =>
    "cannot relabel order " ++ source.text ++ " as " ++ target.text ++ ": axis sets differ"
  | unequal description lhs lhsValue rhs rhsValue =>
    description ++ ": " ++ lhs ++ " = " ++ toString lhsValue.toInt ++ " but " ++ rhs ++ " = "
      ++ toString rhsValue.toInt
  | notPositive description extent value =>
    description ++ ": " ++ extent ++ " evaluates to " ++ toString value.toInt
  | wrongAxes slot required found =>
    "input '" ++ slot ++ "' must have exactly axes \x7b" ++ required.axisSet
      ++ "\x7d, got order " ++ found.text
  | missingScaledAxis axis found =>
    "input 'x' must contain axis " ++ axis.text ++ ", got order " ++ found.text
  | notScaleVector axis found =>
    "scale 's' must be a rank-1 vector along " ++ axis.text ++ ", got order " ++ found.text
  | negativeCount count value =>
    "element count " ++ count ++ " evaluates to " ++ toString value.toInt
  | hostLength supplied needed =>
    "host buffer has " ++ toString supplied ++ " elements, shape needs " ++ toString needed
  | negativeExtent value => "negative extent " ++ toString value.toInt

/-! ## Configurations that lowering cannot handle -/

/-- Parameters, orders or values outside what lowering supports. -/
inductive ConfigurationFault where
  | notEvaluable (lhs : Int64) (op : BinaryOp) (rhs : Int64)
  | negativeBinding (value : Int64)
  | zeroWindow (ksizeHeight ksizeWidth strideHeight strideWidth : UInt64)
  | connectedRelabel (source target : Order)
  | wrongArity (slots : List String) (given : Nat)
  | unalignable (alignment : UInt64)
  | symbolicWeight (size : String)
  | bufferOverflow (space : Space) (used requested : Int)
  | unboundExtent (extent : String)
  | scaleAxis (axis : Axis)
  | scaleOrder (tensor : String) (order : Order)
  | scaleOrdersDiffer (input : String) (inputOrder : Order) (output : String) (outputOrder : Order)
  | leftoverTokens
  deriving DecidableEq, Repr

/-- The wording of a configuration fault. -/
def ConfigurationFault.describe : ConfigurationFault → String
  | notEvaluable lhs op rhs =>
    "cannot evaluate " ++ toString lhs.toInt ++ " " ++ op.sign ++ " " ++ toString rhs.toInt
  | negativeBinding value => "extents must be non-negative, got " ++ toString value.toInt
  | zeroWindow ksizeHeight ksizeWidth strideHeight strideWidth =>
    "ksize and stride must be positive, got ksize=(" ++ toString ksizeHeight.toNat ++ ", "
      ++ toString ksizeWidth.toNat ++ ") stride=(" ++ toString strideHeight.toNat ++ ", "
      ++ toString strideWidth.toNat ++ ")"
  | connectedRelabel source target =>
    "cannot relabel order " ++ source.text ++ " to " ++ target.text
      ++ " once it is connected to an operator"
  | wrongArity slots given =>
    "expects " ++ toString slots.length ++ " inputs (" ++ ", ".intercalate slots ++ "), got "
      ++ toString given
  | unalignable alignment =>
    "alignment must be a power of two, got " ++ toString alignment.toNat
  | symbolicWeight size => "static buffers need a resolved size, got " ++ size
  | bufferOverflow space used requested =>
    space.text ++ " buffer exceeds the addressable size: " ++ toString used ++ " + "
      ++ toString requested ++ " bytes"
  | unboundExtent extent =>
    "extent " ++ extent ++ " is unresolved; bind every placeholder before interpreting"
  | scaleAxis axis => "webassembly axiswise scale supports only axis C, got " ++ axis.text
  | scaleOrder tensor order =>
    "'" ++ tensor ++ "' has order " ++ order.text ++ "; expected NC, NHWC or HWNC"
  | scaleOrdersDiffer input inputOrder output outputOrder =>
    "'" ++ input ++ "' is " ++ inputOrder.text ++ " but '" ++ output ++ "' is "
      ++ outputOrder.text ++ "; input and output must share one order"
  | leftoverTokens => "template still contains substitution tokens after injection"

/-! ## Structural violations -/

/-- A graph, schedule or layout whose parts contradict each other. -/
inductive GraphFault where
  | unboundSlot (operator slot : String)
  | missingSlot (operator direction slot : String)
  | suppliedOutput (tensor : String) (role : Role)
  | unappliedProducer (operator slot : String) (producer : Nat)
  | cycle (scheduled applied : Nat)
  | lateProducer (operator : String) (producer : Nat) (slot : String)
  | scheduledTwice (operator : String)
  | incompleteSchedule (scheduled applied : Nat)
  | idMismatch (index id : Nat)
  | producedSupply (role : Role) (tensor : String) (producer : Nat)
  | noProducer (tensor : String)
  | notAmongOutputs (tensor operator : String)
  | repeatedConsumer (tensor : String) (consumer : Nat)
  | notAmongInputs (tensor operator : String)
  | neverApplied (operator : String)
  | missingConsumer (operator slot : String)
  | noLiveRange (tensor : Nat)
  | sharedBytes (space : Space) (first : String) (firstRange : Int × Int) (second : String)
      (secondRange : Int × Int)
  | noHostData (role : Role) (tensor : String)
  | readTooEarly (operator tensor : String)
  deriving DecidableEq, Repr

/-- The half-open byte range, as written in messages. -/
def byteRangeText (range : Int × Int) : String :=
  "[" ++ toString range.1 ++ ", " ++ toString range.2 ++ ")"

/-- The wording of a structural violation. -/
def GraphFault.describe : GraphFault → String
  | unboundSlot operator slot => operator ++ " has no input bound to slot '" ++ slot ++ "'"
  | missingSlot operator direction slot =>
    operator ++ " has no " ++ direction ++ " slot '" ++ slot ++ "'"
  | suppliedOutput tensor role =>
    "variable '" ++ tensor ++ "' is a " ++ role.text ++ " and cannot also be an output"
  | unappliedProducer operator slot producer =>
    "cannot schedule " ++ operator ++ ": input '" ++ slot
      ++ "' is produced by unapplied operator op" ++ toString producer
  | cycle scheduled applied =>
    "schedule covers " ++ toString scheduled ++ " of " ++ toString applied
      ++ " operators: graph contains a cycle"
  | lateProducer operator producer slot =>
    "schedule runs " ++ operator ++ " before op" ++ toString producer
      ++ " which produces its input '" ++ slot ++ "'"
  | scheduledTwice operator => "schedule contains " ++ operator ++ " twice"
  | incompleteSchedule scheduled applied =>
    "schedule is incomplete: covers " ++ toString scheduled ++ " applied operators out of "
      ++ toString applied
  | idMismatch index id =>
    "variable id mismatch at index " ++ toString index ++ ": variable.id=" ++ toString id
  | producedSupply role tensor producer =>
    role.text ++ " variable '" ++ tensor ++ "' must not have a producer (op"
      ++ toString producer ++ ")"
  | noProducer tensor =>
    "variable '" ++ tensor ++ "' has no producer; declare it as an input or a weight"
  | notAmongOutputs tensor operator =>
    "variable '" ++ tensor ++ "' names " ++ operator
      ++ " as producer but is not among its outputs"
  | repeatedConsumer tensor consumer =>
    "variable '" ++ tensor ++ "' lists op" ++ toString consumer ++ " as consumer twice"
  | notAmongInputs tensor operator =>
    "variable '" ++ tensor ++ "' names " ++ operator
      ++ " as consumer but is not among its inputs"
  | neverApplied operator => operator ++ " was added but never applied"
  | missingConsumer operator slot =>
    operator ++ " input '" ++ slot ++ "' is missing the consumer edge"
  | noLiveRange tensor => "no liveness interval for v" ++ toString tensor
  | sharedBytes space first firstRange second secondRange =>
    "layout overlap in " ++ space.text ++ " space: '" ++ first ++ "' "
      ++ byteRangeText firstRange ++ " and '" ++ second ++ "' " ++ byteRangeText secondRange
  | noHostData role tensor =>
    "no host data supplied for " ++ role.text ++ " '" ++ tensor ++ "'"
  | readTooEarly operator tensor =>
    operator ++ " reads '" ++ tensor ++ "' before it is computed"

end TensorLowering
