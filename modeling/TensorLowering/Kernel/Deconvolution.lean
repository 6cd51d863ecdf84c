import TensorLowering.Graph.Basic
import TensorLowering.Kernel.Basic
import TensorLowering.Kernel.Routine

/-!
# The deconvolution kernel

Every element of the result sums the input elements whose window covers it. Strides come in as
numbers, so operands and result may have any order of their four axes.
-/

namespace TensorLowering

namespace Deconvolution

/-! ## The routine -/

/-- The flat index with the given coordinates along four axes, in an array whose strides are named
after it. -/
def flatIndex (array n c h w : String) : IntExpr :=
  .var n * .var (array ++ "SN") + .var c * .var (array ++ "SC") + .var h * .var (array ++ "SH")
    + .var w * .var (array ++ "SW")

/-- The parameters: arrays, extents, window, stride and padding, and the strides of each array. -/
def parameters : List Parameter :=
  [⟨.source, "X"⟩, ⟨.source, "W"⟩, ⟨.target, "Y"⟩]
    ++ ["N", "C1", "H1", "W1", "C2", "H2", "W2", "KH", "KW", "SH", "SW", "PH", "PW",
        "XSN", "XSC", "XSH", "XSW", "WSN", "WSC", "WSH", "WSW", "YSN", "YSC", "YSH", "YSW"].map
      (⟨.integer, ·⟩)

/-- Finds the input coordinate from which a window position reaches a result coordinate, and goes
on with the next position when there is none. -/
def sourceCoordinate (shifted out padding tap stride source extent : String) (rest : Code) : Code :=
  .int true shifted (.var out + .var padding - .var tap) <|
    .skipIf (.either (.less (.var shifted) (.lit 0))
      (.differs (.var shifted % .var stride) (.lit 0))) <|
      .int true source (.var shifted / .var stride) <|
        .skipIf (.atLeast (.var source) (.var extent)) <| .blank rest

/-- The sum over the window and the input channels, and what comes after it. -/
def gather (rest : Code) : Code :=
  .loop "kh" "KH" .operator
    (sourceCoordinate "th" "h2" "PH" "kh" "SH" "h1" "H1" <|
      .loop "kw" "KW" .operator
        (sourceCoordinate "tw" "w2" "PW" "kw" "SW" "w1" "W1" <|
          .loop "c1" "C1" .operator
            (.accumulate "sum" ⟨"X", flatIndex "X" "n" "c1" "h1" "w1"⟩
              ⟨"W", flatIndex "W" "c2" "c1" "kh" "kw"⟩ .done)
            .done)
        .done)
    rest

/-- Loops over the coordinates of the result around the sum of each element. -/
def routine : Routine where
  family := "deconvolution2d"
  parameters := parameters
  body :=
    .loop "n" "N" .operator
      (.loop "h2" "H2" .operator
        (.loop "w2" "W2" .operator
          (.loop "c2" "C2" .operator
            (.float "sum" .zero <| .blank <|
              gather <| .blank <|
                .store ⟨"Y", flatIndex "Y" "n" "c2" "h2" "w2"⟩ "sum" .done)
            .done)
          .done)
        .done)
      .done

/-! ## The kernel of an operator -/

/-- The roles of the strides of an array. -/
def strideRoles (t : SymbolTable) (array : String) (x : Tensor) :
    Lowering (List (String × RoleValue)) :=
  [Axis.n, .c, .h, .w].mapM fun axis => do
    let stride ← x.shape.stride axis
    pure (routine.role (array ++ "S" ++ axis.text), .scalar (t.simplify stride))

/-- The roles of some extents of a tensor. -/
def extentRoles (t : SymbolTable) (x : Tensor) (names : List (String × Axis)) :
    Lowering (List (String × RoleValue)) :=
  names.mapM fun (name, axis) => do
    let extent ← x.shape.extent axis
    pure (routine.role name, .scalar (t.simplify extent))

/-- The roles of the parameters of the operator. -/
def windowRoles (p : Deconvolution) : List (String × RoleValue) :=
  [("KH", p.ksize.h), ("KW", p.ksize.w), ("SH", p.stride.h), ("SW", p.stride.w),
    ("PH", p.padding.h), ("PW", p.padding.w)].map
    fun (name, n) => (routine.role name, .scalar (.ofWord n))

/-- What the roles of the kernel stand for. -/
def roles (p : Deconvolution) (t : SymbolTable) (l : Layout) (x w y : Tensor) :
    Lowering (List (String × RoleValue)) := do
  let xRegion ← l.get x.id
  let wRegion ← l.get w.id
  let yRegion ← l.get y.id
  let inputs ← extentRoles t x [("N", .n), ("C1", .c), ("H1", .h), ("W1", .w)]
  let outputs ← extentRoles t y [("C2", .c), ("H2", .h), ("W2", .w)]
  let xStrides ← strideRoles t "X" x
  let wStrides ← strideRoles t "W" w
  let yStrides ← strideRoles t "Y" y
  pure ([(routine.role "X", .region xRegion), (routine.role "W", .region wRegion),
      (routine.role "Y", .region yRegion)]
    ++ inputs ++ outputs ++ p.windowRoles ++ xStrides ++ wStrides ++ yStrides)

/-- The kernel of a deconvolution operator. -/
def kernel (p : Deconvolution) (g : Graph) (l : Layout) (op : Operator) (x w y : Tensor) :
    Lowering Kernel := do
  let values ← p.roles g.symbols l x w y
  Kernel.instantiate routine.template (.ofOperator op) (.ofRoles g.symbols values)

end Deconvolution

end TensorLowering
