import TensorLowering.Execution.AxiswiseScale
import TensorLowering.Kernel.AxiswiseScale
import TensorLowering.Proofs.Execution.Access
import TensorLowering.Proofs.Kernel.Loops

/-!
# The scaling loop

When the channel is the innermost axis, the remainder of a flat index by the number of channels is
its coordinate along the channel. So the loop of the scaling routine writes what the reference
execution computes (`AxiswiseScale.emits_body`).
-/

namespace TensorLowering

namespace AxiswiseScale

variable {α : Type} [Zero α] [Add α] [Mul α] {arrays : String → Int → α} {s : KernelState α}
  {v : View} {xs ss ys : Array α} {channels : Nat}

omit [Zero α] [Add α] in
/-- Every element of the result is a product of the elements that the loop reads. -/
theorem elements_eq {i : Nat} {y : α} (h : elements v .c xs ss = .ok ys)
    (hinner : v.dimension? .c = some (channels, 1)) (hX : Holds arrays "X" xs)
    (hS : Holds arrays "S" ss) (hy : ys[i]? = some y) :
    arrays "X" i * arrays "S" (i % channels : Nat) = y := by
  obtain ⟨a, c, b, ha, hc, hb, rfl⟩ := (getElem?_elements h).1 hy
  have hcoord : i % channels = c := by
    simpa [View.coordinate, hinner] using coordinateIn_eq_ok hc
  rw [hX i a ha, hcoord, hS.of_elementAt hb]

/-- On arrays that hold the data and the scale, the loop writes the elements of the result, each
once and in order. -/
theorem emits_body (h : elements v .c xs ss = .ok ys)
    (hinner : v.dimension? .c = some (channels, 1)) (hX : Holds arrays "X" xs)
    (hS : Holds arrays "S" ss) (hN : s.ints "N" = ys.size) (hC : s.ints "C" = channels) :
    Code.Emits arrays routine.body s (elementWrites "Y" ys) := by
  rw [← map_range_eq_elementWrites fun i y hy => elements_eq h hinner hX hS hy,
    List.map_eq_flatMap]
  refine Code.emits_loop hN fun i _ s' hkeeps hgid => ?_
  have hchannels : s'.ints "C" = channels := (hkeeps "C" (by decide)).trans hC
  simp [Code.Emits, Code.run, KernelState.write, KernelState.setInt, KernelState.setFloat,
    FloatExpr.eval, Cell.load, assigned, hgid, hchannels,
    Int.tmod_eq_emod_of_nonneg (Int.natCast_nonneg i)]

end AxiswiseScale

end TensorLowering
