import Mathlib.Data.List.Nodup
import Mathlib.Data.List.Perm.Basic
import TensorLowering.Proofs.Symbol.Product
import TensorLowering.Proofs.Transposition.Graph

/-!
# Relabelling

Relabelling permutes the pairs of axis and extent of a shape. In every order there is one shape that
transposes a given one (`Shape.Transposes.eq_of_order`), and relabelling finds it if the order holds
the axes of the shape (`Shape.relabel_iff`). So relabellings compose as transpositions do, back and
forth is nothing, and a run of them leaves a tensor transposed to the order asked for last
(`Tensor.relabel_run`). Strides follow the new order (`Shape.stride_eq`). The number of elements is
a product of the same extents in another sequence: another expression, which may overflow where the
old one does not, but which has the old value where both have one (`Shape.Transposes.count_eq`).
-/

namespace TensorLowering

/-! ## Axes and their positions -/

namespace Order

variable {o p : Order} {axis : Axis} {i : Nat}

/-- Equal lengths and one inclusion make the axes the same, because no order repeats an axis. -/
theorem sameAxes_iff_mem : o.sameAxes p = true ↔ ∀ axis, axis ∈ o.axes ↔ axis ∈ p.axes :=
  sameAxes_iff_perm.trans (List.perm_ext_iff_of_nodup o.nodup p.nodup)

/-- An axis stands at one position. -/
theorem position_eq (h : o.axes[i]? = some axis) : o.position axis = .ok i := by
  obtain ⟨hlt, haxis⟩ := List.getElem?_eq_some_iff.1 h
  have hindex : o.index? axis = some i := by
    refine List.idxOf?_eq_some_iff.2 ⟨hlt, haxis, fun j hj heq => Nat.ne_of_lt hj ?_⟩
    exact (List.Nodup.getElem_inj_iff o.nodup).1 (heq.trans haxis.symm)
  rw [position, hindex]

end Order

namespace Shape

variable {q r s : Shape} {subject other : Subject} {target : Order} {axis : Axis}
  {outer inner : List Axis}

/-- The extents belong to the axes, one to one. -/
theorem forall₂_extent (s : Shape) :
    List.Forall₂ (fun axis e => s.extent axis = .ok e) s.order.axes s.extents := by
  refine List.forall₂_iff_get.2 ⟨s.length_extents.symm, fun i haxis he => ?_⟩
  exact extent_eq_ok.2 ⟨i, List.getElem?_eq_getElem haxis, List.getElem?_eq_getElem he⟩

/-- The stride along an axis is the product of the extents of the axes further in. -/
theorem stride_eq (h : s.order.axes = outer ++ axis :: inner) :
    ∃ extents, List.Forall₂ (fun axis e => s.extent axis = .ok e) inner extents ∧
      s.stride axis = .ok (Extent.product extents) := by
  have haxis : s.order.axes[outer.length]? = some axis := by simp [h]
  have hinner : s.order.axes.drop (outer.length + 1) = inner := by simp [h]
  refine ⟨s.extents.drop (outer.length + 1), ?_, ?_⟩
  · exact hinner ▸ List.forall₂_drop _ s.forall₂_extent
  · rw [stride, Order.position_eq haxis]
    rfl

/-! ## Transposed shapes -/

/-- The extents of a transposed shape are those of the shape along its axes. -/
theorem Transposes.mapM_extent (h : s.Transposes r) :
    r.order.axes.mapM s.extent = .ok r.extents :=
  Computation.mapM_eq_ok.2 (r.forall₂_extent.imp fun axis e => (h.extent axis e).2)

/-- In one order there is one shape with given extents along the axes. -/
theorem Transposes.eq_of_order (h : s.Transposes r) (horder : r.order = s.order) : r = s := by
  have hextents := horder ▸ h.mapM_extent
  rw [(Transposes.refl s).mapM_extent] at hextents
  obtain ⟨order, extents, hlength⟩ := r
  obtain ⟨order', extents', hlength'⟩ := s
  cases horder
  cases hextents
  rfl

/-- Transposed shapes have the same extents, in another sequence. -/
theorem Transposes.perm_extents (h : s.Transposes r) : s.extents.Perm r.extents := by
  obtain ⟨extents, hextents, hperm⟩ :=
    List.perm_comp_forall₂ h.axes (Computation.mapM_eq_ok.1 h.mapM_extent)
  cases (Computation.mapM_eq_ok.2 hextents).symm.trans (Transposes.refl s).mapM_extent
  exact hperm

/-- The number of elements has one value in all orders. -/
theorem Transposes.count_eq {t : SymbolTable} {m n : Int64} (h : s.Transposes r)
    (hm : t.Evaluates s.count m) (hn : t.Evaluates r.count n) : m = n :=
  hm.product_perm h.perm_extents hn

/-! ## Relabelling -/

/-- A relabelled shape is the transposed shape in the order that was asked for. -/
theorem relabel_iff : s.relabel subject target = .ok r ↔ r.order = target ∧ s.Transposes r := by
  refine ⟨fun h => ⟨order_of_relabel h, transposes_of_relabel h⟩, ?_⟩
  rintro ⟨rfl, htransposes⟩
  obtain ⟨q, hq⟩ := exists_relabel subject htransposes.axes
  have hqr := (transposes_of_relabel hq).symm.trans htransposes
  rw [hq, hqr.eq_of_order (order_of_relabel hq).symm]

/-- Transposed shapes are relabelled alike. -/
theorem Transposes.relabel_iff (h : s.Transposes r) :
    r.relabel other target = .ok q ↔ s.relabel subject target = .ok q := by
  rw [Shape.relabel_iff, Shape.relabel_iff]
  exact and_congr_right fun _ => ⟨h.trans, h.symm.trans⟩

end Shape

namespace Tensor

variable {x y : Tensor} {target : Order} {targets : List Order}

theorem relabel_eq_ok :
    x.relabel target = .ok y ↔
      ∃ shape, x.shape.relabel x.subject target = .ok shape ∧ { x with shape } = y := by
  simp only [relabel, Computation.bind_eq_ok, Computation.pure_eq_ok]

/-- A run of relabellings transposes the tensor to the order asked for last. -/
theorem relabel_run (h : targets.foldlM relabel x = .ok y) :
    y.shape.order = targets.getLastD x.shape.order ∧ x.shape.Transposes y.shape := by
  induction targets generalizing x with
  | nil =>
    cases h
    exact ⟨rfl, .refl _⟩
  | cons target rest ih =>
    obtain ⟨middle, hmiddle, hrest⟩ := Computation.foldlM_cons_eq_ok.1 h
    obtain ⟨shape, hshape, rfl⟩ := relabel_eq_ok.1 hmiddle
    obtain ⟨horder, htransposes⟩ := ih hrest
    obtain ⟨hfirst, hstep⟩ := Shape.relabel_iff.1 hshape
    refine ⟨?_, hstep.trans htransposes⟩
    rw [horder, List.getLastD_cons, hfirst]

end Tensor

/-! ## The laws -/

namespace Shape

/-- A shape can be relabelled to the orders that hold its axes. The relabelled shape has the extent
of every axis, is relabelled further like the shape itself, and gives the shape when it is
relabelled back. So after a run of relabellings a tensor has the order asked for last, every axis
has the extent it had and the product of the extents further in as its stride, and the number of
elements has the same value as before wherever both have one. -/
theorem relabel_permutes (s : Shape) (subject : Subject) :
    (∀ target, (∃ r, s.relabel subject target = .ok r) ↔
        ∀ axis, axis ∈ s.order.axes ↔ axis ∈ target.axes) ∧
      (∀ middle r, s.relabel subject middle = .ok r →
        r.order = middle ∧ (∀ axis e, r.extent axis = .ok e ↔ s.extent axis = .ok e) ∧
          (∀ target q, r.relabel subject target = .ok q ↔ s.relabel subject target = .ok q) ∧
          r.relabel subject s.order = .ok s) ∧
      ∀ (x y : Tensor) (targets : List Order), x.shape = s →
        targets.foldlM Tensor.relabel x = .ok y →
        y.shape.order = targets.getLastD s.order ∧
          (∀ axis e, y.shape.extent axis = .ok e ↔ s.extent axis = .ok e) ∧
          (∀ outer axis inner, y.shape.order.axes = outer ++ axis :: inner →
            ∃ extents, List.Forall₂ (fun axis e => s.extent axis = .ok e) inner extents ∧
              y.shape.stride axis = .ok (Extent.product extents)) ∧
          ∀ (t : SymbolTable) m n, t.Evaluates s.count m → t.Evaluates y.shape.count n → m = n := by
  refine ⟨fun target => ?_, fun middle r hr => ?_, fun x y targets hx hy => ?_⟩
  · rw [← Order.sameAxes_iff_mem]
    refine ⟨fun ⟨r, hr⟩ => (relabel_eq_ok.1 hr).1, fun hsame => ?_⟩
    exact exists_relabel subject (Order.perm_of_sameAxes hsame)
  · obtain ⟨horder, htransposes⟩ := relabel_iff.1 hr
    refine ⟨horder, fun axis e => (htransposes.extent axis e).symm, fun target q => ?_, ?_⟩
    · exact htransposes.relabel_iff
    · exact relabel_iff.2 ⟨rfl, htransposes.symm⟩
  · subst hx
    obtain ⟨horder, htransposes⟩ := Tensor.relabel_run hy
    refine ⟨horder, fun axis e => (htransposes.extent axis e).symm, fun outer axis inner h => ?_,
      fun t m n => htransposes.count_eq⟩
    obtain ⟨extents, hextents, hstride⟩ := stride_eq h
    exact ⟨extents, hextents.imp fun axis e => (htransposes.extent axis e).2, hstride⟩

/-- Images whose number and width are not known yet. -/
def openImages : Tensor :=
  ⟨0, "x", .input, ⟨.nchw, [.symbol 0, .value 3, .value 4, .symbol 1], rfl⟩, none, []⟩

/-- The images with the batch innermost. -/
def openImagesByChannel : Tensor :=
  ⟨0, "x", .input, ⟨.chwn, [.value 3, .value 4, .symbol 1, .symbol 0], rfl⟩, none, []⟩

/-- A table with two images, five pixels wide. -/
def twoFiveWide : SymbolTable := ⟨[⟨"N", some 2⟩, ⟨"W", some 5⟩]⟩

/-- The images are no sequences. Laid out with the channel innermost, they can be laid out as they
were, or on with the batch innermost, where a row is as long as the rows of all images together. -/
theorem relabel_permutes_openImages :
    (¬ ∃ r, openImages.shape.relabel .relabelling .ntc = .ok r) ∧
      (∃ r, openImages.shape.relabel .relabelling .nhwc = .ok r ∧
        r.relabel .relabelling .nchw = .ok openImages.shape ∧
        r.relabel .relabelling .chwn = .ok openImagesByChannel.shape) ∧
      [Order.nhwc, .chwn].foldlM Tensor.relabel openImages = .ok openImagesByChannel ∧
      openImagesByChannel.shape.stride .h = .ok (Extent.product [.symbol 1, .symbol 0]) ∧
      twoFiveWide.Evaluates openImagesByChannel.shape.count 120 := by
  obtain ⟨hsucceeds, hlaws, hruns⟩ := relabel_permutes openImages.shape .relabelling
  have hrun : [Order.nhwc, .chwn].foldlM Tensor.relabel openImages = .ok openImagesByChannel := rfl
  refine ⟨fun hntc => ?_, ?_, hrun, ?_, ?_⟩
  · exact absurd (((hsucceeds .ntc).1 hntc .t).2 (by decide)) (by decide)
  · obtain ⟨r, hr⟩ := (hsucceeds .nhwc).2 fun axis => by cases axis <;> decide
    obtain ⟨-, -, hcompose, hback⟩ := hlaws _ r hr
    exact ⟨r, hr, hback, (hcompose .chwn _).2 rfl⟩
  · obtain ⟨-, -, hstride, -⟩ := hruns openImages _ _ rfl hrun
    obtain ⟨extents, hextents, hstride⟩ := hstride [.c] .h [.w, .n] rfl
    cases hextents with
    | cons hw hrest =>
      cases hrest with
      | cons hn hnil =>
        cases hnil
        cases hw
        cases hn
        exact hstride
  · obtain ⟨-, -, -, hcount⟩ := hruns openImages _ _ rfl hrun
    obtain ⟨n, hn⟩ : ∃ n, twoFiveWide.Evaluates openImagesByChannel.shape.count n := ⟨_, rfl⟩
    exact (hcount twoFiveWide 120 n (by decide) hn).symm ▸ hn

end Shape

end TensorLowering
