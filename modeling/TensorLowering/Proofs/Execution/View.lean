import TensorLowering.Proofs.Execution.Coordinates
import TensorLowering.Proofs.Shape
import TensorLowering.Proofs.Symbol.Extension
import TensorLowering.Proofs.Symbol.Product

/-!
# The numbers of a view

A view is taken under a table that knows all extents of a tensor; the count of the tensor may have
been simplified before that, under a table that knew less. If the simplified count has a value
later, it is the number of elements of the view (`Tensor.size_of_view`), also where a literal zero
has absorbed the other extents. In the same way the extents and strides of the tensor have the
values that the view has for them (`Tensor.extent_of_view`, `Tensor.stride_of_view`).
-/

namespace TensorLowering

variable {t u : SymbolTable} {x y : Tensor} {v : View}

/-- The extent has a value under the table, which is not negative and equals the number. -/
def SymbolTable.Counts (t : SymbolTable) (a : Extent) (n : Nat) : Prop :=
  ∃ m, t.Evaluates a m ∧ m.toInt = n

namespace SymbolTable

variable {a : Extent} {n m : Nat}

theorem Counts.unique (hn : t.Counts a n) (hm : t.Counts a m) : n = m := by
  obtain ⟨x, hx, hn⟩ := hn
  obtain ⟨y, hy, hm⟩ := hm
  cases hx.unique hy
  omega

/-- A simplification under a smaller table keeps the number of an extent. -/
theorem Extends.counts_simplify (h : t.Extends u) (ha : u.Counts a n) :
    u.Counts (t.simplify a) n := by
  obtain ⟨x, hx, hn⟩ := ha
  exact ⟨x, h.evaluates_simplify hx, hn⟩

end SymbolTable

/-! ## Views -/

theorem Tensor.extentNumber_eq_ok {a : Extent} {n : Nat} :
    x.extentNumber t a = .ok n ↔ t.Counts a n := by
  unfold extentNumber SymbolTable.Counts SymbolTable.Evaluates
  rw [Computation.bind_eq_ok]
  constructor
  · rintro ⟨m?, hm, h⟩
    cases m? with
    | none => cases h
    | some m =>
      obtain ⟨hneg, rfl⟩ := Computation.ensure_eq_ok.1 h
      have hneg := Int64.le_iff_toInt_le.1 (Int64.not_lt.1 hneg)
      rw [Int64.toInt_zero] at hneg
      exact ⟨m, hm, by omega⟩
  · rintro ⟨m, hm, hn⟩
    refine ⟨some m, hm, Computation.ensure_eq_ok.2 ⟨?_, by omega⟩⟩
    rw [Int64.not_lt, Int64.le_iff_toInt_le, Int64.toInt_zero]
    omega

/-- A view has the order of its tensor and the values of its extents. -/
theorem Tensor.view_eq_ok :
    x.view t = .ok v ↔
      v.order = x.shape.order ∧ List.Forall₂ t.Counts x.shape.extents v.extents := by
  unfold view
  constructor
  · intro h
    split at h
    · next extents hextents =>
      cases h
      refine ⟨rfl, (Computation.mapM_eq_ok.1 hextents).imp fun a n h => ?_⟩
      exact extentNumber_eq_ok.1 h
    · cases h
  · rintro ⟨horder, hextents⟩
    have hmap : x.shape.extents.mapM (x.extentNumber t) = .ok v.extents :=
      Computation.mapM_eq_ok.2 (hextents.imp fun a n h => extentNumber_eq_ok.2 h)
    obtain ⟨order, extents, hlen⟩ := v
    cases horder
    split
    · next extents' hextents' =>
      cases hmap.symm.trans hextents'
      rfl
    · next e he =>
      cases hmap.symm.trans he

/-- A tensor has a view when all its extents have numbers. -/
theorem Tensor.exists_view (h : ∀ a ∈ x.shape.extents, ∃ n, t.Counts a n) :
    ∃ v, x.view t = .ok v := by
  obtain ⟨extents, hextents⟩ := Computation.exists_mapM fun a ha =>
    (h a ha).imp fun n hn => (extentNumber_eq_ok (x := x)).2 hn
  have hcounts : List.Forall₂ t.Counts x.shape.extents extents :=
    (Computation.mapM_eq_ok.1 hextents).imp fun a n hn => extentNumber_eq_ok.1 hn
  exact ⟨⟨x.shape.order, extents, hcounts.length_eq.symm.trans x.shape.length_extents⟩,
    view_eq_ok.2 ⟨rfl, hcounts⟩⟩

/-- Tensors of one shape have one view. -/
theorem Tensor.view_congr (hshape : y.shape = x.shape) (h : x.view t = .ok v) :
    y.view t = .ok v := by
  rw [view_eq_ok] at h ⊢
  rwa [hshape]

/-! ## Products of extents -/

namespace SymbolTable

variable {extents : List Extent} {numbers : List Nat} {z : Int64}

/-- The product of the numbers that extents have is what a view of them spans. -/
theorem prod_number_of_counts (h : List.Forall₂ t.Counts extents numbers) :
    (extents.map t.number).prod = View.span numbers := by
  induction h with
  | nil => rfl
  | cons ha _ ih =>
    obtain ⟨m, hm, hn⟩ := ha
    rw [List.map_cons, List.prod_cons, ih, hm.number_eq, hn, View.span_cons, Int.natCast_mul]

/-- A simplified product with a value later has the product of the values of its factors. -/
theorem Extends.product_eq_span (ht : t.Extends u)
    (hnumbers : List.Forall₂ u.Counts extents numbers)
    (hz : u.Evaluates (t.simplify (Extent.product extents)) z) : z.toInt = View.span numbers := by
  have hsimple : List.Forall₂ u.Counts (extents.map t.simplify) numbers := by
    rw [List.forall₂_map_left_iff]
    exact hnumbers.imp fun a n hn => ht.counts_simplify hn
  rw [simplify_product] at hz
  rw [hz.product, prod_number_of_counts hsimple]

end SymbolTable

/-! ## Counts, extents and strides -/

namespace Tensor

/-- A simplified count with a value later is the number of elements of the view taken later. -/
theorem size_of_view {n : Int64} (ht : t.Extends u) (hv : x.view u = .ok v)
    (hn : u.Evaluates (t.simplify x.shape.count) n) : n.toInt = v.size :=
  ht.product_eq_span (view_eq_ok.1 hv).2 hn

variable {axis : Axis} {e : Extent}

/-- The dimension of a view along an axis at a position. -/
theorem dimension?_of_view {i : Nat} {n : Nat} (hv : x.view t = .ok v)
    (haxis : x.shape.order.axes[i]? = some axis) (hn : v.extents[i]? = some n) :
    v.dimension? axis = some (n, View.span (v.extents.drop (i + 1))) := by
  obtain ⟨horder, -⟩ := view_eq_ok.1 hv
  rw [← horder] at haxis
  rw [← (View.getElem?_dimensions haxis).1, View.dimensions, List.getElem?_zip_eq_some]
  exact ⟨hn, View.getElem?_strides (List.getElem?_eq_some_iff.1 hn).1⟩

/-- An extent of a tensor has the value that the view has for it. -/
theorem extent_of_view (hv : x.view t = .ok v) (he : x.shape.extent axis = .ok e) :
    t.Counts e (v.extent axis) := by
  obtain ⟨i, haxis, he⟩ := Shape.extent_eq_ok.1 he
  obtain ⟨n, hn, hcounts⟩ := Computation.exists_result (view_eq_ok.1 hv).2 he
  rwa [View.extent, dimension?_of_view hv haxis hn]

/-- A simplified stride with a value has the value that the view has for it. -/
theorem stride_of_view {n : Int64} (hv : x.view t = .ok v) (he : x.shape.stride axis = .ok e)
    (hn : t.Evaluates (t.simplify e) n) : n.toInt = v.stride axis := by
  obtain ⟨i, haxis, rfl⟩ := Shape.stride_eq_ok he
  obtain ⟨-, hcounts⟩ := view_eq_ok.1 hv
  have hlength : i < v.extents.length := by
    rw [← hcounts.length_eq, x.shape.length_extents]
    exact (List.getElem?_eq_some_iff.1 haxis).1
  rw [View.stride, dimension?_of_view hv haxis (List.getElem?_eq_getElem hlength)]
  exact (SymbolTable.Extends.refl t).product_eq_span (List.forall₂_drop (i + 1) hcounts) hn

end Tensor

end TensorLowering
