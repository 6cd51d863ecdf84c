import Mathlib.Data.List.Nodup
import Mathlib.Data.List.ProdSigma
import TensorLowering.Proofs.Computation
import TensorLowering.Tensor.View

/-!
# Flat indices and coordinates

The coordinates of an element are the digits of its flat index, in the mixed radix whose bases are
the extents and whose place values are the strides (`View.digits`, `View.weigh`). So flat indices
below the size of a view and coordinates within its extents correspond one to one
(`View.flatten_coordinate`, `View.coordinate_flatten`), and nested loops over the coordinates of
images visit every element once, whatever the order of the axes (`View.perm_positions`).
-/

namespace TensorLowering

namespace View

/-! ## Digits -/

/-- The digits of a number, with the given bases. -/
def digits (extents : List Nat) (flat : Nat) : List Nat :=
  (extents.zip (strides extents)).map fun (extent, stride) => flat / stride % extent

/-- The number that digits stand for, given the values of their places. -/
def weigh : List Nat → List Nat → Nat
  | digit :: digits, stride :: strides => digit * stride + weigh digits strides
  | _, _ => 0

variable {extents : List Nat} {flat a b : Nat}

theorem digits_cons (e : Nat) (inner : List Nat) (flat : Nat) :
    digits (e :: inner) flat = flat / span inner % e :: digits inner flat := rfl

theorem weigh_cons (c s : Nat) (digits strides : List Nat) :
    weigh (c :: digits) (s :: strides) = c * s + weigh digits strides := rfl

/-- The order of the places does not matter to the number. -/
theorem weigh_perm {f g : Axis → Nat} {axes axes' : List Axis} (h : axes.Perm axes') :
    weigh (axes.map f) (axes.map g) = weigh (axes'.map f) (axes'.map g) := by
  induction h with
  | nil => rfl
  | cons axis _ ih => rw [List.map_cons, List.map_cons, weigh_cons, ih]; rfl
  | swap axis axis' axes => exact Nat.add_left_comm ..
  | trans _ _ ih ih' => exact ih.trans ih'

theorem span_cons (e : Nat) (inner : List Nat) : span (e :: inner) = e * span inner := rfl

/-- Digits depend on nothing but the remainder of the number by the span. -/
theorem digits_congr (h : a % span extents = b % span extents) :
    digits extents a = digits extents b := by
  induction extents with
  | nil => rfl
  | cons e inner ih =>
    rw [span_cons] at h
    have hhead : a / span inner % e = b / span inner % e := by
      rw [← Nat.mod_mul_right_div_self, ← Nat.mod_mul_right_div_self, Nat.mul_comm, h]
    have htail : a % span inner = b % span inner := by
      rw [← Nat.mod_mul_left_mod a e, ← Nat.mod_mul_left_mod b e, h]
    rw [digits_cons, digits_cons, hhead, ih htail]

/-- A number below the span is what its digits stand for. -/
theorem weigh_digits (h : flat < span extents) :
    weigh (digits extents flat) (strides extents) = flat := by
  induction extents generalizing flat with
  | nil =>
    have hzero : flat = 0 := Nat.lt_one_iff.1 h
    rw [hzero]
    rfl
  | cons e inner ih =>
    rw [span_cons] at h
    have hpos : 0 < span inner := Nat.pos_of_ne_zero fun hzero => by
      rw [hzero, Nat.mul_zero] at h
      exact absurd h (Nat.not_lt_zero _)
    have hlow : digits inner flat = digits inner (flat % span inner) :=
      digits_congr (Nat.mod_mod ..).symm
    have hdigit : flat / span inner < e := Nat.div_lt_of_lt_mul (by rwa [Nat.mul_comm])
    rw [digits_cons, strides, weigh_cons, hlow, ih (Nat.mod_lt _ hpos), Nat.mod_eq_of_lt hdigit,
      Nat.mul_comm]
    exact Nat.div_add_mod flat (span inner)

/-- Digits below their bases stand for a number below the span, and are its digits. -/
theorem digits_weigh {coords : List Nat} (h : List.Forall₂ (· < ·) coords extents) :
    weigh coords (strides extents) < span extents ∧
      digits extents (weigh coords (strides extents)) = coords := by
  induction h with
  | nil => exact ⟨Nat.zero_lt_one, rfl⟩
  | @cons c e coords inner hc _ ih =>
    obtain ⟨hlt, hdigits⟩ := ih
    rw [strides, weigh_cons, digits_cons, span_cons]
    generalize weigh coords (strides inner) = low at hlt hdigits
    have hpos : 0 < span inner := Nat.lt_of_le_of_lt (Nat.zero_le _) hlt
    refine ⟨?_, ?_⟩
    · calc c * span inner + low < c * span inner + span inner := Nat.add_lt_add_left hlt _
        _ = (c + 1) * span inner := (Nat.succ_mul ..).symm
        _ ≤ e * span inner := Nat.mul_le_mul_right _ hc
    · have hlow : digits inner (c * span inner + low) = digits inner low := by
        refine digits_congr ?_
        rw [Nat.add_comm, Nat.add_mul_mod_self_right]
      rw [hlow, hdigits, Nat.add_comm, Nat.add_mul_div_right _ _ hpos, Nat.div_eq_of_lt hlt,
        Nat.zero_add, Nat.mod_eq_of_lt hc]

/-- The digits of a number below the span are below their bases. -/
theorem digits_lt (h : flat < span extents) :
    List.Forall₂ (· < ·) (digits extents flat) extents := by
  induction extents generalizing flat with
  | nil => exact .nil
  | cons e inner ih =>
    rw [span_cons] at h
    have hpos : 0 < e * span inner := Nat.lt_of_le_of_lt (Nat.zero_le _) h
    have he : 0 < e := Nat.pos_of_mul_pos_right hpos
    have hinner : 0 < span inner := Nat.pos_of_mul_pos_left hpos
    have hlow : digits inner flat = digits inner (flat % span inner) :=
      digits_congr (Nat.mod_mod ..).symm
    rw [digits_cons, hlow]
    exact .cons (Nat.mod_lt _ he) (ih (Nat.mod_lt _ hinner))

theorem length_strides (extents : List Nat) : (strides extents).length = extents.length := by
  induction extents with
  | nil => rfl
  | cons e inner ih => rw [strides, List.length_cons, List.length_cons, ih]

/-- The stride at a position is the span of the extents after it. -/
theorem getElem?_strides {i : Nat} (h : i < extents.length) :
    (strides extents)[i]? = some (span (extents.drop (i + 1))) := by
  induction extents generalizing i with
  | nil => cases h
  | cons e inner ih =>
    cases i with
    | zero => rfl
    | succ i => exact ih (Nat.lt_of_succ_lt_succ h)

/-! ## Axes -/

variable {v : View} {axis : Axis} {coord : Axis → Nat} {i : Nat} {β : Type}

/-- The extents with their strides, outermost first. -/
def dimensions (v : View) : List (Nat × Nat) := v.extents.zip (strides v.extents)

theorem length_dimensions (v : View) : v.dimensions.length = v.order.axes.length := by
  rw [dimensions, List.length_zip, length_strides, Nat.min_self]
  exact v.length_extents

/-- The extent and the stride of an axis stand at its position. -/
theorem getElem?_dimensions (h : v.order.axes[i]? = some axis) :
    v.dimensions[i]? = v.dimension? axis ∧ (v.dimension? axis).isSome := by
  have hi : i < v.dimensions.length := by
    rw [v.length_dimensions]
    exact (List.getElem?_eq_some_iff.1 h).1
  have hdimension := List.getElem?_eq_getElem hi
  have hentry : (axis, v.dimensions[i]) ∈ v.order.axes.zip v.dimensions :=
    List.mem_of_getElem? (List.getElem?_zip_eq_some.2 ⟨h, hdimension⟩)
  have hkeys : (v.order.axes.zip v.dimensions).map Prod.fst = v.order.axes :=
    List.map_fst_zip (Nat.le_of_eq v.length_dimensions.symm)
  have hlookup : v.dimension? axis = some v.dimensions[i] :=
    Computation.lookup_of_mem (by rw [hkeys]; exact v.order.nodup) hentry
  rw [hlookup, hdimension]
  exact ⟨rfl, rfl⟩

/-- What depends on nothing but the extent and the stride of an axis, axis by axis. -/
theorem map_axes {f : Axis → β} {k : Nat × Nat → β}
    (hf : ∀ axis d, v.dimension? axis = some d → f axis = k d) :
    v.order.axes.map f = v.dimensions.map k := by
  refine List.ext_getElem? fun i => ?_
  rw [List.getElem?_map, List.getElem?_map]
  cases haxis : v.order.axes[i]? with
  | none =>
    have hi := List.getElem?_eq_none_iff.1 haxis
    rw [← v.length_dimensions] at hi
    rw [List.getElem?_eq_none hi, Option.map_none, Option.map_none]
  | some axis =>
    obtain ⟨hget, hsome⟩ := getElem?_dimensions haxis
    obtain ⟨d, hd⟩ := Option.isSome_iff_exists.1 hsome
    rw [hget, hd, Option.map_some, Option.map_some, hf axis d hd]

theorem map_extent (v : View) : v.order.axes.map v.extent = v.extents := by
  rw [map_axes (k := Prod.fst) fun axis d hd => by rw [extent, hd]]
  exact List.map_fst_zip (Nat.le_of_eq (length_strides _).symm)

/-- A view with one axis has as many elements as it is long. -/
theorem size_eq_extent (hrank : v.order.rank = 1) (haxis : axis ∈ v.order.axes) :
    v.size = v.extent axis := by
  obtain ⟨a, ha⟩ := List.length_eq_one_iff.1 hrank
  rw [ha, List.mem_singleton] at haxis
  rw [size, ← map_extent, ha, haxis]
  exact Nat.mul_one _

theorem map_stride (v : View) : v.order.axes.map v.stride = strides v.extents := by
  rw [map_axes (k := Prod.snd) fun axis d hd => by rw [stride, hd]]
  exact List.map_snd_zip (Nat.le_of_eq (length_strides _))

theorem map_coordinate (v : View) (flat : Nat) :
    v.order.axes.map (v.coordinate flat) = digits v.extents flat :=
  map_axes fun axis d hd => by rw [coordinate, hd]

/-! ## Coordinates -/

/-- The flat index of the element with the given coordinates. -/
def flatten (v : View) (coord : Axis → Nat) : Nat :=
  weigh (v.order.axes.map coord) (strides v.extents)

/-- An element is found at its coordinates. -/
theorem flatten_coordinate (h : flat < v.size) : v.flatten (v.coordinate flat) = flat := by
  rw [flatten, map_coordinate, weigh_digits h]

/-- Where there are elements, no extent and no stride is zero. -/
theorem dimensions_pos (h : 0 < span extents) :
    ∀ d ∈ extents.zip (strides extents), 0 < d.1 ∧ 0 < d.2 := by
  induction extents with
  | nil => exact nofun
  | cons e inner ih =>
    rw [span_cons] at h
    have hinner : 0 < span inner := Nat.pos_of_mul_pos_left h
    exact List.forall_mem_cons.2 ⟨⟨Nat.pos_of_mul_pos_right h, hinner⟩, ih hinner⟩

/-- The coordinates of an element are found without a division by zero. -/
theorem dividesByZero_eq_false (h : flat < v.size) : v.dividesByZero axis = false := by
  unfold dividesByZero
  split
  · next extent stride hd =>
    obtain ⟨before, after, hsplit, -⟩ := List.lookup_eq_some_iff.1 hd
    have hmem : (axis, extent, stride) ∈ v.order.axes.zip (v.extents.zip (strides v.extents)) := by
      simp [hsplit]
    obtain ⟨he, hs⟩ := dimensions_pos (Nat.lt_of_le_of_lt (Nat.zero_le _) h) _
      (List.of_mem_zip hmem).2
    simp [Nat.ne_of_gt he, Nat.ne_of_gt hs]
  · rfl

/-- The coordinates of an element are within the extents. -/
theorem coordinate_lt (h : flat < v.size) (haxis : axis ∈ v.order.axes) :
    v.coordinate flat axis < v.extent axis := by
  have hall := digits_lt h
  rw [← map_coordinate, ← v.map_extent, List.forall₂_map_left_iff, List.forall₂_map_right_iff,
    List.forall₂_same] at hall
  exact hall axis haxis

/-- Coordinates within the extents are those of an element, which stands at their flat index. -/
theorem coordinate_flatten (h : ∀ axis ∈ v.order.axes, coord axis < v.extent axis) :
    v.flatten coord < v.size ∧
      ∀ axis ∈ v.order.axes, v.coordinate (v.flatten coord) axis = coord axis := by
  have hall : List.Forall₂ (· < ·) (v.order.axes.map coord) v.extents := by
    rw [← v.map_extent, List.forall₂_map_left_iff, List.forall₂_map_right_iff, List.forall₂_same]
    exact h
  obtain ⟨hlt, hdigits⟩ := digits_weigh hall
  rw [← flatten] at hlt hdigits
  rw [← map_coordinate] at hdigits
  exact ⟨hlt, List.map_inj_left.1 hdigits⟩

/-! ## Images -/

/-- The coordinates of a position in a batch of images, which is given by its image, row, column and
channel. -/
def imageCoord : Nat × Nat × Nat × Nat → Axis → Nat
  | (n, _, _, _), .n => n
  | (_, h, _, _), .h => h
  | (_, _, w, _), .w => w
  | (_, _, _, c), .c => c
  | _, .t => 0

/-- The positions of a view, image by image, row by row, column by column. -/
def positions (v : View) : List (Nat × Nat × Nat × Nat) :=
  List.range (v.extent .n) ×ˢ List.range (v.extent .h) ×ˢ List.range (v.extent .w) ×ˢ
    List.range (v.extent .c)

theorem mem_positions {p : Nat × Nat × Nat × Nat} :
    p ∈ v.positions ↔ ∀ axis ∈ [Axis.n, .c, .h, .w], imageCoord p axis < v.extent axis := by
  obtain ⟨n, h, w, c⟩ := p
  simp only [positions, List.mem_product, List.mem_range, List.forall_mem_cons, imageCoord]
  constructor
  · rintro ⟨hn, hh, hw, hc⟩
    exact ⟨hn, hc, hh, hw, nofun⟩
  · rintro ⟨hn, hc, hh, hw, -⟩
    exact ⟨hn, hh, hw, hc⟩

theorem nodup_positions (v : View) : v.positions.Nodup :=
  List.nodup_range.product (List.nodup_range.product (List.nodup_range.product List.nodup_range))

section
variable (hperm : v.order.axes.Perm [.n, .c, .h, .w])
include hperm

/-- The flat index of a position is a sum over the four axes, in whatever order they are. -/
theorem flatten_image (coord : Axis → Nat) :
    v.flatten coord = coord .n * v.stride .n + coord .c * v.stride .c + coord .h * v.stride .h +
      coord .w * v.stride .w := by
  rw [flatten, ← map_stride, weigh_perm hperm]
  simp [weigh, Nat.add_assoc]

/-- A position within the extents has coordinates within them. -/
theorem imageCoord_lt {n c h w : Nat} (hn : n < v.extent .n) (hc : c < v.extent .c)
    (hh : h < v.extent .h) (hw : w < v.extent .w) :
    ∀ axis ∈ v.order.axes, imageCoord (n, h, w, c) axis < v.extent axis := by
  have hp : (n, h, w, c) ∈ v.positions := mem_positions.2 (by simp [imageCoord, hn, hc, hh, hw])
  exact fun axis haxis => mem_positions.1 hp axis (hperm.mem_iff.1 haxis)

/-- The element at a position has that position as its coordinates. -/
theorem coordinate_position {p : Nat × Nat × Nat × Nat} (hp : p ∈ v.positions) :
    v.flatten (imageCoord p) < v.size ∧ ∀ axis ∈ [Axis.n, .c, .h, .w],
      v.coordinate (v.flatten (imageCoord p)) axis = imageCoord p axis := by
  rw [mem_positions] at hp
  obtain ⟨hsize, hcoord⟩ := coordinate_flatten fun axis haxis => hp axis (hperm.mem_iff.1 haxis)
  exact ⟨hsize, fun axis haxis => hcoord axis (hperm.mem_iff.2 haxis)⟩

/-- The positions are those of the elements, each once. -/
theorem perm_positions :
    (v.positions.map fun p => v.flatten (imageCoord p)).Perm (List.range v.size) := by
  have hinj : ∀ p ∈ v.positions, ∀ q ∈ v.positions,
      v.flatten (imageCoord p) = v.flatten (imageCoord q) → p = q := by
    intro p hp q hq heq
    have hall : ∀ axis ∈ [Axis.n, .c, .h, .w], imageCoord p axis = imageCoord q axis := by
      intro axis haxis
      rw [← (coordinate_position hperm hp).2 axis haxis, heq,
        (coordinate_position hperm hq).2 axis haxis]
    simp only [List.forall_mem_cons, imageCoord] at hall
    obtain ⟨hn, hc, hh, hw, -⟩ := hall
    exact Prod.ext hn (Prod.ext hh (Prod.ext hw hc))
  refine (List.perm_ext_iff_of_nodup (v.nodup_positions.map_on hinj) List.nodup_range).2 ?_
  intro flat
  rw [List.mem_map, List.mem_range]
  constructor
  · rintro ⟨p, hp, rfl⟩
    exact (coordinate_position hperm hp).1
  · intro hflat
    refine ⟨(v.coordinate flat .n, v.coordinate flat .h, v.coordinate flat .w,
      v.coordinate flat .c), mem_positions.2 fun axis haxis => ?_, ?_⟩
    · have hlt := coordinate_lt hflat (hperm.mem_iff.2 haxis)
      cases axis with
      | t => simp at haxis
      | _ => exact hlt
    · have hself := flatten_coordinate hflat
      rw [flatten_image hperm] at hself ⊢
      exact hself

end

end View

end TensorLowering
