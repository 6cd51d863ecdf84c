import TensorLowering.Execution.Deconvolution
import TensorLowering.Kernel.Deconvolution
import TensorLowering.Proofs.Execution.Access
import TensorLowering.Proofs.Execution.Run
import TensorLowering.Proofs.Kernel.Loops

/-!
# The deconvolution loops

The routine of a deconvolution nests loops over the coordinates of the result, and inside them loops
over the window and the input channels; the reference execution walks the flat indices of the result
and adds up a list of index pairs (`Deconvolution.taps`). Where an execution succeeds, these are the
pairs that the code reads (`Deconvolution.reads`). From the inside out: the loops over the window
add the products of that list, in its order (`Deconvolution.adds_gather`), and the loops over the
result write one element for each position (`Deconvolution.emits_body`), which are the flat indices
in another order (`Deconvolution.perm_writes_body`).
-/

namespace TensorLowering

namespace Deconvolution

open Code

variable {α : Type} {s s' : KernelState α} {p : Deconvolution} {x w y : View}

/-! ## Parameters -/

/-- What the integer parameters stand for. -/
def numbers (p : Deconvolution) (x w y : View) : List (String × Int) :=
  [("N", x.extent .n), ("C1", x.extent .c), ("H1", x.extent .h), ("W1", x.extent .w),
    ("C2", y.extent .c), ("H2", y.extent .h), ("W2", y.extent .w),
    ("KH", p.ksize.h.toNat), ("KW", p.ksize.w.toNat),
    ("SH", p.stride.h.toInt64.toInt), ("SW", p.stride.w.toInt64.toInt),
    ("PH", p.padding.h.toInt64.toInt), ("PW", p.padding.w.toInt64.toInt),
    ("XSN", x.stride .n), ("XSC", x.stride .c), ("XSH", x.stride .h), ("XSW", x.stride .w),
    ("WSN", w.stride .n), ("WSC", w.stride .c), ("WSH", w.stride .h), ("WSW", w.stride .w),
    ("YSN", y.stride .n), ("YSC", y.stride .c), ("YSH", y.stride .h), ("YSW", y.stride .w)]

/-- The names of the integer parameters. -/
def numberNames : List String :=
  (parameters.filter (·.kind = .integer)).map (·.name)

/-- The integer parameters hold what they stand for. -/
def Loaded (p : Deconvolution) (x w y : View) (s : KernelState α) : Prop :=
  ∀ entry ∈ p.numbers x w y, s.ints entry.1 = entry.2

theorem Loaded.int {name : String} {n : Int} (hl : Loaded p x w y s)
    (h : (name, n) ∈ p.numbers x w y) : s.ints name = n :=
  hl _ h

/-- Parameters keep what they hold while other integers change. -/
theorem Loaded.keeps {names : List String} (hl : Loaded p x w y s) (hk : Keeps names s s')
    (hnames : ∀ name ∈ numberNames, name ∉ names) : Loaded p x w y s' := by
  intro entry hentry
  have hkeys : (p.numbers x w y).map Prod.fst = numberNames := rfl
  have hname : entry.1 ∈ numberNames := hkeys ▸ List.mem_map_of_mem hentry
  rw [hk entry.1 (hnames _ hname), hl entry hentry]

section
variable (hl : Loaded p x w y s) (a b c d : String)
include hl

theorem Loaded.eval_data :
    (flatIndex "X" a b c d).eval s.ints = s.ints a * x.stride .n + s.ints b * x.stride .c +
      s.ints c * x.stride .h + s.ints d * x.stride .w := by
  have hn : s.ints "XSN" = x.stride .n := hl.int (by simp [numbers])
  have hc : s.ints "XSC" = x.stride .c := hl.int (by simp [numbers])
  have hh : s.ints "XSH" = x.stride .h := hl.int (by simp [numbers])
  have hw : s.ints "XSW" = x.stride .w := hl.int (by simp [numbers])
  simp [flatIndex, hn, hc, hh, hw]

theorem Loaded.eval_weights :
    (flatIndex "W" a b c d).eval s.ints = s.ints a * w.stride .n + s.ints b * w.stride .c +
      s.ints c * w.stride .h + s.ints d * w.stride .w := by
  have hn : s.ints "WSN" = w.stride .n := hl.int (by simp [numbers])
  have hc : s.ints "WSC" = w.stride .c := hl.int (by simp [numbers])
  have hh : s.ints "WSH" = w.stride .h := hl.int (by simp [numbers])
  have hw : s.ints "WSW" = w.stride .w := hl.int (by simp [numbers])
  simp [flatIndex, hn, hc, hh, hw]

theorem Loaded.eval_result :
    (flatIndex "Y" a b c d).eval s.ints = s.ints a * y.stride .n + s.ints b * y.stride .c +
      s.ints c * y.stride .h + s.ints d * y.stride .w := by
  have hn : s.ints "YSN" = y.stride .n := hl.int (by simp [numbers])
  have hc : s.ints "YSC" = y.stride .c := hl.int (by simp [numbers])
  have hh : s.ints "YSH" = y.stride .h := hl.int (by simp [numbers])
  have hw : s.ints "YSW" = y.stride .w := hl.int (by simp [numbers])
  simp [flatIndex, hn, hc, hh, hw]

end

variable [Zero α] [Add α] [Mul α] {arrays : String → Int → α}

/-! ## Sums of products -/

/-- One more product of a data element and a weight. -/
def addProduct (arrays : String → Int → α) (sum : α) (tap : Int × Int) : α :=
  sum + arrays "X" tap.1 * arrays "W" tap.2

/-- From the state, the code adds the products of these elements to the sum, in sequence, and writes
nothing. -/
structure Adds (arrays : String → Int → α) (code : Code) (s : KernelState α)
    (taps : List (Int × Int)) : Prop where
  sum : (code.run arrays s).floats "sum" = taps.foldl (addProduct arrays) (s.floats "sum")
  writes : (code.run arrays s).writes = s.writes

/-- A loop adds what its rounds add, one after the other. -/
theorem adds_loop {counter bound : String} {increment : Increment} {body : Code}
    {taps : Nat → List (Int × Int)} {n : Nat} (hbound : s.ints bound = n)
    (hround : ∀ i < n, ∀ s', Keeps (counter :: body.sets) s s' → s'.ints counter = i →
      Adds arrays body s' (taps i)) :
    Adds arrays (loop counter bound increment body .done) s ((List.range n).flatMap taps) := by
  have hn : (s.ints bound).toNat = n := by rw [hbound, Int.toNat_natCast]
  have hrun : Keeps (counter :: body.sets) s
        ((loop counter bound increment body .done).run arrays s) ∧
      ((loop counter bound increment body .done).run arrays s).floats "sum" =
        (List.range (s.ints bound).toNat).foldl
          (fun sum i => (taps i).foldl (addProduct arrays) sum) (s.floats "sum") ∧
      ((loop counter bound increment body .done).run arrays s).writes = s.writes := by
    refine run_loop (R := fun s' sum => Keeps (counter :: body.sets) s s' ∧
      s'.floats "sum" = sum ∧ s'.writes = s.writes) ⟨fun _ _ => rfl, rfl, rfl⟩ ?_
    rintro i hi s' _ ⟨hkeeps, rfl, hwrites⟩
    have hset := hkeeps.trans (keeps_setInt (n := i) List.mem_cons_self)
    have hadds := hround i (hn ▸ hi) _ hset (assigned_self _ _ _)
    refine ⟨hset.trans ((run_keeps body _).mono (List.subset_cons_self _ _)), hadds.sum, ?_⟩
    exact hadds.writes.trans hwrites
  obtain ⟨-, hsum, hwrites⟩ := hrun
  refine ⟨?_, hwrites⟩
  rw [hsum, hn, List.foldl_flatMap]

/-! ## Source coordinates -/

section
variable {shifted out padding tap stride source extent : String} {rest : Code}
  (hstride : stride ≠ shifted) (hextent : extent ≠ shifted) (hextent' : extent ≠ source)
include hstride hextent hextent'

/-- The code that finds a source coordinate has two conditions under which it does not go on. -/
theorem run_sourceCoordinate {v step bound : Int}
    (hv : s.ints out + s.ints padding - s.ints tap = v) (hstep : s.ints stride = step)
    (hbound : s.ints extent = bound) :
    (sourceCoordinate shifted out padding tap stride source extent rest).run arrays s =
      if v < 0 ∨ v.tmod step ≠ 0 then s.setInt shifted v
      else if bound ≤ v.tdiv step then (s.setInt shifted v).setInt source (v.tdiv step)
      else rest.run arrays ((s.setInt shifted v).setInt source (v.tdiv step)) := by
  have hvalue : IntExpr.eval s.ints (.var out + .var padding - .var tap) = v := by simp [hv]
  have hfirst : Condition.holds (assigned s.ints shifted v)
      (.either (.less (.var shifted) (.lit 0)) (.differs (.var shifted % .var stride) (.lit 0))) =
        decide (v < 0 ∨ v.tmod step ≠ 0) := by
    have hkept : assigned s.ints shifted v stride = step := by
      rw [assigned_of_ne _ _ hstride, hstep]
    simp [Condition.holds, assigned_self, hkept]
  have hquotient : IntExpr.eval (assigned s.ints shifted v) (.var shifted / .var stride) =
      v.tdiv step := by
    simp [assigned_self, assigned_of_ne _ _ hstride, hstep]
  have hsecond : Condition.holds (assigned (assigned s.ints shifted v) source (v.tdiv step))
      (.atLeast (.var source) (.var extent)) = decide (bound ≤ v.tdiv step) := by
    have hkept : assigned (assigned s.ints shifted v) source (v.tdiv step) extent = bound := by
      rw [assigned_of_ne _ _ hextent', assigned_of_ne _ _ hextent, hbound]
    simp [Condition.holds, assigned_self, hkept]
  simp only [sourceCoordinate, run, hvalue, KernelState.setInt, hfirst, hquotient, hsecond,
    decide_eq_true_eq]

/-- The code that finds a source coordinate goes on with it where there is one, and does nothing
where there is none. -/
theorem adds_sourceCoordinate {outAt tapAt extentNumber : Nat} {strideWord paddingWord : UInt64}
    {taps : Int → List (Int × Int)} (hout : s.ints out = outAt) (htap : s.ints tap = tapAt)
    (hpaddingInt : s.ints padding = paddingWord.toInt64.toInt)
    (hstrideInt : s.ints stride = strideWord.toInt64.toInt)
    (hextentInt : s.ints extent = extentNumber)
    (hrest : ∀ i s', Keeps [shifted, source] s s' → s'.ints source = i →
      Adds arrays rest s' (taps i)) :
    Adds arrays (sourceCoordinate shifted out padding tap stride source extent rest) s
      ((sourceIndex? outAt tapAt strideWord paddingWord extentNumber).elim [] taps) := by
  have hv : s.ints out + s.ints padding - s.ints tap =
      (outAt : Int) + paddingWord.toInt64.toInt - (tapAt : Int) := by
    rw [hout, hpaddingInt, htap]
  have hrun : (sourceCoordinate shifted out padding tap stride source extent rest).run arrays s =
      _ := run_sourceCoordinate hstride hextent hextent' hv hstrideInt hextentInt
  unfold sourceIndex?
  generalize strideWord.toInt64.toInt = step at hrun ⊢
  generalize (outAt : Int) + paddingWord.toInt64.toInt - (tapAt : Int) = v at hrun ⊢
  by_cases hskip : v < 0 ∨ v.tmod step ≠ 0
  · rw [if_pos hskip] at hrun
    simp only [if_pos hskip]
    exact ⟨by rw [hrun]; rfl, by rw [hrun]; rfl⟩
  · rw [if_neg hskip] at hrun
    simp only [if_neg hskip]
    by_cases hbeyond : (extentNumber : Int) ≤ v.tdiv step
    · rw [if_pos hbeyond] at hrun
      rw [if_neg (Int.not_lt.2 hbeyond)]
      exact ⟨by rw [hrun]; rfl, by rw [hrun]; rfl⟩
    · rw [if_neg hbeyond] at hrun
      rw [if_pos (Int.not_le.1 hbeyond)]
      have hkeeps : Keeps [shifted, source] s ((s.setInt shifted v).setInt source (v.tdiv step)) :=
        (keeps_setInt (by simp)).trans (keeps_setInt (by simp))
      have hadds := hrest _ _ hkeeps (assigned_self _ _ _)
      exact ⟨hrun ▸ hadds.sum, hrun ▸ hadds.writes⟩

end

/-! ## The window -/

section
variable {n c2 h2 w2 : Nat}

/-- The index pairs that the code reads for an element of the result. The code computes an index
from any row and column, also from those that the reference execution rejects. -/
def reads (p : Deconvolution) (x w : View) (n c2 h2 w2 : Nat) : List (Int × Int) :=
  (sources p.ksize.h.toNat h2 p.stride.h p.padding.h (x.extent .h)).flatMap fun (kh, h1) =>
    (sources p.ksize.w.toNat w2 p.stride.w p.padding.w (x.extent .w)).flatMap fun (kw, w1) =>
      (List.range (x.extent .c)).map fun (c1 : Nat) =>
        (n * x.stride .n + c1 * x.stride .c + h1 * x.stride .h + w1 * x.stride .w,
          weightIndex w c2 c1 kh kw)

/-- Where no row and no column is rejected, the code reads what the reference execution reads. -/
theorem reads_eq_taps (h : ∀ tap ∈ p.taps x w n c2 h2 w2, 0 ≤ tap.1) :
    p.reads x w n c2 h2 w2 = p.taps x w n c2 h2 w2 := by
  refine List.flatMap_congr fun row hrow => List.flatMap_congr fun column hcolumn =>
    List.map_congr_left fun c1 hc1 => ?_
  have hmem : (dataIndex x n c1 row.2 column.2, weightIndex w c2 c1 row.1 column.1) ∈
      p.taps x w n c2 h2 w2 :=
    List.mem_flatMap.2 ⟨row, hrow, List.mem_flatMap.2 ⟨column, hcolumn, List.mem_map_of_mem hc1⟩⟩
  have hindex := h _ hmem
  unfold dataIndex at hindex ⊢
  split at hindex
  · cases hindex
  · next hnonneg => rw [if_neg hnonneg]

/-- The innermost loop adds the products over the input channels. -/
theorem adds_channels {kh kw : Nat} {h1 w1 : Int} (hl : Loaded p x w y s) (hn : s.ints "n" = n)
    (hc2 : s.ints "c2" = c2) (hkh : s.ints "kh" = kh) (hkw : s.ints "kw" = kw)
    (hh1 : s.ints "h1" = h1) (hw1 : s.ints "w1" = w1) :
    Adds arrays
      (.loop "c1" "C1" .operator
        (.accumulate "sum" ⟨"X", flatIndex "X" "n" "c1" "h1" "w1"⟩
          ⟨"W", flatIndex "W" "c2" "c1" "kh" "kw"⟩ .done) .done) s
      ((List.range (x.extent .c)).map fun (c1 : Nat) =>
        (n * x.stride .n + c1 * x.stride .c + h1 * x.stride .h + w1 * x.stride .w,
          weightIndex w c2 c1 kh kw)) := by
  rw [List.map_eq_flatMap]
  refine adds_loop (hl.int (by simp [numbers])) fun c1 _ s' hkeeps hc1 => ?_
  have hl' := hl.keeps hkeeps (by decide)
  have hdata := hl'.eval_data "n" "c1" "h1" "w1"
  have hweights := hl'.eval_weights "c2" "c1" "kh" "kw"
  rw [hkeeps "n" (by decide), hc1, hkeeps "h1" (by decide), hkeeps "w1" (by decide), hn, hh1, hw1]
    at hdata
  rw [hkeeps "c2" (by decide), hc1, hkeeps "kh" (by decide), hkeeps "kw" (by decide), hc2, hkh,
    hkw] at hweights
  refine ⟨?_, rfl⟩
  simp only [run, KernelState.setFloat, assigned_self, Cell.load, hdata, hweights, List.foldl_cons,
    List.foldl_nil, addProduct, weightIndex]

/-- The code that sums up an element adds the products that make it up. -/
theorem adds_gather (hl : Loaded p x w y s) (hn : s.ints "n" = n) (hc2 : s.ints "c2" = c2)
    (hh2 : s.ints "h2" = h2) (hw2 : s.ints "w2" = w2) :
    Adds arrays (gather .done) s (p.reads x w n c2 h2 w2) := by
  rw [reads, flatMap_sources]
  refine adds_loop (hl.int (by simp [numbers])) fun kh _ s₁ hrow hkh => ?_
  have hl₁ := hl.keeps hrow (by decide)
  refine adds_sourceCoordinate (by decide) (by decide) (by decide)
    ((hrow "h2" (by decide)).trans hh2) hkh (hl₁.int (by simp [numbers]))
    (hl₁.int (by simp [numbers])) (hl₁.int (by simp [numbers])) fun h1 s₂ hsource hh1 => ?_
  have hl₂ := hl₁.keeps hsource (by decide)
  have hkeeps₂ : Keeps (gather .done).sets s s₂ :=
    (hrow.mono (by decide)).trans (hsource.mono (by decide))
  dsimp only
  rw [flatMap_sources]
  refine adds_loop (hl₂.int (by simp [numbers])) fun kw _ s₃ hcolumn hkw => ?_
  have hl₃ := hl₂.keeps hcolumn (by decide)
  have hkeeps₃ := hkeeps₂.trans (hcolumn.mono (by decide))
  refine adds_sourceCoordinate (by decide) (by decide) (by decide)
    ((hkeeps₃ "w2" (by decide)).trans hw2) hkw (hl₃.int (by simp [numbers]))
    (hl₃.int (by simp [numbers])) (hl₃.int (by simp [numbers])) fun w1 s₄ hacross hw1 => ?_
  have hl₄ := hl₃.keeps hacross (by decide)
  have hkeeps₄ := hkeeps₃.trans (hacross.mono (by decide))
  -- The position in the window is that of the rounds around the source coordinates.
  have hkh₄ : s₄.ints "kh" = kh := by
    rw [hacross "kh" (by decide), hcolumn "kh" (by decide), hsource "kh" (by decide), hkh]
  have hkw₄ : s₄.ints "kw" = kw := (hacross "kw" (by decide)).trans hkw
  have hh1₄ : s₄.ints "h1" = h1 := by
    rw [hacross "h1" (by decide), hcolumn "h1" (by decide), hh1]
  exact adds_channels hl₄ ((hkeeps₄ "n" (by decide)).trans hn)
    ((hkeeps₄ "c2" (by decide)).trans hc2) hkh₄ hkw₄ hh1₄ hw1

/-! ## The elements of the result -/

/-- The write of the element at a position of the result: the sum of its products. -/
def positionWrite (arrays : String → Int → α) (p : Deconvolution) (x w y : View) :
    Nat × Nat × Nat × Nat → Write α
  | (n, h2, w2, c2) =>
    ⟨"Y", n * y.stride .n + c2 * y.stride .c + h2 * y.stride .h + w2 * y.stride .w,
      (p.reads x w n c2 h2 w2).foldl (addProduct arrays) 0⟩

/-- The write of the element with a flat index: the sum of the products at its coordinates. -/
def flatWrite (arrays : String → Int → α) (p : Deconvolution) (x w y : View) (flat : Nat) :
    Write α :=
  ⟨"Y", flat, (p.reads x w (y.coordinate flat .n) (y.coordinate flat .c) (y.coordinate flat .h)
    (y.coordinate flat .w)).foldl (addProduct arrays) 0⟩

/-- A position has the write of its flat index. -/
theorem positionWrite_eq (hperm : y.order.axes.Perm [.n, .c, .h, .w])
    {q : Nat × Nat × Nat × Nat} (hq : q ∈ y.positions) :
    positionWrite arrays p x w y q = flatWrite arrays p x w y (y.flatten (View.imageCoord q)) := by
  obtain ⟨-, hcoord⟩ := View.coordinate_position hperm hq
  have hindex := View.flatten_image hperm (View.imageCoord q)
  obtain ⟨n, h2, w2, c2⟩ := q
  simp only [List.forall_mem_cons, View.imageCoord] at hcoord hindex
  obtain ⟨hn, hc, hh, hw, -⟩ := hcoord
  rw [flatWrite, hn, hc, hh, hw, hindex, positionWrite]
  push_cast
  rfl

/-- The body of the innermost loop over the result writes one element. -/
theorem emits_element (hl : Loaded p x w y s) (hn : s.ints "n" = n) (hc2 : s.ints "c2" = c2)
    (hh2 : s.ints "h2" = h2) (hw2 : s.ints "w2" = w2) :
    Emits arrays
      (.float "sum" .zero <| .blank <| gather <| .blank <|
        .store ⟨"Y", flatIndex "Y" "n" "c2" "h2" "w2"⟩ "sum" .done) s
      [positionWrite arrays p x w y (n, h2, w2, c2)] := by
  have hadds : Adds arrays (gather .done) (s.setFloat "sum" 0) (p.reads x w n c2 h2 w2) :=
    adds_gather hl hn hc2 hh2 hw2
  have hkeeps : Keeps (gather .done).sets s ((gather .done).run arrays (s.setFloat "sum" 0)) :=
    run_keeps (gather .done) (s.setFloat "sum" 0)
  obtain ⟨hsum, hwrites⟩ := hadds
  generalize hs' : (gather .done).run arrays (s.setFloat "sum" 0) = s' at hsum hwrites hkeeps
  have hindex := (hl.keeps hkeeps (by decide)).eval_result "n" "c2" "h2" "w2"
  rw [hkeeps "n" (by decide), hkeeps "c2" (by decide), hkeeps "h2" (by decide),
    hkeeps "w2" (by decide), hn, hc2, hh2, hw2] at hindex
  have hzero : (s.setFloat "sum" 0).floats "sum" = 0 := assigned_self s.floats "sum" 0
  rw [hzero] at hsum
  have hrun : (Code.float "sum" .zero <| .blank <| gather <| .blank <|
      .store ⟨"Y", flatIndex "Y" "n" "c2" "h2" "w2"⟩ "sum" .done).run arrays s =
      s'.write "Y" ((flatIndex "Y" "n" "c2" "h2" "w2").eval s'.ints) (s'.floats "sum") := by
    rw [← hs']
    rfl
  rw [Emits, hrun, KernelState.write, hwrites, hindex, hsum]
  rfl

end

/-- The loops over the result write its elements, position by position. -/
theorem emits_body (hl : Loaded p x w y s) (hbatch : x.extent .n = y.extent .n) :
    Emits arrays routine.body s (y.positions.map (positionWrite arrays p x w y)) := by
  have hloops : y.positions.map (positionWrite arrays p x w y) =
      (List.range (y.extent .n)).flatMap fun n => (List.range (y.extent .h)).flatMap fun h2 =>
        (List.range (y.extent .w)).flatMap fun w2 => (List.range (y.extent .c)).map fun c2 =>
          positionWrite arrays p x w y (n, h2, w2, c2) := by
    simp only [View.positions, SProd.sprod, List.product, List.map_flatMap, List.map_map,
      Function.comp_def]
  rw [hloops, ← hbatch]
  refine emits_loop (hl.int (by simp [numbers])) fun n _ s₁ hkeeps₁ hn => ?_
  have hl₁ := hl.keeps hkeeps₁ (by decide)
  refine emits_loop (hl₁.int (by simp [numbers])) fun h2 _ s₂ hkeeps₂ hh2 => ?_
  have hl₂ := hl₁.keeps hkeeps₂ (by decide)
  refine emits_loop (hl₂.int (by simp [numbers])) fun w2 _ s₃ hkeeps₃ hw2 => ?_
  have hl₃ := hl₂.keeps hkeeps₃ (by decide)
  rw [List.map_eq_flatMap]
  refine emits_loop (hl₃.int (by simp [numbers])) fun c2 _ s₄ hkeeps₄ hc2 => ?_
  have hl₄ := hl₃.keeps hkeeps₄ (by decide)
  refine emits_element hl₄ ?_ hc2 ?_ ?_
  · rw [hkeeps₄ "n" (by decide), hkeeps₃ "n" (by decide), hkeeps₂ "n" (by decide), hn]
  · rw [hkeeps₄ "h2" (by decide), hkeeps₃ "h2" (by decide), hh2]
  · rw [hkeeps₄ "w2" (by decide), hw2]

/-! ## Agreement with the reference execution -/

omit [Zero α] in
/-- A sum that the reference execution computes is the sum of the products. -/
theorem accumulate_eq {data weights : Array α} (hX : Holds arrays "X" data)
    (hW : Holds arrays "W" weights) {taps : List (Int × Int)} {sum total : α}
    (h : accumulate data weights sum taps = .ok total) :
    taps.foldl (addProduct arrays) sum = total := by
  induction taps generalizing sum with
  | nil => exact Except.ok.inj h
  | cons tap rest ih =>
    obtain ⟨a, ha, h⟩ := Computation.bind_eq_ok.1 h
    obtain ⟨b, hb, h⟩ := Computation.bind_eq_ok.1 h
    rw [List.foldl_cons, addProduct, hX.of_elementAt ha, hW.of_elementAt hb, ih h]

omit [Zero α] in
/-- A sum that the reference execution computes is over elements with indices that are not
negative. -/
theorem nonneg_of_accumulate {data weights : Array α} {taps : List (Int × Int)} {sum total : α}
    (h : accumulate data weights sum taps = .ok total) : ∀ tap ∈ taps, 0 ≤ tap.1 := by
  induction taps generalizing sum with
  | nil => exact fun _ htap => absurd htap List.not_mem_nil
  | cons tap rest ih =>
    obtain ⟨a, ha, h⟩ := Computation.bind_eq_ok.1 h
    obtain ⟨b, -, h⟩ := Computation.bind_eq_ok.1 h
    refine List.forall_mem_cons.2 ⟨Int.not_lt.1 fun hneg => ?_, ih h⟩
    rw [elementAt, if_pos hneg] at ha
    cases ha

/-- On arrays that hold data and weights, the writes of all elements write the result of the
reference execution. -/
theorem map_flatWrite {data weights ys : Array α} (hX : Holds arrays "X" data)
    (hW : Holds arrays "W" weights) (h : p.elements x w y data weights = .ok ys) :
    (List.range y.size).map (flatWrite arrays p x w y) = elementWrites "Y" ys := by
  obtain ⟨hsize, helements⟩ := elements_eq_ok.1 h
  rw [← hsize]
  refine map_range_eq_elementWrites fun flat a ha => ?_
  obtain ⟨total, htotal, h⟩ := helements flat (hsize ▸ (Array.getElem?_eq_some_iff.1 ha).1)
  cases ha.symm.trans htotal
  rw [reads_eq_taps (nonneg_of_accumulate h)]
  exact accumulate_eq hX hW h

/-- On arrays that hold data and weights, the loops write every element of the result of the
reference execution once. -/
theorem perm_writes_body {data weights ys : Array α} (hl : Loaded p x w y s)
    (hperm : y.order.axes.Perm [.n, .c, .h, .w]) (hbatch : x.extent .n = y.extent .n)
    (hX : Holds arrays "X" data) (hW : Holds arrays "W" weights)
    (h : p.elements x w y data weights = .ok ys) :
    ∃ writes, Emits arrays routine.body s writes ∧ writes.Perm (elementWrites "Y" ys) := by
  refine ⟨_, emits_body hl hbatch, ?_⟩
  have hpositions : y.positions.map (positionWrite arrays p x w y) =
      (y.positions.map fun q => y.flatten (View.imageCoord q)).map (flatWrite arrays p x w y) := by
    rw [List.map_map]
    exact List.map_congr_left fun q hq => positionWrite_eq hperm hq
  rw [hpositions, ← map_flatWrite hX hW h]
  exact (y.perm_positions hperm).map _

end Deconvolution

end TensorLowering
