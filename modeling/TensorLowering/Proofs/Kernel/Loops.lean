import TensorLowering.Execution.Basic
import TensorLowering.Kernel.Semantics
import TensorLowering.Proofs.Computation

/-!
# Loops of kernel code

A run changes no integers but those that the code sets (`Code.run_ints`), so what a round of a loop
finds in the other integers is what was there before the loop. A loop follows a fold over its rounds
when every round follows one step of the fold (`Code.run_loop`); in particular it emits, round after
round, what its rounds emit (`Code.emits_loop`).
-/

namespace TensorLowering

/-! ## Arrays -/

section
variable {α : Type} {arrays : String → Int → α} {name : String} {data : Array α}

/-- The array of a name holds the data. -/
def Holds (arrays : String → Int → α) (name : String) (data : Array α) : Prop :=
  ∀ (i : Nat) (a : α), data[i]? = some a → arrays name i = a

/-- Writing all elements of an array, each to its index, in the order of the indices. -/
def elementWrites (name : String) (data : Array α) : List (Write α) :=
  data.toList.zipIdx.map fun (a, i) => ⟨name, i, a⟩

/-- What computes every element of an array writes the array. -/
theorem map_range_eq_elementWrites {f : Nat → α} (h : ∀ i a, data[i]? = some a → f i = a) :
    ((List.range data.size).map fun (i : Nat) => (⟨name, i, f i⟩ : Write α)) =
      elementWrites name data := by
  refine List.ext_getElem? fun i => ?_
  have hdata : data.toList[i]? = data[i]? := Array.getElem?_toList
  rw [elementWrites, List.getElem?_map, List.getElem?_map, List.getElem?_zipIdx, hdata]
  cases ha : data[i]? with
  | none =>
    have hi : data.size ≤ i := Array.getElem?_eq_none_iff.1 ha
    rw [List.getElem?_eq_none (by rwa [List.length_range])]
    rfl
  | some a =>
    have hi : i < data.size := (Array.getElem?_eq_some_iff.1 ha).1
    rw [List.getElem?_range hi, Option.map_some, h i a ha]
    simp

/-- An element that the reference execution reads is the element of the array that holds the data.
-/
theorem Holds.of_elementAt {index : Int} {a : α} (h : Holds arrays name data)
    (ha : elementAt data index = .ok a) : arrays name index = a := by
  unfold elementAt at ha
  split at ha
  · cases ha
  · next hindex =>
    split at ha
    · next a' ha' =>
      cases ha
      rw [← h _ _ ha', Int.toNat_of_nonneg (Int.not_lt.1 hindex)]
    · cases ha

theorem coordinateIn_eq_ok {v : View} {flat c : Nat} {axis : Axis}
    (h : coordinateIn v flat axis = .ok c) : v.coordinate flat axis = c := by
  unfold coordinateIn at h
  split at h
  · cases h
  · exact Except.ok.inj h

end

namespace Code

variable {α : Type}

/-- The integers that statements set. -/
def sets : Code → List String
  | done => []
  | blank rest | float _ _ rest | skipIf _ rest | accumulate _ _ _ rest | store _ _ rest =>
    rest.sets
  | int _ name _ rest => name :: rest.sets
  | loop counter _ _ body rest => counter :: (body.sets ++ rest.sets)

/-- All integers that are not in a list of names are the same in both states. -/
def Keeps (names : List String) (s s' : KernelState α) : Prop :=
  ∀ name ∉ names, s'.ints name = s.ints name

section
variable {names : List String} {name : String} {s s' s'' : KernelState α} {n : Int}

theorem Keeps.trans (h : Keeps names s s') (h' : Keeps names s' s'') : Keeps names s s'' :=
  fun name hname => (h' name hname).trans (h name hname)

theorem Keeps.mono {others : List String} (h : Keeps names s s') (hsub : names ⊆ others) :
    Keeps others s s' :=
  fun name hname => h name fun hmem => hname (hsub hmem)

theorem keeps_setInt (hname : name ∈ names) : Keeps names s (s.setInt name n) := by
  intro other hother
  refine assigned_of_ne _ _ fun hsame => hother ?_
  rwa [hsame]

end

variable [Zero α] [Add α] [Mul α] {arrays : String → Int → α} {s : KernelState α}
  {counter bound : String} {increment : Increment} {body : Code}

/-! ## Rounds -/

/-- A loop follows a fold over its rounds, when it follows it at the start and every round follows
one step. -/
theorem run_loop {σ : Type} {R : KernelState α → σ → Prop} {f : σ → Nat → σ} {a : σ}
    (hstart : R s a) (hround : ∀ i < (s.ints bound).toNat, ∀ s' a', R s' a' →
      R (body.run arrays (s'.setInt counter i)) (f a' i)) :
    R ((loop counter bound increment body .done).run arrays s)
      ((List.range (s.ints bound).toNat).foldl f a) :=
  List.foldl_rel hstart fun i hi s' a' h => hround i (List.mem_range.1 hi) s' a' h

/-- A run changes no integers but those that the code sets. -/
theorem run_keeps (code : Code) (s : KernelState α) : Keeps code.sets s (code.run arrays s) := by
  induction code generalizing s with
  | done => exact fun _ _ => rfl
  | blank rest ih | float _ _ rest ih | accumulate _ _ _ rest ih | store _ _ rest ih => exact ih _
  | int _ name value rest ih =>
    have hrest := (ih (s.setInt name (value.eval s.ints))).mono (List.subset_cons_self name _)
    exact (keeps_setInt List.mem_cons_self).trans hrest
  | skipIf condition rest ih =>
    unfold run
    split
    · exact fun _ _ => rfl
    · exact ih _
  | loop counter bound increment body rest ihbody ihrest =>
    have hrounds : Keeps (counter :: (body.sets ++ rest.sets)) s
        ((loop counter bound increment body .done).run arrays s) := by
      refine run_loop (R := fun s' (_ : Unit) => Keeps _ s s') (f := fun _ _ => ()) (a := ())
        (fun _ _ => rfl) fun i _ s' _ h => ?_
      refine h.trans ((keeps_setInt List.mem_cons_self).trans ((ihbody _).mono ?_))
      exact fun name hname => List.mem_cons_of_mem _ (List.mem_append_left _ hname)
    refine hrounds.trans ((ihrest _).mono ?_)
    exact fun name hname => List.mem_cons_of_mem _ (List.mem_append_right _ hname)

/-! ## Emitting elements -/

/-- From the state, the code writes these elements, in sequence. -/
def Emits (arrays : String → Int → α) (code : Code) (s : KernelState α)
    (elements : List (Write α)) : Prop :=
  (code.run arrays s).writes = s.writes ++ elements

/-- A loop emits what its rounds emit, one after the other. A round starts from a state in which
only the counter and what the body sets can differ from the state before the loop. -/
theorem emits_loop {elements : Nat → List (Write α)} {n : Nat} (hbound : s.ints bound = n)
    (hround : ∀ i < n, ∀ s', Keeps (counter :: body.sets) s s' → s'.ints counter = i →
      Emits arrays body s' (elements i)) :
    Emits arrays (loop counter bound increment body .done) s
      ((List.range n).flatMap elements) := by
  have hn : (s.ints bound).toNat = n := by rw [hbound, Int.toNat_natCast]
  have hrun : Keeps (counter :: body.sets) s
        ((loop counter bound increment body .done).run arrays s) ∧
      ((loop counter bound increment body .done).run arrays s).writes =
        (List.range (s.ints bound).toNat).foldl (fun ws i => ws ++ elements i) s.writes := by
    refine run_loop (R := fun s' ws => Keeps (counter :: body.sets) s s' ∧ s'.writes = ws)
      ⟨fun _ _ => rfl, rfl⟩ ?_
    rintro i hi s' _ ⟨hkeeps, rfl⟩
    have hset := hkeeps.trans (keeps_setInt (n := i) List.mem_cons_self)
    refine ⟨hset.trans ((run_keeps body _).mono (List.subset_cons_self _ _)), ?_⟩
    exact hround i (hn ▸ hi) _ hset (assigned_self _ _ _)
  rw [Emits, hrun.2, hn, List.foldl_append_eq_append, List.flatMap_def]

end Code

end TensorLowering
