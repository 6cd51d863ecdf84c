import Mathlib.Data.List.Forall2
import TensorLowering.Error.Basic

/-!
# Computations that succeed

What the success of a composed computation says about its parts. Lowering and execution both stop
at the first failure, so a successful run is a chain of successful steps: `Computation.bind_eq_ok`
takes one step off the chain, `Computation.mapM_eq_ok` and `Computation.forM_eq_ok` read a pass
over a list element by element, and `Computation.foldlM_cons_eq_ok` takes the first element off a
fold.
-/

namespace TensorLowering

namespace Computation

variable {ε α β σ : Type}

/-! ## Single steps -/

/-- A sequence of two steps succeeds when both do, the second on the result of the first. -/
theorem bind_eq_ok {x : Except ε α} {f : α → Except ε β} {b : β} :
    (x >>= f) = .ok b ↔ ∃ a, x = .ok a ∧ f a = .ok b := by
  cases x with
  | error e => simp [bind, Except.bind]
  | ok a => simp [bind, Except.bind]

/-- A sequence of two steps fails when the first does, or the second on the result of the first. -/
theorem bind_eq_error {x : Except ε α} {f : α → Except ε β} {e : ε} :
    (x >>= f) = .error e ↔ x = .error e ∨ ∃ a, x = .ok a ∧ f a = .error e := by
  cases x with
  | error e' => simp [bind, Except.bind]
  | ok a => simp [bind, Except.bind]

/-- A sequence whose first step has succeeded is its second step. -/
theorem ok_bind {a : α} {f : α → Except ε β} : (Except.ok a >>= f) = f a := rfl

/-- A result that is returned as it is. -/
theorem pure_eq_ok {a b : α} : (pure a : Except ε α) = .ok b ↔ a = b := by
  simp [pure, Except.pure]

/-- A mapped computation succeeds when the computation does. -/
theorem map_eq_ok {x : Except ε α} {f : α → β} {b : β} :
    x.map f = .ok b ↔ ∃ a, x = .ok a ∧ f a = b := by
  cases x with
  | error e => simp [Except.map]
  | ok a => simp [Except.map]

/-- A guard lets the rest of a computation through only if its condition fails. -/
theorem guard_eq_ok {c : Prop} [Decidable c] {e : ε} {f : Unit → Except ε β} {b : β} :
    (if c then throw e >>= f else f ()) = .ok b ↔ ¬ c ∧ f () = .ok b := by
  by_cases h : c
  · simp [h, throw, throwThe, MonadExceptOf.throw, bind, Except.bind]
  · simp [h]

/-- A guard at the end lets the result through only if its condition fails. -/
theorem ensure_eq_ok {c : Prop} [Decidable c] {e : ε} {a b : α} :
    (if c then throw e else pure a : Except ε α) = .ok b ↔ ¬ c ∧ a = b := by
  by_cases h : c
  · simp [h, throw, throwThe, MonadExceptOf.throw]
  · simp [h, pure, Except.pure]

/-! ## Passes over lists -/

/-- A pass over a list succeeds with the pointwise results. -/
theorem mapM_eq_ok {f : α → Except ε β} {items : List α} {results : List β} :
    items.mapM f = .ok results ↔ List.Forall₂ (fun a b => f a = .ok b) items results := by
  induction items generalizing results with
  | nil => simp [pure, Except.pure, eq_comm]
  | cons a rest ih =>
    simp only [List.mapM_cons, bind_eq_ok, pure_eq_ok, List.forall₂_cons_left_iff, ih]
    constructor
    · rintro ⟨b, hb, bs, hbs, rfl⟩
      exact ⟨b, bs, hb, hbs, rfl⟩
    · rintro ⟨b, bs, hb, hbs, rfl⟩
      exact ⟨b, hb, bs, hbs, rfl⟩

/-- A pass over a list succeeds when every step does. -/
theorem exists_mapM {f : α → Except ε β} {items : List α} (h : ∀ a ∈ items, ∃ b, f a = .ok b) :
    ∃ results, items.mapM f = .ok results := by
  induction items with
  | nil => exact ⟨[], rfl⟩
  | cons a rest ih =>
    obtain ⟨⟨b, hb⟩, hrest⟩ := List.forall_mem_cons.1 h
    obtain ⟨bs, hbs⟩ := ih hrest
    exact ⟨b :: bs, mapM_eq_ok.2 (.cons hb (mapM_eq_ok.1 hbs))⟩

/-- Passes that do the same at every place are the same. -/
theorem mapM_congr {γ : Type} {f : α → Except ε γ} {k : β → Except ε γ} {items : List α}
    {others : List β} (h : List.Forall₂ (fun a b => f a = k b) items others) :
    items.mapM f = others.mapM k := by
  induction h with
  | nil => rfl
  | cons hab _ ih => rw [List.mapM_cons, List.mapM_cons, hab, ih]

/-- The results of a pass stand at the places of the elements they belong to. -/
theorem exists_result {R : α → β → Prop} {items : List α} {results : List β}
    (h : List.Forall₂ R items results) {i : Nat} {a : α} (ha : items[i]? = some a) :
    ∃ b, results[i]? = some b ∧ R a b := by
  induction h generalizing i with
  | nil => cases ha
  | cons hab _ ih =>
    cases i with
    | zero =>
      cases ha
      exact ⟨_, rfl, hab⟩
    | succ i => exact ih ha

/-- Every result of a pass belongs to the element at its place. -/
theorem exists_item {R : α → β → Prop} {items : List α} {results : List β}
    (h : List.Forall₂ R items results) {i : Nat} {b : β} (hb : results[i]? = some b) :
    ∃ a, items[i]? = some a ∧ R a b :=
  exists_result (R := fun b a => R a b) h.flip hb

/-- A pass over the numbers below a bound succeeds with one result for each of them. -/
theorem mapM_range_eq_ok {f : Nat → Except ε β} {n : Nat} {results : List β} :
    (List.range n).mapM f = .ok results ↔
      results.length = n ∧ ∀ i < n, ∃ b, results[i]? = some b ∧ f i = .ok b := by
  rw [mapM_eq_ok]
  constructor
  · intro h
    exact ⟨by simpa using h.length_eq.symm, fun i hi => exists_result h (List.getElem?_range hi)⟩
  · rintro ⟨hlength, h⟩
    refine List.forall₂_iff_get.2 ⟨by simp [hlength], fun i hi hi' => ?_⟩
    obtain ⟨b, hb, hfb⟩ := h i (by simpa using hi)
    obtain ⟨_, hb⟩ := List.getElem?_eq_some_iff.1 hb
    simpa [hb] using hfb

theorem exists_result_of_mem {R : α → β → Prop} {items : List α} {results : List β}
    (h : List.Forall₂ R items results) {a : α} (ha : a ∈ items) : ∃ b ∈ results, R a b := by
  obtain ⟨i, hi⟩ := List.getElem?_of_mem ha
  obtain ⟨b, hb, hab⟩ := exists_result h hi
  exact ⟨b, List.mem_of_getElem? hb, hab⟩

theorem exists_item_of_mem {R : α → β → Prop} {items : List α} {results : List β}
    (h : List.Forall₂ R items results) {b : β} (hb : b ∈ results) : ∃ a ∈ items, R a b :=
  exists_result_of_mem (R := fun b a => R a b) h.flip hb

/-- What elements and their results have in common, the lists have in common. -/
theorem map_eq_map {γ : Type} {R : α → β → Prop} {f : α → γ} {k : β → γ} {items : List α}
    {results : List β} (h : List.Forall₂ R items results) (hfk : ∀ a b, R a b → f a = k b) :
    items.map f = results.map k := by
  induction h with
  | nil => rfl
  | cons hab _ ih => rw [List.map_cons, List.map_cons, hfk _ _ hab, ih]

/-- Pointwise relations compose. -/
theorem forall₂_trans {γ : Type} {R : α → β → Prop} {S : β → γ → Prop} {T : α → γ → Prop}
    {items : List α} {middle : List β} {results : List γ} (h₁ : List.Forall₂ R items middle)
    (h₂ : List.Forall₂ S middle results) (hT : ∀ a b c, R a b → S b c → T a c) :
    List.Forall₂ T items results := by
  induction h₁ generalizing results with
  | nil =>
    cases h₂
    exact .nil
  | cons hab _ ih =>
    cases h₂ with
    | cons hbc hrest => exact .cons (hT _ _ _ hab hbc) (ih hrest)

/-- Two pointwise relations hold together. -/
theorem forall₂_and {R S : α → β → Prop} {items : List α} {others : List β}
    (h₁ : List.Forall₂ R items others) (h₂ : List.Forall₂ S items others) :
    List.Forall₂ (fun a b => R a b ∧ S a b) items others := by
  induction h₁ with
  | nil => exact .nil
  | cons hab _ ih =>
    cases h₂ with
    | cons hab' hrest => exact .cons ⟨hab, hab'⟩ (ih hrest)

/-- When every result of a pass has a counterpart, the counterparts are the results of a pass. -/
theorem exists_pointwise {γ : Type} {R : α → β → Prop} {S : α → γ → Prop} {T : β → γ → Prop}
    {items : List α} {results : List β} (h : List.Forall₂ R items results)
    (hR : ∀ a b, R a b → ∃ c, S a c ∧ T b c) :
    ∃ others, List.Forall₂ S items others ∧ List.Forall₂ T results others := by
  induction h with
  | nil => exact ⟨[], .nil, .nil⟩
  | cons hab _ ih =>
    obtain ⟨c, hac, hbc⟩ := hR _ _ hab
    obtain ⟨others, hitems, hresults⟩ := ih
    exact ⟨c :: others, .cons hac hitems, .cons hbc hresults⟩

/-- Lists stay related when they are changed at one place in related ways. -/
theorem forall₂_modify {R : α → β → Prop} {items : List α} {others : List β} {f : α → α}
    {k : β → β} (h : List.Forall₂ R items others) (hfk : ∀ a b, R a b → R (f a) (k b)) (i : Nat) :
    List.Forall₂ R (items.modify i f) (others.modify i k) := by
  induction h generalizing i with
  | nil => simp
  | cons hab hrest ih =>
    cases i with
    | zero => exact .cons (hfk _ _ hab) hrest
    | succ i => exact .cons hab (ih i)

/-- Lists stay related when related elements are put at one place. -/
theorem forall₂_set {R : α → β → Prop} {items : List α} {others : List β} {a : α} {b : β}
    (h : List.Forall₂ R items others) (hab : R a b) (i : Nat) :
    List.Forall₂ R (items.set i a) (others.set i b) := by
  rw [List.set_eq_modify, List.set_eq_modify]
  exact forall₂_modify h (fun _ _ _ => hab) i

/-- Lists that are made piece by piece from the same elements are related when the pieces are. -/
theorem forall₂_flatMap {γ : Type} {R : α → β → Prop} {items : List γ} {f : γ → List α}
    {k : γ → List β} (h : ∀ c ∈ items, List.Forall₂ R (f c) (k c)) :
    List.Forall₂ R (items.flatMap f) (items.flatMap k) := by
  induction items with
  | nil => exact .nil
  | cons c rest ih =>
    obtain ⟨hc, hrest⟩ := List.forall_mem_cons.1 h
    exact List.rel_append hc (ih hrest)

/-- A pass over a list that only checks succeeds when every check does. -/
theorem forM_eq_ok {f : α → Except ε Unit} {items : List α} :
    items.forM f = .ok () ↔ ∀ a ∈ items, f a = .ok () := by
  rw [List.forM_eq_forM]
  induction items with
  | nil => simp [pure, Except.pure]
  | cons a rest ih =>
    simp only [List.forM_cons, bind_eq_ok, ih, List.mem_cons, forall_eq_or_imp]
    exact ⟨fun ⟨(), ha, hrest⟩ => ⟨ha, hrest⟩, fun ⟨ha, hrest⟩ => ⟨(), ha, hrest⟩⟩

/-- A pass over a list that only checks fails with the failure of a check. -/
theorem exists_of_forM_eq_error {f : α → Except ε Unit} {items : List α} {e : ε}
    (h : items.forM f = .error e) : ∃ a ∈ items, f a = .error e := by
  rw [List.forM_eq_forM] at h
  induction items with
  | nil => cases h
  | cons a rest ih =>
    rw [List.forM_cons] at h
    rcases bind_eq_error.1 h with ha | ⟨_, -, hrest⟩
    · exact ⟨a, List.mem_cons_self, ha⟩
    · obtain ⟨b, hb, hfail⟩ := ih hrest
      exact ⟨b, List.mem_cons_of_mem _ hb, hfail⟩

/-- A fold over a nonempty list succeeds when its first step does and the rest does from there. -/
theorem foldlM_cons_eq_ok {f : σ → α → Except ε σ} {s t : σ} {a : α} {rest : List α} :
    (a :: rest).foldlM f s = .ok t ↔ ∃ m, f s a = .ok m ∧ rest.foldlM f m = .ok t := by
  rw [List.foldlM_cons, bind_eq_ok]

/-- What every step of a fold keeps, a successful fold keeps. -/
theorem foldlM_invariant {f : σ → α → Except ε σ} {P : σ → Prop} {items : List α}
    (step : ∀ s t a, a ∈ items → P s → f s a = .ok t → P t) :
    ∀ {s t : σ}, P s → items.foldlM f s = .ok t → P t := by
  induction items with
  | nil =>
    intro s t hs h
    cases h
    exact hs
  | cons a rest ih =>
    intro s t hs h
    obtain ⟨m, hm, hrest⟩ := foldlM_cons_eq_ok.1 h
    exact ih (fun s t b hb => step s t b (List.mem_cons_of_mem _ hb))
      (step s m a List.mem_cons_self hs hm) hrest

/-! ## Lists without repetitions -/

/-- What is left when repetitions are erased has none. -/
theorem nodup_eraseDups {α : Type} [BEq α] [LawfulBEq α] (items : List α) :
    items.eraseDups.Nodup := by
  -- The recursion goes on with a filtered rest, so the induction is on the length.
  induction hlength : items.length using Nat.strongRecOn generalizing items with
  | ind n ih =>
    cases items with
    | nil => simp
    | cons a rest =>
      subst hlength
      rw [List.eraseDups_cons, List.nodup_cons]
      refine ⟨by simp, ih _ ?_ _ rfl⟩
      exact Nat.lt_succ_of_le (List.length_filter_le _ _)

/-! ## Looking up by a key -/

/-- A partial pass over a list that is defined on every element keeps their places. -/
theorem filterMap_total {f : α → Option β} {items : List α} (h : ∀ a ∈ items, ∃ b, f a = some b) :
    List.Forall₂ (fun a b => a ∈ items ∧ f a = some b) items (items.filterMap f) := by
  induction items with
  | nil => exact .nil
  | cons a rest ih =>
    obtain ⟨⟨b, hb⟩, hrest⟩ := List.forall_mem_cons.1 h
    rw [List.filterMap_cons_some hb]
    refine .cons ⟨List.mem_cons_self, hb⟩ ((ih hrest).imp fun a b ⟨ha, hab⟩ => ?_)
    exact ⟨List.mem_cons_of_mem _ ha, hab⟩

/-- Among elements with distinct keys, looking for the key of one finds it. -/
theorem find?_key {κ : Type} [BEq κ] [LawfulBEq κ] {k : α → κ} {items : List α} {a : α}
    (hnodup : (items.map k).Nodup) (ha : a ∈ items) :
    items.find? (k · == k a) = some a := by
  induction items with
  | nil => cases ha
  | cons b rest ih =>
    obtain ⟨hfresh, hnodup⟩ := List.nodup_cons.1 hnodup
    rcases List.mem_cons.1 ha with rfl | ha
    · simp
    · have hne : k b ≠ k a := fun hba => hfresh (hba ▸ List.mem_map_of_mem ha)
      rw [List.find?_cons_of_neg (by simpa using hne), ih hnodup ha]

/-- Looking up the key of an element in a table made of elements with distinct keys gives what the
table has for that element. -/
theorem lookup_filterMap {κ : Type} [BEq κ] [LawfulBEq κ] {k : α → κ} {f : α → Option β}
    {items : List α} {a : α} (hnodup : (items.map k).Nodup) (ha : a ∈ items) :
    (items.filterMap fun a => (f a).map (k a, ·)).lookup (k a) = f a := by
  induction items with
  | nil => cases ha
  | cons b rest ih =>
    obtain ⟨hfresh, hnodup⟩ := List.nodup_cons.1 hnodup
    rcases List.mem_cons.1 ha with rfl | ha
    · cases hf : f a with
      | some c => simp [hf]
      | none =>
        have hnone : (rest.filterMap fun a => (f a).map (k a, ·)).lookup (k a) = none := by
          refine List.lookup_eq_none_iff.2 fun p hp => ?_
          obtain ⟨c, hc, hp⟩ := List.mem_filterMap.1 hp
          obtain ⟨d, -, rfl⟩ := Option.map_eq_some_iff.1 hp
          have hne : k a ≠ k c := fun hac => hfresh (hac ▸ List.mem_map_of_mem hc)
          simpa using hne
        simp [hf, hnone]
    · have hne : (k a == k b) = false :=
        beq_eq_false_iff_ne.2 fun hab => hfresh (hab ▸ List.mem_map_of_mem ha)
      cases hf : f b with
      | some c => simp [hf, List.lookup_cons, hne, ih hnodup ha]
      | none => simp [hf, ih hnodup ha]

/-- In a table with distinct keys an entry is found by its key. -/
theorem lookup_of_mem {κ : Type} [BEq κ] [LawfulBEq κ] {entries : List (κ × β)} {entry : κ × β}
    (hnodup : (entries.map Prod.fst).Nodup) (hentry : entry ∈ entries) :
    entries.lookup entry.1 = some entry.2 := by
  simpa using lookup_filterMap (k := Prod.fst) (f := fun entry => some entry.2) hnodup hentry

end Computation

end TensorLowering
