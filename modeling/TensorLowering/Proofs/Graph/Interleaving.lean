import TensorLowering.Proofs.Graph.Agreement

/-!
# Where symbols are bound does not matter

A script declares and connects nodes, and every symbol that it creates is bound to a value at some
point after its creation (`Interleaving`). An obligation of the script may be decided when an
operator is applied, at a binding in between, or at the last one, and shapes are inferred from more
or less simplified extents; the outcome is the same (`Graph.runScript_interleaving`).

The proof compares a script with bindings to the script without them: the two runs go abreast, on
graphs that agree under the table in which every symbol is bound (`Graph.Abreast`). When the run
with bindings ends, nothing is open, so the last graph is fulfilled, and so was every graph on the
way.

The symbols that extents mention have to exist whenever an operator is applied (`AppliesInScope`).
Otherwise an early binding can make a product with an unknown symbol disappear that a late one
leaves to be looked up (`Graph.interleaving_matters_absorbedBatch`).
-/

namespace TensorLowering

/-! ## Scripts and their bindings -/

/-- The label of the symbol that a step creates. -/
def Edit.label? : Edit → Option String
  | addSymbol label => some label
  | _ => none

/-- The labels of the symbols that a script creates, by index. -/
def symbolLabels (script : List Edit) : List String := script.filterMap Edit.label?

/-- The second script is the first with bindings put in. So far `created` symbols have been created,
of which the `unbound` ones are still to be bound, each once; so is every symbol that the script
creates, anywhere after its creation. -/
inductive Interleaving (value : SymbolId → Int64) :
    Nat → List SymbolId → List Edit → List Edit → Prop
  | done {created : Nat} : Interleaving value created [] [] []
  | symbol {created : Nat} {unbound : List SymbolId} {script placed : List Edit} (label : String)
      (rest : Interleaving value (created + 1) (created :: unbound) script placed) :
      Interleaving value created unbound (.addSymbol label :: script) (.addSymbol label :: placed)
  | build {created : Nat} {unbound : List SymbolId} {script placed : List Edit} {e : Edit}
      (he : e.builds = true) (rest : Interleaving value created unbound script placed) :
      Interleaving value created unbound (e :: script) (e :: placed)
  | bind {created : Nat} {unbound : List SymbolId} {script placed : List Edit} {k : SymbolId}
      (hk : k ∈ unbound)
      (rest : Interleaving value created (unbound.filter (· != k)) script placed) :
      Interleaving value created unbound script (.bind k (value k) :: placed)

/-- The second script is the first with one binding for each of its symbols. -/
def Interleaves (value : SymbolId → Int64) (script placed : List Edit) : Prop :=
  Interleaving value 0 [] script placed

/-- The values of the symbols are not negative, and with them every declared extent has a value. -/
structure Admissible (script : List Edit) (value : SymbolId → Int64) : Prop where
  nonneg : ∀ k < (symbolLabels script).length, 0 ≤ value k
  evaluates : ∀ e ∈ script, ∀ a ∈ e.extents,
    ∃ n, (SymbolTable.total (symbolLabels script) value).Evaluates a n

/-- Whenever an operator is applied, the symbols that the extents declared so far mention have been
created. -/
def AppliesInScope (script : List Edit) : Prop :=
  ∀ i (hi : i < script.length), script[i].applies = true → ∀ e ∈ script.take i, ∀ a ∈ e.extents,
    a.Over (· < (symbolLabels (script.take i)).length)

instance (script : List Edit) : Decidable (AppliesInScope script) :=
  inferInstanceAs (Decidable (∀ i (hi : i < script.length), script[i].applies = true →
    ∀ e ∈ script.take i, ∀ a ∈ e.extents, a.Over (· < (symbolLabels (script.take i)).length)))

variable {value : SymbolId → Int64} {script placed done rest : List Edit} {e : Edit} {k : SymbolId}
  {created : Nat} {unbound : List SymbolId} {label : String}

theorem symbolLabels_append (before after : List Edit) :
    symbolLabels (before ++ after) = symbolLabels before ++ symbolLabels after :=
  List.filterMap_append

theorem Edit.label?_of_builds (he : e.builds = true) : e.label? = none := by
  cases e with
  | addSymbol => cases he
  | _ => rfl

/-- A step that declares or connects nodes creates no symbol. -/
theorem symbolLabels_concat (he : e.builds = true) :
    symbolLabels (done ++ [e]) = symbolLabels done := by
  rw [symbolLabels_append, symbolLabels, symbolLabels, List.filterMap_cons_none
    (Edit.label?_of_builds he), List.filterMap_nil, List.append_nil]

theorem symbolLabels_concat_symbol :
    symbolLabels (done ++ [.addSymbol label]) = symbolLabels done ++ [label] :=
  symbolLabels_append _ _

theorem length_symbolLabels_concat :
    (symbolLabels (done ++ [.addSymbol label])).length = (symbolLabels done).length + 1 := by
  rw [symbolLabels_concat_symbol, List.length_append, List.length_singleton]

/-- The symbols in scope at an application. -/
theorem AppliesInScope.over (hscope : AppliesInScope script) (hscript : script = done ++ e :: rest)
    (he : e.applies = true) : ∀ d ∈ done, ∀ a ∈ d.extents,
      a.Over (· < (symbolLabels done).length) := by
  subst hscript
  simpa using hscope done.length (by simp) (by simpa using he)

namespace Graph

variable {g h g' h' : Graph} {u : SymbolTable}

/-! ## Steps and the table of the graph -/

/-- A step that declares or connects nodes leaves the table alone. -/
theorem symbols_run (he : e.builds = true) (hrun : e.run g = .ok h) : h.symbols = g.symbols := by
  cases e with
  | addSymbol | bind | revalidate => cases he
  | addTensor declaration name order extents =>
    obtain ⟨_, hr, rfl⟩ := Computation.map_eq_ok.1 hrun
    obtain ⟨-, rfl⟩ := addTensor_eq_ok.1 hr
    rfl
  | addOperator name kind =>
    cases hrun
    rfl
  | markOutput id =>
    obtain ⟨x, -, -, rfl⟩ := markOutput_eq_ok.1 hrun
    rfl
  | changeOrder id target =>
    obtain ⟨x, shape, -, -, -, -, rfl⟩ := changeOrder_eq_ok.1 hrun
    rfl
  | apply id inputs =>
    obtain ⟨_, hr, rfl⟩ := Computation.map_eq_ok.1 hrun
    obtain ⟨op, data, parameter, x, w, os, shape, -, -, -, -, -, -, -, -, rfl⟩ := apply_eq_ok.1 hr
    rfl

/-- After a binding, the symbol has the value, whether or not it had it before. -/
theorem symbols_bind {n : Int64} (hrun : g.bind k n = .ok h) :
    k < g.symbols.size ∧ (h.symbols = g.symbols ∧ g.symbols.value? k = some n ∨
      h.symbols = g.symbols.assign k n) := by
  obtain ⟨bound, hb, hr⟩ := Computation.bind_eq_ok.1 hrun
  obtain ⟨f, hf, -, ⟨-, rfl⟩ | ⟨hv, rfl⟩⟩ := SymbolTable.bind_eq_ok hb
  · obtain ⟨operators, -, rfl⟩ := settle_eq_ok.1 hr
    exact ⟨(List.getElem?_eq_some_iff.1 hf).1, .inr rfl⟩
  · cases hr
    exact ⟨(List.getElem?_eq_some_iff.1 hf).1, .inl ⟨rfl, by simp [SymbolTable.value?, hf, hv]⟩⟩

theorem value?_bind {n : Int64} (hrun : g.bind k n = .ok h) (j : SymbolId) :
    h.symbols.value? j = if j = k then some n else g.symbols.value? j := by
  obtain ⟨hk, ⟨hsame, hvalue⟩ | hassign⟩ := symbols_bind hrun
  · rw [hsame]
    split
    · next hjk => rw [hjk, hvalue]
    · rfl
  · rw [hassign]
    split
    · next hjk => rw [hjk, SymbolTable.value?_assign_self _ _ hk]
    · next hjk => rw [SymbolTable.value?_assign_of_ne _ _ (Ne.symm hjk)]

/-- A graph is fulfilled if a script makes a fulfilled graph of it. -/
theorem Fulfilled.of_runScript (hh : h.Fulfilled u) (hg : g.Reachable)
    (hrun : g.runScript script = .ok h) : g.Fulfilled u := by
  induction script generalizing g with
  | nil =>
    cases hrun
    exact hh
  | cons e rest ih =>
    obtain ⟨m, hm, hrest⟩ := Computation.foldlM_cons_eq_ok.1 hrun
    have hfulfilled := ih (hg.run hm) hrest
    rcases Edit.step_of_run hm with rfl | hstep
    · exact hfulfilled
    · exact hfulfilled.of_grows hg.coherent (hstep.grows hg.coherent)

/-! ## A graph within a script -/

/-- The graph after some steps of a script, with some of its symbols bound. -/
structure Stage (value : SymbolId → Int64) (done : List Edit) (g : Graph) : Prop where
  reachable : g.Reachable
  size : g.symbols.size = (symbolLabels done).length
  symbols : g.symbols.Extends (.total (symbolLabels done) value)
  mentions : g.Over fun k => ∃ e ∈ done, ∃ a ∈ e.extents, k ∈ a.occurrences

theorem Stage.empty : Stage value [] .empty :=
  ⟨.empty, rfl, nofun, nofun⟩

theorem Stage.symbol (hs : g.Stage value done) (label : String) :
    (g.addSymbol label).1.Stage value (done ++ [.addSymbol label]) := by
  refine ⟨hs.reachable.run (e := .addSymbol label) rfl, ?_, fun k f hf => ?_, hs.mentions.mono ?_⟩
  · rw [length_symbolLabels_concat, ← hs.size]
    exact SymbolTable.size_create _ _
  · rw [symbolLabels_concat_symbol]
    rcases getElem?_concat_cases hf with hf | ⟨rfl, rfl⟩
    · exact hs.symbols.trans (SymbolTable.total_extends _ _ _) k f hf
    · refine ⟨some (value g.symbols.entries.length), ?_, nofun⟩
      have hlen : g.symbols.entries.length = (symbolLabels done).length := hs.size
      simp [SymbolTable.total, hlen]
  · rintro k ⟨e, he, hk⟩
    exact ⟨e, List.mem_append_left _ he, hk⟩

theorem Stage.build (hs : g.Stage value done) (he : e.builds = true) (hrun : e.run g = .ok h) :
    h.Stage value (done ++ [e]) := by
  have hsymbols := symbols_run he hrun
  refine ⟨hs.reachable.run hrun, ?_, ?_, Over.run (hs.mentions.mono ?_) ?_ hrun⟩
  · rw [symbolLabels_concat he, hsymbols, hs.size]
  · rw [symbolLabels_concat he, hsymbols]
    exact hs.symbols
  · rintro k ⟨d, hd, hk⟩
    exact ⟨d, List.mem_append_left _ hd, hk⟩
  · intro a ha k hk
    exact ⟨e, List.mem_append_right _ List.mem_cons_self, a, ha, hk⟩

theorem Stage.bind (hs : g.Stage value done) (hrun : g.bind k (value k) = .ok h) :
    h.Stage value done := by
  refine ⟨hs.reachable.run (e := .bind k (value k)) hrun, ?_, ?_, Over.run (e := .bind k (value k))
    hs.mentions (fun _ ha => absurd ha List.not_mem_nil) hrun⟩
  · obtain ⟨-, ⟨hsame, -⟩ | hassign⟩ := symbols_bind hrun
    · rw [hsame, hs.size]
    · rw [hassign, SymbolTable.size_assign, hs.size]
  · obtain ⟨hk, ⟨hsame, -⟩ | hassign⟩ := symbols_bind hrun
    · rw [hsame]
      exact hs.symbols
    · rw [hassign]
      exact hs.symbols.assign (SymbolTable.value?_total (hs.size ▸ hk))

/-- Within a script, a table knows no more than at its end. -/
theorem Stage.extends (hs : g.Stage value done) (hscript : script = done ++ rest) :
    g.symbols.Extends (.total (symbolLabels script) value) := by
  rw [hscript, symbolLabels_append]
  exact hs.symbols.trans (SymbolTable.total_extends _ _ _)

/-- At an application, the table has the symbols that tensors mention. -/
theorem Stage.inScope (hs : g.Stage value done) (hscope : AppliesInScope script)
    (hscript : script = done ++ e :: rest) (he : e.applies = true) :
    g.Over (· < g.symbols.size) := by
  refine hs.mentions.mono ?_
  rintro k ⟨d, hd, a, ha, hk⟩
  rw [hs.size]
  exact hscope.over hscript he d hd a ha k hk

/-! ## Runs with and without bindings -/

/-- Two graphs after the same steps of a script, with different symbols bound. -/
structure Abreast (script : List Edit) (value : SymbolId → Int64) (done : List Edit)
    (g h : Graph) : Prop where
  left : g.Stage value done
  right : h.Stage value done
  agree : g.Agree (.total (symbolLabels script) value) h

theorem Abreast.symm (hab : Abreast script value done g h) : Abreast script value done h g :=
  ⟨hab.right, hab.left, hab.agree.symm⟩

theorem Abreast.symbol (hab : Abreast script value done g h) (label : String) :
    Abreast script value (done ++ [.addSymbol label]) (g.addSymbol label).1
      (h.addSymbol label).1 :=
  ⟨hab.left.symbol label, hab.right.symbol label, hab.agree.tensors, hab.agree.operators⟩

/-- A step on one of two graphs can be taken on the other, if it leads to a fulfilled graph. -/
theorem Abreast.build (ha : Admissible script value) (hscope : AppliesInScope script)
    (hab : Abreast script value done g h) (hscript : script = done ++ e :: rest)
    (he : e.builds = true) (hrun : e.run g = .ok g')
    (hf : g'.Fulfilled (.total (symbolLabels script) value)) :
    ∃ h', e.run h = .ok h' ∧ Abreast script value (done ++ [e]) g' h' := by
  have hmem : e ∈ script := hscript ▸ List.mem_append_right _ List.mem_cons_self
  obtain ⟨h', hrun', hagree⟩ := hab.agree.run hab.left.reachable.coherent (hab.left.extends hscript)
    (hab.right.extends hscript) he (ha.evaluates e hmem) (hab.right.inScope hscope hscript) hrun hf
  exact ⟨h', hrun', hab.left.build he hrun, hab.right.build he hrun', hagree⟩

/-- A binding on one of two graphs leaves them abreast. -/
theorem Abreast.bind (hab : Abreast script value done g h) (hrun : g.bind k (value k) = .ok g') :
    Abreast script value done g' h :=
  ⟨hab.left.bind hrun, hab.right, (narrows_of_bind hrun).agree hab.agree⟩

/-- A symbol that has been created can be bound on a graph that is abreast of a fulfilled one. -/
theorem Abreast.exists_bind (ha : Admissible script value) (hab : Abreast script value done g h)
    (hscript : script = done ++ rest) (hk : k < (symbolLabels done).length)
    (hf : h.Fulfilled (.total (symbolLabels script) value)) :
    ∃ g', g.bind k (value k) = .ok g' ∧ Abreast script value done g' h := by
  have hlt : k < (symbolLabels script).length := by
    rw [hscript, symbolLabels_append, List.length_append]
    exact Nat.lt_add_right _ hk
  obtain ⟨g', hrun⟩ := (hab.agree.symm.fulfilled hf).exists_bind hab.left.reachable.settled
    (hab.left.extends hscript) (hab.left.size ▸ hk) (ha.nonneg k hlt) (SymbolTable.value?_total hlt)
  exact ⟨g', hrun, hab.bind hrun⟩

end Graph

open TensorLowering.Graph

/-- What remains to be bound after a binding has been created before. -/
theorem forall_unbound_filter (hunbound : ∀ j ∈ unbound, j < created) :
    ∀ j ∈ unbound.filter (· != k), j < created := fun j hj => hunbound j (List.mem_of_mem_filter hj)

/-- A new symbol is the last of those created. -/
theorem forall_unbound_cons (hunbound : ∀ j ∈ unbound, j < created) :
    ∀ j ∈ created :: unbound, j < created + 1 := by
  intro j hj
  rcases List.mem_cons.1 hj with rfl | hj
  · exact Nat.lt_succ_self _
  · exact Nat.lt_succ_of_lt (hunbound j hj)

/-- If a script with bindings runs to a fulfilled graph, the script without them runs to a graph
that agrees. -/
theorem Interleaving.run_without (ha : Admissible script value) (hscope : AppliesInScope script)
    (hp : Interleaving value created unbound rest placed) {g h last : Graph}
    (hscript : script = done ++ rest) (hab : Abreast script value done g h)
    (hrun : g.runScript placed = .ok last)
    (hf : last.Fulfilled (.total (symbolLabels script) value)) :
    ∃ last', h.runScript rest = .ok last' ∧
      last.Agree (.total (symbolLabels script) value) last' := by
  induction hp generalizing done g h with
  | done =>
    cases hrun
    exact ⟨h, rfl, hab.agree⟩
  | symbol label hp ih =>
    obtain ⟨_, hg', hrun⟩ := Computation.foldlM_cons_eq_ok.1 hrun
    cases hg'
    obtain ⟨last', hrun', hagree⟩ := ih (by simpa using hscript) (hab.symbol label) hrun
    exact ⟨last', Computation.foldlM_cons_eq_ok.2 ⟨_, rfl, hrun'⟩, hagree⟩
  | build he hp ih =>
    obtain ⟨g', hg', hrun⟩ := Computation.foldlM_cons_eq_ok.1 hrun
    obtain ⟨h', hh', hab'⟩ := hab.build ha hscope hscript he hg'
      (hf.of_runScript (hab.left.reachable.run hg') hrun)
    obtain ⟨last', hrun', hagree⟩ := ih (by simpa using hscript) hab' hrun
    exact ⟨last', Computation.foldlM_cons_eq_ok.2 ⟨h', hh', hrun'⟩, hagree⟩
  | bind hk hp ih =>
    obtain ⟨g', hg', hrun⟩ := Computation.foldlM_cons_eq_ok.1 hrun
    exact ih hscript (hab.bind hg') hrun

/-- If a script without bindings runs to a fulfilled graph, the script with bindings runs to a graph
that agrees. -/
theorem Interleaving.run_with (ha : Admissible script value) (hscope : AppliesInScope script)
    (hp : Interleaving value created unbound rest placed) {g h last : Graph}
    (hscript : script = done ++ rest) (hcreated : created = (symbolLabels done).length)
    (hunbound : ∀ j ∈ unbound, j < created) (hab : Abreast script value done g h)
    (hrun : h.runScript rest = .ok last)
    (hf : last.Fulfilled (.total (symbolLabels script) value)) :
    ∃ last', g.runScript placed = .ok last' ∧
      last'.Agree (.total (symbolLabels script) value) last := by
  induction hp generalizing done g h with
  | done =>
    cases hrun
    exact ⟨g, rfl, hab.agree⟩
  | symbol label hp ih =>
    obtain ⟨_, hh', hrun⟩ := Computation.foldlM_cons_eq_ok.1 hrun
    cases hh'
    obtain ⟨last', hrun', hagree⟩ := ih (by simpa using hscript)
      (by rw [length_symbolLabels_concat, hcreated]) (forall_unbound_cons hunbound)
      (hab.symbol label) hrun
    exact ⟨last', Computation.foldlM_cons_eq_ok.2 ⟨_, rfl, hrun'⟩, hagree⟩
  | build he hp ih =>
    obtain ⟨h', hh', hrun⟩ := Computation.foldlM_cons_eq_ok.1 hrun
    obtain ⟨g', hg', hab'⟩ := hab.symm.build ha hscope hscript he hh'
      (hf.of_runScript (hab.right.reachable.run hh') hrun)
    obtain ⟨last', hrun', hagree⟩ := ih (by simpa using hscript)
      (by rw [symbolLabels_concat he, hcreated]) hunbound hab'.symm hrun
    exact ⟨last', Computation.foldlM_cons_eq_ok.2 ⟨g', hg', hrun'⟩, hagree⟩
  | bind hk hp ih =>
    obtain ⟨g', hg', hab'⟩ := hab.exists_bind ha hscript (hcreated ▸ hunbound _ hk)
      (hf.of_runScript hab.right.reachable hrun)
    obtain ⟨last', hrun', hagree⟩ := ih hscript hcreated (forall_unbound_filter hunbound) hab' hrun
    exact ⟨last', Computation.foldlM_cons_eq_ok.2 ⟨g', hg', hrun'⟩, hagree⟩

/-! ## The table in the end -/

/-- When a script with bindings has run, every symbol is bound to its value. -/
theorem Interleaving.symbols_eq (hp : Interleaving value created unbound rest placed)
    {g last : Graph} (hscript : script = done ++ rest) (hs : g.Stage value done)
    (hcreated : created = (symbolLabels done).length)
    (hbound : ∀ j < created, j ∉ unbound → (g.symbols.value? j).isSome)
    (hrun : g.runScript placed = .ok last) :
    last.symbols = .total (symbolLabels script) value := by
  induction hp generalizing done g with
  | done =>
    cases hrun
    rw [hscript, List.append_nil]
    refine SymbolTable.Complete.eq_of_extends (fun e he => ?_) hs.symbols
      (by rw [SymbolTable.size_total, hs.size])
    obtain ⟨k, hk⟩ := List.getElem?_of_mem he
    have hlt : k < last.symbols.size := (List.getElem?_eq_some_iff.1 hk).1
    have hsome := hbound k (by rwa [hcreated, ← hs.size]) List.not_mem_nil
    simpa [SymbolTable.value?, hk] using hsome
  | symbol label hp ih =>
    obtain ⟨_, hg', hrun⟩ := Computation.foldlM_cons_eq_ok.1 hrun
    cases hg'
    refine ih (by simpa using hscript) (hs.symbol label)
      (by rw [length_symbolLabels_concat, hcreated]) (fun j hj hnot => ?_) hrun
    rw [List.mem_cons, not_or] at hnot
    rw [addSymbol, SymbolTable.value?_create]
    exact hbound j (by omega) hnot.2
  | build he hp ih =>
    obtain ⟨g', hg', hrun⟩ := Computation.foldlM_cons_eq_ok.1 hrun
    refine ih (by simpa using hscript) (hs.build he hg')
      (by rw [symbolLabels_concat he, hcreated]) (fun j hj hnot => ?_) hrun
    rw [symbols_run he hg']
    exact hbound j hj hnot
  | bind hk hp ih =>
    obtain ⟨g', hg', hrun⟩ := Computation.foldlM_cons_eq_ok.1 hrun
    refine ih hscript (hs.bind hg') hcreated (fun j hj hnot => ?_) hrun
    rw [value?_bind hg']
    split
    · rfl
    · next hjk =>
      exact hbound j hj fun hmem => hnot (List.mem_filter.2 ⟨hmem, by simpa using hjk⟩)

/-! ## The outcome of a script -/

theorem Graph.Reachable.runScript {g h : Graph} (hg : g.Reachable)
    (hrun : g.runScript script = .ok h) : h.Reachable :=
  Computation.foldlM_invariant (P := Reachable) (fun _ _ _ _ hk he => hk.run he) hg hrun

theorem Graph.abreast_empty : Abreast script value [] .empty .empty :=
  ⟨.empty, .empty, .nil, .nil⟩

/-- When a script with bindings has run, every symbol has its value, every obligation holds, nothing
is open, and the script without bindings runs to a graph that agrees. -/
theorem Interleaves.run (ha : Admissible script value) (hscope : AppliesInScope script)
    (hp : Interleaves value script placed) {g : Graph}
    (hrun : Graph.empty.runScript placed = .ok g) :
    g.symbols = .total (symbolLabels script) value ∧
      g.Fulfilled (.total (symbolLabels script) value) ∧ g.pending = [] ∧
      ∃ h, Graph.empty.runScript script = .ok h ∧
        g.Agree (.total (symbolLabels script) value) h := by
  have hsymbols : g.symbols = .total (symbolLabels script) value :=
    Interleaving.symbols_eq hp rfl .empty rfl (fun _ hj => absurd hj (Nat.not_lt_zero _)) hrun
  have hsettled := (Reachable.empty.runScript hrun).settled
  have hcomplete : g.symbols.Complete := hsymbols ▸ SymbolTable.complete_total
  have hfulfilled : g.Fulfilled (.total (symbolLabels script) value) :=
    hsymbols ▸ hsettled.fulfilled hcomplete
  exact ⟨hsymbols, hfulfilled, hsettled.pending_eq_nil hcomplete,
    Interleaving.run_without ha hscope hp rfl abreast_empty hrun hfulfilled⟩

/-- If a script runs with its bindings at some places, it runs with them at any others. -/
theorem Interleaves.exists_run {others : List Edit} (ha : Admissible script value)
    (hscope : AppliesInScope script) (hp : Interleaves value script placed)
    (hp' : Interleaves value script others) (hrun : ∃ g, Graph.empty.runScript placed = .ok g) :
    ∃ h, Graph.empty.runScript others = .ok h := by
  obtain ⟨g, hg⟩ := hrun
  obtain ⟨-, hfulfilled, -, plain, hplain, hagree⟩ := hp.run ha hscope hg
  obtain ⟨h, hh, -⟩ := Interleaving.run_with ha hscope hp' rfl rfl
    (fun _ hj => absurd hj List.not_mem_nil) abreast_empty hplain (hagree.fulfilled hfulfilled)
  exact ⟨h, hh⟩

namespace Graph

/-- Where the symbols of a script are bound does not matter. The script succeeds with its bindings
at some places exactly when it succeeds with them at any others; and then every symbol has its
value, no obligation is open, and the graphs have the same operators and the same tensors, with
extents of the same values. -/
theorem runScript_interleaving {early late : List Edit} (ha : Admissible script value)
    (hscope : AppliesInScope script) (hearly : Interleaves value script early)
    (hlate : Interleaves value script late) :
    ((∃ g, empty.runScript early = .ok g) ↔ ∃ h, empty.runScript late = .ok h) ∧
      ∀ g h, empty.runScript early = .ok g → empty.runScript late = .ok h →
        g.symbols = .total (symbolLabels script) value ∧
        h.symbols = .total (symbolLabels script) value ∧
        g.Agree (.total (symbolLabels script) value) h ∧ g.pending = [] ∧ h.pending = [] := by
  refine ⟨⟨hearly.exists_run ha hscope hlate, hlate.exists_run ha hscope hearly⟩,
    fun g h hg hh => ?_⟩
  obtain ⟨hgs, -, hgp, plain, hplain, hgagree⟩ := hearly.run ha hscope hg
  obtain ⟨hhs, -, hhp, plain', hplain', hhagree⟩ := hlate.run ha hscope hh
  cases hplain.symm.trans hplain'
  exact ⟨hgs, hhs, hgagree.trans hhagree.symm, hgp, hhp⟩

/-- A scaling of channels whose number and whose batch are symbols. -/
def channelScaling : List Edit :=
  [.addSymbol "N", .addSymbol "C", .addTensor .input "x" .nc [.symbol 0, .symbol 1],
    .addTensor .weight "s" .c [.value 4], .addOperator none (.axiswiseScale .c), .apply 0 [0, 1],
    .markOutput 2]

/-- `channelScaling` with its symbols bound as they are created. -/
def channelScalingEarly : List Edit :=
  [.addSymbol "N", .bind 0 3, .addSymbol "C", .bind 1 4,
    .addTensor .input "x" .nc [.symbol 0, .symbol 1], .addTensor .weight "s" .c [.value 4],
    .addOperator none (.axiswiseScale .c), .apply 0 [0, 1], .markOutput 2]

/-- `channelScaling` with its symbols bound at the end, the last one first. -/
def channelScalingLate : List Edit := channelScaling ++ [.bind 1 4, .bind 0 3]

/-- A batch of three images with four channels. -/
def channelScalingValue : SymbolId → Int64
  | 0 => 3
  | _ => 4

/-- The number of channels is checked at the application in one script and at a binding in the
other. -/
theorem runScript_interleaving_channelScaling :
    ∃ g h, empty.runScript channelScalingEarly = .ok g ∧
      empty.runScript channelScalingLate = .ok h ∧
      g.symbols = .total ["N", "C"] channelScalingValue ∧
      g.Agree (.total ["N", "C"] channelScalingValue) h ∧ h.pending = [] := by
  have hadmissible : Admissible channelScaling channelScalingValue := by
    refine ⟨by decide, ?_⟩
    simp only [channelScaling, List.forall_mem_cons, Edit.extents]
    exact ⟨nofun, nofun, ⟨⟨3, rfl⟩, ⟨4, rfl⟩, nofun⟩, ⟨⟨4, rfl⟩, nofun⟩, nofun, nofun, nofun, nofun⟩
  have hearly : Interleaves channelScalingValue channelScaling channelScalingEarly :=
    .symbol _ (.bind (by decide) (.symbol _ (.bind (by decide)
      (.build rfl (.build rfl (.build rfl (.build rfl (.build rfl .done))))))))
  have hlate : Interleaves channelScalingValue channelScaling channelScalingLate :=
    .symbol _ (.symbol _ (.build rfl (.build rfl (.build rfl (.build rfl (.build rfl
      (.bind (by decide) (.bind (by decide) .done))))))))
  obtain ⟨hiff, hagree⟩ := runScript_interleaving hadmissible (by decide) hearly hlate
  obtain ⟨g, hg⟩ : ∃ g, empty.runScript channelScalingEarly = .ok g := ⟨_, rfl⟩
  obtain ⟨h, hh⟩ := hiff.1 ⟨g, hg⟩
  obtain ⟨hgs, -, hgh, -, hhp⟩ := hagree g h hg hh
  exact ⟨g, h, hg, hh, hgs, hgh, hhp⟩

/-! ## Symbols out of scope -/

theorem isPositive_one : Spatial.IsPositive ⟨1, 1⟩ := by decide

/-- A deconvolution whose batch is a product with a symbol that is created after everything else.
Its result is scaled along the batch. -/
def absorbedBatchNodes : List Edit :=
  [.addTensor .input "x" .nchw [.binary .mul (.symbol 0) (.symbol 1), .value 1, .value 1, .value 1],
    .addTensor .weight "w" .nchw [.value 1, .value 1, .value 1, .value 1],
    .addTensor .weight "s" ⟨[.n], by decide⟩ [.value 0],
    .addOperator none (.deconvolution ⟨⟨1, 1⟩, ⟨1, 1⟩, ⟨0, 0⟩, isPositive_one, isPositive_one⟩),
    .addOperator none (.axiswiseScale .n), .apply 0 [0, 1], .apply 1 [3, 2], .addSymbol "B"]

/-- The script without bindings. -/
def absorbedBatch : List Edit := .addSymbol "A" :: absorbedBatchNodes

/-- The script with its first symbol bound as it is created. -/
def absorbedBatchEarly : List Edit :=
  .addSymbol "A" :: .bind 0 0 :: (absorbedBatchNodes ++ [.bind 1 5])

/-- The script with its symbols bound at the end. -/
def absorbedBatchLate : List Edit :=
  .addSymbol "A" :: (absorbedBatchNodes ++ [.bind 0 0, .bind 1 5])

/-- The first symbol makes the batch zero. -/
def absorbedBatchValue : SymbolId → Int64
  | 0 => 0
  | _ => 5

/-- Without symbols in scope it matters where they are bound: when the first symbol is bound early,
the batch of the result simplifies to zero; when it is bound late, the check of the scaling looks up
the second symbol, which does not exist yet. -/
theorem interleaving_matters_absorbedBatch :
    Admissible absorbedBatch absorbedBatchValue ∧
      Interleaves absorbedBatchValue absorbedBatch absorbedBatchEarly ∧
      Interleaves absorbedBatchValue absorbedBatch absorbedBatchLate ∧
      (∃ g, empty.runScript absorbedBatchEarly = .ok g) ∧
      ¬ ∃ h, empty.runScript absorbedBatchLate = .ok h := by
  refine ⟨⟨by decide, ?_⟩, ?_, ?_, ?_, ?_⟩
  · simp only [absorbedBatch, absorbedBatchNodes, List.forall_mem_cons, Edit.extents]
    exact ⟨nofun, ⟨⟨0, rfl⟩, ⟨1, rfl⟩, ⟨1, rfl⟩, ⟨1, rfl⟩, nofun⟩,
      ⟨⟨1, rfl⟩, ⟨1, rfl⟩, ⟨1, rfl⟩, ⟨1, rfl⟩, nofun⟩, ⟨⟨0, rfl⟩, nofun⟩, nofun, nofun, nofun,
      nofun, nofun, nofun⟩
  · exact .symbol _ (.bind (by decide) (.build rfl (.build rfl (.build rfl (.build rfl (.build rfl
      (.build rfl (.build rfl (.symbol _ (.bind (by decide) .done))))))))))
  · exact .symbol _ (.build rfl (.build rfl (.build rfl (.build rfl (.build rfl (.build rfl
      (.build rfl (.symbol _ (.bind (by decide) (.bind (by decide) .done))))))))))
  · exact ⟨_, rfl⟩
  · rintro ⟨h, hh⟩
    have herror : empty.runScript absorbedBatchLate = .error (.unknownSymbol 1) := rfl
    rw [herror] at hh
    cases hh

end Graph

end TensorLowering
