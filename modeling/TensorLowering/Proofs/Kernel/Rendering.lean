import TensorLowering.Kernel.Code

/-!
# What code is written with

Rendered code is put together of the names in it, of numerals, and of a few fixed phrases. So a
property of texts that phrases and numerals have, and that passes to joined texts, holds of rendered
code when it holds of the names (`Code.Compositional.render`).
-/

namespace TensorLowering

/-! ## Names -/

/-- The variables of an expression. -/
def IntExpr.names : IntExpr → List String
  | var name => [name]
  | lit _ => []
  | binary _ lhs rhs => lhs.names ++ rhs.names

/-- The variables of a condition. -/
def Condition.names : Condition → List String
  | less lhs rhs | atLeast lhs rhs | differs lhs rhs => lhs.names ++ rhs.names
  | either first second => first.names ++ second.names

/-- The array of a cell and the variables of its index. -/
def Cell.names (c : Cell) : List String := c.array :: c.index.names

/-- The arrays and variables of a float expression. -/
def FloatExpr.names : FloatExpr → List String
  | zero => []
  | product lhs rhs => lhs.names ++ rhs.names

namespace Code

/-- The arrays and variables of code. -/
def names : Code → List String
  | done => []
  | blank rest => rest.names
  | int _ name value rest => name :: value.names ++ rest.names
  | float name value rest => name :: value.names ++ rest.names
  | skipIf condition rest => condition.names ++ rest.names
  | loop counter bound _ body rest => counter :: bound :: body.names ++ rest.names
  | accumulate name lhs rhs rest => name :: lhs.names ++ rhs.names ++ rest.names
  | store cell name rest => name :: cell.names ++ rest.names

/-- The fixed texts of expressions. -/
def expressionPhrases : List String :=
  ["(", ")", " + ", " - ", " * ", " / ", " % ", " < ", " >= ", " != ", " || ", "[", "]", "0.0f"]

/-- The fixed texts of statements. -/
def statementPhrases : List String :=
  ["", " ", "\n", "const int ", "int ", "float ", " = ", ";", "if (", ") continue;", "for (int ",
    " = 0; ", " < ", "; ", "++", " += 1", ") \x7b", "\x7d", " += ", "     * "]

/-- A property of texts that passes to joined texts, and that numerals and the fixed texts of code
have. -/
structure Compositional (P : String → Prop) : Prop where
  append : ∀ {text other : String}, P text → P other → P (text ++ other)
  numeral : ∀ n : Nat, P (toString n)
  expression : ∀ text ∈ expressionPhrases, P text
  statement : ∀ text ∈ statementPhrases, P text

end Code

/-! ## Rendered code -/

namespace Code.Compositional

variable {P : String → Prop} {text : String}

theorem parenthesized (hP : Compositional P) (needed : Bool) (h : P text) :
    P (TensorLowering.parenthesized needed text) := by
  cases needed with
  | false => exact h
  | true =>
    exact hP.append (hP.append (hP.expression "(" (by decide)) h) (hP.expression ")" (by decide))

theorem int (hP : Compositional P) {e : IntExpr} (h : ∀ name ∈ e.names, P name) : P e.render := by
  induction e with
  | var name => exact h name List.mem_cons_self
  | lit n => exact hP.numeral n
  | binary op lhs rhs ihl ihr =>
    rw [IntExpr.names, List.forall_mem_append] at h
    have hsign : P (" " ++ op.sign ++ " ") := hP.expression _ (by cases op <;> decide)
    have hall := hP.append (hP.append (hP.parenthesized (lhs.precedence < op.precedence) (ihl h.1))
      hsign) (hP.parenthesized (rhs.precedence ≤ op.precedence) (ihr h.2))
    simpa only [IntExpr.render, String.append_assoc] using hall

theorem condition (hP : Compositional P) {c : Condition} (h : ∀ name ∈ c.names, P name) :
    P c.render := by
  -- Every sign stands between two conditions or expressions.
  have hinfix : ∀ {lhs rhs : String} (sign : String), sign ∈ expressionPhrases → P lhs → P rhs →
      P (lhs ++ sign ++ rhs) :=
    fun sign hsign hl hr => hP.append (hP.append hl (hP.expression sign hsign)) hr
  induction c with
  | less lhs rhs =>
    rw [Condition.names, List.forall_mem_append] at h
    exact hinfix " < " (by decide) (hP.int h.1) (hP.int h.2)
  | atLeast lhs rhs =>
    rw [Condition.names, List.forall_mem_append] at h
    exact hinfix " >= " (by decide) (hP.int h.1) (hP.int h.2)
  | differs lhs rhs =>
    rw [Condition.names, List.forall_mem_append] at h
    exact hinfix " != " (by decide) (hP.int h.1) (hP.int h.2)
  | either first second ihf ihs =>
    rw [Condition.names, List.forall_mem_append] at h
    exact hinfix " || " (by decide) (ihf h.1) (ihs h.2)

theorem cell (hP : Compositional P) {c : Cell} (h : ∀ name ∈ c.names, P name) : P c.render := by
  obtain ⟨harray, hindex⟩ := List.forall_mem_cons.1 h
  exact hP.append (hP.append (hP.append harray (hP.expression "[" (by decide))) (hP.int hindex))
    (hP.expression "]" (by decide))

theorem float (hP : Compositional P) {e : FloatExpr} (h : ∀ name ∈ e.names, P name) :
    P e.render := by
  cases e with
  | zero => exact hP.expression "0.0f" (by decide)
  | product lhs rhs =>
    rw [FloatExpr.names, List.forall_mem_append] at h
    exact hP.append (hP.append (hP.cell h.1) (hP.expression " * " (by decide))) (hP.cell h.2)

theorem indentation (hP : Compositional P) (depth : Nat) : P (Code.indentation depth) := by
  rw [Code.indentation]
  generalize 4 * depth = n
  induction n with
  | zero => exact hP.statement "" (by decide)
  | succ n ih =>
    rw [List.replicate_succ, String.ofList_cons]
    exact hP.append (hP.statement " " (by decide)) ih

theorem line (hP : Compositional P) (depth : Nat) (h : P text) : P (Code.line depth text) :=
  hP.append (hP.append (hP.indentation depth) h) (hP.statement "\n" (by decide))

/-- Rendered code has the property if the names in it have it. -/
theorem render (hP : Compositional P) {c : Code} (h : ∀ name ∈ c.names, P name) (depth : Nat) :
    P (c.render depth) := by
  have hphrase := hP.statement
  have hend : P ";" := hphrase ";" (by decide)
  have hequals : P " = " := hphrase " = " (by decide)
  induction c generalizing depth with
  | done => exact hphrase "" (by decide)
  | blank rest ih => exact hP.append (hphrase "\n" (by decide)) (ih h depth)
  | int constant name value rest ih =>
    simp only [names, List.cons_append, List.forall_mem_cons, List.forall_mem_append] at h
    obtain ⟨hname, hvalue, hrest⟩ := h
    have hkeyword : P (if constant then "const int " else "int ") := by
      cases constant with
      | false => exact hphrase "int " (by decide)
      | true => exact hphrase "const int " (by decide)
    refine hP.append (hP.line depth ?_) (ih hrest depth)
    exact hP.append (hP.append (hP.append (hP.append hkeyword hname) hequals) (hP.int hvalue)) hend
  | float name value rest ih =>
    simp only [names, List.cons_append, List.forall_mem_cons, List.forall_mem_append] at h
    obtain ⟨hname, hvalue, hrest⟩ := h
    have hkeyword : P "float " := hphrase "float " (by decide)
    refine hP.append (hP.line depth ?_) (ih hrest depth)
    exact hP.append (hP.append (hP.append (hP.append hkeyword hname) hequals) (hP.float hvalue))
      hend
  | skipIf condition rest ih =>
    rw [names, List.forall_mem_append] at h
    refine hP.append (hP.line depth ?_) (ih h.2 depth)
    exact hP.append (hP.append (hphrase "if (" (by decide)) (hP.condition h.1))
      (hphrase ") continue;" (by decide))
  | loop counter bound increment body rest ihb ihr =>
    simp only [names, List.cons_append, List.forall_mem_cons, List.forall_mem_append] at h
    obtain ⟨hcounter, hbound, hbody, hrest⟩ := h
    have hstart : P ("for (int " ++ counter ++ " = 0; ") :=
      hP.append (hP.append (hphrase "for (int " (by decide)) hcounter)
        (hphrase " = 0; " (by decide))
    have hless : P " < " := hphrase " < " (by decide)
    have hnext : P "; " := hphrase "; " (by decide)
    have hstep : P (increment.render counter) := by
      cases increment with
      | operator => exact hP.append hcounter (hphrase "++" (by decide))
      | assignment => exact hP.append hcounter (hphrase " += 1" (by decide))
    have hopening : P ("for (int " ++ counter ++ " = 0; " ++ counter ++ " < " ++ bound ++ "; "
        ++ increment.render counter ++ ") \x7b") :=
      hP.append (hP.append (hP.append (hP.append (hP.append (hP.append hstart hcounter) hless)
        hbound) hnext) hstep) (hphrase ") \x7b" (by decide))
    have hclosing : P "\x7d" := hphrase "\x7d" (by decide)
    exact hP.append (hP.append (hP.append (hP.line depth hopening) (ihb hbody _))
      (hP.line depth hclosing)) (ihr hrest depth)
  | accumulate name lhs rhs rest ih =>
    simp only [names, List.cons_append, List.forall_mem_cons, List.forall_mem_append] at h
    obtain ⟨hname, ⟨hlhs, hrhs⟩, hrest⟩ := h
    have hfirst : P (name ++ " += " ++ lhs.render) :=
      hP.append (hP.append hname (hphrase " += " (by decide))) (hP.cell hlhs)
    have hsecond : P ("     * " ++ rhs.render ++ ";") :=
      hP.append (hP.append (hphrase "     * " (by decide)) (hP.cell hrhs)) hend
    exact hP.append (hP.append (hP.line depth hfirst) (hP.line depth hsecond)) (ih hrest depth)
  | store cell name rest ih =>
    simp only [names, List.cons_append, List.forall_mem_cons, List.forall_mem_append] at h
    obtain ⟨hname, hcell, hrest⟩ := h
    refine hP.append (hP.line depth ?_) (ih hrest depth)
    exact hP.append (hP.append (hP.append (hP.cell hcell) hequals) hname) hend

end Code.Compositional

end TensorLowering
