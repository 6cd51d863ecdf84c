import TensorLowering.Proofs.Kernel.Source
import TensorLowering.Proofs.Template.Tokenisation

/-!
# The texts of the kernel templates

A kernel is written down as a text, and what is instantiated is the template that the text is
parsed to. The text of a routine is its head, a line for each parameter and its code
(`Routine.render_template`). `OperatorKind.parse_template` shows that the template of every operator
is what its own text is parsed to, so that a routine may stand for the text.

Not every list of segments can be read off the text that it spells. Two guards make it possible,
and a routine satisfies both: the template is in normal form (`Segment.Normal`), and every segment
of it is legible (`Segment.IsLegible`), a literal by having no two percent signs side by side and
none at its end, and a load by having a role that a text can name. Segments stay legible when
literals are joined, which is how a template comes to be in normal form.
-/

namespace TensorLowering

namespace Segment

variable {chars : List Char} {s : Segment} {segments : List Segment}

/-- Every token begins with two percent signs. -/
theorem IsToken.mark_prefix (h : s.IsToken) : tokenMark.toList <+: s.text.toList := by
  cases s with
  | literal => cases h
  | functionName | metaBuffer => decide
  | load role =>
    rw [toList_load]
    exact List.IsPrefix.trans (by decide) (List.prefix_append _ _)

/-- No token begins in a text that is clear of two percent signs, whatever comes after. -/
theorem leadingToken?_of_clear (h : Clear tokenMark.toList chars) (hne : chars ≠ [])
    (rest : List Char) : leadingToken? (chars ++ rest) = none := by
  refine Option.eq_none_iff_forall_ne_some.2 fun token hlead => ?_
  obtain ⟨htoken, hprefix⟩ := leadingToken?_eq_some.1 hlead
  exact h.not_begins hne rest (htoken.mark_prefix.trans hprefix)

/-- The text of the segment shows where it begins and ends. -/
def IsLegible : Segment → Prop
  | literal text => Clear tokenMark.toList text.toList
  | functionName => True
  | metaBuffer => True
  | load role => IsRole role

/-- Legible segments cut the text that they spell. -/
theorem cuts_of_isLegible (h : ∀ s ∈ segments, s.IsLegible) : Cuts (spelled segments) segments := by
  refine cuts_spelled (fun role hrole => h _ hrole) ?_
  rintro before text after rfl suffix hne hsuffix
  have htext : IsLegible (.literal text) := h _ (List.mem_append_right _ List.mem_cons_self)
  exact leadingToken?_of_clear (htext.of_suffix hsuffix) hne _

/-- A legible segment in front of legible ones leaves them so, also where it joins a literal. -/
theorem isLegible_joined (hs : s.IsLegible) (h : ∀ s ∈ segments, s.IsLegible) :
    ∀ s' ∈ Template.joined s segments, s'.IsLegible := by
  rcases joined_cases s segments with ⟨first, next, others, rfl, rfl, hjoined⟩ | ⟨rfl, hjoined⟩ |
    hjoined
  · rw [hjoined]
    obtain ⟨hnext, hothers⟩ := List.forall_mem_cons.1 h
    refine List.forall_mem_cons.2 ⟨?_, hothers⟩
    rw [IsLegible, String.toList_append]
    exact Clear.append hs hnext
  · rw [hjoined]
    exact h
  · rw [hjoined]
    exact List.forall_mem_cons.2 ⟨hs, h⟩

/-- Legible segments are legible in normal form. -/
theorem isLegible_ofSegments (h : ∀ s ∈ segments, s.IsLegible) :
    ∀ s ∈ (Template.ofSegments segments).segments, s.IsLegible := by
  induction segments with
  | nil => exact h
  | cons s segments ih =>
    obtain ⟨hs, hrest⟩ := List.forall_mem_cons.1 h
    exact isLegible_joined hs (ih hrest)

end Segment

/-- A legible template in normal form is the one that its text is parsed to. -/
theorem Template.parse_render {t : Template} (hnormal : Segment.Normal t.segments)
    (hlegible : ∀ s ∈ t.segments, s.IsLegible) : parse t.render = t := by
  have hcuts : Segment.Cuts t.render.toList t.segments := by
    rw [Segment.toList_render]
    exact Segment.cuts_of_isLegible hlegible
  rw [parse, hcuts.scan_eq, hnormal.ofSegments_pieces]

namespace Routine

variable {r : Routine}

/-- The segments of a routine are legible if no fixed part of its source has two percent signs in it
and its roles can be named. -/
theorem FrameClear.isLegible (h : r.FrameClear tokenMark.toList)
    (hroles : ∀ p ∈ r.parameters, IsRole (r.role p.name)) : ∀ s ∈ r.segments, s.IsLegible := by
  have hlines : ∀ s ∈ r.parameters.flatMap r.lineSegments, s.IsLegible := by
    intro s hs
    obtain ⟨p, hp, hs⟩ := List.mem_flatMap.1 hs
    have hline : ∀ s ∈ r.lineSegments p, s.IsLegible :=
      List.forall_mem_cons.2 ⟨h.declaration p hp, List.forall_mem_cons.2 ⟨hroles p hp,
        List.forall_mem_singleton.2 h.closing⟩⟩
    exact hline s hs
  have hhead : ∀ s ∈ headSegments, s.IsLegible := by
    have hparameter : Clear tokenMark.toList "(const int * ".toList := by decide
    have hopen : Clear tokenMark.toList ")\n\x7b\n".toList := by decide
    exact List.forall_mem_cons.2 ⟨h.opening, List.forall_mem_cons.2 ⟨trivial, List.forall_mem_cons.2
      ⟨hparameter, List.forall_mem_cons.2 ⟨trivial, List.forall_mem_singleton.2 hopen⟩⟩⟩⟩
  rw [segments]
  exact List.forall_mem_append.2 ⟨List.forall_mem_append.2 ⟨hhead, hlines⟩,
    List.forall_mem_singleton.2 h.body⟩

/-- The texts of the lines of parameters, one after the other. -/
theorem join_lineSegments (r : Routine) (parameters : List Parameter) :
    String.join ((parameters.flatMap r.lineSegments).map Segment.text) =
      String.join (parameters.map fun p => p.line (Segment.load (r.role p.name)).text) := by
  induction parameters with
  | nil => rfl
  | cons p parameters ih =>
    rw [List.flatMap_cons, List.map_append, String.join_append, ih, List.map_cons, String.join_cons]
    refine congrArg (· ++ _) ?_
    simp only [lineSegments, List.map_cons, List.map_nil, String.join_cons, String.join_nil,
      Segment.text, Parameter.line, String.append_assoc, String.append_empty]

/-- The text of the template of a routine: its head, a line for each parameter, an empty line and
its code. -/
theorem render_template (r : Routine) :
    r.template.render = "\nvoid %%FUNC_NAME%%(const int * %%META_BUFFER%%)\n\x7b\n" ++
      (String.join (r.parameters.map fun p => p.line (Segment.load (r.role p.name)).text) ++
        ("\n" ++ r.body.render 1 ++ "\x7d\n")) := by
  have hhead : String.join (headSegments.map Segment.text) =
      "\nvoid %%FUNC_NAME%%(const int * %%META_BUFFER%%)\n\x7b\n" := by decide
  rw [template_eq, Segment.render_ofSegments, segments, List.map_append, List.map_append,
    String.join_append, String.join_append, join_lineSegments, hhead, String.append_assoc]
  rfl

end Routine

namespace OperatorKind

/-- Every role of an operator can be named in a text. -/
theorem isRole_role (kind : OperatorKind) :
    ∀ p ∈ kind.routine.parameters, IsRole (kind.routine.role p.name) := by
  have hchars : kind.routine.parameters.all fun p =>
      !(kind.routine.role p.name).toList.isEmpty &&
        (kind.routine.role p.name).toList.all Segment.isRoleChar := by
    cases kind <;> rw [routine] <;> decide +kernel
  intro p hp
  have hrole := List.all_eq_true.1 hchars p hp
  rw [Bool.and_eq_true, Bool.not_eq_true', List.isEmpty_eq_false_iff, List.all_eq_true] at hrole
  exact Segment.isRole_iff.2 hrole

/-- The template of an operator is what its own text is parsed to. -/
theorem parse_template (kind : OperatorKind) :
    Template.parse kind.routine.template.render = kind.routine.template := by
  rw [Routine.template_eq]
  exact Template.parse_render (Segment.normal_ofSegments _)
    (Segment.isLegible_ofSegments (kind.clear_tokens_frame.isLegible kind.isRole_role))

end OperatorKind

/-- The text of the scaling template, line by line. -/
example : AxiswiseScale.routine.template.render = String.join [
      "\nvoid %%FUNC_NAME%%(const int * %%META_BUFFER%%)\n\x7b\n",
      "    const float *X = %%LOAD_BUFFER(axiswise_scale_X)%%;\n",
      "    float *Y = %%LOAD_BUFFER(axiswise_scale_Y)%%;\n",
      "    const float *S = %%LOAD_BUFFER(axiswise_scale_S)%%;\n",
      "    const int N = %%LOAD_BUFFER(axiswise_scale_N)%%;\n",
      "    const int C = %%LOAD_BUFFER(axiswise_scale_C)%%;\n",
      "\n",
      "    for (int gid = 0; gid < N; gid += 1) \x7b\n",
      "        int c = gid % C;\n",
      "        float result = X[gid] * S[c];\n",
      "\n",
      "        Y[gid] = result;\n",
      "    \x7d\n",
      "\x7d\n"] := by
  rw [Routine.render_template]
  simp only [AxiswiseScale.routine, Code.render, List.map_cons, List.map_nil, String.join_cons,
    String.join_nil, String.append_assoc, String.append_empty]
  repeat refine congrArg₂ (· ++ ·) (by decide +kernel) ?_
  rfl

/-- The text of the deconvolution template, line by line. -/
example : Deconvolution.routine.template.render = String.join [
      "\nvoid %%FUNC_NAME%%(const int * %%META_BUFFER%%)\n\x7b\n",
      "    const float *X = %%LOAD_BUFFER(deconvolution2d_X)%%;\n",
      "    const float *W = %%LOAD_BUFFER(deconvolution2d_W)%%;\n",
      "    float *Y = %%LOAD_BUFFER(deconvolution2d_Y)%%;\n",
      "    const int N = %%LOAD_BUFFER(deconvolution2d_N)%%;\n",
      "    const int C1 = %%LOAD_BUFFER(deconvolution2d_C1)%%;\n",
      "    const int H1 = %%LOAD_BUFFER(deconvolution2d_H1)%%;\n",
      "    const int W1 = %%LOAD_BUFFER(deconvolution2d_W1)%%;\n",
      "    const int C2 = %%LOAD_BUFFER(deconvolution2d_C2)%%;\n",
      "    const int H2 = %%LOAD_BUFFER(deconvolution2d_H2)%%;\n",
      "    const int W2 = %%LOAD_BUFFER(deconvolution2d_W2)%%;\n",
      "    const int KH = %%LOAD_BUFFER(deconvolution2d_KH)%%;\n",
      "    const int KW = %%LOAD_BUFFER(deconvolution2d_KW)%%;\n",
      "    const int SH = %%LOAD_BUFFER(deconvolution2d_SH)%%;\n",
      "    const int SW = %%LOAD_BUFFER(deconvolution2d_SW)%%;\n",
      "    const int PH = %%LOAD_BUFFER(deconvolution2d_PH)%%;\n",
      "    const int PW = %%LOAD_BUFFER(deconvolution2d_PW)%%;\n",
      "    const int XSN = %%LOAD_BUFFER(deconvolution2d_XSN)%%;\n",
      "    const int XSC = %%LOAD_BUFFER(deconvolution2d_XSC)%%;\n",
      "    const int XSH = %%LOAD_BUFFER(deconvolution2d_XSH)%%;\n",
      "    const int XSW = %%LOAD_BUFFER(deconvolution2d_XSW)%%;\n",
      "    const int WSN = %%LOAD_BUFFER(deconvolution2d_WSN)%%;\n",
      "    const int WSC = %%LOAD_BUFFER(deconvolution2d_WSC)%%;\n",
      "    const int WSH = %%LOAD_BUFFER(deconvolution2d_WSH)%%;\n",
      "    const int WSW = %%LOAD_BUFFER(deconvolution2d_WSW)%%;\n",
      "    const int YSN = %%LOAD_BUFFER(deconvolution2d_YSN)%%;\n",
      "    const int YSC = %%LOAD_BUFFER(deconvolution2d_YSC)%%;\n",
      "    const int YSH = %%LOAD_BUFFER(deconvolution2d_YSH)%%;\n",
      "    const int YSW = %%LOAD_BUFFER(deconvolution2d_YSW)%%;\n",
      "\n",
      "    for (int n = 0; n < N; n++) \x7b\n",
      "        for (int h2 = 0; h2 < H2; h2++) \x7b\n",
      "            for (int w2 = 0; w2 < W2; w2++) \x7b\n",
      "                for (int c2 = 0; c2 < C2; c2++) \x7b\n",
      "                    float sum = 0.0f;\n",
      "\n",
      "                    for (int kh = 0; kh < KH; kh++) \x7b\n",
      "                        const int th = h2 + PH - kh;\n",
      "                        if (th < 0 || th % SH != 0) continue;\n",
      "                        const int h1 = th / SH;\n",
      "                        if (h1 >= H1) continue;\n",
      "\n",
      "                        for (int kw = 0; kw < KW; kw++) \x7b\n",
      "                            const int tw = w2 + PW - kw;\n",
      "                            if (tw < 0 || tw % SW != 0) continue;\n",
      "                            const int w1 = tw / SW;\n",
      "                            if (w1 >= W1) continue;\n",
      "\n",
      "                            for (int c1 = 0; c1 < C1; c1++) \x7b\n",
      "                                sum += X[n * XSN + c1 * XSC + h1 * XSH + w1 * XSW]\n",
      "                                     * W[c2 * WSN + c1 * WSC + kh * WSH + kw * WSW];\n",
      "                            \x7d\n",
      "                        \x7d\n",
      "                    \x7d\n",
      "\n",
      "                    Y[n * YSN + c2 * YSC + h2 * YSH + w2 * YSW] = sum;\n",
      "                \x7d\n",
      "            \x7d\n",
      "        \x7d\n",
      "    \x7d\n",
      "\x7d\n"] := by
  rw [Routine.render_template]
  simp only [Deconvolution.routine, Deconvolution.parameters, Deconvolution.gather,
    Deconvolution.sourceCoordinate, Code.render, List.cons_append, List.nil_append, List.map_cons,
    List.map_nil, String.join_cons, String.join_nil, String.append_assoc, String.append_empty]
  repeat refine congrArg₂ (· ++ ·) (by decide +kernel) ?_
  rfl

end TensorLowering
