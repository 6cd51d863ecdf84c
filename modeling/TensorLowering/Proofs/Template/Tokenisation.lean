import Mathlib.Data.List.Chain
import TensorLowering.Proofs.Kernel.Filling
import TensorLowering.Proofs.Template.Token

/-!
# The tokenisation of a template text

Which segments a text has is said without the scanner by `Template.Tokenises`: they spell the text,
literals are nonempty and lie apart, roles are well formed, and no token that occurs in the text
begins inside a literal. A text has exactly one such list of segments, the one that it is parsed to
(`Template.parse_unique`).

Two views of one list meet in the proof. `Segment.Cuts` follows the segments from the left and asks
of each literal that no token begins in it; every list that cuts a text comes from the scan of that
text, up to the way literals are divided (`Segment.Cuts.scan_eq`). And lists whose literals are
nonempty and lie apart (`Segment.Normal`) are the normal forms of lists in which every literal
character is on its own (`Segment.Normal.ofSegments_pieces`).
-/

namespace TensorLowering

namespace Segment

variable {chars rest : List Char} {s : Segment} {text : String} {segments others : List Segment}

/-- The characters that segments spell, side by side. -/
def spelled (segments : List Segment) : List Char := segments.flatMap (·.text.toList)

theorem spelled_append_cons (before : List Segment) (s : Segment) (after : List Segment) :
    spelled (before ++ s :: after) = spelled before ++ (s.text.toList ++ spelled after) := by
  rw [spelled, List.flatMap_append, List.flatMap_cons]
  rfl

theorem toList_render (segments : List Segment) :
    (Template.mk segments).render.toList = spelled segments := by
  rw [Template.render, String.toList_join, spelled, List.flatMap_map]

/-! ## Cutting a text -/

/-- The segments are a text cut from the left: tokens are well formed, and no token begins inside a
literal. -/
inductive Cuts : List Char → List Segment → Prop
  | nil : Cuts [] []
  | token {token : Segment} {chars : List Char} {segments : List Segment}
      (htoken : token.IsToken) (hrest : Cuts chars segments) :
      Cuts (token.text.toList ++ chars) (token :: segments)
  | literal {text : String} {chars : List Char} {segments : List Segment}
      (hplain : ∀ suffix, suffix ≠ [] → suffix <:+ text.toList →
        leadingToken? (suffix ++ chars) = none)
      (hrest : Cuts chars segments) : Cuts (text.toList ++ chars) (.literal text :: segments)

/-- Segments that cut a text spell it. -/
theorem Cuts.spelled_eq (h : Cuts chars segments) : spelled segments = chars := by
  induction h with
  | nil => rfl
  | token htoken hrest ih => rw [spelled, List.flatMap_cons, ← spelled, ih]
  | literal hplain hrest ih => rw [spelled, List.flatMap_cons, ← spelled, ih]; rfl

/-- What is not literal in a cut text is a token. -/
theorem Cuts.isToken (h : Cuts chars segments) (hs : s ∈ segments) (hliteral : s.isLiteral = false) :
    s.IsToken := by
  induction h with
  | nil => cases hs
  | token htoken hrest ih =>
    rcases List.mem_cons.1 hs with rfl | hs
    · exact htoken
    · exact ih hs
  | literal hplain hrest ih =>
    rcases List.mem_cons.1 hs with rfl | hs
    · cases hliteral
    · exact ih hs

/-- A segment in front of a cut text, if it is a well-formed token or a literal without tokens. -/
theorem cuts_cons :
    Cuts chars (s :: segments) ↔ ∃ rest, s.text.toList ++ rest = chars ∧ Cuts rest segments ∧
      (s.IsToken ∨ s.isLiteral = true ∧ ∀ suffix, suffix ≠ [] → suffix <:+ s.text.toList →
        leadingToken? (suffix ++ rest) = none) := by
  constructor
  · intro h
    cases h with
    | token htoken hrest => exact ⟨_, rfl, hrest, .inl htoken⟩
    | literal hplain hrest => exact ⟨_, rfl, hrest, .inr ⟨rfl, hplain⟩⟩
  · rintro ⟨rest, rfl, hrest, htoken | ⟨hliteral, hplain⟩⟩
    · exact .token htoken hrest
    · cases s with
      | literal text => exact .literal hplain hrest
      | functionName | metaBuffer | load => cases hliteral

/-! ## What the scanner finds -/

theorem scan_skip (taken rest : List Char) :
    Template.scan taken.length (taken ++ rest) = Template.scan 0 rest := by
  induction taken with
  | nil => rfl
  | cons ch taken ih => exact ih

/-- The spelling of a token is not empty. -/
theorem IsToken.exists_cons (hs : s.IsToken) :
    ∃ ch taken, s.text.toList = ch :: taken ∧ s.text.length - 1 = taken.length := by
  have hlength : s.text.length = s.text.toList.length := rfl
  suffices hne : s.text.toList ≠ [] by
    obtain ⟨ch, taken, hchars⟩ := List.exists_cons_of_ne_nil hne
    exact ⟨ch, taken, hchars, by rw [hlength, hchars, List.length_cons, Nat.add_sub_cancel]⟩
  cases s with
  | literal => cases hs
  | functionName | metaBuffer => exact List.cons_ne_nil _ _
  | load role =>
    rw [toList_load]
    exact List.cons_ne_nil _ _

/-- A token at the front of a text is taken. -/
theorem scan_token (hs : s.IsToken) :
    Template.scan 0 (s.text.toList ++ rest) = s :: Template.scan 0 rest := by
  have hlead : leadingToken? (s.text.toList ++ rest) = some s :=
    leadingToken?_eq_some.2 ⟨hs, List.prefix_append _ _⟩
  obtain ⟨ch, taken, hchars, hlength⟩ := hs.exists_cons
  rw [hchars, List.cons_append] at hlead ⊢
  rw [Template.scan, hlead]
  simp only [hlength, scan_skip]

/-- A literal without tokens is taken character by character. -/
theorem scan_literal (hplain : ∀ suffix, suffix ≠ [] → suffix <:+ chars →
    leadingToken? (suffix ++ rest) = none) :
    Template.scan 0 (chars ++ rest) =
      chars.map (fun ch => .literal (String.singleton ch)) ++ Template.scan 0 rest := by
  induction chars with
  | nil => rfl
  | cons ch chars ih =>
    have hlead := hplain (ch :: chars) (List.cons_ne_nil _ _) (List.suffix_refl _)
    rw [List.cons_append] at hlead
    rw [List.cons_append, Template.scan, hlead, List.map_cons, List.cons_append]
    refine congrArg _ (ih fun suffix hne hsuffix => ?_)
    exact hplain suffix hne (hsuffix.trans (List.suffix_cons _ _))

/-- The segment with every literal character on its own. -/
def pieces : Segment → List Segment
  | literal text => text.toList.map fun ch => .literal (String.singleton ch)
  | s => [s]

/-- Every list that cuts a text comes from the scan of the text. -/
theorem Cuts.scan_eq (h : Cuts chars segments) :
    Template.scan 0 chars = segments.flatMap pieces := by
  induction h with
  | nil => rfl
  | @token token chars segments htoken hrest ih =>
    have hpieces : token.pieces = [token] := by
      cases token with
      | literal => cases htoken
      | functionName | metaBuffer | load => rfl
    rw [scan_token htoken, ih, List.flatMap_cons, hpieces, List.singleton_append]
  | literal hplain hrest ih =>
    rw [scan_literal hplain, ih, List.flatMap_cons]
    rfl

/-- The scan cuts the text, after what was taken already. -/
theorem cuts_scan (skip : Nat) (chars : List Char) :
    Cuts (chars.drop skip) (Template.scan skip chars) := by
  induction chars generalizing skip with
  | nil =>
    rw [List.drop_nil]
    exact .nil
  | cons ch chars ih =>
    cases skip with
    | succ skip => exact ih skip
    | zero =>
      rw [List.drop_zero]
      unfold Template.scan
      split
      · next token hlead =>
        obtain ⟨htoken, rest, hrest⟩ := leadingToken?_eq_some.1 hlead
        obtain ⟨first, taken, hchars, hlength⟩ := htoken.exists_cons
        have hcut : Cuts rest (Template.scan (token.text.length - 1) chars) := by
          rw [hchars, List.cons_append] at hrest
          obtain ⟨-, rfl⟩ := List.cons.inj hrest
          simpa [hlength] using ih taken.length
        exact hrest ▸ hcut.token htoken
      · next hlead =>
        have hcut : Cuts chars (Template.scan 0 chars) := by simpa using ih 0
        have hsingleton : (String.singleton ch).toList = [ch] := String.toList_singleton ch
        have hplain : ∀ suffix, suffix ≠ [] → suffix <:+ (String.singleton ch).toList →
            leadingToken? (suffix ++ chars) = none := by
          intro suffix hne hsuffix
          rw [hsingleton] at hsuffix
          rcases List.suffix_cons_iff.1 hsuffix with rfl | hnil
          · exact hlead
          · exact absurd (List.suffix_nil.1 hnil) hne
        have hcuts := hcut.literal hplain
        rwa [hsingleton] at hcuts

/-! ## Normal forms of cut texts -/

/-- A literal that joins a literal after it, or vanishes, leaves the text cut. -/
theorem Cuts.joined (h : Cuts chars (s :: segments)) :
    Cuts chars (Template.joined s segments) := by
  rcases joined_cases s segments with ⟨first, next, others, rfl, rfl, hjoined⟩ | ⟨rfl, hjoined⟩ |
    hjoined
  · rw [hjoined]
    cases h with
    | token htoken => cases htoken
    | literal hplain h =>
      cases h with
      | token htoken => cases htoken
      | @literal _ rest _ hplain' hrest =>
        rw [← List.append_assoc, ← String.toList_append]
        refine .literal (fun suffix hne hsuffix => ?_) hrest
        rw [String.toList_append] at hsuffix
        rcases List.suffix_or_suffix_of_suffix hsuffix (List.suffix_append _ _) with hshort | hlong
        · exact hplain' suffix hne hshort
        · -- The suffix is the second literal, or it reaches into the first one.
          obtain ⟨start, rfl⟩ := hlong
          by_cases hstart : start = []
          · subst hstart
            exact hplain' _ hne (List.suffix_refl _)
          · obtain ⟨before, hbefore⟩ := hsuffix
            rw [← List.append_assoc] at hbefore
            rw [List.append_assoc]
            exact hplain start hstart ⟨before, List.append_cancel_right hbefore⟩
  · rw [hjoined]
    cases h with
    | token htoken => cases htoken
    | literal hplain h => exact h
  · rw [hjoined]
    exact h

/-- A cut text stays cut in normal form. -/
theorem Cuts.ofSegments (h : Cuts chars segments) :
    Cuts chars (Template.ofSegments segments).segments := by
  induction h with
  | nil => exact .nil
  | token htoken hrest ih => exact (ih.token htoken).joined
  | literal hplain hrest ih => exact (ih.literal hplain).joined

/-- No literal is empty, and no two literals stand side by side. -/
structure Normal (segments : List Segment) : Prop where
  nonempty : ∀ text, .literal text ∈ segments → text ≠ ""
  apart : segments.IsChain fun s s' => ¬ (s.isLiteral = true ∧ s'.isLiteral = true)

theorem normal_nil : Normal [] := ⟨nofun, .nil⟩

/-- A segment in front of a list in normal form keeps it so, if it is not an empty literal and does
not come before a literal. -/
theorem normal_cons :
    Normal (s :: segments) ↔ s ≠ .literal "" ∧
      (s.isLiteral = true → ∀ text others, segments ≠ .literal text :: others) ∧
      Normal segments := by
  constructor
  · intro h
    refine ⟨fun hs => h.nonempty "" (hs ▸ List.mem_cons_self) rfl, ?_,
      fun text htext => h.nonempty text (List.mem_cons_of_mem _ htext), h.apart.tail⟩
    rintro hs text others rfl
    exact (List.isChain_cons_cons.1 h.apart).1 ⟨hs, rfl⟩
  · rintro ⟨hne, hapart, h⟩
    refine ⟨fun text htext hempty => ?_, ?_⟩
    · rcases List.mem_cons.1 htext with rfl | htext
      · exact hne (congrArg literal hempty)
      · exact h.nonempty text htext hempty
    · cases segments with
      | nil => exact .singleton s
      | cons s' others =>
        refine List.isChain_cons_cons.2 ⟨fun hboth => ?_, h.apart⟩
        cases s' with
        | literal text => exact hapart hboth.1 text others rfl
        | functionName | metaBuffer | load => cases hboth.2

/-- A literal that is not empty stays as it is in front of a list that begins with no literal. -/
theorem joined_literal (htext : text ≠ "")
    (hapart : ∀ next others, segments ≠ .literal next :: others) :
    Template.joined (.literal text) segments = .literal text :: segments := by
  cases segments with
  | nil => exact if_neg htext
  | cons s others =>
    cases s with
    | literal next => exact absurd rfl (hapart next others)
    | functionName | metaBuffer | load => exact if_neg htext

/-- What is put in front of a list in normal form leaves it in normal form. -/
theorem Normal.joined (h : Normal segments) (s : Segment) :
    Normal (Template.joined s segments) := by
  unfold Template.joined
  split
  · next first next others =>
    obtain ⟨hne, hapart, hothers⟩ := normal_cons.1 h
    refine normal_cons.2 ⟨fun hempty => hne ?_, fun _ => hapart rfl, hothers⟩
    rw [literal.injEq, String.append_eq_empty_iff] at hempty
    exact congrArg literal hempty.2
  · next text rest hapart =>
    split
    · exact h
    · next htext =>
      exact normal_cons.2 ⟨fun hs => htext (literal.inj hs), fun _ => hapart, h⟩
  · next hs _ =>
    refine normal_cons.2 ⟨hs "", fun hliteral => ?_, h⟩
    cases s with
    | literal text => exact absurd rfl (hs text)
    | functionName | metaBuffer | load => cases hliteral

theorem normal_ofSegments (segments : List Segment) :
    Normal (Template.ofSegments segments).segments := by
  induction segments with
  | nil => exact normal_nil
  | cons s segments ih => exact ih.joined s

/-- Literal characters in front of a list join to one literal. -/
theorem foldr_joined_literal (hne : chars ≠ [])
    (hapart : ∀ text others, segments ≠ .literal text :: others) :
    (chars.map fun ch => literal (String.singleton ch)).foldr Template.joined segments =
      .literal (String.ofList chars) :: segments := by
  induction chars with
  | nil => exact absurd rfl hne
  | cons ch chars ih =>
    rw [List.map_cons, List.foldr_cons]
    cases chars with
    | nil =>
      rw [List.map_nil, List.foldr_nil, joined_literal String.singleton_ne_empty hapart]
      rfl
    | cons next chars =>
      rw [ih (List.cons_ne_nil _ _), Template.joined]
      refine congrArg (fun text => literal text :: segments) ?_
      rw [← String.toList_inj]
      simp

/-- Segments in normal form are recovered from their pieces. -/
theorem Normal.ofSegments_pieces (h : Normal segments) :
    Template.ofSegments (segments.flatMap pieces) = ⟨segments⟩ := by
  suffices hfold : (segments.flatMap pieces).foldr Template.joined [] = segments from
    congrArg Template.mk hfold
  induction segments with
  | nil => rfl
  | cons s segments ih =>
    obtain ⟨hne, hapart, hrest⟩ := normal_cons.1 h
    rw [List.flatMap_cons, List.foldr_append, ih hrest]
    cases s with
    | literal text =>
      have htext : text.toList ≠ [] := fun hnil =>
        hne (congrArg literal (String.toList_eq_nil_iff.1 hnil))
      rw [pieces, foldr_joined_literal htext (hapart rfl), String.ofList_toList]
    | functionName | metaBuffer | load => rfl

/-! ## Tokens inside literals -/

/-- Segments are cut if their roles are well formed and no token begins inside a literal of
theirs. -/
theorem cuts_spelled (hroles : ∀ role, .load role ∈ segments → IsRole role)
    (hplain : ∀ before text after, segments = before ++ .literal text :: after →
      ∀ suffix, suffix ≠ [] → suffix <:+ text.toList →
        leadingToken? (suffix ++ spelled after) = none) :
    Cuts (spelled segments) segments := by
  induction segments with
  | nil => exact .nil
  | cons s segments ih =>
    have hrest : Cuts (spelled segments) segments :=
      ih (fun role hrole => hroles role (List.mem_cons_of_mem _ hrole))
        (fun before text after heq => hplain (s :: before) text after (congrArg (s :: ·) heq))
    refine cuts_cons.2 ⟨_, rfl, hrest, ?_⟩
    cases s with
    | literal text => exact .inr ⟨rfl, hplain [] text segments rfl⟩
    | functionName | metaBuffer => exact .inl trivial
    | load role => exact .inl (hroles role List.mem_cons_self)

/-- Where segments that cut a text are split, the second part cuts what it spells. -/
theorem Cuts.of_append {before : List Segment} (h : Cuts chars (before ++ segments)) :
    Cuts (spelled segments) segments := by
  induction before generalizing chars with
  | nil => exact h.spelled_eq ▸ h
  | cons s before ih =>
    obtain ⟨rest, -, hrest, -⟩ := cuts_cons.1 h
    exact ih hrest

/-- Where a literal stands in a text, a token of the text begins inside it exactly when the rest of
the text, from some place in the literal on, begins with the token. -/
theorem begins_inside_iff (before : List Char) {literal after token : List Char} :
    (∃ pre post, before ++ (literal ++ after) = pre ++ token ++ post ∧
        before.length ≤ pre.length ∧ pre.length < before.length + literal.length) ↔
      ∃ suffix, suffix ≠ [] ∧ suffix <:+ literal ∧ token <+: suffix ++ after := by
  constructor
  · rintro ⟨pre, post, heq, hle, hlt⟩
    refine ⟨literal.drop (pre.length - before.length), fun hnil => ?_, List.drop_suffix _ _, post, ?_⟩
    · rw [List.drop_eq_nil_iff] at hnil
      omega
    · have hdrop := congrArg (List.drop pre.length) heq
      rw [List.append_assoc, List.drop_left, List.drop_append, List.drop_eq_nil_of_le hle,
        List.nil_append, List.drop_append_of_le_length (by omega)] at hdrop
      exact hdrop.symm
  · rintro ⟨suffix, hne, ⟨start, rfl⟩, post, hpost⟩
    have hpos := List.length_pos_iff.2 hne
    refine ⟨before ++ start, post, ?_, ?_, ?_⟩
    · simp only [List.append_assoc, ← hpost]
    · simp
    · simp only [List.length_append]
      omega

end Segment

namespace Template

open Segment

variable {text : String} {segments : List Segment}

/-- The segments are a tokenisation of the text: they spell it; no literal is empty and no two are
adjacent; roles are well formed; and no token that occurs in the text begins inside a literal. -/
structure Tokenises (text : String) (segments : List Segment) : Prop where
  render : (Template.mk segments).render = text
  nonempty : ∀ s, .literal s ∈ segments → s ≠ ""
  apart : segments.IsChain fun s s' => ¬ (s.isLiteral = true ∧ s'.isLiteral = true)
  roles : ∀ role, .load role ∈ segments → IsRole role
  complete : ∀ (before : List Segment) (s : String) (after : List Segment),
    segments = before ++ .literal s :: after → ∀ token : Segment, token.IsToken →
      ∀ pre post : String, text = pre ++ token.text ++ post →
        ¬ ((Template.mk before).render.length ≤ pre.length ∧
          pre.length < (Template.mk before).render.length + s.length)

/-- In a tokenisation, the rest of the text from within a literal on begins with no token. -/
theorem Tokenises.leadingToken?_eq_none (h : Tokenises text segments) {before after : List Segment}
    {s : String} (heq : segments = before ++ .literal s :: after) {suffix : List Char}
    (hne : suffix ≠ []) (hsuffix : suffix <:+ s.toList) :
    leadingToken? (suffix ++ spelled after) = none := by
  refine Option.eq_none_iff_forall_ne_some.2 fun token hlead => ?_
  obtain ⟨htoken, hprefix⟩ := leadingToken?_eq_some.1 hlead
  obtain ⟨pre, post, hsplit, hinside⟩ :=
    (begins_inside_iff (spelled before)).2 ⟨suffix, hne, hsuffix, hprefix⟩
  have htext : text = String.ofList pre ++ token.text ++ String.ofList post := by
    rw [← String.toList_inj, ← h.render, toList_render, heq, spelled_append_cons]
    simpa [Segment.text] using hsplit
  refine h.complete before s after heq token htoken _ _ htext ?_
  rw [← String.length_toList, toList_render, ← String.length_toList, ← String.length_toList,
    String.toList_ofList]
  exact hinside

/-- The tokenisations of a text are the lists in normal form that cut it. -/
theorem tokenises_iff : Tokenises text segments ↔ Normal segments ∧ Cuts text.toList segments := by
  constructor
  · intro h
    have hcuts : Cuts (spelled segments) segments :=
      cuts_spelled h.roles fun before s after heq _ => h.leadingToken?_eq_none heq
    rw [← h.render, toList_render]
    exact ⟨⟨h.nonempty, h.apart⟩, hcuts⟩
  · rintro ⟨hnormal, hcuts⟩
    refine ⟨?_, hnormal.nonempty, hnormal.apart, fun role hrole => hcuts.isToken hrole rfl, ?_⟩
    · rw [← String.toList_inj, toList_render, hcuts.spelled_eq]
    · rintro before s after rfl token htoken pre post rfl hinside
      obtain ⟨rest, hrest, hafter, htoken' | ⟨-, hplain⟩⟩ := cuts_cons.1 hcuts.of_append
      · cases htoken'
      · have hsplit : spelled before ++ (s.toList ++ spelled after) =
            pre.toList ++ token.text.toList ++ post.toList := by
          rw [← String.toList_append, ← String.toList_append, ← hcuts.spelled_eq,
            spelled_append_cons]
          rfl
        rw [← String.length_toList, toList_render, ← String.length_toList,
          ← String.length_toList] at hinside
        obtain ⟨suffix, hne, hsuffix, hprefix⟩ :=
          (begins_inside_iff _).1 ⟨pre.toList, post.toList, hsplit, hinside⟩
        have hnone := hplain suffix hne hsuffix
        rw [← hafter.spelled_eq, leadingToken?_eq_some.2 ⟨htoken, hprefix⟩] at hnone
        cases hnone

/-- A text has exactly one tokenisation, the one that it is parsed to. -/
theorem parse_unique (text : String) (segments : List Segment) :
    (parse text).segments = segments ↔ Tokenises text segments := by
  rw [tokenises_iff]
  constructor
  · rintro rfl
    exact ⟨normal_ofSegments _, (cuts_scan 0 text.toList).ofSegments⟩
  · rintro ⟨hnormal, hcuts⟩
    rw [parse, hcuts.scan_eq, hnormal.ofSegments_pieces]

/-- A percent sign before a token and a load without a role stay literal. -/
example : (parse "%%%FUNC_NAME%%%LOAD_BUFFER()%%").segments =
    [.literal "%", .functionName, .literal "%LOAD_BUFFER()%%"] := by
  decide +kernel

end Template

end TensorLowering
