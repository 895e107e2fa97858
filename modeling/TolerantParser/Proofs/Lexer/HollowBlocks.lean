import TolerantParser.Proofs.Lexer.HollowLines

/-!
Blocks without a token of their own. A block begins at whatever a line has behind its blanks, be it no more than a
hidden line end. If nothing comes behind that but more of the kind and at last the end of the text, there is not even a
line end to the block, and it ends where it begins. There are no other such blocks.
-/

namespace TolerantParser

variable {d : Dialect} {lines : LineIndex} {text : List Char} {before tokens after : List Token} {token : Token}
  {s : Scan}

/-! ### Lines that are left off -/

/-- Nothing is left of the text but blanks and hidden line ends, and perhaps a comment. -/
inductive TrailsOff : List Char → Prop
  | blanks {blanks : List Char} : Blanks blanks → TrailsOff blanks
  | comment {blanks body : List Char} : Blanks blanks → IsComment body [] → TrailsOff (blanks ++ body)
  | joined {blanks ending rest : List Char} : Blanks blanks → IsLineEnd ending rest → TrailsOff rest →
      TrailsOff (blanks ++ '\\' :: (ending ++ rest))

/-- The last line of the text begins with a hidden line end, and nothing comes of it. -/
inductive EndsHollow : List Char → Prop
  | line {front blanks ending rest : List Char} : (∀ c ∈ front.getLast?, isLineEndChar c) → Blanks blanks →
      IsLineEnd ending rest → TrailsOff rest → EndsHollow (front ++ (blanks ++ '\\' :: (ending ++ rest)))

theorem inline_of_blanks {blanks rest : List Char} {c : Char} (blank : Blanks blanks)
    (inline : isLineEndChar c = false) :
    ∀ first ∈ (blanks ++ c :: rest).head?, isLineEndChar first = false := by
  cases blanks with
  | nil => simpa using inline
  | cons b blanks => simpa using (inline_of_isBlank (blank b List.mem_cons_self)).1

theorem TrailsOff.inline (trails : TrailsOff text) : ∀ c ∈ text.head?, isLineEndChar c = false := by
  cases trails with
  | blanks blank => exact fun c first => (inline_of_isBlank (blank c (List.mem_of_head? first))).1
  | joined blank => exact inline_of_blanks blank (by decide)
  | @comment blanks body blank comment =>
    obtain ⟨more, rfl⟩ := List.head?_eq_some_iff.1 comment.marked
    exact inline_of_blanks blank (by decide)

namespace Scan

/-- What begins a block in front of a line stands last there. -/
theorem layout_indent {blanks : List Char} {front back : List Token} (opens : token.kind = .indent)
    (split : (s.layout lines blanks).1 = front ++ token :: back) : s.atLineStart ∧ back = [] := by
  by_cases here : s.atLineStart
  · rw [layout, if_pos here, indent] at split
    rcases split_append split with ⟨rest, within⟩ | ⟨later, -, behind⟩
    · have closing : token ∈ List.replicate (layoutAt (columnAfter blanks) (s.skip blanks.length).columns).dedents
          ((s.skip blanks.length).detached lines .dedent) := by simp [within]
      rw [List.eq_of_mem_replicate closing] at opens
      cases opens
    · refine ⟨here, ?_⟩
      split at behind
      next => cases later <;> simp_all
      next => simp at behind
  · rw [layout, if_neg here] at split
    simp at split

/-- If a block ends next and nothing of the line has come, nothing comes of it. -/
theorem Strides.trailsOff (strides : Strides d lines s tokens) (inside : s.atLineStart = false)
    (empty : s.inStatement = false) (outside : s.depth = 0) (closes : (met tokens).head? = some .dedent) :
    TrailsOff s.rest := by
  induction strides with
  | last stride =>
    cases stride with
    | ends blank => exact .blanks blank
  | @step s next tokens more stride _ ih =>
    cases stride with
    | @comment blanks body rest split blank comment =>
      have behind : ((s.skip blanks.length).cut lines .comment body.length).2.rest = rest := by
        rw [rest_cut, rest_past split, List.drop_left]
      have trails := ih inside empty outside closes
      rw [behind] at trails
      -- a comment is ended by a line end, if by anything
      obtain rfl : rest = [] := by
        cases rest with
        | nil => rfl
        | cons c rest => exact absurd (comment.ended c rfl) (by simp [trails.inline c rfl])
      rw [List.append_nil] at split
      rw [split]
      exact .comment blank comment
    | passed _ _ _ here => simp [inside, outside] at here
    | newline => cases closes
    | @joined blanks ending rest split blank ends =>
      rw [layout, if_neg (by simp [inside])] at ih closes
      have behind : ((s.skip blanks.length).skip (1 + ending.length)).rest = rest := by
        rw [rest_skip, rest_past split, Nat.add_comm, List.drop_succ_cons, List.drop_left]
      rw [split]
      exact .joined blank ends (behind ▸ ih inside empty outside closes)
    | @lexeme blanks =>
      rw [layout, if_neg (by simp [inside])] at closes
      have word : ((s.skip blanks.length).significant d lines).1.kind.isInline :=
        (isLexeme_scanLexeme (s.skip blanks.length).rest).1
      rw [List.nil_append, List.singleton_append, met_cons _ (structural_of_isInline word).2] at closes
      rw [Option.some.inj closes] at word
      cases word

/-- A block that ends where it begins is a line that is left off. -/
theorem Strides.endsHollow {front back : List Token} (strides : Strides d (.ofChars text) s tokens)
    (filling : Filling text before s) (layers : Layers text before s) (split : tokens = front ++ token :: back)
    (opens : token.kind = .indent) (closes : (met back).head? = some .dedent) : EndsHollow text := by
  induction strides generalizing before front with
  | last stride =>
    cases stride with
    | ends => exact absurd opens (split_finish split).1
  | @step s next tokens more stride later ih =>
    rcases split_append split with ⟨rest, within⟩ | ⟨other, rfl, behind⟩
    · have member : token ∈ tokens := by simp [within]
      obtain rfl : back = rest ++ more := by simpa [within] using split.symm
      cases stride with
      | passed => cases member
      | comment | newline =>
        rw [List.mem_singleton.1 member] at opens
        cases opens
      | @joined blanks ending rest' around blank ends =>
        obtain ⟨here, rfl⟩ := layout_indent opens within
        have empty := filling.between here
        have behind : ((s.layout (.ofChars text) blanks).2.skip (1 + ending.length)).rest = rest' := by
          rw [rest_skip, rest_pastLayout around, Nat.add_comm, List.drop_succ_cons, List.drop_left]
        have trails := later.trailsOff (s.inLine_layout _ blanks) ((s.inStatement_layout _ _).trans empty)
          ((s.depth_layout _ _).trans (filling.outside empty)) closes
        have begins : ∀ c ∈ (text.take s.offset).getLast?, isLineEndChar c := by
          refine (layers.between here).front.resolve_right fun ends => ?_
          obtain ⟨c, first⟩ : ∃ c, s.rest.head? = some c := by
            rw [around]
            cases blanks <;> exact ⟨_, rfl⟩
          have inline : isLineEndChar c = false := inline_of_blanks blank (by decide) c (around ▸ first)
          simp [ends c first] at inline
        rw [layers.into.text_eq.1, around]
        exact .line begins blank ends (behind ▸ trails)
      | @lexeme blanks =>
        have word : ((s.layout (.ofChars text) blanks).2.significant d (.ofChars text)).1.kind.isInline :=
          (isLexeme_scanLexeme (s.layout (.ofChars text) blanks).2.rest).1
        rcases split_append within with ⟨between, layout⟩ | ⟨_, -, last⟩
        · obtain ⟨-, rfl⟩ := layout_indent opens layout
          obtain rfl : rest = [_] := by simpa [layout] using within.symm
          rw [List.singleton_append, met_cons _ (structural_of_isInline word).2] at closes
          rw [Option.some.inj closes] at word
          cases word
        · have same : token ∈ [((s.layout (.ofChars text) blanks).2.significant d (.ofChars text)).1] := by simp [last]
          rw [← List.mem_singleton.1 same, opens] at word
          cases word
    · exact ih (filling.stride stride) (layers.stride stride).2 behind

end Scan

/-- Two kinds that are met one behind the other are those of two tokens with nothing but comments between them. -/
theorem exists_met_adjacent {kind next : TokenKind} (adjacent : [kind, next] <:+: Scan.met tokens) :
    ∃ front token back, tokens = front ++ token :: back ∧ token.kind = kind ∧ (Scan.met back).head? = some next := by
  obtain ⟨before, after, whole⟩ := adjacent
  rw [List.append_assoc, Scan.met, eq_comm, List.filter_eq_append_iff] at whole
  obtain ⟨_, _, parts, -, behind⟩ := whole
  obtain ⟨others, rest, rfl, -, -, following⟩ := List.filter_eq_cons_iff.1 behind
  rw [← List.append_assoc] at parts
  obtain ⟨front, _, rfl, -, last⟩ := List.map_eq_append_iff.1 parts
  obtain ⟨token, back, rfl, same, rfl⟩ := List.map_eq_cons_iff.1 last
  refine ⟨front, token, back, rfl, same, ?_⟩
  rw [Scan.met, following]
  rfl

/-- A block of a text ends where it begins, with no token in it, only at the end of a text that is left off in a line of
which nothing has come. -/
theorem endsHollow_lex (d : Dialect) (text : String) (adjacent : [.indent, .dedent] <:+: Scan.met (lex d text)) :
    EndsHollow text.toList := by
  obtain ⟨front, token, back, split, opens, closes⟩ := exists_met_adjacent adjacent
  exact (lex_strides d text).endsHollow (.start text.toList) (layers_start text.toList) split opens closes

end TolerantParser
