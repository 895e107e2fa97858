import TolerantParser.Proofs.Document.Joined

/-!
Texts one behind the other. Behind a text without errors that is whole lines, any text whose first line is neither
indented nor goes on with a statement is parsed as it is by itself, further down. So it is behind a text that is one
logical line, with whatever errors, unless it begins a compound statement: an error in one line does not disturb
the others.
-/

namespace TolerantParser

open TokenStream (significant)

variable {d : Dialect}

/-! ### Tokens -/

theorem kinds_significantViews (tokens : List Token) :
    (significantViews tokens).map TokenView.kind = Scan.met tokens := by
  rw [significantViews, List.map_map, Scan.met, List.filter_map]
  rfl

/-- Tokens of a line are followed by another one of it or by its end. -/
theorem Laid.linked {firm : TokenKind → Prop} (plain : ∀ kind, kind.isLayout = false → firm kind) {level : Nat}
    {kinds : List TokenKind} (laid : Laid level (kinds ++ [.endOfFile])) : Linked firm kinds := by
  induction kinds generalizing level with
  | nil => exact trivial
  | cons kind rest ih =>
    rw [List.cons_append] at laid
    have behind : ∃ level, Laid level (rest ++ [.endOfFile]) := by
      generalize same : rest ++ [TokenKind.endOfFile] = others at laid
      cases laid with
      | last => simp at same
      | opens later => exact ⟨_, later⟩
      | closes later => exact ⟨_, later⟩
      | line later => exact ⟨_, later⟩
      | inline _ _ later => exact ⟨_, later⟩
    refine ⟨fun inline => ?_, ih behind.choose_spec⟩
    cases rest with
    | nil =>
      cases laid with
      | inline _ next => rcases next with next | next <;> cases next
      | opens | closes | line => cases inline
    | cons next rest =>
      refine ⟨next, rfl, plain _ ?_⟩
      cases laid with
      | inline _ follows =>
        rcases follows with follows | rfl
        · exact TokenKind.plain_of_isInline follows
        · rfl
      | opens | closes | line => cases inline

/-- Without blocks no block ends. -/
theorem Laid.unclosed {kinds : List TokenKind} (laid : Laid 0 kinds) (flat : .indent ∉ kinds) : .dedent ∉ kinds := by
  generalize outside : 0 = level at laid
  induction laid with
  | last => decide
  | opens => exact absurd List.mem_cons_self flat
  | closes => cases outside
  | line _ ih =>
    exact List.not_mem_cons_of_ne_of_not_mem nofun (ih (fun listed => flat (List.mem_cons_of_mem _ listed)) outside)
  | inline inline _ _ ih =>
    refine List.not_mem_cons_of_ne_of_not_mem ?_ (ih (fun listed => flat (List.mem_cons_of_mem _ listed)) outside)
    rintro rfl
    cases inline

/-- The tokens of the text are those of one logical line, outside of all blocks. -/
def SingleLine (d : Dialect) (text : String) : Prop := ∃ line, (significantTokens d text).map (·.kind) =
  line ++ [.newline, .endOfFile] ∧ ∀ kind ∈ line, kind ≠ .newline ∧ kind ≠ .indent

theorem map_kind_significant (d : Dialect) (text : String) :
    (significantTokens d text).map (·.kind) = Scan.met (lex d text) := by
  rw [significantTokens, Scan.met, List.filter_map]
  rfl

/-- A single line is tokens of a line and its end. -/
theorem SingleLine.single {text : String} (single : SingleLine d text) {shared : List TokenView} {last : TokenView}
    (looks : significantViews (lex d text) = shared ++ [last]) : Single (shared.map TokenView.kind) := by
  obtain ⟨line, kinds, plain⟩ := single
  rw [map_kind_significant] at kinds
  have parts : shared.map TokenView.kind ++ [last.kind] = (line ++ [.newline]) ++ [.endOfFile] := by
    have listed := kinds_significantViews (lex d text)
    rw [looks, List.map_append, kinds] at listed
    simpa using listed
  refine ⟨line, (List.append_inj' parts rfl).1, fun kind member => ?_⟩
  have met : kind ∈ Scan.met (lex d text) := kinds ▸ List.mem_append_left _ member
  have flat : .indent ∉ Scan.met (lex d text) := fun listed => by
    rw [kinds, List.mem_append] at listed
    rcases listed with inside | ends
    · exact (plain _ inside).2 rfl
    · simp at ends
  obtain ⟨before, split, once⟩ := endsOnce_lex d text
  have fore : Scan.met (lex d text) = before.filter (· != .comment) ++ [.endOfFile] := by
    rw [Scan.met, split, List.filter_append]
    rfl
  have goesOn : kind ≠ .endOfFile := by
    rintro rfl
    rw [kinds, List.append_cons] at fore
    have inside : .endOfFile ∈ before.filter (· != .comment) :=
      (List.append_inj' fore rfl).1 ▸ List.mem_append_left _ member
    exact once (List.mem_filter.1 inside).1
  have open_ : kind ≠ .dedent := fun same => (laid_lex d text).unclosed flat (same ▸ met)
  have listed : kind ≠ .comment := by simpa using (List.mem_filter.1 met).2
  obtain ⟨inside, plain⟩ := plain kind member
  cases kind <;> first | rfl | contradiction

/-! ### Frames -/

namespace Frame

theorem leading_sees_refl {clean : Prop} {last : TokenView} {rest : List TokenView} (a : TokenView) :
    (leading clean last rest).Sees a a := by
  have spots : ∀ kind p, ((leading clean last rest).pairing fun _ _ => False).spots kind p p := fun kind p => by
    rw [Pairing.spots]
    split
    · exact .inr rfl
    · exact rfl
  exact ⟨rfl, fun _ => rfl, spots _ _, spots _ _⟩

theorem leading_sees_ends {clean : Prop} {last : TokenView} {rest : List TokenView} {a b : TokenView}
    (ends : a.EndsBlock) (ends' : b.EndsBlock) : (leading clean last rest).Sees a b := by
  have spots : ∀ p q, ((leading clean last rest).pairing fun _ _ => False).spots a.kind p q := fun p q => by
    rw [show a.kind = .dedent from congrArg Gist.kind ends.gist]
    exact .inl trivial
  exact ⟨ends.gist.trans ends'.gist.symm, fun _ => ends.text.trans ends'.text.symm, spots _ _, spots _ _⟩

/-- Tokens of a line are seen as the same only if they are. -/
theorem leading_sees_eq {clean : Prop} {last : TokenView} {rest : List TokenView} {a b : TokenView}
    (sees : (leading clean last rest).Sees a b) (plain : a.kind.isLayout = false) : a = b := by
  obtain ⟨gist, text, first, last⟩ := a
  obtain ⟨gist', text', first', last'⟩ := b
  have first_ := sees.first
  have last_ := sees.last
  rw [Pairing.spots_plain _ plain] at first_ last_
  rw [TokenView.mk.injEq]
  exact ⟨sees.gist, sees.text trivial, first_, last_⟩

end Frame

/-! ### Two texts -/

namespace Document

open TolerantParser.Parser (Rounds moduleRound)

variable {limits : Limits} {options : ParseOptions} {text more : String}

/-- What comes first in a text that may stand behind another: it is not indented. -/
def AtMargin (d : Dialect) (more : String) : Prop :=
  ∀ first ∈ (significantTokens d more).head?, first.kind ≠ .indent

theorem Run.views_begun {tokens : List Token} (run : Run limits d options tokens) :
    run.stream.views = significantViews tokens := by
  rw [TokenStream.views, run.whole, significantViews]

/-- The frame of a text and of the one that goes on with more. -/
abbrev between (d : Dialect) (clean : Prop) (last : TokenView) (text more : String) : Frame :=
  .leading clean last ((significantViews (lex d more)).map (TokenView.down (lineCount text.toList)))

/-- The tokens of a text and of one that begins with it, as they are met by two runs that begin together. -/
structure Meeting (clean : Prop) (run : Run limits d options (lex d text))
    (run' : Run limits d options (lex d (text ++ more)))
    (front ends ends' : List TokenView) (last : TokenView) : Prop where
  left : run.stream.views = front ++ ends ++ [last]
  right : run'.stream.views = front ++ ends' ++ (significantViews (lex d more)).map
    (TokenView.down (lineCount text.toList))
  ended : last.kind = .endOfFile
  blocks : ∀ view ∈ ends ++ ends', view.EndsBlock
  lengths : ends.length = ends'.length
  begun : (between d clean last text more).Along run.begun run'.begun

theorem meeting (clean : Prop) (run : Run limits d options (lex d text))
    (run' : Run limits d options (lex d (text ++ more)))
    (whole : WholeLines text.toList) (parted : Parted text.toList more.toList) (ready : EndsBetween d text)
    (margin : AtMargin d more) (single : ¬ clean → SingleLine d text) :
    ∃ front ends ends' last, Meeting clean run run' front ends ends' last := by
  have first : ∀ first ∈ (significantViews (lex d more)).head?, first.kind ≠ .indent := by
    intro first member
    rw [significantViews, List.head?_map, Option.mem_def, Option.map_eq_some_iff] at member
    obtain ⟨token, here, rfl⟩ := member
    exact margin token here
  obtain ⟨front, ends, ends', last, left, right, ended, lengths, blocks⟩ := lex_append whole parted ready first
  refine ⟨front, ends, ends', last, run.views_begun.trans left, run'.views_begun.trans right, ended, blocks, lengths,
    ?_⟩
  have sees : List.Forall₂ (between d clean last text more).Sees (front ++ ends) (front ++ ends') := by
    refine List.rel_append (List.forall₂_same.2 fun a _ => Frame.leading_sees_refl a) ?_
    refine List.forall₂_iff_zip.2 ⟨lengths, fun {a b} paired => ?_⟩
    obtain ⟨here, there⟩ := List.of_mem_zip paired
    exact Frame.leading_sees_ends (blocks a (List.mem_append_left _ here)) (blocks b (List.mem_append_right _ there))
  have laid : Laid 0 ((front ++ ends).map TokenView.kind ++ [.endOfFile]) := by
    have laid := laid_lex d text
    rwa [← kinds_significantViews, left, List.map_append, List.map_singleton, ended] at laid
  exact run.along run' (Frame.fresh_leading ..) (.inr rfl) (run.views_begun.trans left)
    (run'.views_begun.trans right) sees (laid.linked fun kind plain => Frame.firm_of_plain _ plain)
    fun _ dirty => (single dirty).single left

/-- Where the first of two runs ends without errors, both documents have their own tokens. -/
theorem Meeting.settles_clean {front ends ends' : List TokenView} {last : TokenView} {clean : Prop}
    {run : Run limits d options (lex d text)} {run' : Run limits d options (lex d (text ++ more))} {q : Parser}
    {head tail : List Node} (meeting : Meeting clean run run' front ends ends' last)
    (passing : Passing (between d clean last text more) run run' q head tail) (quiet : run.left.Clean) :
      Settles run.left q := by
  have clean' : q.Clean := by
    obtain ⟨found, split, errors⟩ := passing.along.errors
    rw [show run.left.errors = #[] from quiet] at errors
    cases errors
    exact Array.toList_inj.1 split
  obtain ⟨_, _, _, takes, moves, -⟩ := Parser.documentBody_takes run.ready
  obtain ⟨-, rfl⟩ := EStateM.Result.ok.inj (run.takes.symm.trans takes)
  obtain ⟨_, moves'⟩ := passing.before
  have here : run.left.stream.views = front ++ ends ++ [last] := by
    rw [← meeting.left, TokenStream.views, moves.quiet quiet]
    rfl
  have there : q.stream.views = front ++ ends' ++
      (significantViews (lex d more)).map (TokenView.down (lineCount text.toList)) := by
    rw [← meeting.right, TokenStream.views, moves'.quiet clean']
    rfl
  have rank : q.stream.rank = (front ++ ends').length := by
    have counts := congrArg List.length passing.rest
    have within := TokenStream.rank_lt passing.ready.rests
    rw [there] at counts within
    simp only [Frame.leading, List.length_drop, List.length_append, List.length_map] at counts within ⊢
    omega
  intro place a b inside left right
  rw [rank] at inside
  have lengths := meeting.lengths
  rw [List.length_append] at inside
  rw [here, List.append_assoc] at left
  rw [there, List.append_assoc] at right
  by_cases before : place < front.length
  · rw [List.getElem?_append_left before] at left right
    exact .inl (Option.some.inj (left.symm.trans right))
  · rw [List.getElem?_append_right (by omega), List.getElem?_append_left (by omega)] at left right
    exact .inr ⟨quiet, meeting.blocks a (List.mem_append_left _ (List.mem_of_getElem? left)),
      meeting.blocks b (List.mem_append_right _ (List.mem_of_getElem? right))⟩

section

variable {front ends ends' : List TokenView} {last : TokenView} {clean : Prop} {run : Run limits d options (lex d text)}
  {run' : Run limits d options (lex d (text ++ more))} {q : Parser} {head tail : List Node}

/-- What comes behind leads no production astray: it neither goes on with a statement nor opens or ends a block. -/
theorem guided_between (ended : last.kind = .endOfFile) (margin : AtMargin d more)
    (fresh : ∀ first ∈ (significantTokens d more).head?, Parser.isClauseWord first.kind = false) :
    (between d True last text more).Guided := by
  refine ⟨fun _ => trivial, fun _ => congrArg some ended, fun _ kind member => ?_⟩
  have kinds : (between d True last text more).back.2.map TokenView.kind = (significantTokens d more).map (·.kind) := by
    rw [map_kind_significant, ← kinds_significantViews]
    exact List.map_map
  rw [kinds, List.head?_map, Option.mem_def, Option.map_eq_some_iff] at member
  obtain ⟨token, here, rfl⟩ := member
  have closed : token.kind ≠ .dedent := fun closes => by
    have laid := laid_lex d more
    have begins := congrArg (Option.map Token.kind) here
    rw [← List.head?_map, map_kind_significant, Option.map_some, closes] at begins
    obtain ⟨rest, split⟩ := List.head?_eq_some_iff.1 begins
    rw [split] at laid
    cases laid with
    | inline inline => cases inline
  have opened := margin token here
  refine ⟨fresh token here, ?_⟩
  cases kind : token.kind <;> first | rfl | contradiction

theorem Meeting.passes_clean (meeting : Meeting True run run' front ends ends' last)
    (guided : (between d True last text more).Guided) (quiet : run.left.Clean) :
    ∃ q head tail, Passing (between d True last text more) run run' q head tail := by
  obtain ⟨bound, value, runs, ended⟩ := Parser.documentBody_clean run.takes quiet
  have nothing : Alike ((between d True last text more).paired run.begun run'.begun)
      ((none, #[]) : Option Nat × Array Node) (none, #[]) := ⟨.none, .empty⟩
  obtain ⟨value', q, halts⟩ := Frame.halts_of_fair guided (List.cons_ne_nil _ _) meeting.begun nothing run'.ready rfl
    runs ended ⟨fun _ => quiet, False.elim⟩
  exact ⟨q, passing_of_halts halts rfl meeting.ended⟩

theorem Meeting.passes_line (meeting : Meeting False run run' front ends ends' last) (single : SingleLine d text)
    (plain : ∀ first ∈ (significantTokens d text).head?, d.compoundForm? first.kind = none) :
    ∃ q head tail, Passing (between d False last text more) run run' q head tail := by
  have room : 0 < (between d False last text more).room run.begun.stream := by
    obtain ⟨line, split, -⟩ := single.single (run.views_begun.symm.trans meeting.left)
    have counts := congrArg List.length split
    have rank : run.begun.stream.rank = 0 := congrArg List.length run.behind
    have looks : run.begun.stream.views = front ++ ends ++ [last] := meeting.left
    rw [Frame.room, rank, looks]
    simp only [Frame.leading, List.length_map, List.length_append, List.length_singleton] at counts ⊢
    omega
  have first : run.begun.dialect.compoundForm? run.begun.cell.kind = none := by
    have here := TokenStream.views_at_rank run.rests
    rw [show run.stream.rank = 0 from congrArg List.length run.behind, run.views_begun, significantViews,
      ← List.head?_eq_getElem?, List.head?_map, Option.map_eq_some_iff] at here
    obtain ⟨token, begins, looks⟩ := here
    have kind : token.kind = run.begun.cell.kind := congrArg TokenView.kind looks
    rw [show run.begun.dialect = d from run.dialect, ← kind]
    exact plain token begins
  obtain ⟨value, value', p, q, halts⟩ := Frame.halts_of_line limits trivial id
    (fun _ => ⟨False.elim, False.elim⟩) meeting.begun
    room first run.ready run'.ready
  exact ⟨q, passing_of_halts halts rfl meeting.ended⟩

/-- Where a single line ends, both documents have the same tokens. -/
theorem settles_line (passing : Passing (between d False last text more) run run' q head tail) :
    Settles run.left q := by
  obtain ⟨shared, other, past, shares⟩ := passing.along.stream.shares
  obtain ⟨line, split, inline⟩ := shares.single trivial id
  have room := shares.room
  have behind := passing.behind
  have within := shares.within
  intro place a b inside left right
  have near : place < shared.length := by
    have rank := shares.there
    simp only [Frame.leading, List.length_nil, Nat.zero_add] at rank
    omega
  obtain ⟨a', b', here, there, sees⟩ := shares.sees_at near
  simp only [Frame.leading, List.length_nil, Nat.zero_add] at here there
  obtain rfl := Option.some.inj (left.symm.trans here)
  obtain rfl := Option.some.inj (right.symm.trans there)
  refine .inl (Frame.leading_sees_eq sees ?_)
  have listed : a ∈ shared := by
    have looks := shares.left
    simp only [Frame.leading, List.nil_append] at looks
    rw [looks, List.getElem?_append_left near] at left
    exact List.mem_of_getElem? left
  have kind : a.kind ∈ line ++ [.newline] := split ▸ List.mem_map_of_mem listed
  rcases List.mem_append.1 kind with online | ends
  · exact TokenKind.plain_of_isInline (inline _ online)
  · rw [List.mem_singleton.1 ends]
    rfl

end

/-- Parsing is compositional over complete modules: behind a text without errors that is whole lines, a text whose first
line is neither indented nor goes on with a statement has the statements and the errors that it has by itself. -/
theorem ofText?_append (limits : Limits) (d : Dialect) (options : ParseOptions) {text more : String}
    (whole : WholeLines text.toList)
    (parted : Parted text.toList more.toList) (ready : EndsBetween d text) (margin : AtMargin d more)
    (fresh : ∀ first ∈ (significantTokens d more).head?, Parser.isClauseWord first.kind = false) :
    ∃ first second both, ofText? limits d options text = .ok first ∧ ofText? limits d options more = .ok second ∧
      ofText? limits d options (text ++ more) = .ok both ∧ (first.errors = [] →
        both.body 0 = first.body 0 ++ second.body (lineCount text.toList) ∧
          both.reports 0 = second.reports (lineCount text.toList)) := by
  have runs := fun text => ofTokens?_runs limits options (fun token member => (genuine_lex d text token member).defined)
    (endsOnce_lex d text)
  obtain ⟨run, parses⟩ := runs text
  obtain ⟨run'', parses''⟩ := runs more
  obtain ⟨run', parses'⟩ := runs (text ++ more)
  refine ⟨run.document, run''.document, run'.document, parses, parses'', parses', fun none => ?_⟩
  have errors : run.left.errors.toList = [] := List.map_eq_nil_iff.1 none
  have quiet : run.left.Clean := Array.toList_eq_nil_iff.1 errors
  obtain ⟨front, ends, ends', last, meeting⟩ :=
    meeting True run run' whole parted ready margin fun dirty => absurd trivial dirty
  obtain ⟨q, head, tail, passing⟩ := meeting.passes_clean (guided_between meeting.ended margin fresh) quiet
  obtain ⟨bodies, reports⟩ := passing.documents (meeting.settles_clean passing quiet)
    (congrArg (List.map _) run''.views_begun.symm)
  refine ⟨bodies, ?_⟩
  rw [reports, run.reports_document, errors]
  rfl

/-- A block that is open at the end of the first text is ended in front of the second one. -/
theorem ofText?_append_block :
    WholeLines "if a:\n  b\n".toList ∧ Parted "if a:\n  b\n".toList "\nc d\n".toList ∧
    EndsBetween .v26 "if a:\n  b\n" ∧ AtMargin .v26 "\nc d\n" ∧
    (∀ first ∈ (significantTokens .v26 "\nc d\n").head?, Parser.isClauseWord first.kind = false) ∧
    ∃ first second both, ofText? .usual .v26 .default "if a:\n  b\n" = .ok first ∧
      ofText? .usual .v26 .default "\nc d\n" = .ok second ∧
      ofText? .usual .v26 .default ("if a:\n  b\n" ++ "\nc d\n") = .ok both ∧ first.errors = [] ∧
      both.body 0 = first.body 0 ++ second.body 2 ∧ both.reports 0 = second.reports 2 := by
  have whole : WholeLines "if a:\n  b\n".toList := by decide
  have parted : Parted "if a:\n  b\n".toList "\nc d\n".toList := by decide
  have ready : EndsBetween .v26 "if a:\n  b\n" := endsBetween_of_leapsEnd rfl (by decide)
  have margin : AtMargin .v26 "\nc d\n" := by
    rw [AtMargin, significantTokens, lex_eq_leaps .v26 rfl]
    decide
  have fresh : ∀ first ∈ (significantTokens .v26 "\nc d\n").head?, Parser.isClauseWord first.kind = false := by
    rw [significantTokens, lex_eq_leaps .v26 rfl]
    decide
  obtain ⟨first, second, both, parses, parses', together, joined⟩ :=
    ofText?_append .usual .v26 .default whole parted ready margin fresh
  have accepted : ((ofText? .usual .v26 .default "if a:\n  b\n").toOption.map fun document =>
      document.errors.length) = some 0 := by decide +kernel
  have clean : first.errors = [] := by
    rw [parses] at accepted
    exact List.length_eq_zero_iff.1 (Option.some.inj accepted)
  have lines : lineCount "if a:\n  b\n".toList = 2 := by decide
  rw [lines] at joined
  exact ⟨whole, parted, ready, margin, fresh, first, second, both, parses, parses', together, clean, joined clean⟩

/-- An error in one line does not disturb the others: behind a text that is one logical line and begins no compound
statement, a text that is not indented has the statements and the errors that it has by itself. -/
theorem ofText?_line (limits : Limits) (d : Dialect) (options : ParseOptions) {text more : String}
    (whole : WholeLines text.toList)
    (parted : Parted text.toList more.toList) (ready : EndsBetween d text) (single : SingleLine d text)
    (plain : ∀ first ∈ (significantTokens d text).head?, d.compoundForm? first.kind = none) (margin : AtMargin d more) :
    ∃ first second both, ofText? limits d options text = .ok first ∧ ofText? limits d options more = .ok second ∧
      ofText? limits d options (text ++ more) = .ok both ∧
        both.body 0 = first.body 0 ++ second.body (lineCount text.toList) ∧
          both.reports 0 = first.reports 0 ++ second.reports (lineCount text.toList) := by
  have runs := fun text => ofTokens?_runs limits options (fun token member => (genuine_lex d text token member).defined)
    (endsOnce_lex d text)
  obtain ⟨run, parses⟩ := runs text
  obtain ⟨run'', parses''⟩ := runs more
  obtain ⟨run', parses'⟩ := runs (text ++ more)
  refine ⟨run.document, run''.document, run'.document, parses, parses'', parses', ?_⟩
  obtain ⟨front, ends, ends', last, meeting⟩ := meeting False run run' whole parted ready margin fun _ => single
  obtain ⟨q, head, tail, passing⟩ := meeting.passes_line single plain
  exact passing.documents (settles_line passing) (congrArg (List.map _) run''.views_begun.symm)

/-- A bracket that nothing has opened is an error of its own line. -/
theorem ofText?_line_bracket :
    WholeLines "a b]\n".toList ∧ Parted "a b]\n".toList "c\n".toList ∧ EndsBetween .v26 "a b]\n" ∧
    SingleLine .v26 "a b]\n" ∧
    (∀ first ∈ (significantTokens .v26 "a b]\n").head?, Dialect.compoundForm? .v26 first.kind = none) ∧
    AtMargin .v26 "c\n" ∧
    ∃ first second both, ofText? .usual .v26 .default "a b]\n" = .ok first ∧
      ofText? .usual .v26 .default "c\n" = .ok second ∧
      ofText? .usual .v26 .default ("a b]\n" ++ "c\n") = .ok both ∧
        both.body 0 = first.body 0 ++ second.body 1 ∧ both.reports 0 = first.reports 0 ++ second.reports 1 := by
  have whole : WholeLines "a b]\n".toList := by decide
  have parted : Parted "a b]\n".toList "c\n".toList := by decide
  have ready : EndsBetween .v26 "a b]\n" := endsBetween_of_leapsEnd rfl (by decide)
  have single : SingleLine .v26 "a b]\n" := by
    refine ⟨[.name, .name, .rightBracket], ?_, by decide⟩
    rw [significantTokens, lex_eq_leaps .v26 rfl]
    decide
  have plain : ∀ first ∈ (significantTokens .v26 "a b]\n").head?, Dialect.compoundForm? .v26 first.kind = none := by
    rw [significantTokens, lex_eq_leaps .v26 rfl]
    decide
  have margin : AtMargin .v26 "c\n" := by
    rw [AtMargin, significantTokens, lex_eq_leaps .v26 rfl]
    decide
  have joined := ofText?_line .usual .v26 .default whole parted ready single plain margin
  have lines : lineCount "a b]\n".toList = 1 := by decide
  rw [lines] at joined
  exact ⟨whole, parted, ready, single, plain, margin, joined⟩

end Document

end TolerantParser
