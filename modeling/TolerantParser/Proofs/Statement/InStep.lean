import TolerantParser.Proofs.Expression.InStepOperator
import TolerantParser.Proofs.Statement.Simple

/-!
Lines of statements keep two parses in step. Behind the end of a line both are at tokens that answer to each other, or
both are directly behind all that the documents have in common.
-/

namespace TolerantParser

/-! ### The end of a single line -/

namespace Frame

variable {c : Frame} {p q : Parser}

/-- The parses are along, and where the common part is a single line they are behind it. -/
abbrev Past (c : Frame) (p q : Parser) : Prop := c.Along p q ∧ (c.lined → ¬ c.clean → ¬ 0 < c.room p.stream)

instance : c.Impartial c.Past where
  along holds := holds.1
  rehold holds held deep := ⟨Impartial.rehold holds.1 held deep, holds.2⟩

/-- Behind the end of a line nothing is left of a single one. -/
theorem Along.past (along : c.Along p q) (room : 0 < c.room p.stream) {p' q' : Parser} (later : c.Along p' q')
    (behind : p.kinds = .newline :: p'.kinds) : c.Past p' q' := by
  refine ⟨later, fun lined dirty more => ?_⟩
  obtain ⟨line, left, inline, -⟩ := along.stream.single lined dirty room
  obtain ⟨line', left', -, -⟩ := later.stream.single lined dirty more
  have same : .newline :: (line' ++ .newline :: c.back.1.map TokenView.kind) =
      line ++ .newline :: c.back.1.map TokenView.kind := by
    rw [← left', ← left]
    exact behind.symm
  cases line with
  | nil =>
    have lengths := congrArg List.length same
    simp only [List.nil_append, List.length_cons, List.length_append] at lengths
    omega
  | cons kind line =>
    obtain ⟨rfl, -⟩ := List.cons.inj same
    cases inline _ List.mem_cons_self

/-- A single line ends with nothing else. -/
theorem InStep.past (inStep : c.InStep p q) (ends : p.cell.kind.isLineEnd) (other : p.cell.kind ≠ .newline) :
    c.Past p q := by
  refine ⟨inStep.toAlong, fun lined dirty room => ?_⟩
  obtain ⟨line, left, inline, -⟩ := inStep.stream.single lined dirty room
  obtain ⟨rest, kinds⟩ := TokenStream.kinds_eq_cons inStep.stream.rests.1
  rw [kinds] at left
  cases line with
  | nil => exact other (List.cons.inj left).1
  | cons kind line =>
    have online := inline kind List.mem_cons_self
    rw [← (List.cons.inj left).1, show p.stream.current.kind = p.cell.kind from rfl] at online
    simp [TokenKind.isInline, ends] at online

end Frame

namespace Parallel

variable {α β : Type} [Likeness α] [Likeness β] {c : Frame} {W : Pairing} {here : TokenKind → Prop} {e : Nested}

/-! ### Expressions as statements -/

theorem describe_eq {cell cell' : Cell} (alike : Alike W cell cell') :
    Parser.describe cell = Parser.describe cell' := by
  have kinds : cell.kind = cell'.kind := Cell.Alike.kind alike
  have texts : cell.kind ≠ .newline → cell.text = cell'.text := Token.text_of_gist (Cell.Alike.gist alike)
  unfold Parser.describe
  rw [← kinds]
  split
  · rfl
  · rfl
  · rfl
  · rfl
  next other _ _ => exact congrArg quoted (texts other)

theorem describeCurrent : Parallel c (c.At here) (fun _ => c.At here) W Parser.describeCurrent Parser.describeCurrent :=
  look (Parser.describe ·.cell) _ (fun _ => rfl) (fun _ => rfl)
    (fun _ _ holds => describe_eq (holds.1.stream.current holds.1.room)) fun _ _ holds => holds

theorem isInline_of_isAugmentedAssignment {kind : TokenKind} (assigns : kind.isAugmentedAssignment) :
    kind.isInline := by
  cases kind <;> first | rfl | cases assigns

theorem expressionStatement (works : e.InStep c) :
    c.Follows here W (Parser.expressionStatement e) (Parser.expressionStatement e) := by
  refine (start fun _ _ holds => holds.1).bind fun marker marker' first begun => (testListOrYield works).bind
    fun value value' second values => (atSet? _).same fun augmented third => ?_
  have begun := begun.mono (second.trans third)
  have values := values.mono third
  split
  next assigns =>
    refine .before (bumpText (fun kind holds => isInline_of_isAugmentedAssignment (holds.2.trans assigns))
      fun cell cell' fourth _ text => ?_) fun _ _ holds => holds
    dsimp only
    rw [text]
    exact (testListOrYield works).bind fun _ _ fifth target => complete (begun.mono (fourth.trans fifth))
      ⟨rfl, (alike_child .target (values.mono (fourth.trans fifth))).append (alike_child .value target)⟩
  refine (at? .equal).same fun equal fourth => ?_
  have begun := begun.mono fourth
  have values := values.mono fourth
  split
  · exact (separated values never_stops (testListOrYield works) rfl).bind fun parts parts' fifth alike =>
      complete (begun.mono fifth) ⟨rfl, (alike_several .targets alike.dropLast).append
        (alike_child .value (alike.getLast?.getD (values.mono fifth)))⟩
  · refine .before ?_ Frame.At.stepped
    exact complete begun ⟨rfl, alike_child .value values⟩

/-! ### Statements that begin with a word -/

section

variable (inline : ∀ kind, here kind → kind.isInline)

include inline

theorem bumpWord : c.Follows here W Parser.bump Parser.bump :=
    bump fun kind holds => within_of_isInline (inline kind holds)

theorem wordStatement (kind : NodeKind) : c.Follows here W (Parser.wordStatement kind) (Parser.wordStatement kind) :=
  build (fun _ _ holds => holds.1) fun _ => (bumpWord inline).discard fun _ _ =>
    .pure ⟨rfl, .nil⟩ fun _ _ holds => holds

theorem printStatement (works : e.InStep c) : c.Follows here W (Parser.printStatement e) (Parser.printStatement e) := by
  refine build (fun _ _ holds => holds.1) fun _ => (bumpWord inline).discard fun _ _ =>
    (announced (works.test true) rfl).bind fun destination destination' _ destinations => ?_
  rw [← alike_isSome destinations, Parser.ite_bind, Parser.ite_bind]
  have begins : ∀ {W}, c.Follows (fun _ => True) W
      (if destination.isSome then pure none else Parser.optional (e.test true))
      (if destination.isSome then pure none else Parser.optional (e.test true)) :=
    .ite (.pure Option.Rel.none Frame.At.stepped) (optional (works.test true))
  refine begins.bind fun first first' second firsts => ?_
  have init : Alike _ (first.toArray, true) (first'.toArray, true) := ⟨firsts.toArray, rfl⟩
  refine (repeated init fun made made' le alike => ?_).bind fun made made' third alike =>
    .pure ⟨?_, (alike_child? .destination (destinations.mono (second.trans third))).append
      (alike_several .values alike.1)⟩ fun _ _ holds => holds
  · obtain ⟨values, endsLine⟩ := made
    obtain ⟨values', endsLine'⟩ := made'
    refine (eat_inline rfl).same fun comma first => ?_
    split
    · refine canStartExpression.same fun starts second => ?_
      have alike := alike.mono (first.trans second)
      split
      · exact (works.test true).bind fun _ _ third value =>
          .pure ⟨(alike.1.mono third).push value, rfl⟩ fun _ _ holds => holds
      · exact .pure ⟨alike.1, rfl⟩ Frame.At.stepped
    · exact .pure (alike.mono first) fun _ _ holds => holds
  · exact congrArg Detail.print alike.2

theorem deleteStatement (works : e.InStep c) : c.Follows here W (Parser.deleteStatement e) (Parser.deleteStatement e) :=
  build (fun _ _ holds => holds.1) fun _ => (bumpWord inline).discard fun _ _ => (expr works).bind fun _ _ _ first =>
    (commaSeparated first (expr works)).bind fun _ _ _ targets =>
      .pure ⟨rfl, alike_several .targets targets⟩ fun _ _ holds => holds

theorem returnStatement (works : e.InStep c) : c.Follows here W (Parser.returnStatement e) (Parser.returnStatement e) :=
  build (fun _ _ holds => holds.1) fun _ => (bumpWord inline).discard fun _ _ =>
    (optional (testList (works.test true))).bind fun _ _ _ value =>
      .pure ⟨rfl, alike_child? .value value⟩ fun _ _ holds => holds

omit inline in
/-- A part that a token announces, where there may be one. -/
theorem announcedIf {known : Prop} [Decidable known] {kind : TokenKind} {item : ParseM Node}
    (works : ∀ {W here}, c.Follows here W item item) (inline : kind.isInline) :
    c.Follows here W (if known then Parser.announced kind item else pure none)
      (if known then Parser.announced kind item else pure none) :=
  .ite (announced works inline) (.pure .none Frame.At.stepped)

omit inline in
theorem raiseArguments (works : e.InStep c) : c.Follows here W (Parser.raiseArguments e) (Parser.raiseArguments e) := by
  refine features.same fun f _ => ?_
  rw [Parser.ite_bind]
  refine (announcedIf (works.test true) rfl).bind fun cause cause' _ alike => ?_
  dsimp only
  rw [← alike_isSome alike]
  split
  · exact .pure (alike_child? .cause alike) fun _ _ holds => holds
  refine (announced (works.test true) rfl).bind fun inst inst' first insts => ?_
  rw [← alike_isSome insts, Parser.ite_bind, Parser.ite_bind]
  exact (announcedIf (works.test true) rfl).bind fun _ _ second traceback => .pure
    ((alike_child? .inst (insts.mono second)).append (alike_child? .traceback traceback)) fun _ _ holds => holds

theorem raiseStatement (works : e.InStep c) : c.Follows here W (Parser.raiseStatement e) (Parser.raiseStatement e) := by
  refine build (fun _ _ holds => holds.1) fun _ => (bumpWord inline).discard fun _ _ =>
    (optional (works.test true)).bind fun type type' _ types => ?_
  cases types with
  | none => exact .pure ⟨rfl, .nil⟩ fun _ _ holds => holds
  | some alike =>
    exact (raiseArguments works).bind fun _ _ le arguments =>
      .pure ⟨rfl, (alike_child .type (Likeness.Alike.mono alike le)).append arguments⟩ fun _ _ holds => holds

theorem namesStatement (kind : NodeKind) : c.Follows here W (Parser.namesStatement kind) (Parser.namesStatement kind) :=
  build (fun _ _ holds => holds.1) fun _ => (bumpWord inline).discard fun _ _ => (name none).bind fun _ _ _ first =>
    (separated first never_stops (name none) rfl).bind fun _ _ _ names =>
      .pure ⟨rfl, alike_several .names names⟩ fun _ _ holds => holds

theorem execStatement (works : e.InStep c) : c.Follows here W (Parser.execStatement e) (Parser.execStatement e) := by
  refine build (fun _ _ holds => holds.1) fun _ => (bumpWord inline).discard fun _ _ => (expr works).bind
    fun _ _ first body => (announced (works.test true) rfl).bind fun globals globals' second globs => ?_
  rw [← alike_isSome globs, Parser.ite_bind, Parser.ite_bind]
  exact (announcedIf (works.test true) rfl).bind fun _ _ third locals => .pure ⟨rfl,
    ((alike_child .body (body.mono (second.trans third))).append (alike_child? .globals (globs.mono third))).append
      (alike_child? .locals locals)⟩ fun _ _ holds => holds

theorem assertStatement (works : e.InStep c) : c.Follows here W (Parser.assertStatement e) (Parser.assertStatement e) :=
  build (fun _ _ holds => holds.1) fun _ => (bumpWord inline).discard fun _ _ => (works.test true).bind
    fun _ _ _ test => (announced (works.test true) rfl).bind fun _ _ le message =>
      .pure ⟨rfl, (alike_child .test (test.mono le)).append (alike_child? .message message)⟩ fun _ _ holds => holds

/-! ### Imports -/

omit inline in
theorem imported {path : ParseM (List Node)} (works : ∀ {W here}, c.Follows here W path path) :
    c.Follows here W (Parser.imported path) (Parser.imported path) :=
  build (fun _ _ holds => holds.1) fun _ => works.bind fun _ _ _ path => (announced (name none) rfl).bind
    fun _ _ le localName =>
      .pure ⟨rfl, (alike_several .name (path.mono le)).append (alike_child? .localName localName)⟩
        fun _ _ holds => holds

theorem importStatement : c.Follows here W Parser.importStatement Parser.importStatement :=
  build (fun _ _ holds => holds.1) fun _ => (bumpWord inline).discard fun _ _ => (imported dottedName).bind
    fun _ _ _ first => (separated first never_stops (imported dottedName) rfl).bind fun _ _ _ names =>
      .pure ⟨rfl, alike_several .names names⟩ fun _ _ holds => holds

omit inline in
theorem relativeLevel : c.Follows here W Parser.relativeLevel Parser.relativeLevel := by
  refine repeated rfl fun level level' _ same => ?_
  obtain rfl : level = level' := same
  refine (at? .dot).same fun dot _ => (at? .ellipsis).same fun ellipsis _ => ?_
  split
  next points =>
    have inner : ∀ other, (True ∧ (other == .dot) = dot) ∧ (other == .ellipsis) = ellipsis → Within c other := by
      rintro other ⟨⟨-, atDot⟩, atEllipsis⟩
      rw [← atDot, ← atEllipsis, Bool.or_eq_true, beq_iff_eq, beq_iff_eq] at points
      rcases points with rfl | rfl <;> exact within_of_isInline rfl
    have counted : ∀ {W}, c.Follows (fun other => (True ∧ (other == .dot) = dot) ∧ (other == .ellipsis) = ellipsis) W
        (Parser.bump >>= fun cell => pure (.yield (level + if cell.kind == .ellipsis then 3 else 1)))
        (Parser.bump >>= fun cell => pure (ForInStep.yield (level + if cell.kind == .ellipsis then 3 else 1))) := by
      refine (bump inner).bind fun cell cell' _ cells => ?_
      rw [show cell.kind = cell'.kind from Cell.Alike.kind cells]
      exact .pure rfl fun _ _ holds => holds
    refine features.same fun f _ => ?_
    split
    · exact (complain _ rfl).bind fun _ _ _ _ => counted
    · exact counted
  next => exact .pure rfl Frame.At.stepped

omit inline in
theorem importedNames : c.Follows here W Parser.importedNames Parser.importedNames := by
  have item : ∀ {W here}, c.Follows here W (Parser.imported do return [← Parser.name none])
      (Parser.imported do return [← Parser.name none]) :=
    imported ((name none).bind fun _ _ _ name => .pure (.cons name .nil) fun _ _ holds => holds)
  refine (eat_inline rfl).same fun all _ => ?_
  split
  · exact .pure ⟨rfl, .nil⟩ fun _ _ holds => holds
  refine (eat_inline rfl).same fun inParentheses _ => item.bind fun first first' _ firsts => ?_
  refine (separated firsts ((at? _).same fun _ _ => .pure rfl Frame.At.stepped) item rfl).bind
    fun names names' _ alike => ?_
  split
  · exact (expectCloser _ rfl).discard fun _ le => .pure ⟨rfl, alike.mono le⟩ fun _ _ holds => holds
  · exact .pure ⟨rfl, alike⟩ fun _ _ holds => holds

theorem importFromStatement : c.Follows here W Parser.importFromStatement Parser.importFromStatement := by
  refine build (fun _ _ holds => holds.1) fun _ => (bumpWord inline).discard fun _ _ => relativeLevel.same
    fun level _ => (at? .name).same fun named _ => ?_
  rw [Parser.ite_bind]
  refine (Parallel.ite dottedName (.pure .nil Frame.At.stepped)).bind fun path path' _ paths => ?_
  refine (eat_inline rfl).same fun imports first => ?_
  split
  · refine importedNames.bind fun names names' second alike => .pure ⟨?_, (alike_several .path
      (paths.mono (first.trans second))).append (alike_several .names alike.2)⟩ fun _ _ holds => holds
    exact congrArg (Detail.importFrom level) alike.1
  · exact (complain _ rfl).bind fun _ _ second _ =>
      .pure ⟨rfl, alike_several .path (paths.mono (first.trans second))⟩ fun _ _ holds => holds

/-! ### Lines of statements -/

omit inline in
theorem yieldStatement (works : e.InStep c) : Parallel c (c.At (· = .kwYield)) (fun _ => c.Stepped) W
    (Parser.yieldStatement e) (Parser.yieldStatement e) :=
  build (fun _ _ holds => holds.1) fun _ => (yieldExpression works).bind fun _ _ _ value =>
    .pure ⟨rfl, alike_child .value value⟩ fun _ _ holds => holds

theorem simpleForm (works : e.InStep c) (form : SimpleForm)
    (yields : form = .yield → ∀ kind, here kind → kind = .kwYield) :
    c.Follows here W (Parser.simpleForm e form) (Parser.simpleForm e form) := by
  cases form with
  | pass => exact wordStatement inline _
  | «break» => exact wordStatement inline _
  | «continue» => exact wordStatement inline _
  | «return» => exact returnStatement inline works
  | raise => exact raiseStatement inline works
  | global => exact namesStatement inline _
  | nonlocal => exact namesStatement inline _
  | delete => exact deleteStatement inline works
  | importName => exact importStatement inline
  | importFrom => exact importFromStatement inline
  | assert => exact assertStatement inline works
  | yield => exact (yieldStatement works).before (Frame.At.imp (yields rfl))
  | print => exact printStatement inline works
  | exec => exact execStatement inline works

end

theorem smallStatement (works : e.InStep c) :
    c.Follows here W (Parser.smallStatement e) (Parser.smallStatement e) := by
  refine seen (fun p => p.dialect.simpleForm? p.cell.kind)
    (fun p q holds => by rw [holds.1.dialect, holds.1.kind]) fun p q same => ?_
  rw [← same]
  split
  next form found =>
    have word := Parser.simpleForm_word found
    have formed : c.Follows (· = p.cell.kind) W (Parser.simpleForm e form) (Parser.simpleForm e form) :=
      simpleForm (by rintro _ rfl; exact TokenKind.isInline_of_isOrdinary word.1) works form
        fun yields _ same => same.trans (word.2 yields)
    refine formed.before ?_
    rintro _ _ ⟨holds, rfl⟩
    exact ⟨holds.1, rfl⟩
  next => exact (expressionStatement works).before fun _ _ holds => holds.1

theorem canStartSimpleStatement : Parallel c (c.At here) (fun _ => c.At here) W
    Parser.canStartSimpleStatement Parser.canStartSimpleStatement :=
  look Parser.startsSimple _ (fun _ => rfl) (fun _ => rfl)
    (fun p q holds => by
      show p.startsSimple = q.startsSimple
      rw [Parser.startsSimple, Parser.startsSimple, holds.1.dialect, holds.1.kind]) fun _ _ holds => holds

/-- Tokens in front of the end of a line are gone over within it. -/
theorem within_of_goesOn {kind : TokenKind} (goesOn : kind.isLineEnd = false) : Within c kind := by
  constructor
  · rintro - rfl
    cases goesOn
  · rintro rfl
    cases goesOn

theorem attachToLineEnd {node node' : Node} (alike : Alike W node node') :
    Parallel c (c.At here) (fun _ => c.At fun kind => kind.isLineEnd) W (Parser.attachToLineEnd node)
      (Parser.attachToLineEnd node') := by
  refine (loop (fun _ => c.Stepped) (fun _ => c.At fun kind => kind.isLineEnd) alike
    fun made made' _ alike => ?_).before Frame.At.stepped
  refine (atSet? _).same fun ends le => ?_
  split
  next ends => exact .pure (alike.mono le) fun _ _ holds => ⟨holds.1, holds.2.2.trans ends⟩
  next goesOn =>
    have goesOn : ∀ kind : TokenKind, True ∧ kind.isLineEnd = ends → kind.isLineEnd = false := fun kind holds => by
      simpa [holds.2] using goesOn
    refine bumpInto c.Stepped (alike.mono le) ?_ ?_ ?_
    · exact fun kind holds => (within_of_goesOn (c := c) (goesOn kind holds)).2
    · intro p q s t before along _ stays
      obtain ⟨room, firm⟩ := stays before.1.firm (within_of_goesOn (goesOn _ before.2)).1
      exact ⟨⟨along, room, firm⟩, trivial⟩
    · exact fun _ _ _ _ _ made _ => .pure made fun _ _ holds => holds

/-- The end of a line goes to the node in front of it. -/
theorem eatLine {node node' : Node} (alike : Alike W node node') (ends : ∀ kind, here kind → kind.isLineEnd) :
    Parallel c (c.At here) (fun _ => c.Past) W (Parser.eatInto node .newline) (Parser.eatInto node' .newline) := by
  refine (at? _).same fun there le => ?_
  split
  next eaten =>
    refine bumpInto c.Past (alike.mono le) ?_ ?_ ?_
    · rintro kind ⟨-, same⟩ rfl
      cases same.trans eaten
    · intro p q s t before along behind _
      rw [show p.cell.kind = .newline from eq_of_beq (before.2.2.trans eaten)] at behind
      exact before.1.toAlong.past before.1.room along behind
    · exact fun _ _ _ _ _ made cell => .pure ⟨made, .some cell⟩ fun _ _ holds => holds
  next missing =>
    refine .pure ⟨alike.mono le, .none⟩ fun _ _ holds => holds.1.past (ends _ holds.2.1) fun same => missing ?_
    rw [← holds.2.2, same]
    rfl

theorem endLine {node node' : Node} (alike : Alike W node node') {isEnd : TokenKind → Bool} (construct : String)
    (ends : ∀ kind, isEnd kind → kind.isLineEnd) : Parallel c (c.At here) (fun _ => c.Past) W
      (Parser.endLine node isEnd construct) (Parser.endLine node' isEnd construct) := by
  refine (atSet? _).same fun ended le => ?_
  have finish : ∀ {W here} {made made' : Node}, Alike W made made' → (∀ kind, here kind → kind.isLineEnd) →
      Parallel c (c.At here) (fun _ => c.Past) W (Parser.eatInto made .newline >>= fun x => pure x.1)
        (Parser.eatInto made' .newline >>= fun x => pure x.1) :=
    fun alike ends => (eatLine alike ends).bind fun _ _ _ alike => .pure alike.1 fun _ _ holds => holds
  split
  next there =>
    rw [pure_bind, pure_bind]
    exact finish (alike.mono le) fun kind holds => ends kind (holds.2.trans there)
  next =>
    simp only
    refine describeCurrent.same fun found first => (complain _ rfl).bind fun _ _ second _ => ?_
    exact (attachToLineEnd (alike.mono (le.trans (first.trans second)))).bind fun _ _ _ alike =>
      finish alike fun _ ends => ends

theorem simpleStatement (works : e.InStep c) : Parallel c (c.At here) (fun _ => c.Past) W
    (Parser.simpleStatement e) (Parser.simpleStatement e) := by
  have nothing : Alike W (#[] : Array Node) #[] := .empty
  refine Parallel.bind ((loop (fun _ => c.Stepped) (fun nodes p q => c.Stepped p q ∧ nodes.size ≠ 0) nothing
    fun nodes nodes' _ alike => ?_).before Frame.At.stepped) fun {W'} nodes nodes' _ alike => ?_
  · refine (smallStatement works).bind fun node node' first made => (eatInto made (within_of_isInline rfl)).bind
      fun both both' second made => ?_
    obtain ⟨node, semicolon⟩ := both
    obtain ⟨node', semicolon'⟩ := both'
    have alike := (alike.mono (first.trans second)).push made.1
    dsimp only
    rw [← alike_isSome made.2]
    refine canStartSimpleStatement.same fun starts third => ?_
    split
    · exact .pure (alike.mono third) fun _ _ holds => holds
    · exact .pure (alike.mono third) fun _ _ holds => ⟨holds, by rw [Array.size_push]; exact Nat.succ_ne_zero _⟩
  · have last : Alike W' nodes.back? nodes'.back? := by
      rw [← Array.getLast?_toList, ← Array.getLast?_toList]
      exact Likeness.Alike.getLast? alike
    have before : Alike W' nodes.pop.toList nodes'.pop.toList := by
      rw [Array.toList_pop, Array.toList_pop]
      exact Likeness.Alike.dropLast alike
    have filled : nodes.back? = none → nodes.size = 0 := fun none => by rw [Array.back?_eq_none_iff.1 none]; rfl
    generalize nodes.back? = node? at last filled
    generalize nodes'.back? = node?' at last
    cases last with
    | none => exact .pure .nil fun _ _ holds => absurd (filled rfl) holds.2
    | some last =>
      exact .before ((endLine last _ fun _ ends => ends).bind fun _ _ le node =>
        .pure ((before.mono le).append (.cons node .nil)) fun _ _ holds => holds) fun _ _ holds => holds.1

/-! ### Lines that are passed over -/

theorem skipToLineEnd : Parallel c (c.At here) (fun _ => c.At fun kind => kind.isLineEnd) W Parser.skipToLineEnd
    Parser.skipToLineEnd := by
  refine (loop (fun _ => c.Stepped) (fun _ => c.At fun kind => kind.isLineEnd) rfl fun _ _ _ _ => ?_).before
    Frame.At.stepped
  refine (atSet? _).same fun ends _ => ?_
  split
  next ends => exact .pure rfl fun _ _ holds => ⟨holds.1, holds.2.2.trans ends⟩
  next goesOn =>
    refine (bump fun kind holds => within_of_goesOn ?_).discard fun _ _ => .pure rfl fun _ _ holds => holds
    simpa [holds.2] using goesOn

/-- The end of a line is gone over, if it is there. -/
theorem eatNewline : Parallel c (c.At here) (fun eaten p q => c.Along p q ∧ (eaten = true → c.Past p q) ∧
    (eaten = false → c.At (fun kind => here kind ∧ kind ≠ .newline) p q)) W (Parser.eat .newline)
      (Parser.eat .newline) := by
  rw [Parser.eat_eq]
  refine (at? _).same fun there _ => ?_
  split
  next eaten =>
    have met : ∀ p q, c.At (fun other => here other ∧ (other == .newline) = there) p q → p.cell.kind = .newline :=
      fun _ _ holds => eq_of_beq (holds.2.2.trans eaten)
    refine Parallel.bind (bumpOver (fun p q holds => ⟨holds.1.toAlong, holds.1.room, ?_⟩)
      fun p q s t holds along behind => ?_) fun _ _ _ _ => .pure rfl fun _ _ past => ⟨past.1, fun _ => past, nofun⟩
    · rw [met p q holds]
      nofun
    · rw [met p q holds] at behind
      exact holds.1.toAlong.past holds.1.room along behind
  next missing =>
    refine .pure rfl fun _ _ holds => ⟨holds.1.toAlong, nofun, fun _ => ⟨holds.1, holds.2.1, fun same => missing ?_⟩⟩
    rw [← holds.2.2, same]
    rfl

theorem skipLine : Parallel c (c.At here) (fun _ => c.Past) W Parser.skipLine Parser.skipLine := by
  unfold Parser.skipLine
  rw [Parser.discard_eq]
  refine skipToLineEnd.bind fun _ _ _ _ => eatNewline.bind fun eaten _ _ _ => .pure rfl fun _ _ holds => ?_
  cases eaten with
  | true => exact holds.2.1 rfl
  | false =>
    obtain ⟨inStep, ends, other⟩ := holds.2.2 rfl
    exact inStep.past ends other

end Parallel

end TolerantParser
