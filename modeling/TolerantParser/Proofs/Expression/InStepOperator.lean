import TolerantParser.Proofs.Expression.InStep
import TolerantParser.Proofs.Expression.Operator

/-!
Atoms with what follows them, and operators, keep two parses in step. With that the productions of expressions do,
however deeply they may nest.
-/

namespace TolerantParser

/-! ### Atoms and what follows them -/

structure ArgumentList.Alike (W : Pairing) (list other : ArgumentList) : Prop where
  args : Likeness.Alike W list.args other.args
  keywords : Likeness.Alike W list.keywords other.keywords
  star : Likeness.Alike W list.star other.star
  doubleStar : Likeness.Alike W list.doubleStar other.doubleStar

instance : Likeness ArgumentList where
  Alike := ArgumentList.Alike
  mono le alike := ⟨alike.args.mono le, alike.keywords.mono le, alike.star.mono le, alike.doubleStar.mono le⟩
  all _ := ⟨Likeness.all _, Likeness.all _, Likeness.all _, Likeness.all _⟩

namespace ArgumentList.Alike

variable {W : Pairing} {list other : ArgumentList} {node node' : Node}

theorem children (alike : list.Alike W other) : Likeness.Alike W list.children other.children :=
  (((alike_several _ alike.args).append (alike_several _ alike.keywords)).append (alike_child? _ alike.star)).append
    (alike_child? _ alike.doubleStar)

theorem empty : ArgumentList.Alike W .empty .empty := ⟨.empty, .empty, .none, .none⟩

theorem withStar (alike : list.Alike W other) (nodes : Likeness.Alike W node node') :
    ArgumentList.Alike W { list with star := some node } { other with star := some node' } :=
  { alike with star := .some nodes }

theorem withDoubleStar (alike : list.Alike W other) (nodes : Likeness.Alike W node node') :
    ArgumentList.Alike W { list with doubleStar := some node } { other with doubleStar := some node' } :=
  { alike with doubleStar := .some nodes }

theorem withKeyword (alike : list.Alike W other) (nodes : Likeness.Alike W node node') : ArgumentList.Alike W
    { list with keywords := list.keywords.push node } { other with keywords := other.keywords.push node' } :=
  { alike with keywords := alike.keywords.push nodes }

theorem withArg (alike : list.Alike W other) (nodes : Likeness.Alike W node node') :
    ArgumentList.Alike W { list with args := list.args.push node } { other with args := other.args.push node' } :=
  { alike with args := alike.args.push nodes }

end ArgumentList.Alike

namespace Parallel

variable {α β : Type} [Likeness α] [Likeness β] {c : Frame} {W : Pairing} {here : TokenKind → Prop} {e : Nested}

theorem leaf {kind : NodeKind} (detail : String → Detail) (inline : ∀ kind, here kind → kind.isInline) :
    c.Follows here W (Parser.leaf kind detail) (Parser.leaf kind detail) :=
  build (fun _ _ holds => holds.1) fun _ => bumpText inline fun _ _ _ _ text =>
    .pure ⟨congrArg detail text, .nil⟩ Frame.At.stepped

theorem stringAtom : c.Follows here W Parser.stringAtom Parser.stringAtom := by
  have none : ∀ {W}, Alike W "" "" := rfl
  refine build (fun _ _ holds => holds.1) fun _ => (repeated none fun contents contents' _ same => ?_).bind
    fun _ _ _ same => .pure ⟨congrArg Detail.string same, .nil⟩ fun _ _ holds => holds
  obtain rfl : contents = contents' := same
  refine (at? .string).same fun there _ => ?_
  split
  next more =>
    refine .before ?_ (Frame.At.there more)
    refine bumpText (fun _ same => same ▸ rfl) fun cell cell' _ _ text => ?_
    rw [text]
    exact .pure rfl Frame.At.stepped
  next => exact .pure rfl Frame.At.stepped

theorem backquoted (works : e.InStep c) :
    Parallel c (c.At (· = .backquote)) (fun _ => c.Stepped) W (Parser.backquoted e) (Parser.backquoted e) :=
  build (fun _ _ holds => holds.1) fun _ => (bump_at rfl).discard fun _ _ => (testList (works.test true)).bind
    fun _ _ _ value => (expectCloser _ rfl).discard fun _ le =>
      .pure ⟨rfl, alike_child .value (value.mono le)⟩ fun _ _ holds => holds

theorem atom (works : e.InStep c) : c.Follows here W (Parser.atom e) (Parser.atom e) := by
  refine current.same fun kind _ => ?_
  have exactly : ∀ p q, c.At (fun other => here other ∧ other = kind) p q → c.At (· = kind) p q :=
    Frame.At.imp fun _ holds => holds.2
  split
  case h_1 | h_2 | h_3 | h_4 | h_5 | h_7 =>
    refine .before ?_ exactly
    exact leaf _ fun _ same => same ▸ rfl
  case h_6 => exact stringAtom
  case h_8 => exact (parenthesized works).before exactly
  case h_9 => exact (listDisplay works).before exactly
  case h_10 => exact (braceDisplay works).before exactly
  case h_11 => exact (backquoted works).before exactly
  case h_12 => exact name _

/-! ### Calls -/

theorem name_coming {kinds : List TokenKind} :
    Parallel c (c.Coming (.name :: kinds)) (fun _ => c.Coming kinds) W (Parser.name none) (Parser.name none) := by
  refine build (fun _ _ holds => holds.1) fun _ => at_coming.same fun there _ => ?_
  split
  · refine .before ?_ fun _ _ holds => holds.1
    exact bumpText_coming rfl fun _ _ _ _ text => .pure ⟨congrArg Detail.name text, .nil⟩ fun _ _ holds => holds.1
  next absent =>
    exact .never (fun _ _ holds => absent holds.2) ((Parser.retains_takeMissingName none).discard.bind fun _ =>
      Parser.retains_pure _)

theorem keywordArgument (works : e.InStep c) :
    Parallel c (c.Coming [.name, .equal]) (fun _ => c.Stepped) W (Parser.keywordArgument e)
      (Parser.keywordArgument e) :=
  build (fun _ _ holds => holds.1) fun _ => name_coming.bind fun _ _ _ name => (bump_coming rfl).discard fun _ first =>
    ((works.test true).before Frame.Coming.stepped).bind fun _ _ second value =>
      .pure ⟨rfl, (alike_child .argument (name.mono (first.trans second))).append (alike_child .value value)⟩
        fun _ _ holds => holds

theorem atKeywordArgument : Parallel c (c.At here)
    (fun begins p q => if begins then c.Coming [.name, .equal] p q else c.Stepped p q) W
    Parser.atKeywordArgument Parser.atKeywordArgument := by
  refine (at? .name).same fun there _ => ?_
  split
  next begins =>
    have named : ∀ p q, c.At (fun other => here other ∧ (other == .name) = there) p q → c.Coming [.name] p q :=
      fun p q holds => Frame.At.coming p q (Frame.At.there begins p q holds)
    refine Parallel.same ((nth (by simp; rfl)).before named) fun kind _ => .pure rfl fun p q holds => ?_
    split
    next equal => rwa [eq_of_beq equal] at holds
    next => exact holds.stepped
  next => exact .pure rfl Frame.At.stepped

theorem argumentEntry (works : e.InStep c) {list list' : ArgumentList} (alike : Alike W list list') :
    c.Follows here W (Parser.argumentEntry e list) (Parser.argumentEntry e list') := by
  refine (eat_inline rfl).same fun star first => ?_
  split
  · exact (works.test true).bind fun _ _ second node =>
      .pure (.some ((alike.mono (first.trans second)).withStar node)) fun _ _ holds => holds
  refine (eat_inline rfl).same fun doubleStar second => ?_
  have alike := alike.mono (first.trans second)
  split
  · exact (works.test true).bind fun _ _ third node =>
      .pure (.some ((alike.mono third).withDoubleStar node)) fun _ _ holds => holds
  refine atKeywordArgument.same fun keyword third => ?_
  have alike := alike.mono third
  split
  next named =>
    exact (keywordArgument works).bind fun _ _ fourth node =>
      .pure (.some ((alike.mono fourth).withKeyword node)) fun _ _ holds => holds
  next other =>
    refine canStartExpression.same fun starts fourth => ?_
    split
    · refine (works.test true).bind fun value value' fifth values => (at? .kwFor).same fun tail sixth => ?_
      have alike := alike.mono (fourth.trans (fifth.trans sixth))
      have values := values.mono sixth
      split
      · exact (generatorTail works values).bind fun _ _ last node =>
          .pure (.some ((alike.mono last).withArg node)) fun _ _ holds => holds
      · exact .pure (.some (alike.withArg values)) Frame.At.stepped
    · exact .pure .none Frame.At.stepped

theorem call (works : e.InStep c) {function function' : Node} (alike : Alike W function function') :
    Parallel c (c.At (· = .leftParen)) (fun _ => c.Stepped) W (Parser.call e function) (Parser.call e function') := by
  refine build (fun _ _ holds => holds.1) fun outer => (bump_at rfl).discard fun _ inner => ?_
  have alike := alike.mono (outer.trans inner)
  have none : ∀ {W}, Alike W ((none, .empty) : Option Nat × ArgumentList) (none, .empty) :=
    ⟨.none, ArgumentList.Alike.empty⟩
  refine (repeated none fun made made' le alike => ?_).bind fun made made' first lists =>
    (expectCloser _ rfl).discard fun _ second =>
      .pure ⟨rfl, (alike_child .function (alike.mono (first.trans second))).append
        (lists.2.children.mono second)⟩ fun _ _ holds => holds
  obtain ⟨last, list⟩ := made
  obtain ⟨last', list'⟩ := made'
  obtain ⟨lasts, lists⟩ := alike
  refine (at? _).same fun ends first => (hasProgressed (lasts.mono first)).same fun progressed second => ?_
  have lasts := lasts.mono (first.trans second)
  have lists := lists.mono (first.trans second)
  split
  · exact .pure ⟨lasts, lists⟩ Frame.At.stepped
  refine position fun p q third heres => (argumentEntry works (lists.mono third)).bind
    fun entry entry' fourth entries => ?_
  have heres := heres.mono fourth
  cases entries with
  | none => exact .pure ⟨heres, lists.mono (third.trans fourth)⟩ fun _ _ holds => holds
  | some alike =>
    refine (eat_inline rfl).same fun comma fifth => ?_
    have entries := And.intro (heres.mono fifth) (Likeness.Alike.mono alike fifth)
    split
    · exact .pure entries fun _ _ holds => holds
    · exact .pure entries fun _ _ holds => holds

/-! ### Subscripts and members -/

theorem atDottedEllipsis : Parallel c (c.At here)
    (fun dots p q => if dots then c.Coming [.dot, .dot, .dot] p q else c.Stepped p q) W
    Parser.atDottedEllipsis Parser.atDottedEllipsis := by
  refine seen (·.dialect) (fun _ _ holds => holds.1.toAlong.dialect) fun p q same => ?_
  rw [same]
  split
  · exact .pure rfl fun _ _ holds => holds.1.stepped
  refine (at? .dot |>.before fun _ _ holds => holds.1).same fun there _ => ?_
  split
  next begins =>
    have first : ∀ p q, c.At (fun other => here other ∧ (other == .dot) = there) p q → c.Coming [.dot] p q :=
      fun p q holds => Frame.At.coming p q (Frame.At.there begins p q holds)
    refine Parallel.same ((nth (by simp; rfl)).before first) fun kind _ => ?_
    split
    next second =>
      obtain rfl := eq_of_beq second
      refine Parallel.same (nth (by simp; rfl)) fun kind _ => .pure rfl fun p q holds => ?_
      split
      next third => rwa [eq_of_beq third] at holds
      next => exact holds.stepped
    next => exact .pure rfl fun _ _ holds => holds.stepped
  next => exact .pure rfl Frame.At.stepped

/-- What follows the lower end of a slice, at its colon. -/
def sliceRest (e : Nested) (marker : Marker) (lower : Option Node) : ParseM Node := do
  discard Parser.bump
  let upper ← Parser.optional (e.test true)
  let step ← if ← Parser.eat .colon then Parser.optional (e.test true) else pure none
  Parser.complete marker .slice .none (child? .lower lower ++ child? .upper upper ++ child? .step step)

theorem sliceRest_inStep (works : e.InStep c) {marker marker' : Marker} {lower lower' : Option Node}
    (begun : Alike W marker marker') (lowers : Alike W lower lower') :
    Parallel c (c.At (· = .colon)) (fun _ => c.Stepped) W (sliceRest e marker lower) (sliceRest e marker' lower') := by
  refine (bump_at rfl).discard fun _ first => (optional (works.test true)).bind fun upper upper' second uppers =>
    (eat_inline rfl).same fun colon third => ?_
  have begun := begun.mono (first.trans (second.trans third))
  have ends := ((alike_child? .lower (lowers.mono first)).mono second).append (alike_child? .upper uppers) |>.mono third
  split
  · exact (optional (works.test true)).bind fun _ _ fourth step =>
      complete (begun.mono fourth) ⟨rfl, (ends.mono fourth).append (alike_child? .step step)⟩
  · exact complete begun ⟨rfl, ends.append .nil⟩

theorem subscriptItem (works : e.InStep c) : c.Follows here W (Parser.subscriptItem e) (Parser.subscriptItem e) := by
  refine atDottedEllipsis.same fun dots _ => ?_
  split
  next dotted =>
    exact build (fun _ _ holds => holds.1) fun _ => (bump_coming rfl).discard fun _ _ =>
      (bump_coming rfl).discard fun _ _ =>
      (bump_coming rfl).discard fun _ _ => .pure ⟨rfl, .nil⟩ Frame.Coming.stepped
  next other =>
    refine (start fun _ _ holds => holds.1).bind fun marker marker' _ begun => (at? .colon).same fun colon first => ?_
    have begun := begun.mono first
    split
    next here => exact (sliceRest_inStep works begun .none).before (Frame.At.there here)
    next =>
      rw [map_eq_pure_bind, bind_assoc, bind_assoc]
      refine (works.test true).bind fun index index' second indices => ?_
      rw [pure_bind, pure_bind]
      refine (at? .colon).same fun colon third => ?_
      have begun := begun.mono (second.trans third)
      have indices := indices.mono third
      split
      next here => exact (sliceRest_inStep works begun (.some indices)).before (Frame.At.there here)
      next => exact (abandon begun).bind fun _ _ last _ => .pure (indices.mono last) Frame.At.stepped

theorem subscriptList (works : e.InStep c) : c.Follows here W (Parser.subscriptList e) (Parser.subscriptList e) := by
  refine (subscriptItem works).bind fun item item' _ items => (at? .comma).same fun comma le => ?_
  have items := items.mono le
  split
  · exact build (fun _ _ holds => holds.1) fun more =>
      (separated (items.mono more) (at_follows _) (subscriptItem works) rfl).bind fun _ _ _ elements =>
        .pure ⟨rfl, alike_several .elements elements⟩ fun _ _ holds => holds
  · exact .pure items Frame.At.stepped

theorem subscript (works : e.InStep c) {value value' : Node} (alike : Alike W value value') :
    Parallel c (c.At (· = .leftBracket)) (fun _ => c.Stepped) W (Parser.subscript e value)
      (Parser.subscript e value') :=
  build (fun _ _ holds => holds.1) fun first => (bump_at rfl).discard fun _ second => (subscriptList works).bind
    fun _ _ third index => (expectCloser _ rfl).discard fun _ fourth =>
      have value := alike.mono (first.trans (second.trans (third.trans fourth)))
      .pure ⟨rfl, (alike_child .value value).append (alike_child .slice (index.mono fourth))⟩ fun _ _ holds => holds

theorem member {value value' : Node} (alike : Alike W value value') :
    Parallel c (c.At (· = .dot)) (fun _ => c.Stepped) W (Parser.member value) (Parser.member value') :=
  build (fun _ _ holds => holds.1) fun first => (bump_at rfl).discard fun _ second => (name _).bind
    fun _ _ third member =>
      have value := alike.mono (first.trans (second.trans third))
      .pure ⟨rfl, (alike_child .value value).append (alike_child .member member)⟩ fun _ _ holds => holds

theorem atomWithTrailers (works : e.InStep c) :
    c.Follows here W (Parser.atomWithTrailers e) (Parser.atomWithTrailers e) := by
  refine (atom works).bind fun base base' _ bases => repeated bases fun node node' _ nodes => ?_
  refine current.same fun kind le => ?_
  have nodes := nodes.mono le
  have exactly : ∀ p q, c.At (fun other => True ∧ other = kind) p q → c.At (· = kind) p q :=
    Frame.At.imp fun _ holds => holds.2
  split
  · exact ((call works nodes).before exactly).bind fun _ _ _ node => .pure node fun _ _ holds => holds
  · exact ((subscript works nodes).before exactly).bind fun _ _ _ node => .pure node fun _ _ holds => holds
  · exact ((member nodes).before exactly).bind fun _ _ _ node => .pure node fun _ _ holds => holds
  · exact .pure nodes Frame.At.stepped

/-! ### Operators -/

theorem prefixed (op : String) {operand : ParseM Node} (inner : ∀ kind, here kind → Within c kind)
    (works : ∀ {W here}, c.Follows here W operand operand) :
    c.Follows here W (Parser.prefixed op operand) (Parser.prefixed op operand) :=
  build (fun _ _ holds => holds.1) fun _ => (bump inner).discard fun _ _ => works.bind fun _ _ _ operand =>
    .pure ⟨rfl, alike_child .operand operand⟩ fun _ _ holds => holds

theorem infixed (op : String) {left left' : Node} {operand : ParseM Node} (alike : Alike W left left')
    (inner : ∀ kind, here kind → Within c kind) (works : ∀ {W here}, c.Follows here W operand operand) :
    c.Follows here W (Parser.infixed op left operand) (Parser.infixed op left' operand) :=
  build (fun _ _ holds => holds.1) fun first => (bump inner).discard fun _ second => works.bind fun _ _ third right =>
    have left := alike.mono (first.trans (second.trans third))
    .pure ⟨rfl, (alike_child .left left).append (alike_child .right right)⟩ fun _ _ holds => holds

theorem power (works : e.InStep c) : c.Follows here W (Parser.power e) (Parser.power e) := by
  refine (atomWithTrailers works).bind fun base base' _ bases => (at? .doubleStar).same fun there le => ?_
  split
  next raised =>
    refine .before ?_ (Frame.At.there raised)
    exact infixed "**" (bases.mono le) (fun _ same => same ▸ within_of_isInline rfl) works.factor
  next => exact .pure (bases.mono le) Frame.At.stepped

theorem factor (works : e.InStep c) : c.Follows here W (Parser.factor e) (Parser.factor e) := by
  refine current.same fun kind _ => ?_
  split
  next op found =>
    have inner := within_of_isInline (c := c) (TokenKind.isInline_of_isOrdinary (Parser.unaryOperator_spec found).1)
    exact prefixed op (fun other holds => holds.2 ▸ inner) works.factor
  next => exact power works

theorem binary {operators : OperatorLevel} {binding : Binding} {operand : ParseM Node}
    (inLine : Parser.InLine operators binding) (works : ∀ {W here}, c.Follows here W operand operand) :
    c.Follows here W (Parser.binary operators operand) (Parser.binary operators operand) := by
  refine works.bind fun left left' _ lefts => repeated lefts fun left left' _ lefts => current.same fun kind le => ?_
  split
  next op found =>
    have inner := within_of_isInline (c := c) (TokenKind.isInline_of_isOrdinary (inLine.of_lookup found).1.1)
    exact (infixed op (lefts.mono le) (fun other holds => holds.2 ▸ inner) works).bind
      fun _ _ _ node => .pure node fun _ _ holds => holds
  next => exact .pure (lefts.mono le) Frame.At.stepped

theorem binaryChain {levels : List OperatorLevel} {operand : ParseM Node} {least binding : Binding}
    (tightens : Parser.Tightens least levels binding) (works : ∀ {W here}, c.Follows here W operand operand) :
    c.Follows here W (Parser.binaryChain operand levels) (Parser.binaryChain operand levels) := by
  induction tightens generalizing W here with
  | nil => exact works
  | cons inLine _ _ ih => exact binary inLine ih

theorem expr (works : e.InStep c) : c.Follows here W (Parser.expr e) (Parser.expr e) :=
  binaryChain Parser.tightens_binaryLevels (factor works)

theorem exprList (works : e.InStep c) : c.Follows here W (Parser.exprList e) (Parser.exprList e) :=
  testList (expr works)

/-! ### Comparisons -/

/-- The parses are at a comparison operator, which may be of two words. -/
def Compares (c : Frame) (p q : Parser) : Prop :=
  c.At (fun kind => Parser.isComparison kind = true) p q ∨ c.Coming [.kwNot, .kwIn] p q

theorem Compares.stepped {p q : Parser} (compares : Compares c p q) : c.Stepped p q :=
  compares.elim (Frame.At.stepped p q) (Frame.Coming.stepped p q)

theorem atComparison : Parallel c (c.At here)
    (fun compares p q => if compares then Compares c p q else c.Stepped p q) W
    Parser.atComparison Parser.atComparison := by
  refine (at? .kwNot).same fun there _ => ?_
  split
  next negated =>
    have first : ∀ p q, c.At (fun other => here other ∧ (other == .kwNot) = there) p q → c.Coming [.kwNot] p q :=
      fun p q holds => Frame.At.coming p q (Frame.At.there negated p q holds)
    refine Parallel.same ((nth (by simp; rfl)).before first) fun kind _ => .pure rfl fun p q holds => ?_
    split
    next second =>
      rw [eq_of_beq second] at holds
      exact .inr holds
    next => exact holds.stepped
  next =>
    refine (atSet? _).weaken (fun _ _ holds => holds) fun compares p q holds => ?_
    split
    next found => exact .inl ⟨holds.1, holds.2.2.trans found⟩
    next => exact holds.stepped

theorem comparisonOperator : Parallel c (Compares c) (fun _ => c.Stepped) W Parser.comparisonOperator
    Parser.comparisonOperator := by
  refine .either ?_ ?_
  · refine bumpText (fun kind compares => by cases kind <;> first | rfl | cases compares)
      fun cell cell' _ cells text => ?_
    have kinds : cell.kind = cell'.kind := Cell.Alike.kind cells
    rw [← kinds, ← text]
    split
    next negated =>
      refine .never (fun _ _ holds => ?_) (Parser.retains_bump.discard.bind fun _ => Parser.retains_pure _)
      have compares := holds.2
      rw [eq_of_beq negated] at compares
      cases compares
    next =>
      split
      · refine (eat_inline rfl).same fun negated _ => ?_
        split
        · exact .pure rfl fun _ _ holds => holds
        · exact .pure rfl fun _ _ holds => holds
      · exact .pure rfl Frame.At.stepped
  · refine bumpText_coming rfl fun cell cell' _ cells _ => ?_
    have kinds : cell.kind = cell'.kind := Cell.Alike.kind cells
    rw [← kinds]
    split
    · refine .before ?_ fun _ _ holds => holds.1
      exact (bump_coming rfl).discard fun _ _ => .pure rfl Frame.Coming.stepped
    next other =>
      refine .never (fun _ _ holds => other (beq_iff_eq.2 holds.2)) ?_
      split
      · exact (Parser.retains_eat _).bind fun _ => .ite (Parser.retains_pure _) (Parser.retains_pure _)
      · exact Parser.retains_pure _

theorem comparison (works : e.InStep c) : c.Follows here W (Parser.comparison e) (Parser.comparison e) := by
  refine (expr works).bind fun left left' first lefts => atComparison.same fun compares second => ?_
  have lefts := lefts.mono second
  split
  · refine .before ?_ fun _ _ holds => holds.stepped
    have none : ∀ {W}, Alike W ((#[], #[]) : Array String × Array Node) (#[], #[]) := ⟨.empty, .empty⟩
    refine build (fun _ _ holds => holds.1) fun third => (repeated none fun made made' le alike => ?_).bind
      fun _ _ fourth made => .pure ⟨congrArg Detail.comparison (exact_list made.1), (alike_child .left
        (lefts.mono (third.trans fourth))).append (alike_several .comparators made.2)⟩ fun _ _ holds => holds
    obtain ⟨ops, operands⟩ := made
    obtain ⟨ops', operands'⟩ := made'
    refine atComparison.same fun compares first => ?_
    have alike := alike.mono first
    split
    · exact comparisonOperator.bind fun _ _ second op => (expr works).bind fun _ _ third operand =>
        have alike := alike.mono (second.trans third)
        .pure ⟨alike.1.push op, alike.2.push operand⟩ fun _ _ holds => holds
    · exact .pure alike fun _ _ holds => holds
  · exact .pure lefts fun _ _ holds => holds

theorem notTest (works : e.InStep c) : c.Follows here W (Parser.notTest e) (Parser.notTest e) := by
  refine (at? .kwNot).same fun there _ => ?_
  split
  next negated =>
    refine .before ?_ (Frame.At.there negated)
    exact prefixed "not" (fun _ same => same ▸ within_of_isInline rfl) works.notTest
  next => exact comparison works

/-! ### Tests -/

theorem boolean {word : TokenKind} (op : String) {operand : ParseM Node}
    (works : ∀ {W here}, c.Follows here W operand operand) (inline : word.isInline) :
    c.Follows here W (Parser.boolean word op operand) (Parser.boolean word op operand) := by
  refine works.bind fun first first' _ alike => (at? word).same fun there le => ?_
  have alike := alike.mono le
  split
  · exact build (fun _ _ holds => holds.1) fun more => (separated (alike.mono more) never_stops works inline).bind
      fun _ _ _ values => .pure ⟨rfl, alike_several .values values⟩ fun _ _ holds => holds
  · exact .pure alike Frame.At.stepped

theorem orTest (works : e.InStep c) : c.Follows here W (Parser.orTest e) (Parser.orTest e) :=
  boolean "or" (boolean "and" (notTest works) rfl) rfl

theorem test (works : e.InStep c) (conditional : Bool) :
    c.Follows here W (Parser.test e conditional) (Parser.test e conditional) := by
  refine (at? .kwLambda).same fun there first => ?_
  split
  next begins => exact (lambda works conditional).before (Frame.At.there begins)
  refine (orTest works).bind fun body body' second bodies => features.same fun f third => (at? .kwIf).same
    fun tail fourth => ?_
  have bodies := bodies.mono (third.trans fourth)
  split
  next conditions =>
    rw [Bool.and_eq_true] at conditions
    refine build (fun _ _ holds => holds.1) fun fifth => (bump_there conditions.2 rfl).discard fun _ sixth =>
      (orTest works).bind fun condition condition' seventh tests => (eat_inline rfl).same fun orElse eighth => ?_
    have parts := (alike_child .body (bodies.mono (fifth.trans (sixth.trans seventh)))).append
      (alike_child .test tests) |>.mono eighth
    split
    · exact (works.test true).bind fun _ _ last node =>
        .pure ⟨rfl, (parts.mono last).append (alike_child .orElse node)⟩ fun _ _ holds => holds
    · exact (name _).bind fun _ _ last node =>
        .pure ⟨rfl, (parts.mono last).append (alike_child .orElse node)⟩ fun _ _ holds => holds
  next => exact .pure bodies Frame.At.stepped

end Parallel

/-- However deeply expressions may nest, their productions keep parses in step. -/
theorem Nested.inStep_levels (c : Frame) (depth : Nat) : (Nested.levels depth).InStep c := by
  induction depth with
  | zero =>
    have thrown : ∀ {W : Pairing} {here : TokenKind → Prop},
        c.Follows here W (throw .tooDeep : ParseM Node) (throw .tooDeep) :=
      .throw .tooDeep fun _ _ holds => holds.1.toAlong
    exact ⟨fun _ => thrown, thrown, thrown, thrown, thrown, thrown⟩
  | succ depth ih =>
    exact ⟨fun conditional => Parallel.test ih conditional, Parallel.orTest ih, Parallel.notTest ih, Parallel.expr ih,
      Parallel.factor ih, Parallel.parameter ih⟩

theorem Nested.inStep_full (limits : Limits) (c : Frame) : (Nested.full limits).InStep c :=
  inStep_levels c (limits.expression + 1)

end TolerantParser
