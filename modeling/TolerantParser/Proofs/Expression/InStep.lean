import TolerantParser.Parser.Expression.Operator
import TolerantParser.Proofs.Parser.InStepRepair

/-!
Expressions keep two parses in step: from tokens that answer to each other every production comes to tokens that
do, and makes nodes that are alike. No production of an expression leaves the line.
-/

namespace TolerantParser

/-- The productions one level further in keep parses in step. -/
structure Nested.InStep (c : Frame) (e : Nested) : Prop where
  test {W : Pairing} {here : TokenKind → Prop} (conditional : Bool) :
    c.Follows here W (e.test conditional) (e.test conditional)
  orTest {W : Pairing} {here : TokenKind → Prop} : c.Follows here W e.orTest e.orTest
  notTest {W : Pairing} {here : TokenKind → Prop} : c.Follows here W e.notTest e.notTest
  expr {W : Pairing} {here : TokenKind → Prop} : c.Follows here W e.expr e.expr
  factor {W : Pairing} {here : TokenKind → Prop} : c.Follows here W e.factor e.factor
  parameter {W : Pairing} {here : TokenKind → Prop} : c.Follows here W e.parameter e.parameter

namespace Parallel

variable {α β : Type} [Likeness α] [Likeness β] {c : Frame} {W : Pairing} {here : TokenKind → Prop} {e : Nested}

/-! ### What expressions share -/

theorem canStartExpression : Parallel c (c.At here)
    (fun starts => c.At fun kind => here kind ∧ Parser.startsExpression kind = starts) W
    Parser.canStartExpression Parser.canStartExpression := atSet? _

theorem optional {item : ParseM Node} (works : ∀ {W here}, c.Follows here W item item) :
    c.Follows here W (Parser.optional item) (Parser.optional item) := by
  refine canStartExpression.same fun starts _ => ?_
  split
  · exact works.bind fun _ _ _ node => .pure (.some node) fun _ _ holds => holds
  · exact .pure .none Frame.At.stepped

theorem announced {kind : TokenKind} {item : ParseM Node} (works : ∀ {W here}, c.Follows here W item item)
    (inline : kind.isInline) : c.Follows here W (Parser.announced kind item) (Parser.announced kind item) := by
  refine (eat_inline inline).same fun eaten _ => ?_
  split
  · exact works.bind fun _ _ _ node => .pure (.some node) fun _ _ holds => holds
  · exact .pure .none Frame.At.stepped

theorem separated {separator : TokenKind} {first first' : Node} {stop : ParseM Bool} {item : ParseM Node}
    (alike : Alike W first first') (stops : ∀ {W here}, c.Follows here W stop stop)
    (works : ∀ {W here}, c.Follows here W item item) (inline : separator.isInline) :
    c.Follows here W (Parser.separated separator first stop item) (Parser.separated separator first' stop item) := by
  have nodes : Alike W #[first] #[first'] := .cons alike .nil
  refine (repeated nodes fun nodes nodes' le made => ?_).bind
    fun _ _ _ nodes => .pure nodes fun _ _ holds => holds
  refine (eat_inline inline).same fun eaten le => ?_
  split
  · refine stops.same fun stopped more => ?_
    split
    · exact .pure (made.mono (le.trans more)) fun _ _ holds => holds
    · exact works.bind fun _ _ last node => .pure ((made.mono (le.trans (more.trans last))).push node)
        fun _ _ holds => holds
  · exact .pure (made.mono le) fun _ _ holds => holds

theorem never_stops : c.Follows here W (pure false : ParseM Bool) (pure false) := .pure rfl Frame.At.stepped

theorem commaSeparated {first first' : Node} {item : ParseM Node} (alike : Alike W first first')
    (works : ∀ {W here}, c.Follows here W item item) :
    c.Follows here W (Parser.commaSeparated first item) (Parser.commaSeparated first' item) :=
  separated alike (canStartExpression.same fun _ _ => .pure rfl Frame.At.stepped) works rfl

theorem name (message : Option String) : c.Follows here W (Parser.name message) (Parser.name message) := by
  refine build (fun _ _ holds => holds.1) fun _ => (at? .name).same fun there _ => ?_
  split
  next eaten =>
    refine .before ?_ (Frame.At.there eaten)
    exact bumpText (fun _ same => same ▸ rfl) fun _ _ _ _ text =>
      .pure ⟨congrArg Detail.name text, .nil⟩ Frame.At.stepped
  next => exact (takeMissingName message).discard fun _ _ => .pure ⟨rfl, .nil⟩ Frame.At.stepped

theorem dottedName : c.Follows here W Parser.dottedName Parser.dottedName :=
  (name none).bind fun _ _ _ first => separated first never_stops (name none) rfl

theorem testList {item : ParseM Node} (works : ∀ {W here}, c.Follows here W item item) :
    c.Follows here W (Parser.testList item) (Parser.testList item) := by
  refine works.bind fun first first' _ alike => (at? .comma).same fun there le => ?_
  split
  · refine build (fun _ _ holds => holds.1) fun more => ?_
    exact (commaSeparated (alike.mono (le.trans more)) works).bind fun _ _ _ nodes =>
      .pure ⟨rfl, alike_several .elements nodes⟩ fun _ _ holds => holds
  · exact .pure (alike.mono le) Frame.At.stepped

theorem yieldExpression (works : e.InStep c) : Parallel c (c.At (· = .kwYield)) (fun _ => c.Stepped) W
    (Parser.yieldExpression e) (Parser.yieldExpression e) :=
  build (fun _ _ holds => holds.1) fun _ => (bump_at rfl).discard fun _ _ =>
    (optional (testList (works.test true))).bind fun _ _ _ value =>
      .pure ⟨rfl, alike_child? .value value⟩ fun _ _ holds => holds

theorem yieldOr {item : ParseM Node} (inner : e.InStep c) (works : ∀ {W here}, c.Follows here W item item) :
    c.Follows here W (Parser.yieldOr e item) (Parser.yieldOr e item) := by
  refine (at? .kwYield).same fun there _ => features.same fun _ _ => ?_
  split
  next begins =>
    rw [Bool.and_eq_true] at begins
    exact (yieldExpression inner).before (Frame.At.there begins.1)
  next => exact works

theorem testListOrYield (works : e.InStep c) : c.Follows here W (Parser.testListOrYield e) (Parser.testListOrYield e) :=
  yieldOr works (testList (works.test true))

/-! ### Comprehensions and brackets -/

/-- A token is taken if it is there, and otherwise an error is recorded. -/
theorem expect {kind : TokenKind} {errorKind : ErrorKind} {message : String} {post : β → Parser → Parser → Prop}
    {k l : PUnit → ParseM β} (inline : kind.isInline) (only : Parser.isRecordedOnly errorKind)
    (next : ∀ {W'}, W ≤ W' → Parallel c c.Stepped post W' (k ⟨⟩) (l ⟨⟩)) :
    Parallel c (c.At here) post W
      (Parser.eat kind >>= fun there => if there = true then k ⟨⟩ else Parser.complain errorKind message >>= k)
      (Parser.eat kind >>= fun there => if there = true then l ⟨⟩ else Parser.complain errorKind message >>= l) := by
  refine (eat_inline inline).same fun there le => ?_
  split
  · exact next le
  · exact (complain message only).bind fun _ _ more _ => next (le.trans more)

theorem comprehensionClause (works : e.InStep c) (bareTuples : Bool) :
    Parallel c (c.At (· = .kwFor)) (fun _ => c.Stepped) W (Parser.comprehensionClause e bareTuples)
      (Parser.comprehensionClause e bareTuples) := by
  have iterables : ∀ {W here}, c.Follows here W (if bareTuples then Parser.testList (e.test false) else e.orTest)
      (if bareTuples then Parser.testList (e.test false) else e.orTest) := fun {_ _} => by
    split
    · exact testList (works.test false)
    · exact works.orTest
  refine build (fun _ _ holds => holds.1) fun _ => (bump_at rfl).discard fun _ _ => ?_
  refine (testList works.expr).bind fun target target' _ targets => expect rfl rfl fun first => ?_
  rw [Parser.ite_bind, Parser.ite_bind]
  refine iterables.bind fun iterable iterable' second source => ?_
  refine (repeated .empty fun conditions conditions' le made => ?_).bind
    fun _ _ third conditions => .pure ⟨rfl, ?_⟩ fun _ _ holds => holds
  · refine (eat_inline rfl).same fun eaten more => ?_
    split
    · exact (works.test false).bind fun _ _ last node => .pure ((made.mono (more.trans last)).push node)
        fun _ _ holds => holds
    · exact .pure (made.mono more) fun _ _ holds => holds
  · exact ((alike_child .target (targets.mono (first.trans (second.trans third)))).append
      (alike_child .iterable (source.mono third))).append (alike_several .conditions conditions)

theorem comprehensionClauses (works : e.InStep c) (inList : Bool) :
    c.Follows here W (Parser.comprehensionClauses e inList) (Parser.comprehensionClauses e inList) := by
  refine features.same fun f _ => ?_
  dsimp only
  refine (repeated .empty fun clauses clauses' le made => ?_).bind
    fun _ _ _ clauses => .pure clauses fun _ _ holds => holds
  refine (at? .kwFor).same fun there more => ?_
  split
  next begins =>
    exact ((comprehensionClause works _).before (Frame.At.there begins)).bind
      fun _ _ last clause => .pure ((made.mono (more.trans last)).push clause) fun _ _ holds => holds
  next => exact .pure (made.mono more) Frame.At.stepped

theorem generatorTail (works : e.InStep c) {element element' : Node} (alike : Alike W element element') :
    c.Follows here W (Parser.generatorTail e element) (Parser.generatorTail e element') :=
  build (fun _ _ holds => holds.1) fun first => (comprehensionClauses works false).bind fun _ _ second clauses =>
    .pure ⟨rfl, (alike_child .element (alike.mono (first.trans second))).append (alike_several .generators clauses)⟩
      fun _ _ holds => holds

/-- A bracket is closed, and with it the node. -/
theorem closed {closer : TokenKind} {marker marker' : Marker} {kind : NodeKind} {detail : Detail}
    {children children' : List (Label × Option Node)} (begun : Alike W marker marker')
    (made : Alike W children children') (inline : closer.isInline) :
    c.Follows here W
      (discard (Parser.expectCloser closer none) >>= fun _ => Parser.complete marker kind detail children)
      (discard (Parser.expectCloser closer none) >>= fun _ => Parser.complete marker' kind detail children') :=
  (expectCloser none inline).discard fun _ le => complete (begun.mono le) ⟨rfl, made.mono le⟩

theorem parenthesized (works : e.InStep c) :
    Parallel c (c.At (· = .leftParen)) (fun _ => c.Stepped) W (Parser.parenthesized e) (Parser.parenthesized e) := by
  unfold Parser.parenthesized
  refine (start fun _ _ holds => holds.1).bind fun marker marker' _ begun => (bump_at rfl).discard fun _ first => ?_
  refine (eat_inline rfl).same fun empty second => ?_
  have begun := begun.mono (first.trans second)
  split
  · exact complete begun ⟨rfl, .nil⟩
  refine (yieldOr works (works.test true)).bind fun item item' third items => (at? .kwFor).same fun tail fourth => ?_
  have begun := begun.mono (third.trans fourth)
  have items := items.mono fourth
  split
  · exact (comprehensionClauses works false).bind fun _ _ fifth clauses =>
      closed (begun.mono fifth) ((alike_child .element (items.mono fifth)).append (alike_several .generators clauses))
        rfl
  refine (at? .comma).same fun comma fifth => ?_
  split
  · exact (commaSeparated (items.mono fifth) (works.test true)).bind fun _ _ sixth elements =>
      closed (begun.mono (fifth.trans sixth)) (alike_several .elements elements) rfl
  · exact (expectCloser none rfl).discard fun _ sixth =>
      mergeInto (begun.mono (fifth.trans sixth)) (items.mono (fifth.trans sixth))

theorem displayItems (works : e.InStep c) {first first' : Node} (alike : Alike W first first') (closer : TokenKind) :
    c.Follows here W (Parser.displayItems e first closer) (Parser.displayItems e first' closer) := by
  refine separated alike (fun {_ _} => ?_) (works.test true) rfl
  exact (at? closer).same fun _ _ => canStartExpression.same fun _ _ => .pure rfl Frame.At.stepped

theorem listDisplay (works : e.InStep c) :
    Parallel c (c.At (· = .leftBracket)) (fun _ => c.Stepped) W (Parser.listDisplay e) (Parser.listDisplay e) := by
  unfold Parser.listDisplay
  refine (start fun _ _ holds => holds.1).bind fun marker marker' _ begun => (bump_at rfl).discard fun _ first => ?_
  refine (eat_inline rfl).same fun empty second => ?_
  have begun := begun.mono (first.trans second)
  split
  · exact complete begun ⟨rfl, .nil⟩
  refine (works.test true).bind fun item item' third items => (at? .kwFor).same fun tail fourth => ?_
  have begun := begun.mono (third.trans fourth)
  have items := items.mono fourth
  split
  · exact (comprehensionClauses works true).bind fun _ _ fifth clauses =>
      closed (begun.mono fifth) ((alike_child .element (items.mono fifth)).append (alike_several .generators clauses))
        rfl
  · exact (displayItems works items .rightBracket).bind fun _ _ fifth elements =>
      closed (begun.mono fifth) (alike_several .elements elements) rfl

theorem dictValue (works : e.InStep c) : c.Follows here W (Parser.dictValue e) (Parser.dictValue e) := by
  refine canStartExpression.same fun starts _ => ?_
  split
  · exact (works.test true).bind fun _ _ _ value => .pure (.some value) fun _ _ holds => holds
  · exact (recorded none [] rfl).discard fun _ _ => .pure .none fun _ _ holds => holds.1.stepped

theorem colonAndValue (works : e.InStep c) : c.Follows here W (Parser.colonAndValue e) (Parser.colonAndValue e) := by
  unfold Parser.colonAndValue
  refine (eat_inline rfl).same fun colon _ => ?_
  split
  · exact dictValue works
  · exact (complain _ rfl).bind fun _ _ _ _ => .pure .none fun _ _ holds => holds

theorem finishDict (works : e.InStep c) {marker marker' : Marker} {key key' : Node} {value value' : Option Node}
    (begun : Alike W marker marker') (keys : Alike W key key') (values : Alike W value value') :
    c.Follows here W (Parser.finishDict e marker key value) (Parser.finishDict e marker' key' value') := by
  have entry : Alike W (#[key], #[value]) (#[key'], #[value']) := ⟨.cons keys .nil, .cons values .nil⟩
  refine (repeated entry fun made made' le alike => ?_).bind fun _ _ more entries =>
    closed (begun.mono more) ((alike_several .keys entries.1).append (alike_sparse .values entries.2)) rfl
  obtain ⟨keys, values⟩ := made
  obtain ⟨keys', values'⟩ := made'
  refine (eat_inline rfl).same fun comma first => ?_
  have alike := alike.mono first
  split
  · refine (at? .rightBrace).same fun ends second => canStartExpression.same fun starts third => ?_
    have alike := alike.mono (second.trans third)
    split
    · exact .pure alike Frame.At.stepped
    · exact (works.test true).bind fun _ _ fourth key => (colonAndValue works).bind fun _ _ fifth value =>
        have alike := alike.mono (fourth.trans fifth)
        .pure ⟨alike.1.push (key.mono fifth), alike.2.push value⟩ fun _ _ holds => holds
  · exact .pure alike fun _ _ holds => holds

theorem dictDisplay (works : e.InStep c) {marker marker' : Marker} {key key' : Node} (begun : Alike W marker marker')
    (keys : Alike W key key') :
    c.Follows here W (Parser.dictDisplay e marker key) (Parser.dictDisplay e marker' key') := by
  refine (dictValue works).bind fun value value' first values => (at? .kwFor).same fun tail second =>
    features.same fun f third => ?_
  have begun := begun.mono (first.trans (second.trans third))
  have keys := keys.mono (first.trans (second.trans third))
  have values := values.mono (second.trans third)
  split
  · refine (comprehensionClauses works false).bind fun clauses clauses' fourth tails => ?_
    refine (expectCloser none rfl).discard fun _ fifth => ?_
    have begun := begun.mono (fourth.trans fifth)
    have keys := keys.mono (fourth.trans fifth)
    have tails := tails.mono fifth
    cases values with
    | none =>
      exact (name _).bind fun _ _ sixth value => complete (begun.mono sixth)
        ⟨rfl, ((alike_child .key (keys.mono sixth)).append (alike_child .value value)).append
          (alike_several .generators (tails.mono sixth))⟩
    | some value =>
      exact complete begun ⟨rfl, ((alike_child .key keys).append (alike_child .value
        (Likeness.Alike.mono value (fourth.trans fifth)))).append (alike_several .generators tails)⟩
  · exact finishDict works begun keys values

theorem braceDisplay (works : e.InStep c) :
    Parallel c (c.At (· = .leftBrace)) (fun _ => c.Stepped) W (Parser.braceDisplay e) (Parser.braceDisplay e) := by
  unfold Parser.braceDisplay
  refine (start fun _ _ holds => holds.1).bind fun marker marker' _ begun => (bump_at rfl).discard fun _ first => ?_
  refine (eat_inline rfl).same fun empty second => ?_
  have begun := begun.mono (first.trans second)
  split
  · exact complete begun ⟨rfl, .nil⟩
  refine (works.test true).bind fun item item' third items => (eat_inline rfl).same fun colon fourth => ?_
  have begun := begun.mono (third.trans fourth)
  have items := items.mono fourth
  split
  · exact dictDisplay works begun items
  refine features.same fun f fifth => ?_
  have begun := begun.mono fifth
  have items := items.mono fifth
  split
  · refine (at? .kwFor).same fun tail sixth => ?_
    have begun := begun.mono sixth
    have items := items.mono sixth
    split
    · exact (comprehensionClauses works false).bind fun _ _ last clauses =>
        closed (begun.mono last) ((alike_child .element (items.mono last)).append (alike_several .generators clauses))
          rfl
    · exact (displayItems works items .rightBrace).bind fun _ _ last elements =>
        closed (begun.mono last) (alike_several .elements elements) rfl
  · exact (complain _ rfl).bind fun _ _ sixth _ => finishDict works (begun.mono sixth) (items.mono sixth) .none

end Parallel

/-! ### Parameters -/

structure ParameterList.Alike (W : Pairing) (list other : ParameterList) : Prop where
  args : Likeness.Alike W list.args other.args
  defaults : Likeness.Alike W list.defaults other.defaults
  hints : Likeness.Alike W list.hints other.hints
  keywordOnly : Likeness.Alike W list.keywordOnly other.keywordOnly
  keywordDefaults : Likeness.Alike W list.keywordDefaults other.keywordDefaults
  keywordHints : Likeness.Alike W list.keywordHints other.keywordHints
  star : Likeness.Alike W list.star other.star
  doubleStar : Likeness.Alike W list.doubleStar other.doubleStar

instance : Likeness ParameterList where
  Alike := ParameterList.Alike
  mono le alike := ⟨alike.args.mono le, alike.defaults.mono le, alike.hints.mono le, alike.keywordOnly.mono le,
    alike.keywordDefaults.mono le, alike.keywordHints.mono le, alike.star.mono le, alike.doubleStar.mono le⟩
  all _ := ⟨Likeness.all _, Likeness.all _, Likeness.all _, Likeness.all _, Likeness.all _, Likeness.all _,
    Likeness.all _, Likeness.all _⟩

namespace ParameterList.Alike

variable {W : Pairing} {list other : ParameterList}

theorem empty : ParameterList.Alike W .empty .empty := ⟨.empty, .empty, .empty, .empty, .empty, .empty, .none, .none⟩

theorem add (alike : list.Alike W other) {parameter parameter' : Node} {hint hint' default default' : Option Node}
    (parameters : Likeness.Alike W parameter parameter') (hints : Likeness.Alike W hint hint')
    (defaults : Likeness.Alike W default default') :
    (list.add parameter hint default).Alike W (other.add parameter' hint' default') := by
  refine { alike with args := alike.args.push parameters, hints := alike.hints.push hints, defaults := ?_ }
  cases defaults with
  | none => exact alike.defaults
  | some given => exact alike.defaults.push given

theorem addKeywordOnly (alike : list.Alike W other) {parameter parameter' : Node}
    {hint hint' default default' : Option Node} (parameters : Likeness.Alike W parameter parameter')
    (hints : Likeness.Alike W hint hint') (defaults : Likeness.Alike W default default') :
    (list.addKeywordOnly parameter hint default).Alike W (other.addKeywordOnly parameter' hint' default') :=
  { alike with
    keywordOnly := alike.keywordOnly.push parameters
    keywordHints := alike.keywordHints.push hints
    keywordDefaults := alike.keywordDefaults.push defaults }

theorem withStar (alike : list.Alike W other) {star star' : Node × Option Node} (stars : Likeness.Alike W star star') :
    ParameterList.Alike W { list with star := some star } { other with star := some star' } :=
  { alike with star := .some stars }

theorem withDoubleStar (alike : list.Alike W other) {star star' : Node × Option Node}
    (stars : Likeness.Alike W star star') :
    ParameterList.Alike W { list with doubleStar := some star } { other with doubleStar := some star' } :=
  { alike with doubleStar := .some stars }

end ParameterList.Alike

/-- The children for a parameter and its hint. -/
theorem alike_starred {W : Pairing} (role hintRole : Role) {star star' : Option (Node × Option Node)}
    (alike : Likeness.Alike W star star') :
    Likeness.Alike W (child? role (star.map Prod.fst)) (child? role (star'.map Prod.fst)) ∧
      Likeness.Alike W (child? hintRole (star.bind Prod.snd)) (child? hintRole (star'.bind Prod.snd)) := by
  cases alike with
  | none => exact ⟨.nil, .nil⟩
  | some both => exact ⟨alike_child role both.1, alike_child? hintRole both.2⟩

theorem ParameterList.Alike.children {W : Pairing} {list other : ParameterList} (alike : list.Alike W other) :
    Likeness.Alike W list.children other.children := by
  have star := alike_starred .starParameter .starHint alike.star
  have doubleStar := alike_starred .doubleStarParameter .doubleStarHint alike.doubleStar
  exact ((((((((alike_several _ alike.args).append (alike_several _ alike.defaults)).append
    (alike_sparse _ alike.hints)).append star.1).append star.2).append (alike_several _ alike.keywordOnly)).append
    (alike_sparse _ alike.keywordDefaults)).append (alike_sparse _ alike.keywordHints)).append doubleStar.1 |>.append
    doubleStar.2

namespace Parallel

variable {α β : Type} [Likeness α] [Likeness β] {c : Frame} {W : Pairing} {here : TokenKind → Prop} {e : Nested}

theorem parameter (works : e.InStep c) : c.Follows here W (Parser.parameter e) (Parser.parameter e) := by
  refine (at? .leftParen).same fun there _ => ?_
  split
  next opens =>
    exact build (fun _ _ holds => holds.1) fun _ => (bump_there opens rfl).discard fun _ _ => works.parameter.bind
      fun _ _ _ first => (separated first (at_follows _) works.parameter rfl).bind fun _ _ _ elements =>
        (expectCloser none rfl).discard fun _ le =>
          .pure ⟨rfl, alike_several .elements (elements.mono le)⟩ fun _ _ holds => holds
  next => exact name none

theorem parameterHint (works : e.InStep c) (allowed : Bool) :
    c.Follows here W (Parser.parameterHint e allowed) (Parser.parameterHint e allowed) := by
  unfold Parser.parameterHint
  split
  · exact announced (works.test true) rfl
  · exact .pure .none Frame.At.stepped

theorem parameterEntry (works : e.InStep c) (hints keywordOnly : Bool) {list list' : ParameterList}
    (alike : Alike W list list') :
    c.Follows here W (Parser.parameterEntry e hints keywordOnly list)
      (Parser.parameterEntry e hints keywordOnly list') := by
  refine (eat_inline rfl).same fun star first => ?_
  split
  · refine features.same fun f second => (at? .comma).same fun comma third => ?_
    have alike := alike.mono (first.trans (second.trans third))
    split
    · exact .pure (.some ⟨rfl, alike⟩) Frame.At.stepped
    · exact (name none).bind fun _ _ fourth star => (parameterHint works hints).bind fun _ _ fifth hint =>
        have alike := alike.mono (fourth.trans fifth)
        .pure (.some ⟨rfl, alike.withStar ⟨star.mono fifth, hint⟩⟩) fun _ _ holds => holds
  refine (eat_inline rfl).same fun doubleStar second => ?_
  have alike := alike.mono (first.trans second)
  split
  · exact (name none).bind fun _ _ fourth star => (parameterHint works hints).bind fun _ _ fifth hint =>
      have alike := alike.mono (fourth.trans fifth)
      .pure (.some ⟨rfl, alike.withDoubleStar ⟨star.mono fifth, hint⟩⟩) fun _ _ holds => holds
  refine (at? .name).same fun named third => (at? .leftParen).same fun nested fourth => features.same fun f fifth => ?_
  have alike := alike.mono (third.trans (fourth.trans fifth))
  split
  · refine (parameter works).bind fun _ _ _ node => (parameterHint works hints).bind fun _ _ sixth hint =>
      (announced (works.test true) rfl).bind fun _ _ seventh default => .pure (.some ⟨rfl, ?_⟩) fun _ _ holds => holds
    have alike := (alike.mono ‹_›).mono (sixth.trans seventh)
    have node := Likeness.Alike.mono node (sixth.trans seventh)
    have hint := hint.mono seventh
    split
    · exact alike.addKeywordOnly node hint default
    · exact alike.add node hint default
  · exact .pure .none Frame.At.stepped

theorem parameterList (works : e.InStep c) (stop : TokenKind) (hints : Bool) :
    c.Follows here W (Parser.parameterList e stop hints) (Parser.parameterList e stop hints) := by
  have none : Alike W ((none, false, .empty) : Option Nat × Bool × ParameterList) (none, false, .empty) :=
    ⟨.none, rfl, ParameterList.Alike.empty⟩
  refine (repeated none fun made made' le alike => ?_).bind fun _ _ _ made => .pure made.2.2 fun _ _ holds => holds
  obtain ⟨last, keywordOnly, list⟩ := made
  obtain ⟨last', keywordOnly', list'⟩ := made'
  obtain ⟨lasts, same, lists⟩ := alike
  obtain rfl : keywordOnly = keywordOnly' := same
  refine (at? stop).same fun ends first => (hasProgressed (lasts.mono first)).same fun progressed second => ?_
  have lasts := lasts.mono (first.trans second)
  have lists := lists.mono (first.trans second)
  split
  · exact .pure ⟨lasts, rfl, lists⟩ Frame.At.stepped
  refine position fun p q third heres => (parameterEntry works hints keywordOnly (lists.mono third)).bind
    fun entry entry' fourth entries => ?_
  have heres := heres.mono fourth
  cases entries with
  | none => exact .pure ⟨heres, rfl, lists.mono (third.trans fourth)⟩ fun _ _ holds => holds
  | @some found found' alike =>
    obtain ⟨keywordOnly, list⟩ := found
    obtain ⟨keywordOnly', list'⟩ := found'
    refine (eat_inline rfl).same fun comma fifth => ?_
    have entries : Alike _ ((some p.position, keywordOnly, list) : Option Nat × Bool × ParameterList)
        (some q.position, keywordOnly', list') := ⟨heres.mono fifth, alike.1, alike.2.mono fifth⟩
    split
    · exact .pure entries fun _ _ holds => holds
    · exact .pure entries fun _ _ holds => holds

theorem lambda (works : e.InStep c) (conditional : Bool) :
    Parallel c (c.At (· = .kwLambda)) (fun _ => c.Stepped) W (Parser.lambda e conditional)
      (Parser.lambda e conditional) := by
  refine build (fun _ _ holds => holds.1) fun _ => (bump_at rfl).discard fun _ _ => ?_
  have list : ∀ {W here}, c.Follows here W (Parser.parameterList e .colon false >>= fun list =>
      pure (Detail.none, list.children)) (Parser.parameterList e .colon false >>= fun list =>
      pure (Detail.none, list.children)) := (parameterList works .colon false).bind fun _ _ _ list =>
    .pure ⟨rfl, list.children⟩ fun _ _ holds => holds
  refine (build (fun _ _ holds => holds.1) fun _ => list).bind fun _ _ _ parameters => expect rfl rfl fun first =>
    (works.test conditional).bind fun _ _ second body =>
      .pure ⟨rfl, (alike_child .args (parameters.mono (first.trans second))).append (alike_child .body body)⟩
        fun _ _ holds => holds

end Parallel

end TolerantParser
