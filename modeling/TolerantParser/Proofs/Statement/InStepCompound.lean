import TolerantParser.Proofs.Statement.Compound
import TolerantParser.Proofs.Statement.InStepSuite

/-!
Statements that hold blocks keep two parses in step. What goes on with such a statement behind a block begins with a
word that is looked for there, and nothing goes on with one where the common part has ended.
-/

namespace TolerantParser

instance : Likeness OpenClause where
  Alike W clause other := Alike W clause.marker other.marker ∧ Alike W clause.test other.test ∧
    Alike W clause.body other.body
  mono le alike := ⟨alike.1.mono le, alike.2.1.mono le, alike.2.2.mono le⟩
  all clause := ⟨Likeness.all clause.marker, Likeness.all clause.test, Likeness.all clause.body⟩

instance : Likeness Ladder where
  Alike W ladder other := Alike W ladder.last other.last ∧ Alike W ladder.outer other.outer ∧
    ladder.failed = other.failed
  mono le alike := ⟨alike.1.mono le, alike.2.1.mono le, alike.2.2⟩
  all ladder := ⟨Likeness.all ladder.last, Likeness.all ladder.outer, rfl⟩

namespace Parser

theorem at?_other {kind : TokenKind} {p : Parser} (other : p.cell.kind ≠ kind) : at? kind p = .ok false p :=
  congrArg (EStateM.Result.ok · p) (beq_eq_false_iff_ne.2 other)

theorem retains_complete (marker : Marker) (kind : NodeKind) (detail : Detail)
    (children : List (Label × Option Node)) : Retains (complete marker kind detail children) :=
  (retains_close marker).bind fun _ => retains_pure _

theorem blaming_missingFunction (marker : Marker) (decorators : List Node) :
    Blaming (missingFunction marker decorators) := by
  -- the name is taken as soon as the node for it has been begun
  have named : ∀ marker, Blaming (do
      let name ← (do
        discard <| takeMissingName (some "Expected 'def' or 'class' after decorator")
        return (Detail.name missingName, []) : ParseM (Detail × List (Label × Option Node)))
      complete marker .name name.1 name.2) := by
    intro marker
    rw [discard_bind, bind_assoc]
    refine Blaming.bind ?_ fun _ => (retains_pure _).bind fun _ => retains_complete _ _ _ _
    refine (blaming_recover _ _ _).bind fun outcome => ?_
    split
    · exact (retains_collect _).bind fun _ => retains_pure _
    · exact retains_throw _
  have begun : Blaming (build .name do
      discard <| takeMissingName (some "Expected 'def' or 'class' after decorator")
      return (Detail.name missingName, [])) := fun p => named _ _
  exact begun.bind fun _ => Retains.bind
    (retains_start.bind fun _ => (retains_pure _).bind fun _ => retains_complete _ _ _ _)
    fun _ => retains_complete _ _ _ _

end Parser

namespace Parallel

open TolerantParser.Parser (isClauseWord)

variable {α β : Type} [Likeness α] [Likeness β] {c : Frame} {W : Pairing} {here : TokenKind → Prop}
  {inner : TolerantParser.Inner}

/-! ### Conditions and loops -/

section

variable (guided : c.Guided) (works : inner.InStep c) (inline : ∀ kind, here kind → kind.isInline)

include guided works

theorem openClause (inline : ∀ kind, here kind → kind.isInline) {outer outer' : List OpenClause}
    (alike : Alike W outer outer') :
    Parallel c (c.At here) (fun _ => c.Along) W (Parser.openClause inner outer) (Parser.openClause inner outer') := by
  refine (start fun _ _ holds => holds.1).bind fun _ _ first begun => bumpText inline fun _ _ second _ text => ?_
  rw [text]
  exact (works.e.test true).bind fun _ _ third test => (expectColon _).bind fun _ _ fourth _ =>
    (suite guided works).bind fun _ _ fifth block => .pure
      ⟨⟨begun.mono (second.trans (third.trans (fourth.trans fifth))), test.mono (fourth.trans fifth), block.1⟩,
        alike.mono (first.trans (second.trans (third.trans (fourth.trans fifth)))), block.2⟩ fun _ _ along => along

omit guided works in
theorem closeLadder {node node' : Node} {outer outer' : List OpenClause} (made : Alike W node node')
    (alike : Alike W outer outer') :
    Parallel c c.Along (fun _ => c.Along) W (Parser.closeLadder node outer) (Parser.closeLadder node' outer') := by
  induction outer generalizing W node node' outer' with
  | nil =>
    cases alike
    exact .pure made fun _ _ along => along
  | cons clause outer ih =>
    cases alike with
    | cons same rest =>
      exact Parallel.bind (complete same.1 ⟨rfl, ((alike_child .test same.2.1).append
        (alike_several .body same.2.2)).append (alike_several .orElse (.cons made .nil))⟩)
          fun _ _ le made => ih made (Likeness.mono le rest)

theorem conditional (inline : ∀ kind, here kind → kind.isInline) :
    Parallel c (c.At here) (fun _ => c.Along) W (Parser.conditional inner) (Parser.conditional inner) := by
  refine (openClause guided works inline .nil).bind fun ladder ladder' _ alike => ?_
  refine (loop (fun _ => c.Along) (fun _ => c.Along) alike fun ladder ladder' first alike => ?_).bind
    fun ladder ladder' _ alike => ?_
  · refine (atJoint guided (.inl rfl)).same fun there second => ?_
    have alike := alike.mono second
    rw [← alike.2.2]
    split
    · exact .pure alike fun _ _ holds => holds.1
    next goesOn =>
      have there : there = true := by simp at goesOn; exact goesOn.2
      have inline : ∀ kind, kind = TokenKind.kwElif → kind.isInline := by
        rintro _ rfl
        rfl
      exact .before ((openClause guided works inline (.cons alike.1 alike.2.1)).bind fun _ _ _ alike =>
        .pure alike fun _ _ along => along) fun _ _ holds => (holds.2 there).at inline
  · rw [← alike.2.2]
    refine (elseClause guided works _ _).bind fun orElse orElse' first others => ?_
    have alike := alike.mono first
    exact Parallel.bind (complete alike.1.1 ⟨rfl, ((alike_child .test alike.1.2.1).append
      (alike_several .body alike.1.2.2)).append (alike_several .orElse others)⟩)
        fun _ _ le made => closeLadder made (alike.2.1.mono le)

theorem whileLoop (inline : ∀ kind, here kind → kind.isInline) :
    Parallel c (c.At here) (fun _ => c.Along) W (Parser.whileLoop inner) (Parser.whileLoop inner) := by
  refine build (fun _ _ holds => holds.1) fun _ => (bumpWord inline).discard fun _ _ => (works.e.test true).bind
    fun _ _ _ test => (expectColon _).bind fun _ _ first _ =>
      (suite guided works).bind fun block block' second blocks => ?_
  rw [← blocks.2]
  exact (elseClause guided works _ _).bind fun _ _ third others => .pure ⟨rfl,
    ((alike_child .test (test.mono (first.trans (second.trans third)))).append
      (alike_several .body (blocks.1.mono third))).append (alike_several .orElse others)⟩ fun _ _ along => along

theorem forLoop (inline : ∀ kind, here kind → kind.isInline) :
    Parallel c (c.At here) (fun _ => c.Along) W (Parser.forLoop inner) (Parser.forLoop inner) := by
  refine build (fun _ _ holds => holds.1) fun _ => (bumpWord inline).discard fun _ _ => (exprList works.e).bind
    fun target target' _ targets => (eat_inline rfl).same fun «in» first => ?_
  refine complainUnless rfl fun second => (testList (works.e.test true)).bind fun _ _ third iterable =>
    (expectColon _).bind fun _ _ fourth _ => (suite guided works).bind fun block block' fifth blocks => ?_
  rw [← blocks.2]
  have later := fourth.trans fifth
  exact (elseClause guided works _ _).bind fun _ _ sixth others => .pure ⟨rfl,
    (((alike_child .target (targets.mono (first.trans (second.trans (third.trans (later.trans sixth)))))).append
      (alike_child .iterable (iterable.mono (later.trans sixth)))).append
        (alike_several .body (blocks.1.mono sixth))).append (alike_several .orElse others)⟩ fun _ _ along => along

theorem withBlock (inline : ∀ kind, here kind → kind.isInline) :
    Parallel c (c.At here) (fun _ => c.Along) W (Parser.withBlock inner) (Parser.withBlock inner) := by
  refine build (fun _ _ holds => holds.1) fun _ => (bumpWord inline).discard fun _ _ => (works.e.test true).bind
    fun _ _ _ context => (announced (expr works.e) rfl).bind fun _ _ first boundTo => (expectColon _).bind
      fun _ _ second _ => (suite guided works).bind fun block block' third blocks => ?_
  have later := second.trans third
  exact .pure ⟨rfl, ((alike_child .context (context.mono (first.trans later))).append
    (alike_child? .boundTo (boundTo.mono later))).append (alike_several .body blocks.1)⟩ fun _ _ along => along

/-! ### Try and with -/

omit guided in
theorem caught : c.Follows here W (Parser.caught inner.e) (Parser.caught inner.e) := by
  refine features.same fun f _ => (optional (works.e.test true)).bind fun type type' _ types => ?_
  cases types with
  | none => exact .pure ⟨.none, .none⟩ Frame.At.stepped
  | @some type type' types =>
    have types : Alike _ type type' := types
    refine (at? _).same fun isAs first => ?_
    split
    next isAs =>
      refine .before ?_ (Frame.At.there isAs)
      dsimp only
      refine complainUnless rfl fun second => (bump_at rfl).discard fun _ third => .ite ?_ ?_
      · exact (works.e.test true).bind fun _ _ fourth name => .pure
          ⟨.some (types.mono (first.trans (second.trans (third.trans fourth)))), .some name⟩ fun _ _ holds => holds
      · exact (Parallel.name none).bind fun _ _ fourth name => .pure
          ⟨.some (types.mono (first.trans (second.trans (third.trans fourth)))), .some name⟩ fun _ _ holds => holds
    refine (at? _).same fun comma second => ?_
    split
    next comma =>
      refine .before ?_ (Frame.At.there comma)
      exact complainUnless rfl fun third => (bump_at rfl).discard fun _ fourth =>
        (works.e.test true).bind fun _ _ fifth name =>
        .pure ⟨.some (types.mono (first.trans (second.trans (third.trans (fourth.trans fifth))))), .some name⟩
          fun _ _ holds => holds
    · exact .pure ⟨.some (types.mono (first.trans second)), .none⟩ Frame.At.stepped

theorem handler : Parallel c (c.At (· = .kwExcept)) (fun _ => c.Along) W (Parser.handler inner)
    (Parser.handler inner) := by
  refine (start fun _ _ holds => holds.1).bind fun _ _ first begun => (bump_at rfl).discard fun _ second =>
    (caught works).bind fun what what' third whats => ?_
  obtain ⟨type, name⟩ := what
  obtain ⟨type', name'⟩ := what'
  refine (expectColon _).bind fun _ _ fourth _ => (suite guided works).bind fun block block' fifth blocks => ?_
  have whats := whats.mono (fourth.trans fifth)
  have begun := begun.mono (second.trans (third.trans (fourth.trans fifth)))
  exact Parallel.bind (complete begun ⟨rfl, ((alike_child? .type whats.1).append (alike_child? .name whats.2)).append
    (alike_several .body blocks.1)⟩) fun _ _ sixth node => .pure ⟨node, blocks.2⟩ fun _ _ along => along

theorem handlers (failed : Bool) :
    Parallel c c.Along (fun _ => c.Along) W (Parser.handlers inner failed) (Parser.handlers inner failed) := by
  have nothing : Alike W ((#[], failed) : Array Node × Bool) (#[], failed) := ⟨.empty, rfl⟩
  refine (loop (fun _ => c.Along) (fun _ => c.Along) nothing fun made made' _ alike => ?_).bind
    fun made made' _ alike => .pure ⟨alike.1, alike.2⟩ fun _ _ along => along
  obtain ⟨nodes, failed⟩ := made
  obtain ⟨nodes', failed'⟩ := made'
  obtain ⟨alike, rfl⟩ : Alike _ nodes nodes' ∧ failed = failed' := alike
  refine (atJoint guided (.inl rfl)).same fun there first => ?_
  split
  · exact .pure ⟨alike.mono first, rfl⟩ fun _ _ holds => holds.1
  next goesOn =>
    have there : there = true := by simp at goesOn; exact goesOn.2
    exact .before ((handler guided works).bind fun made made' second both =>
      .pure ⟨(alike.mono (first.trans second)).push both.1, both.2⟩ fun _ _ along => along)
        fun _ _ holds => (holds.2 there).at (by rintro _ rfl; rfl)

theorem tryElse (handled failed : Bool) :
    Parallel c c.Along (fun _ => c.Along) W (Parser.tryElse inner handled failed)
      (Parser.tryElse inner handled failed) := by
  refine (atJoint guided (.inl rfl)).same fun there _ => ?_
  split
  · exact .pure ⟨.nil, rfl⟩ fun _ _ holds => holds.1
  next goesOn =>
    have there : there = true := by simp at goesOn; exact goesOn.2
    refine .before (complainUnless rfl fun _ => (bump_at rfl).discard fun _ _ => (expectColon _).bind fun _ _ _ _ =>
      suite guided works) fun _ _ holds => (holds.2 there).at (by rintro _ rfl; rfl)

theorem finalClause (handled : Bool) : Parallel c (c.At (· = .kwFinally)) (fun _ => c.Along) W
    (Parser.finalClause inner handled) (Parser.finalClause inner handled) :=
  features.same fun _ _ => complainIf rfl fun _ => (bump_at rfl).discard fun _ _ => (expectColon _).bind fun _ _ _ _ =>
    (suite guided works).bind fun _ _ _ block => .pure block.1 fun _ _ along => along

theorem tryBlock (inline : ∀ kind, here kind → kind.isInline) :
    Parallel c (c.At here) (fun _ => c.Along) W (Parser.tryBlock inner) (Parser.tryBlock inner) := by
  refine build (fun _ _ holds => holds.1) fun _ => (bumpWord inline).discard fun _ _ => (expectColon _).bind
    fun _ _ _ _ => (suite guided works).bind fun block block' _ blocks => ?_
  rw [← blocks.2]
  refine (handlers guided works _).bind fun handled handled' first alike => ?_
  obtain ⟨nodes, failed⟩ := handled
  obtain ⟨nodes', failed'⟩ := handled'
  obtain ⟨handled, rfl⟩ : Alike _ nodes nodes' ∧ failed = failed' := alike
  have empty : nodes.isEmpty = nodes'.isEmpty := alike_isEmpty handled
  dsimp only
  rw [← empty]
  refine (tryElse guided works _ _).bind fun orElse orElse' second others => ?_
  rw [← others.2]
  refine (atJoint guided (.inl rfl)).same fun {W₃} there third => ?_
  have made : ∀ {W'} {final final' : List Node}, W₃ ≤ W' → Alike W' final final' → Alike W'
      (several .body block.body ++ several .handlers nodes ++ several .orElse orElse.body ++ several .finalBody final)
      (several .body block'.body ++ several .handlers nodes' ++ several .orElse orElse'.body ++
        several .finalBody final') := fun le final =>
    (((alike_several .body (blocks.1.mono (first.trans (second.trans (third.trans le))))).append
      (alike_several .handlers (handled.mono (second.trans (third.trans le))))).append
        (alike_several .orElse (others.1.mono (third.trans le)))).append (alike_several .finalBody final)
  split
  next hasFinal =>
    have there : there = true := by simp at hasFinal; exact hasFinal.2
    exact .before ((finalClause guided works _).bind fun _ _ fourth final => complainAlongIf guided rfl fun fifth =>
      .pure ⟨rfl, made (fourth.trans fifth) (final.mono fifth)⟩ fun _ _ along => along)
        fun _ _ holds => (holds.2 there).at (by rintro _ rfl; rfl)
  next =>
    rw [pure_bind, pure_bind]
    refine .before ?_ fun _ _ holds => holds.1
    exact complainAlongIf guided rfl fun fourth => .pure ⟨rfl, made fourth .nil⟩ fun _ _ along => along

/-! ### Functions and classes -/

omit guided in
theorem signature : c.Follows here W (Parser.signature inner.e) (Parser.signature inner.e) := by
  refine build (fun _ _ holds => holds.1) fun _ => (eat_inline rfl).same fun there _ => ?_
  split
  · exact features.same fun f _ => (parameterList works.e _ _).bind fun _ _ _ list => (expectCloser _ rfl).discard
      fun _ le => .pure ⟨rfl, list.children.mono le⟩ fun _ _ holds => holds
  · exact (complain _ rfl).bind fun _ _ _ _ => .pure ⟨rfl, .nil⟩ Frame.At.stepped

theorem function (inline : ∀ kind, here kind → kind.isInline) {marker marker' : Marker}
    {decorators decorators' : List Node} (begun : Alike W marker marker') (alike : Alike W decorators decorators') :
    Parallel c (c.At here) (fun _ => c.Along) W (Parser.function inner marker decorators)
      (Parser.function inner marker' decorators') := by
  refine (bumpWord inline).discard fun _ first => (Parallel.name none).bind fun _ _ second name =>
    (signature works).bind fun _ _ third args => features.same fun f fourth => ?_
  have begun := begun.mono (first.trans (second.trans (third.trans fourth)))
  have decorated := alike.mono (first.trans (second.trans (third.trans fourth)))
  have name := name.mono (third.trans fourth)
  have args := args.mono fourth
  rw [Parser.ite_bind, Parser.ite_bind]
  refine (announcedIf (works.e.test true) rfl).bind fun _ _ fifth returns => (expectColon _).bind fun _ _ sixth _ =>
    (suite guided works).bind fun _ _ seventh block => ?_
  have later := fifth.trans (sixth.trans seventh)
  exact complete (begun.mono later) ⟨rfl, ((((alike_several .decorators (decorated.mono later)).append
    (alike_child .name (name.mono later))).append (alike_child .args (args.mono later))).append
      (alike_child? .returns (returns.mono (sixth.trans seventh)))).append (alike_several .body block.1)⟩

omit guided in
theorem baseClasses : c.Follows here W (Parser.baseClasses inner.e) (Parser.baseClasses inner.e) := by
  refine (eat_inline rfl).same fun there _ => ?_
  split
  swap
  · exact .pure .nil fun _ _ holds => holds
  have nothing : ∀ {W}, Alike W (#[] : Array Node) #[] := .empty
  refine (at_follows _).same fun closes _ => features.same fun f _ => complainIf rfl fun _ =>
    (repeated nothing fun bases bases' _ alike => ?_).bind fun bases bases' _ alike =>
      (expectCloser none rfl).discard fun _ le => .pure (Likeness.Alike.mono alike le) fun _ _ holds => holds
  refine canStartExpression.same fun starts first => ?_
  split
  · refine (works.e.test true).bind fun _ _ second base => (eat_inline rfl).same fun comma third => ?_
    have alike := (alike.mono (first.trans (second.trans third))).push (base.mono third)
    exact .ite (.pure alike fun _ _ holds => holds) (.pure alike fun _ _ holds => holds)
  · exact .pure (alike.mono first) Frame.At.stepped

theorem classBody (inline : ∀ kind, here kind → kind.isInline) {marker marker' : Marker}
    {decorators decorators' : List Node} (begun : Alike W marker marker') (alike : Alike W decorators decorators') :
    Parallel c (c.At here) (fun _ => c.Along) W (Parser.classBody inner marker decorators)
      (Parser.classBody inner marker' decorators') := by
  refine (bumpWord inline).discard fun _ first => (Parallel.name none).bind fun _ _ second name =>
    (baseClasses works).bind fun _ _ third bases => (expectColon _).bind fun _ _ fourth _ =>
      (suite guided works).bind fun _ _ fifth block => ?_
  have later := third.trans (fourth.trans fifth)
  exact complete (begun.mono (first.trans (second.trans later))) ⟨rfl,
    (((alike_several .decorators (alike.mono (first.trans (second.trans later)))).append
      (alike_child .name (name.mono later))).append (alike_several .bases (bases.mono (fourth.trans fifth)))).append
        (alike_several .body block.1)⟩

omit guided in
theorem decoratorTarget :
    c.Follows here W (Parser.decoratorTarget inner.e) (Parser.decoratorTarget inner.e) := by
  refine (Parallel.name none).bind fun _ _ _ first => (repeated first fun target target' _ alike => ?_).bind
    fun target target' _ alike => (at? _).same fun opens le => ?_
  · refine (at? _).same fun dot le => ?_
    split
    next dot =>
      exact .before ((member (alike.mono le)).bind fun _ _ _ target => .pure target fun _ _ holds => holds)
        (Frame.At.there dot)
    next => exact .pure (alike.mono le) Frame.At.stepped
  · split
    next opens => exact .before (call works.e (alike.mono le)) (Frame.At.there opens)
    next => exact .pure (alike.mono le) Frame.At.stepped

omit guided in
theorem decorator : Parallel c (c.At (· = .at)) (fun _ => c.Along) W (Parser.decorator inner.e)
    (Parser.decorator inner.e) := by
  have ended : ∀ {W node node'}, Alike W node node' → Parallel c c.Stepped (fun _ => c.Along) W
      (Parser.endLine node (· == .newline) "decorator") (Parser.endLine node' (· == .newline) "decorator") :=
    fun alike => (endLine alike _ fun _ line => by rw [eq_of_beq line]; rfl).weaken (fun _ _ holds => holds)
      fun _ _ _ past => past.1
  refine Parallel.bind (build (fun _ _ holds => holds.1) fun _ => (bump_at rfl).discard fun _ _ =>
    (decoratorTarget works).bind fun _ _ _ target => ?_) fun _ _ _ node => ended node
  exact .pure ⟨rfl, alike_child .function target⟩ fun _ _ holds => holds

omit guided works in
theorem missingFunction_at {marker marker' : Marker} {decorators decorators' : List Node}
    (begun : Alike W marker marker') (alike : Alike W decorators decorators') :
    c.Follows here W (Parser.missingFunction marker decorators) (Parser.missingFunction marker' decorators') := by
  have nameless : c.Follows here W (Parser.build .name do
      discard <| Parser.takeMissingName (some "Expected 'def' or 'class' after decorator")
      return (.name missingName, [])) (Parser.build .name do
      discard <| Parser.takeMissingName (some "Expected 'def' or 'class' after decorator")
      return (.name missingName, [])) :=
    build (fun _ _ holds => holds.1) fun _ => (takeMissingName _).discard fun _ _ =>
      .pure ⟨rfl, .nil⟩ Frame.At.stepped
  have bare : ∀ {W}, c.Follows (fun _ => True) W (Parser.build .parameters do return (.none, []))
      (Parser.build .parameters do return (.none, [])) :=
    build (fun _ _ holds => holds.1) fun _ => .pure ⟨rfl, .nil⟩ fun _ _ holds => holds
  exact nameless.bind fun _ _ first name => bare.bind fun _ _ second args =>
    complete (begun.mono (first.trans second)) ⟨rfl, ((alike_several .decorators
      (alike.mono (first.trans second))).append (alike_child .name (name.mono second))).append (alike_child .args args)⟩

omit works in
theorem missingFunction {marker marker' : Marker} {decorators decorators' : List Node}
    (begun : Alike W marker marker') (alike : Alike W decorators decorators') :
    Parallel c c.Along (fun _ => c.Along) W (Parser.missingFunction marker decorators)
      (Parser.missingFunction marker' decorators') := by
  have works : c.Follows (fun _ => True) W (Parser.missingFunction marker decorators)
      (Parser.missingFunction marker' decorators') := missingFunction_at begun alike
  exact blamed guided works.retains (Parser.blaming_missingFunction marker decorators) fun _ =>
    works.weaken (fun _ _ holds => holds) fun _ _ _ holds => holds.1.toAlong

theorem decorated : Parallel c (c.At (· = .at)) (fun _ => c.Along) W (Parser.decorated inner)
    (Parser.decorated inner) := by
  have nothing : ∀ {W}, Alike W (#[] : Array Node) #[] := .empty
  refine (start fun _ _ holds => holds.1).bind fun marker marker' _ begun => .before ?_ fun _ _ holds => holds.1.toAlong
  refine (Reaches.loop guided nothing (fun decorators decorators' _ alike => ?_) ?_).bind
    (fun decorators decorators' first alike => ?_) ?_
  · refine (atNear _).same fun there first => ?_
    split
    next there =>
      exact .before ((decorator works).bind fun _ _ second node =>
        .pure ((alike.mono (first.trans second)).push node) fun _ _ along => along) (Frame.Near.there there rfl)
    next => exact .pure (alike.mono first) fun _ _ near => ⟨near.1, near.2.1, trivial⟩
  · intro decorators p ended
    rw [TokenStream.bind_ok (Parser.at?_other (by rw [ended]; nofun))]
    rfl
  · have begun := begun.mono first
    have decorators : Alike _ decorators.toList decorators'.toList := alike
    refine (atNear _).same fun isDef second => ?_
    split
    next isDef =>
      exact .before (function guided works (by rintro _ rfl; rfl) (begun.mono second) (decorators.mono second))
        (Frame.Near.there isDef rfl)
    refine (atNear _).same fun isClass third => ?_
    have begun := begun.mono (second.trans third)
    have decorators := decorators.mono (second.trans third)
    split
    next isClass =>
      refine .before (features.same fun f fourth => complainUnless rfl fun fifth => ?_) (Frame.Near.there isClass rfl)
      exact classBody guided works (by rintro _ rfl; rfl) (begun.mono (fourth.trans fifth))
        (decorators.mono (fourth.trans fifth))
    next => exact (missingFunction guided begun decorators).before fun _ _ near => near.1
  · intro decorators p ended
    rw [TokenStream.bind_ok (Parser.at?_other (by rw [ended]; nofun))]
    show ¬ (Parser.after ((Parser.at? .kwClass >>= _) p)).Clean
    rw [TokenStream.bind_ok (Parser.at?_other (by rw [ended]; nofun))]
    exact Parser.blaming_missingFunction _ _ p

theorem compoundForm (form : CompoundForm) (inline : ∀ kind, here kind → kind.isInline)
    (decorates : form = .decorated → ∀ kind, here kind → kind = .at) :
    Parallel c (c.At here) (fun _ => c.Along) W (Parser.compoundForm inner form) (Parser.compoundForm inner form) := by
  cases form with
  | conditional => exact conditional guided works inline
  | whileLoop => exact whileLoop guided works inline
  | forLoop => exact forLoop guided works inline
  | tryBlock => exact tryBlock guided works inline
  | withBlock => exact withBlock guided works inline
  | function => exact (start fun _ _ holds => holds.1).bind fun _ _ _ begun => function guided works inline begun .nil
  | classBody => exact (start fun _ _ holds => holds.1).bind fun _ _ _ begun => classBody guided works inline begun .nil
  | decorated => exact (decorated guided works).before (Frame.At.imp (decorates rfl))

end

end Parallel

end TolerantParser
