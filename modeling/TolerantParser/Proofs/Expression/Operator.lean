import TolerantParser.Parser.Expression.Operator
import TolerantParser.Proofs.Expression.Atom

/-!
Operators, and expressions as a whole. An operator takes in the operand before it. In the end the
productions do what they should however many levels they may nest, and unless they are the floor of
nesting they take the token that an expression starts with.
-/

namespace TolerantParser

namespace Parser

variable {laid lead starts : Prop} {mode : Mode} {level : Depth} {p q r : Parser} {ps qs : List Piece}
  {e : Nested}

/-- The tokens that an operand of arithmetic starts with. -/
def startsOperand (kind : TokenKind) : Bool :=
  startsAtom kind || (unaryOperators.lookup kind).isSome

/-- The tokens that an operand of a Boolean operator starts with. -/
def startsNot (kind : TokenKind) : Bool := startsOperand kind || kind == .kwNot

theorem startsExpression_eq (kind : TokenKind) :
    startsExpression kind = (startsNot kind || kind == .kwLambda) := by
  cases kind <;> rfl

/-! ### Arithmetic -/

/-- The operators of a level stand in a line and are no names, and they all bind equally. -/
structure InLine (operators : OperatorLevel) (binding : Binding) : Prop where
  ordinary : ∀ pair ∈ operators, pair.1.isOrdinary ∧ pair.1 ≠ .name
  binds : ∀ pair ∈ operators, pair.2 ≠ "**" ∧ Binding.ofBinary pair.2 = binding

theorem InLine.of_lookup {operators : OperatorLevel} {binding : Binding} (inLine : InLine operators binding)
    {kind : TokenKind} {op : String} (found : operators.lookup kind = some op) :
    (kind.isOrdinary ∧ kind ≠ .name) ∧ op ≠ "**" ∧ Binding.ofBinary op = binding := by
  obtain ⟨before, after, rfl, -⟩ := List.lookup_eq_some_iff.1 found
  exact ⟨inLine.ordinary (kind, op) (by simp), inLine.binds (kind, op) (by simp)⟩

theorem unaryOperator_spec {kind : TokenKind} {op : String} (found : unaryOperators.lookup kind = some op) :
    kind.isOrdinary ∧ Binding.ofNode .unary (.operator op) = .sign := by
  have all : ∀ pair ∈ unaryOperators, pair.1.isOrdinary ∧ Binding.ofNode .unary (.operator pair.2) = .sign := by
    unfold unaryOperators
    decide
  obtain ⟨before, after, split, -⟩ := List.lookup_eq_some_iff.1 found
  exact all (kind, op) (by simp [split])

theorem prefixed_parses {operand : ParseM Node} (op : String)
    (works : OperandItem laid level (.ofNode .unary (.operator op)) operand)
    (ready : Ready laid .line level p) (ordinary : p.cell.kind.isOrdinary) :
    Parses laid .line True level (prefixed op operand) p (Operand (.ofNode .unary (.operator op))) := by
  refine build_line ready ?_ rfl
  rw [parses_iff, discard_bind]
  refine ready.opened.bump ordinary fun cell q same moves ready _ => ?_
  refine moves.bind (works q ready) fun operand qs q moves ready ⟨⟨run, made, _⟩, binds⟩ => ?_
  refine moves.done ready ⟨by simp [gathers_iff, made], .child binds fun _ => id, fun _ => ?_, nofun, nofun, le_refl _,
    fun _ _ => .free rfl⟩
  simpa [made, same] using TokenKind.ne_leftParen_of_isOrdinary ordinary

theorem infixed_extends {operand : ParseM Node} {least : Binding} (op : String) {left : Node}
    (lefts : Groups .binary (.operator op) (child .left left)) (works : OperandItem laid level least operand)
    (rights : ∀ right, least ≤ right → Binding.Suits .binary (.operator op) .right right)
    (ready : Ready laid .line level q) (ordinary : q.cell.kind.isOrdinary) (other : q.cell.kind ≠ .name) :
    Extends laid level left (infixed op left operand) q (.ofBinary op) fun r => r.weight < q.weight := by
  refine build_follows ready other ?_ rfl
  rw [parses_iff, discard_bind]
  refine ready.opened.bump ordinary fun cell r same moves ready _ => ?_
  refine moves.bind (works r ready) fun right qs r moves ready ⟨⟨run, made, _⟩, binds⟩ => ?_
  refine moves.done ready ⟨by simp [gathers_iff, made], lefts.append (.child binds rights), fun _ => ?_, nofun, nofun,
    le_refl _, fun _ _ => .free rfl⟩
  simpa [made, same] using TokenKind.ne_leftParen_of_isOrdinary ordinary

theorem power_parses (works : e.Works laid starts) (ready : Ready laid .line level p) :
    Parses laid .line (startsAtom p.cell.kind) level (power e) p (Operand .power) := by
  rw [parses_iff, power]
  refine (atomWithTrailers_parses works ready).bind fun base ps q moves ready ⟨⟨run, made, filled⟩, binds⟩ => ?_
  rw [completes_at]
  split
  next here =>
    have here : q.cell.kind = .doubleStar := by simpa using here
    have lefts : Groups .binary (.operator "**") (child .left base) :=
      .child binds fun _ tight => by simpa [Binding.Suits] using tight
    subst made
    exact moves.extendLast filled (infixed_extends "**" lefts works.factor
      (fun _ tight => by simpa [Binding.Suits] using tight) ready (by simp [here]; rfl) (by simp [here]))
  next => exact moves.done ready ⟨⟨run, made, filled⟩, binds.mono (by decide)⟩

theorem factor_parses (works : e.Works laid starts) (ready : Ready laid .line level p) :
    Parses laid .line (startsOperand p.cell.kind) level (factor e) p (Operand .sign) := by
  rw [parses_iff, factor, completes_current]
  split
  next op found =>
    obtain ⟨ordinary, sign⟩ := unaryOperator_spec found
    exact sign ▸ (prefixed_parses op (sign ▸ works.factor) ready ordinary).forget
  next none =>
    refine ((power_parses works ready).weaken fun led => ?_).looser (by decide)
    simpa [startsOperand, none] using led

/-- The operands of a level bind more tightly than its operators. The first one may become part of what is on the
left of an operator, and is not in need of parentheses there. -/
theorem binary_parses {operand : ParseM Node} {operators : OperatorLevel} {binding tighter : Binding}
    (inLine : InLine operators binding) (lt : binding < tighter)
    (first : Parses laid .line lead level operand p (Operand tighter))
    (works : OperandItem laid level tighter operand) :
    Parses laid .line lead level (binary operators operand) p (Operand binding) := by
  rw [parses_iff, binary]
  refine first.bind fun left ps q moves ready made => ?_
  refine moves.loop (Operand binding) (Operand binding) ready (made.mono lt.le) ?_
  rintro left ps q moves ready ⟨⟨run, rfl, filled⟩, binds⟩
  rw [completes_current]
  split
  next op found =>
    obtain ⟨there, other, same⟩ := inLine.of_lookup found
    subst same
    have lefts : Groups .binary (.operator op) (child .left left) :=
      .child binds fun _ tight => by simpa [Binding.Suits, other, Binding.ofNode] using tight
    refine moves.takesIn filled (infixed_extends op lefts works (fun _ tight => ?_) ready there.1 there.2)
    simpa [Binding.Suits, other, Binding.ofNode] using lt.trans_le tight
  next => exact moves.done ready ⟨⟨run, rfl, filled⟩, binds⟩

/-- Each level of operators binds more loosely than the next one, and the last more loosely than its operands. -/
inductive Tightens (operand : Binding) : List OperatorLevel → Binding → Prop
  | nil : Tightens operand [] operand
  | cons {operators : OperatorLevel} {levels : List OperatorLevel} {binding tighter : Binding}
    (inLine : InLine operators binding) (lt : binding < tighter) (rest : Tightens operand levels tighter) :
    Tightens operand (operators :: levels) binding

theorem binaryChain_parses {operand : ParseM Node} (start : TokenKind → Prop) {levels : List OperatorLevel}
    {least binding : Binding} (tightens : Tightens least levels binding)
    (works : ∀ {p}, Ready laid .line level p →
      Parses laid .line (start p.cell.kind) level operand p (Operand least))
    (ready : Ready laid .line level p) :
    Parses laid .line (start p.cell.kind) level (binaryChain operand levels) p (Operand binding) := by
  induction tightens generalizing p with
  | nil => exact works ready
  | cons inLine lt _ ih =>
    exact binary_parses inLine lt (ih ready) fun p ready => (ih ready).weaken False.elim

theorem tightens_binaryLevels : Tightens .sign binaryLevels .bar :=
  .cons ⟨by decide, by decide⟩ (by decide : Binding.bar < .circumflex) <|
  .cons ⟨by decide, by decide⟩ (by decide : Binding.circumflex < .ampersand) <|
  .cons ⟨by decide, by decide⟩ (by decide : Binding.ampersand < .shift) <|
  .cons ⟨by decide, by decide⟩ (by decide : Binding.shift < .sum) <|
  .cons ⟨by decide, by decide⟩ (by decide : Binding.sum < .product) <|
  .cons ⟨by decide, by decide⟩ (by decide : Binding.product < .sign) .nil

theorem expr_parses (works : e.Works laid starts) (ready : Ready laid .line level p) :
    Parses laid .line (startsOperand p.cell.kind) level (expr e) p (Operand .bar) :=
  binaryChain_parses (fun kind => startsOperand kind) tightens_binaryLevels
    (fun ready => factor_parses works ready) ready

theorem expr_operand (works : e.Works laid starts) : OperandItem laid level .bar (expr e) :=
  fun _ ready => (expr_parses works ready).weaken False.elim

theorem expr_item (works : e.Works laid starts) : Item laid level (expr e) := (expr_operand works).item

theorem exprList_item (works : e.Works laid starts) : Item laid level (exprList e) :=
  testList_item (expr_item works)

/-! ### Comparisons -/

/-- What a comparison operator begins with. -/
inductive AtComparison (p : Parser) : Prop
  | operator (here : isComparison p.cell.kind)
  | notIn (here : p.cell.kind = .kwNot) (next : p.kinds[1]? = some .kwIn)

/-- Only what comes next counts. -/
theorem AtComparison.ahead (here : AtComparison p) (cell : q.cell = p.cell) (kinds : q.kinds = p.kinds) :
    AtComparison q := by
  cases here with
  | operator here => exact .operator (cell ▸ here)
  | notIn here next => exact .notIn (cell ▸ here) (kinds ▸ next)

theorem atComparison_parses (ready : Ready laid .line level p) :
    Parses laid .line False level atComparison p fun there qs q =>
      qs = [] ∧ (there ↔ AtComparison p) ∧ (AtComparison p → AtComparison q) := by
  rw [parses_iff, atComparison, completes_at]
  split
  next here =>
    have here : p.cell.kind = .kwNot := by simpa using here
    refine (Moves.refl laid .line p).nth ready fun q moves ready' still _ => ?_
    refine moves.done ready' ⟨rfl, ⟨fun there => .notIn here ?_, fun at' => ?_⟩, fun at' =>
      at'.ahead still.cell still.kinds⟩
    · have second : p.kinds[1]?.getD .endOfFile = .kwIn := by simpa using there
      cases found : p.kinds[1]? with
      | none => simp [found] at second
      | some kind => rw [← second, found, Option.getD_some]
    · cases at' with
      | operator other => simp [here, isComparison] at other
      | notIn _ next => simp [next]
  next other =>
    rw [← bind_pure (atSet? isComparison), completes_atSet]
    refine (Moves.refl laid .line p).done ready ⟨rfl, ⟨fun there => .operator there, fun at' => ?_⟩, id⟩
    cases at' with
    | operator here => exact here
    | notIn here => simp [here] at other

theorem isOrdinary_of_isComparison {kind : TokenKind} (here : isComparison kind) :
    kind.isOrdinary ∧ kind ≠ .name := by
  cases kind <;> first | exact ⟨rfl, by decide⟩ | cases here

theorem AtComparison.ordinary (here : AtComparison p) : p.cell.kind.isOrdinary ∧ p.cell.kind ≠ .name := by
  cases here with
  | operator here => exact isOrdinary_of_isComparison here
  | notIn here => exact ⟨by simp [here]; rfl, by simp [here]⟩

/-- Only the tokens of the operator were gone over. -/
def Operated : Post String := fun op qs _ =>
  ∃ cells, qs = tokenPieces cells ∧ Spelled op cells ∧ ∀ cell ∈ cells, cell.kind ≠ .leftParen

theorem comparisonOperator_parses (ready : Ready laid .line level p) (here : AtComparison p) :
    Parses laid .line True level comparisonOperator p Operated := by
  have plain := TokenKind.ne_leftParen_of_isOrdinary here.ordinary.1
  rw [parses_iff, comparisonOperator]
  refine (bump_ordinary ready here.ordinary.1).bind fun cell qs q moves ready bumped => ?_
  have pieces := bumped.pieces
  obtain rfl := bumped.cell
  have alone : Operated p.cell.text qs q := ⟨[p.cell], pieces, .one _, by simpa using plain⟩
  split
  next word =>
    have word : p.cell.kind = .kwNot := by simpa using word
    have second : q.cell.kind = .kwIn := by
      cases here with
      | operator other => simp [word, isComparison] at other
      | notIn _ second =>
        rw [bumped.kinds, List.getElem?_cons_succ, kinds_head ready] at second
        exact Option.some.inj second
    rw [discard_bind]
    refine moves.bump ready (by simp [second]; rfl) fun cell r same moves ready _ => ?_
    exact moves.done ready ⟨[p.cell, cell], by simp [pieces, tokenPieces], .notIn word (same ▸ second),
      by simp [word, same, second]⟩
  next =>
    split
    next word =>
      have word : p.cell.kind = .kwIs := by simpa using word
      refine moves.eat ready rfl (fun cell r same moves ready _ => ?_) fun _ => ?_
      · exact moves.done ready ⟨[p.cell, cell], by simp [pieces, tokenPieces], .isNot word same, by simp [word, same]⟩
      · exact moves.done ready alone
    · exact moves.done ready alone

/-- What has been read of a comparison behind its first operand. -/
structure Compared (left : Node) (read : Array String × Array Node) (ps : List Piece) : Prop where
  made : nodesOf ps = read.2.toList
  binds : ∀ node ∈ nodesOf ps, node.Binds .bar
  bare : ∀ cell ∈ tokensOf ps, cell.kind ≠ .leftParen
  chain : ∀ run, run ≠ [] → Chain (.node left run :: ps) read.1.toList (left :: read.2.toList)

/-- The node for a comparison tells its operators and lists its operands. -/
theorem rows_comparison {left : Node} {ops : List String} {operands : List Node}
    (chain : Chain ps ops (left :: operands)) (some : operands ≠ []) :
    Rows .comparison (.comparison ops) (child .left left ++ several .comparators operands) ps := by
  have first : entriesOf .left (child .left left ++ several .comparators operands) = [Option.some left] := by
    simp [entriesOf_append, entriesOf_child, entriesOf_several]
  have others : entriesOf .comparators (child .left left ++ several .comparators operands) =
      operands.map Option.some := by
    simp [entriesOf_append, entriesOf_child, entriesOf_several]
  obtain ⟨full, under⟩ := full_of_entries others
  refine ⟨fun demand member => ?_, nofun, fun _ => ⟨full, ops, left, rfl, first, under.symm ▸ chain.between⟩, nofun⟩
  obtain rfl := Option.some.inj member
  exact under.symm ▸ List.length_pos_iff.2 some

theorem comparison_parses (works : e.Works laid starts) (ready : Ready laid .line level p) :
    Parses laid .line (startsOperand p.cell.kind) level (comparison e) p (Operand .comparison) := by
  rw [parses_iff, comparison]
  refine (expr_parses works ready).bind fun left ps q moves ready ⟨⟨run, made, filled⟩, lefts⟩ => ?_
  subst made
  refine moves.bind (atComparison_parses ready) fun there qs q moves ready ⟨nothing, at', still⟩ => ?_
  subst nothing
  split
  swap
  · exact moves.done ready ⟨⟨run, rfl, filled⟩, lefts.mono (by decide)⟩
  next there =>
  have here := still (at'.1 there)
  -- as long as nothing has been read the parser stands at an operator
  let inv : Post (Array String × Array Node) := fun read ps q =>
    Compared left read ps ∧ (nodesOf ps = [] → AtComparison q)
  let kept : Post (Array String × Array Node) := fun read ps _ => Compared left read ps ∧ nodesOf ps ≠ []
  refine moves.extendLast filled (build_extends ready ?_ rfl)
  refine Completes.bind ((Moves.refl laid .line q.opened).loop inv kept ready.opened
    ⟨⟨rfl, by simp, by simp, fun _ => chain_singleton⟩, fun _ => here.ahead rfl rfl⟩ ?_) ?_
  · rintro ⟨ops, operands⟩ ps q before ready ⟨compared, waits⟩
    refine before.bind (atComparison_parses ready) fun there qs r moves ready ⟨nothing, at', still⟩ => ?_
    subst nothing
    split
    swap
    next away =>
      have same : ps ++ [] = ps := List.append_nil ps
      exact moves.done ready ⟨same.symm ▸ compared, same.symm ▸ fun none => away (at'.2 (waits none))⟩
    next there =>
    have here := still (at'.1 there)
    refine moves.bind ((comparisonOperator_parses ready here).lighter ready.rests here.ordinary.2)
      fun op qs s behind ready ⟨⟨cells, alone, spelled, bare⟩, lighter⟩ => ?_
    refine behind.bind (expr_operand works s ready) fun operand qs' t last ready ⟨⟨run, made, filled⟩, binds⟩ => ?_
    subst alone made
    refine last.done ready ⟨⟨⟨by simp [compared.made], ?_, ?_, fun span some => ?_⟩, by simp⟩, ?_⟩
    · simpa [or_imp, forall_and] using ⟨compared.binds, binds⟩
    · simpa [or_imp, forall_and] using ⟨compared.bare, bare⟩
    · simpa using (compared.chain span some).concat spelled filled
    calc t.weight
      _ ≤ s.weight := behind.later_le last
      _ < r.weight := lighter
      _ ≤ q.weight := before.later_le moves
  · rintro ⟨ops, operands⟩ ps r moves ready ⟨compared, some⟩
    refine moves.done ready ⟨by simp [gathers_iff, compared.made], ?_, fun _ => compared.bare, nofun, nofun,
      le_refl _, ?_⟩
    · exact (Groups.child lefts fun _ => id).append (.several (compared.made ▸ compared.binds) fun _ => id)
    · intro adopted taken
      cases taken with
      | node filled => exact rows_comparison (compared.chain _ filled) (compared.made ▸ some)

/-! ### Tests -/

theorem notTest_parses (works : e.Works laid starts) (ready : Ready laid .line level p) :
    Parses laid .line (startsNot p.cell.kind) level (notTest e) p (Operand .not) := by
  rw [parses_iff, notTest, completes_at]
  split
  next here =>
    have here : p.cell.kind = .kwNot := by simpa using here
    exact (prefixed_parses "not" works.notTest ready (by simp [here]; rfl)).forget
  next other =>
    refine ((comparison_parses works ready).weaken fun led => ?_).looser (by decide)
    simpa [startsNot, other] using led

theorem notTest_operand (works : e.Works laid starts) : OperandItem laid level .not (notTest e) :=
  fun _ ready => (notTest_parses works ready).weaken False.elim

theorem boolean_parses {operand : ParseM Node} {least : Binding} (word : TokenKind) (op : String)
    (lt : .ofNode .boolean (.operator op) < least) (first : Parses laid .line lead level operand p (Operand least))
    (works : OperandItem laid level least operand) (ordinary : word.isOrdinary)
    (named : word ≠ .name) :
    Parses laid .line lead level (boolean word op operand) p (Operand (.ofNode .boolean (.operator op))) := by
  rw [parses_iff, boolean]
  refine first.bind fun first ps q moves ready ⟨⟨run, made, filled⟩, binds⟩ => ?_
  rw [completes_at]
  split
  next here =>
    have here : q.cell.kind = word := by simpa using here
    subst made
    refine moves.extendLast filled (build_extends ready ?_ rfl)
    refine (separated_parted (fun _ => false) ready.opened first (fun _ => rfl) works ordinary named).bind
      fun nodes qs r moves ready ⟨parted, more⟩ => ?_
    have two : 2 ≤ nodes.length := by
      rw [parted.made, List.length_cons]
      exact Nat.succ_le_succ (List.length_pos_iff.2 (more here fun _ => rfl))
    refine moves.done ready ⟨by simp [gathers_iff, parted.made], .several ?_ fun _ => lt.trans_le,
      fun _ => parted.bare (TokenKind.ne_leftParen_of_isOrdinary ordinary), nofun, nofun, le_refl _, fun _ _ => ?_⟩
    · simpa [parted.made] using ⟨binds, parted.binds⟩
    · exact .several rfl two nofun
  next => exact moves.done ready ⟨⟨run, made, filled⟩, binds.mono lt.le⟩

theorem andTest_parses (works : e.Works laid starts) (ready : Ready laid .line level p) :
    Parses laid .line (startsNot p.cell.kind) level (andTest e) p (Operand .and) :=
  boolean_parses .kwAnd "and" (by decide) (notTest_parses works ready) (notTest_operand works) rfl (by decide)

theorem orTest_parses (works : e.Works laid starts) (ready : Ready laid .line level p) :
    Parses laid .line (startsNot p.cell.kind) level (orTest e) p (Operand .or) :=
  boolean_parses .kwOr "or" (by decide) (andTest_parses works ready)
    (fun _ ready => (andTest_parses works ready).weaken False.elim) rfl (by decide)

theorem choice_extends (works : e.Works laid starts) (ready : Ready laid .line level q)
    (here : q.cell.kind = .kwIf) {body : Node} (binds : body.Binds .or) :
    Extends laid level body (build .choice do
      discard bump
      let condition ← orTest e
      let orElse ←
        if ← eat .kwElse then e.test true
        else name (some "Expected 'else' in conditional expression")
      return (.none, child .body body ++ child .test condition ++ child .orElse orElse)) q .test
      fun r => r.weight < q.weight := by
  refine build_follows ready (by simp [here]) ?_ rfl
  rw [parses_iff, discard_bind]
  refine ready.opened.bump (by simp [here]; rfl) fun cell r same moves ready _ => ?_
  refine moves.bind ((orTest_parses works ready).weaken False.elim)
    fun condition qs r moves ready ⟨⟨run, test, _⟩, binds'⟩ => ?_
  have groups : ∀ orElse, Groups .choice .none (child .body body ++ child .test condition ++ child .orElse orElse) :=
    fun orElse => ((Groups.child binds fun _ => id).append (.child binds' fun _ => id)).append
      (.child orElse.binds_none fun _ _ => trivial)
  refine moves.eat ready rfl (fun cell s other moves ready _ => ?_) fun _ => ?_
  · refine moves.bind (works.item true s ready) fun orElse more s moves ready ⟨run, last, _⟩ => ?_
    exact moves.done ready ⟨by simp [gathers_iff, test, last], groups orElse,
      fun _ => by simp [test, last, same, other, here],
      nofun, nofun, le_refl _, fun _ _ => .free rfl⟩
  · refine moves.bind (name_item _ r ready) fun orElse more s moves ready ⟨run, last, _⟩ => ?_
    exact moves.done ready ⟨by simp [gathers_iff, test, last], groups orElse, fun _ => by simp [test, last, same, here],
      nofun, nofun, le_refl _, fun _ _ => .free rfl⟩

theorem test_parses (works : e.Works laid starts) (ready : Ready laid .line level p)
    (conditional : Bool) :
    Parses laid .line (startsExpression p.cell.kind) level (test e conditional) p (Operand .test) := by
  rw [parses_iff, test, completes_at]
  split
  next here =>
    have here : p.cell.kind = .kwLambda := by simpa using here
    exact (lambda_parses works ready here conditional).forget
  next other =>
    have led : startsExpression p.cell.kind → startsNot p.cell.kind := fun led => by
      rw [startsExpression_eq, Bool.or_eq_true] at led
      exact led.resolve_right other
    refine ((orTest_parses works ready).weaken led).bind
      fun body ps q moves ready ⟨⟨run, made, filled⟩, binds⟩ => ?_
    rw [completes_features, completes_at]
    split
    next choice =>
      have here : q.cell.kind = .kwIf := by simp at choice; exact choice.2
      subst made
      exact moves.extendLast filled (choice_extends works ready here binds)
    next => exact moves.done ready ⟨⟨run, made, filled⟩, binds.mono (by decide)⟩

/-! ### Levels -/

theorem broken_refl (sound : p.stream.Sound) : Broken False p p :=
  { Grows.refl p with
    sound := sound
    kept := List.prefix_append ..
    bumped := False.elim
    collectors := ⟨[], [], by simp⟩ }

theorem tooDeep_works (floor : ¬ starts) : Nested.tooDeep.Works laid starts where
  test _ ready := ⟨rfl, (broken_refl ready.sound).weaken fun led => floor led.1⟩
  orTest _ ready := ⟨rfl, broken_refl ready.sound⟩
  notTest _ ready := ⟨rfl, broken_refl ready.sound⟩
  expr _ ready := ⟨rfl, broken_refl ready.sound⟩
  factor _ ready := ⟨rfl, broken_refl ready.sound⟩
  parameter _ ready := ⟨rfl, broken_refl ready.sound⟩

theorem levels_works (laid : Prop) (depth : Nat) : (Nested.levels depth).Works laid (depth ≠ 0) := by
  induction depth with
  | zero => exact tooDeep_works (by simp)
  | succ depth ih =>
    exact {
      test := fun conditional ready => (test_parses ih ready conditional).weaken And.right
      orTest := fun _ ready => (orTest_parses ih ready).weaken False.elim
      notTest := fun _ ready => (notTest_parses ih ready).weaken False.elim
      expr := expr_operand ih
      factor := fun _ ready => (factor_parses ih ready).weaken False.elim
      parameter := parameter_item ih }

theorem full_works (limits : Limits) (laid : Prop) : (Nested.full limits).Works laid True := by
  have works := levels_works laid (limits.expression + 1)
  rwa [eq_true (Nat.succ_ne_zero _)] at works

end Parser

end TolerantParser
