import TolerantParser.Parser.Statement.Suite
import TolerantParser.Proofs.Expression.Operator

/-!
Statements that end with their line. The token behind a statement goes to it once it has been made, and so
does the rest of a line that should have ended.
-/

namespace TolerantParser.Parser

variable {α β : Type} {laid lead starts : Prop} {mode : Mode} {level : Depth} {p q r o : Parser}
  {ps qs : List Piece} {e : Nested}

/-- One node, to which tokens can be given, was made of all that was gone over. -/
inductive Sentence : Post Node
  | made {node : Node} {ps : List Piece} {q : Parser} (run : List Cell) (pieces : ps = [.node node run])
    (filled : run ≠ []) (firm : node.kind.isFirm) : Sentence node ps q

theorem build_listing {kind : NodeKind} {body : ParseM (Detail × List (Label × Option Node))}
    (ready : Ready laid .line level p)
    (parses : Parses laid .line True level body p.opened fun made ps q =>
      Gathers [] made ps q ∧ Rows kind made.1 made.2 ps)
    (plain : kind.isPlain) (firm : kind.isFirm) :
    Parses laid .line True level (build kind body) p Sentence :=
  build_parses _ ready parses fun _ _ _ moves ⟨parts, rows⟩ =>
    ⟨.plain parts plain firm rows, fun _ makes => ⟨_, rfl, moves.filled trivial ready.rests, makes.kind ▸ firm⟩⟩

theorem build_sentence {kind : NodeKind} {body : ParseM (Detail × List (Label × Option Node))}
    (ready : Ready laid .line level p)
    (parses : Parses laid .line True level body p.opened (Gathers []))
    (plain : kind.isPlain) (firm : kind.isFirm) (free : kind.isFree) :
    Parses laid .line True level (build kind body) p Sentence :=
  build_listing ready (parses.imp fun _ _ _ _ parts => ⟨parts, .free free⟩) plain firm

/-! ### Expressions as statements -/

theorem testListOrYield_parses (works : e.Works laid starts) (ready : Ready laid .line level p) :
    Parses laid .line (starts ∧ startsExpression p.cell.kind) level (testListOrYield e) p Expression :=
  yieldOr_parses works ready (testList_parses (works.test true ready).expression (works.item true))

theorem testListOrYield_item (works : e.Works laid starts) : Item laid level (testListOrYield e) :=
  fun _ ready => (testListOrYield_parses works ready).weaken False.elim

theorem isOrdinary_of_isAugmentedAssignment {kind : TokenKind} (here : kind.isAugmentedAssignment) :
    kind.isOrdinary := by
  cases kind <;> first | rfl | cases here

theorem expressionStatement_parses (works : e.Works laid starts) (ready : Ready laid .line level p) :
    Parses laid .line (starts ∧ startsExpression p.cell.kind) level (expressionStatement e) p
      Sentence := by
  rw [parses_iff, expressionStatement, completes_start]
  refine (testListOrYield_parses works ready.opened).bind
    fun first ps q moves ready' ⟨run, made, filled⟩ => ?_
  subst made
  -- whatever becomes of it, the statement holds the first expression
  have done : ∀ (qs : List Piece) {kind detail children r},
      Moves laid .line (starts ∧ startsExpression p.cell.kind) (.node first run :: qs) p.opened r →
      Ready laid .line level r → kind.isPlain → kind.isFirm →
      (∀ ps, Rows kind detail children ps) → first :: nodesOf qs = madeOf children →
        Completes laid .line (starts ∧ startsExpression p.cell.kind) level p
          (Parser.complete p.marker kind detail children) r Sentence := by
    intro qs kind detail children r moves ready' plain firm rows parts
    exact moves.complete ready.inside ready' (.plain parts plain firm (rows _)) fun node makes =>
      ⟨_, rfl, by simp [filled], makes.kind ▸ firm⟩
  rw [completes_atSet]
  split
  next here =>
    refine moves.bump ready' (isOrdinary_of_isAugmentedAssignment here) fun cell q _ moves ready' _ => ?_
    refine moves.bind (testListOrYield_item works q ready')
      fun value qs q moves ready' ⟨run', made, _⟩ => ?_
    exact done (.token cell :: qs) moves ready' rfl rfl (fun _ => .free rfl) (by simp [made])
  rw [completes_at]
  split
  next here =>
    have here : q.cell.kind = .equal := by simpa using here
    refine moves.bind (separated_parted (fun _ => false) ready' first (fun _ => rfl)
      (testListOrYield_item works).operands rfl (by decide)) fun parts qs q moves ready' ⟨parted, more⟩ => ?_
    have listed := parted.made
    have one : 1 ≤ parts.dropLast.length := by
      rw [listed, List.length_dropLast, List.length_cons, Nat.add_sub_cancel]
      exact List.length_pos_iff.2 (more here fun _ => rfl)
    refine done qs moves ready' rfl rfl (fun _ => .listing rfl ?_ one nofun) ?_
    · simp [entriesOf_append, entriesOf_several, entriesOf_child]
    have last : parts.getLast?.getD first = parts.getLast (by simp [listed]) := by
      rw [List.getLast?_eq_some_getLast, Option.getD_some]
    rw [madeOf_append, madeOf_several, madeOf_child, last, List.dropLast_concat_getLast, listed]
  next => exact done [] moves ready' rfl rfl (fun _ => .free rfl) (by simp)

/-! ### Statements that begin with a word -/

theorem wordStatement_parses {kind : NodeKind} (ready : Ready laid .line level p)
    (ordinary : p.cell.kind.isOrdinary) (plain : kind.isPlain) (firm : kind.isFirm) (free : kind.isFree) :
    Parses laid .line True level (wordStatement kind) p Sentence := by
  refine build_sentence ready ?_ plain firm free
  rw [parses_iff, discard_bind]
  refine ready.opened.bump ordinary fun cell q _ moves ready _ => ?_
  exact moves.done ready (by simp [gathers_iff])

/-- A part that is only looked for under a condition. -/
theorem conditional_part {c : Prop} [Decidable c] {steps : ParseM (Option Node)}
    (ready : Ready laid .line level p) (parses : Parses laid .line False level steps p Part) :
    Parses laid .line False level (if c then steps else pure none) p Part := by
  split
  · exact parses
  · exact (Moves.refl laid .line p).done ready ⟨rfl, plain_nil⟩

/-- What has been read of a print statement: the destination, if there is one, and the values. -/
structure Printed (destination : Option Node) (values : Array Node × Bool) (ps : List Piece) (q : Parser) :
    Prop where
  made : nodesOf ps = destination.toList ++ values.1.toList

theorem printStatement_parses (works : e.Works laid starts) (ready : Ready laid .line level p)
    (ordinary : p.cell.kind.isOrdinary) :
    Parses laid .line True level (printStatement e) p Sentence := by
  refine build_sentence ready ?_ rfl rfl rfl
  rw [parses_iff, discard_bind]
  refine ready.opened.bump ordinary fun cell q _ moves ready _ => ?_
  refine moves.bind (announced_parses ready (works.item true) rfl rfl) fun destination qs q moves ready part => ?_
  dsimp only
  rw [ite_bind, ← ite_not]
  refine moves.bind (conditional_part ready (optional_parses ready (works.item true)))
    fun first qs' q moves ready part' => ?_
  refine Completes.bind (moves.loop (Printed destination) (Printed destination) ready ⟨?_⟩ ?_) ?_
  · cases first <;> simp [part.1, part'.1]
  · rintro ⟨values, endsLine⟩ ps q before ready ⟨parts⟩
    refine before.eat ready rfl (fun cell r _ behind ready lighter => ?_) fun _ => ?_
    · rw [if_pos rfl, completes_canStartExpression]
      split
      · refine behind.bind (works.item true r ready) fun value qs s moves ready ⟨run, made, _⟩ => ?_
        exact moves.done ready ⟨⟨by simp [parts, made]⟩,
          Nat.lt_of_le_of_lt (behind.later_le moves) (lighter (by decide))⟩
      · exact behind.done ready ⟨by simpa using parts⟩
    · exact before.done ready ⟨parts⟩
  · rintro ⟨values, endsLine⟩ ps q moves ready ⟨parts⟩
    exact moves.done ready (by simp [gathers_iff, parts])

theorem deleteStatement_parses (works : e.Works laid starts) (ready : Ready laid .line level p)
    (ordinary : p.cell.kind.isOrdinary) :
    Parses laid .line True level (deleteStatement e) p Sentence := by
  refine build_listing ready ?_ rfl rfl
  rw [parses_iff, discard_bind]
  refine ready.opened.bump ordinary fun cell q _ moves ready _ => ?_
  refine moves.bind (expr_item works q ready) fun first qs q moves ready ⟨run, made, _⟩ => ?_
  refine moves.bind (commaSeparated_parses ready first (expr_item works))
    fun targets qs q moves ready parts => ?_
  exact moves.done ready ⟨by simp [gathers_iff, made, parts], .several rfl (by simp [parts]) nofun⟩

theorem returnStatement_parses (works : e.Works laid starts) (ready : Ready laid .line level p)
    (ordinary : p.cell.kind.isOrdinary) :
    Parses laid .line True level (returnStatement e) p Sentence := by
  refine build_sentence ready ?_ rfl rfl rfl
  rw [parses_iff, discard_bind]
  refine ready.opened.bump ordinary fun cell q _ moves ready _ => ?_
  refine moves.bind (optional_parses ready (testList_item (works.item true)))
    fun value qs q moves ready part => ?_
  exact moves.done ready (by simp [gathers_iff, part.1])

/-- What has been read of a raise statement behind its first expression. -/
structure Raised (arguments : List (Label × Option Node)) (ps : List Piece) (q : Parser) : Prop where
  made : nodesOf ps = madeOf arguments

theorem raiseArguments_parses (works : e.Works laid starts) (ready : Ready laid .line level p) :
    Parses laid .line False level (raiseArguments e) p Raised := by
  rw [parses_iff, raiseArguments, completes_features, ite_bind]
  refine (conditional_part ready (announced_parses ready (works.item true) rfl rfl)).bind
    fun cause ps q moves ready part => ?_
  dsimp only
  split
  · exact moves.done ready ⟨by simp [part.1]⟩
  next absent =>
  obtain rfl : cause = none := by simp at absent; exact absent.1
  refine moves.bind (announced_parses ready (works.item true) rfl rfl) fun inst qs q moves ready part' => ?_
  rw [ite_bind]
  refine moves.bind (conditional_part ready (announced_parses ready (works.item true) rfl rfl))
    fun traceback qs' q moves ready part'' => ?_
  exact moves.done ready ⟨by simp [part.1, part'.1, part''.1]⟩

theorem raiseStatement_parses (works : e.Works laid starts) (ready : Ready laid .line level p)
    (ordinary : p.cell.kind.isOrdinary) :
    Parses laid .line True level (raiseStatement e) p Sentence := by
  refine build_sentence ready ?_ rfl rfl rfl
  rw [parses_iff, discard_bind]
  refine ready.opened.bump ordinary fun cell q _ moves ready _ => ?_
  refine moves.bind (optional_parses ready (works.item true)) fun type qs q moves ready part => ?_
  cases type with
  | none => exact moves.done ready (by simp [gathers_iff, part.1])
  | some type =>
    refine moves.bind (raiseArguments_parses works ready) fun arguments qs' q moves ready ⟨parts⟩ => ?_
    exact moves.done ready (by simp [gathers_iff, part.1, parts])

theorem namesStatement_parses {kind : NodeKind} (ready : Ready laid .line level p)
    (ordinary : p.cell.kind.isOrdinary) (plain : kind.isPlain) (firm : kind.isFirm)
    (demands : kind.demand? = some (.names, 1)) (other : kind ≠ .comparison) :
    Parses laid .line True level (namesStatement kind) p Sentence := by
  refine build_listing ready ?_ plain firm
  rw [parses_iff, discard_bind]
  refine ready.opened.bump ordinary fun cell q _ moves ready _ => ?_
  refine moves.bind (name_item none q ready) fun first qs q moves ready ⟨run, made, _⟩ => ?_
  refine moves.bind (separated_parses (fun _ => false) ready first (fun _ => rfl) (name_item none) rfl (by decide))
    fun names qs q moves ready parts => ?_
  exact moves.done ready ⟨by simp [gathers_iff, made, parts], .several demands (by simp [parts]) other⟩

theorem execStatement_parses (works : e.Works laid starts) (ready : Ready laid .line level p)
    (ordinary : p.cell.kind.isOrdinary) :
    Parses laid .line True level (execStatement e) p Sentence := by
  refine build_sentence ready ?_ rfl rfl rfl
  rw [parses_iff, discard_bind]
  refine ready.opened.bump ordinary fun cell q _ moves ready _ => ?_
  refine moves.bind (expr_item works q ready) fun body qs q moves ready ⟨run, made, _⟩ => ?_
  refine moves.bind (announced_parses ready (works.item true) rfl rfl) fun globals qs' q moves ready part => ?_
  rw [ite_bind]
  refine moves.bind (conditional_part ready (announced_parses ready (works.item true) rfl rfl))
    fun locals qs'' q moves ready part' => ?_
  exact moves.done ready (by simp [gathers_iff, made, part.1, part'.1])

theorem assertStatement_parses (works : e.Works laid starts) (ready : Ready laid .line level p)
    (ordinary : p.cell.kind.isOrdinary) :
    Parses laid .line True level (assertStatement e) p Sentence := by
  refine build_sentence ready ?_ rfl rfl rfl
  rw [parses_iff, discard_bind]
  refine ready.opened.bump ordinary fun cell q _ moves ready _ => ?_
  refine moves.bind (works.item true q ready) fun test qs q moves ready ⟨run, made, _⟩ => ?_
  refine moves.bind (announced_parses ready (works.item true) rfl rfl) fun message qs' q moves ready part => ?_
  exact moves.done ready (by simp [gathers_iff, made, part.1])

theorem yieldStatement_parses (works : e.Works laid starts) (ready : Ready laid .line level p)
    (here : p.cell.kind = .kwYield) :
    Parses laid .line True level (yieldStatement e) p Sentence := by
  refine build_sentence ready ?_ rfl rfl rfl
  refine (yieldExpression_parses works ready.opened here).bind
    fun value ps q moves ready ⟨run, made, _⟩ => ?_
  exact moves.done ready (by simp [gathers_iff, made])

/-! ### Imports -/

theorem imported_item {path : ParseM (List Node)}
    (parses : ∀ p, Ready laid .line level p → Parses laid .line False level path p Path) :
    Item laid level (imported path) := by
  intro p ready
  refine build_parses (fun made ps _ => (Gathers [] made ps p ∧ cellsOf ps ≠ []) ∧ Rows .imported made.1 made.2 ps)
    ready ?_
    fun _ _ _ _ ⟨⟨parts, filled⟩, rows⟩ => ⟨.plain parts rfl rfl rows, fun _ _ => ⟨_, rfl, filled⟩⟩
  refine (parses p.opened ready.opened).bind fun nodes ps q moves ready ⟨long, parts, filled⟩ => ?_
  refine moves.bind (announced_parses ready (name_item none) rfl rfl) fun localName qs q moves ready part => ?_
  refine moves.done ready ⟨⟨by simp [gathers_iff, parts, part.1], by simp [filled]⟩, .listing rfl ?_ long nofun⟩
  simp [entriesOf_append, entriesOf_several, entriesOf_child?]

theorem nameAlone_parses (ready : Ready laid .line level p) :
    Parses laid .line False level (do return [← name none]) p Path := by
  refine (name_item none p ready).bind fun node ps q moves ready ⟨run, made, filled⟩ => ?_
  exact moves.done ready ⟨le_rfl, by simp [made], by simp [made, filled]⟩

theorem importStatement_parses (ready : Ready laid .line level p) (ordinary : p.cell.kind.isOrdinary) :
    Parses laid .line True level importStatement p Sentence := by
  have item : Item laid level (imported dottedName) :=
    imported_item fun _ ready => dottedName_parses ready
  refine build_listing ready ?_ rfl rfl
  rw [parses_iff, discard_bind]
  refine ready.opened.bump ordinary fun cell q _ moves ready _ => ?_
  refine moves.bind (item q ready) fun first qs q moves ready ⟨run, made, _⟩ => ?_
  refine moves.bind (separated_parses (fun _ => false) ready first (fun _ => rfl) item rfl (by decide))
    fun names qs q moves ready parts => ?_
  exact moves.done ready ⟨by simp [gathers_iff, made, parts], .several rfl (by simp [parts]) nofun⟩

/-- The dots in front of the module of an import make no nodes. -/
structure Dots (depth : Nat) (ps : List Piece) (q : Parser) : Prop where
  made : nodesOf ps = []

theorem relativeLevel_parses (ready : Ready laid .line level p) :
    Parses laid .line False level relativeLevel p Dots := by
  refine (Moves.refl laid .line p).loop Dots Dots ready ⟨rfl⟩ ?_
  intro depth ps q before ready ⟨parts⟩
  rw [completes_at, completes_at]
  split
  swap
  · exact before.done ready ⟨parts⟩
  next here =>
  have here : q.cell.kind = .dot ∨ q.cell.kind = .ellipsis := by simpa using here
  have ordinary : q.cell.kind.isOrdinary := by rcases here with here | here <;> rw [here] <;> rfl
  have other : q.cell.kind ≠ .name := by rcases here with here | here <;> rw [here] <;> decide
  rw [completes_features]
  refine before.complainIf ready rfl rfl fun r moves ready still => ?_
  have there : r.cell.kind = q.cell.kind := by rw [still.cell]
  refine moves.bump ready (there ▸ ordinary) fun cell s _ moves ready lighter => ?_
  exact moves.done ready ⟨⟨by simp [parts]⟩, still.weight ▸ lighter (there ▸ other)⟩

/-- The names that were read of an import. -/
theorem importedNames_parses (ready : Ready laid .line level p) :
    Parses laid .line False level importedNames p fun names qs _ => nodesOf qs = names.2 := by
  have item : ∀ deep, Item laid deep (imported (do return [← name none])) := fun _ =>
    imported_item fun _ ready => nameAlone_parses ready
  rw [parses_iff, importedNames]
  refine (Moves.refl laid .line p).eat ready rfl (fun cell q _ moves ready _ => ?_) fun _ => ?_
  · exact moves.done ready rfl
  rw [if_neg (by simp)]
  -- behind the parenthesis, if there is one
  have names : ∀ (inParentheses : Bool) {ps q}, Moves laid .line False ps p q →
      Ready laid .line (bif inParentheses then level.within .rightParen else level) q → nodesOf ps = [] →
      Completes laid .line False level p (do
        let first ← imported (return [← name none])
        let names ← separated .comma first (return inParentheses && (← at? .rightParen))
          (imported (return [← name none]))
        if inParentheses then discard <| expectCloser .rightParen none
        return (false, names)) q fun names qs _ => nodesOf qs = names.2 := by
    intro inParentheses ps q moves ready nothing
    refine moves.bind (item _ q ready) fun first qs q moves ready ⟨run, made, _⟩ => ?_
    refine moves.bind (separated_parses (fun q => inParentheses && q.cell.kind == .rightParen) ready
      first (fun _ => rfl) (item _) rfl (by decide)) fun names qs q moves ready parts => ?_
    cases inParentheses with
    | true =>
      rw [if_pos rfl, discard_bind]
      refine moves.bind (expectCloser_parses ready none rfl) fun _ qs q moves ready ⟨cells, skipped, _⟩ => ?_
      exact moves.done ready (by simp [nothing, made, parts, skipped])
    | false => exact moves.done ready (by simp [nothing, made, parts])
  refine (Moves.refl laid .line p).eatPasses ready (level.passes_opening rfl)
    (fun cell q _ moves ready _ => ?_) fun _ => ?_
  · exact names true moves ready rfl
  · exact names false (Moves.refl laid .line p) ready rfl

theorem importFromStatement_parses (ready : Ready laid .line level p) (ordinary : p.cell.kind.isOrdinary) :
    Parses laid .line True level importFromStatement p Sentence := by
  refine build_sentence ready ?_ rfl rfl rfl
  rw [parses_iff, discard_bind]
  refine ready.opened.bump ordinary fun cell q _ moves ready _ => ?_
  refine moves.bind (relativeLevel_parses ready) fun depth qs q moves ready points => ?_
  rw [completes_at, ite_bind]
  have path : Parses laid .line False level
      (if decide (depth = 0) || q.cell.kind == .name then dottedName else pure []) q
      fun nodes qs _ => nodes = nodesOf qs := by
    split
    · exact (dottedName_parses ready).imp fun _ _ _ _ parts => parts.nodes
    · exact (Moves.refl laid .line q).done ready rfl
  refine moves.bind path fun path qs' q moves ready parts => ?_
  refine moves.eat ready rfl (fun cell r _ moves ready _ => ?_) fun _ => ?_
  · rw [if_pos rfl]
    refine moves.bind (importedNames_parses ready) fun names more r moves ready parts' => ?_
    exact moves.done ready (by simp [gathers_iff, points.made, parts, parts'])
  · rw [if_neg (by simp)]
    refine moves.complain ready rfl (fun _ => rfl) fun r moves ready _ => ?_
    exact moves.done ready (by simp [gathers_iff, points.made, parts])

/-! ### Lines of statements -/

theorem simpleForm_word {d : Dialect} {kind : TokenKind} {form : SimpleForm}
    (found : d.simpleForm? kind = some form) :
    kind.isOrdinary ∧ (form = .yield → kind = .kwYield) := by
  have all : ∀ pair ∈ d.simpleForms, pair.1.isOrdinary ∧ (pair.2 = .yield → pair.1 = .kwYield) := by
    cases d <;> decide
  obtain ⟨before, after, split, -⟩ := List.lookup_eq_some_iff.1 found
  exact all (kind, form) (by simp [split])

theorem simpleForm_parses (works : e.Works laid starts) (ready : Ready laid .line level p)
    {form : SimpleForm} (ordinary : p.cell.kind.isOrdinary)
    (yields : form = .yield → p.cell.kind = .kwYield) :
    Parses laid .line True level (simpleForm e form) p Sentence := by
  cases form with
  | pass => exact wordStatement_parses ready ordinary rfl rfl rfl
  | «break» => exact wordStatement_parses ready ordinary rfl rfl rfl
  | «continue» => exact wordStatement_parses ready ordinary rfl rfl rfl
  | «return» => exact returnStatement_parses works ready ordinary
  | raise => exact raiseStatement_parses works ready ordinary
  | global => exact namesStatement_parses ready ordinary rfl rfl rfl nofun
  | nonlocal => exact namesStatement_parses ready ordinary rfl rfl rfl nofun
  | delete => exact deleteStatement_parses works ready ordinary
  | importName => exact importStatement_parses ready ordinary
  | importFrom => exact importFromStatement_parses ready ordinary
  | assert => exact assertStatement_parses works ready ordinary
  | yield => exact yieldStatement_parses works ready (yields rfl)
  | print => exact printStatement_parses works ready ordinary
  | exec => exact execStatement_parses works ready ordinary

/-- A statement of one line can start at the cursor. -/
def startsSimple (p : Parser) : Bool :=
  (p.dialect.simpleForm? p.cell.kind).isSome || startsExpression p.cell.kind

@[simp] theorem completes_canStartSimpleStatement {g : Bool → ParseM β} {post : Post β} :
    Completes laid mode lead level p (canStartSimpleStatement >>= g) q post ↔
      Completes laid mode lead level p (g q.startsSimple) q post := Iff.rfl

theorem smallStatement_parses (works : e.Works laid True) (ready : Ready laid .line level p) :
    Parses laid .line (p.startsSimple) level (smallStatement e) p Sentence := by
  rw [parses_iff, smallStatement, completes_get]
  split
  next form found =>
    have word := simpleForm_word found
    exact (simpleForm_parses works ready word.1 word.2).forget
  next none =>
    refine (expressionStatement_parses works ready).weaken fun led => ⟨trivial, ?_⟩
    simpa [startsSimple, none] using led

theorem isBlockEnd_of_isLineEnd {kind : TokenKind} (ends : kind.isLineEnd) (other : kind ≠ .newline) :
    kind = .dedent ∨ kind = .endOfFile := by
  cases kind <;> first | exact absurd rfl other | exact .inl rfl | exact .inr rfl | cases ends

/-- The node that was last made is there still, with more tokens perhaps. -/
def Grown (ps : List Piece) (run : List Cell) : Post Node := fun node qs _ =>
  ∃ run', qs = ps ++ [.node node run'] ∧ node.kind.isFirm ∧ (run ≠ [] → run' ≠ [])

/-- The rest of a line goes to the node in front of it. -/
theorem Moves.attachToLineEnd {node : Node} {run : List Cell}
    (moves : Moves laid .line lead (ps ++ [.node node run]) o q) (around : o.collectors ≠ [])
    (ready : Ready laid .line level q) (firm : node.kind.isFirm) (unclean : ¬ q.Clean) :
    Completes laid .line lead level o (attachToLineEnd node) q fun node' qs r =>
      Grown ps run node' qs r ∧ r.cell.kind.isLineEnd ∧ r.weight ≤ q.weight := by
  let inv : Node → Parser → Prop := fun node' r => ∃ run',
    Moves laid .line lead (ps ++ [.node node' run']) o r ∧ Ready laid .line level r ∧
      node'.kind.isFirm ∧ (run ≠ [] → run' ≠ []) ∧ r.weight ≤ q.weight ∧ ¬ r.Clean
  refine Ends.loop (fun _ r => r.kinds.length) inv
    ⟨run, moves, ready, firm, id, Nat.le_refl _, unclean⟩ (kinds_length_le ready.sound) ?_
  rintro node' r ⟨run', moves, ready, firm, filled, lighter, unclean⟩
  rw [ends_bind_ok (show atSet? TokenKind.isLineEnd r = .ok r.cell.kind.isLineEnd r from rfl)]
  split
  next ends => exact ⟨_, moves, ready, ⟨run', rfl, firm, filled⟩, ends, lighter⟩
  next goesOn =>
    have goesOn : r.cell.kind.isLineEnd = false := by simpa using goesOn
    obtain ⟨cell, s, qs, bumps, moved, ready', bumped⟩ := bump_goesOn ready goesOn unclean
    rw [ends_bind_ok bumps]
    have whole := moves.trans moved
    have plain : s.Orderly laid → cell.kind.isLayout = false := by
      intro orderly
      rw [bumped.cell]
      exact TokenKind.plain_of_isInline (isInline_of_goesOn
        (ready.laid (moved.toGrows.orderly orderly)).2.1 goesOn)
    rw [bumped.pieces, ← bumped.cell] at whole
    obtain ⟨t, attaches, engine, inside, whole⟩ := whole.attach around plain firm
    rw [ends_bind_ok attaches]
    have kinds : t.kinds = s.kinds := by rw [kinds, Parser.stream, engine]; rfl
    have weight : t.weight = s.weight := by rw [weight, Parser.stream, engine]; rfl
    refine ⟨⟨_, whole, ready'.ofEngine engine inside, firm, by simp, ?_, fun clean => ?_⟩, ?_⟩
    · exact weight ▸ Nat.le_trans moved.weight_le lighter
    · refine unclean (moved.toGrows.clean ?_)
      rwa [Clean, errors, engine] at clean
    · exact kinds ▸ bumped.shorter

@[simp] theorem completes_describeCurrent {g : String → ParseM β} {post : Post β} :
    Completes laid mode lead level p (describeCurrent >>= g) q post ↔
      Completes laid mode lead level p (g (describe q.cell)) q post := Iff.rfl

/-- A line that has ended leaves less to meet, unless a block or the file ends with it. -/
inductive Ended (p q : Parser) : Prop
  | lighter (less : q.weight < p.weight)
  | stops (ends : isBlockEnd q.cell.kind)

theorem newline_completes {node : Node} {run : List Cell}
    (moves : Moves laid .line lead (ps ++ [.node node run]) o q) (around : o.collectors ≠ [])
    (ready : Ready laid .line level q) (firm : node.kind.isFirm)
    (ends : q.cell.kind.isLineEnd) :
    Completes laid .block lead level o (do return (← eatInto node .newline).1) q fun node' qs r =>
      Grown ps run node' qs r ∧ Ended q r := by
  refine (moves.within (.line .block)).eatInto around ready.block firm rfl
    (fun here => (bump_newline ready here).parses) (.refl _)
    fun node' run' cell? r moves ready same filled there absent => ?_
  refine moves.done ready ⟨⟨run', rfl, same ▸ firm, filled⟩, ?_⟩
  by_cases here : q.cell.kind = .newline
  · exact .lighter ((there here).2 (by decide))
  · obtain ⟨-, rfl⟩ := absent here
    rcases isBlockEnd_of_isLineEnd ends here with ends | ends <;> exact .stops (by rw [ends]; rfl)

theorem Ended.before {r : Parser} (ended : Ended q r) (lighter : q.weight ≤ p.weight) :
    Ended p r := by
  cases ended with
  | lighter less => exact .lighter (Nat.lt_of_lt_of_le less lighter)
  | stops ends => exact .stops ends

theorem Moves.endLine {node : Node} {run : List Cell} {isEnd : TokenKind → Bool} {construct : String}
    (moves : Moves laid .line lead (ps ++ [.node node run]) o q) (around : o.collectors ≠ [])
    (ready : Ready laid .line level q) (firm : node.kind.isFirm)
    (isLineEnd : ∀ kind, isEnd kind → kind.isLineEnd) :
    Completes laid .block lead level o (endLine node isEnd construct) q fun node' qs r =>
      Grown ps run node' qs r ∧ Ended q r := by
  rw [Parser.endLine, completes_atSet]
  split
  next ends => exact newline_completes moves around ready firm (isLineEnd _ ends)
  next =>
    rw [completes_describeCurrent]
    refine moves.complain ready rfl (fun _ => rfl) fun r moves ready still => ?_
    refine (moves.attachToLineEnd around ready firm still.unclean).bind
      fun node' qs s moves ready ⟨⟨run', whole, firm, filled⟩, ends, lighter⟩ => ?_
    subst whole
    refine Completes.imp (newline_completes moves around ready firm ends) ?_
    rintro node'' qs t moves ⟨⟨run'', whole, firm, filled'⟩, ended⟩
    exact ⟨⟨run'', whole, firm, fun some => filled' (filled some)⟩,
      ended.before (still.weight ▸ lighter)⟩

/-- The statements of a line, the last of which has not been ended. -/
inductive Line : Post (Array Node)
  | made {nodes : Array Node} {ps : List Piece} {q : Parser} (qs : List Piece) (node : Node) (run : List Cell)
    (pieces : ps = qs ++ [.node node run]) (parts : nodes.toList = nodesOf qs ++ [node])
    (firm : node.kind.isFirm) : Line nodes ps q

/-- One more statement of a line, behind which another one may follow. -/
def OneMore (nodes : Array Node) (q : Parser) : Post (ForInStep (Array Node)) := fun outcome qs r =>
  ∃ node run, qs = [.node node run] ∧ node.kind.isFirm ∧
    match outcome with
    | .done all => all = nodes.push node
    | .yield all => all = nodes.push node ∧ r.startsSimple ∧ r.weight < q.weight

/-- One statement of a line, and the semicolon behind it. -/
theorem simpleRound_parses (works : e.Works laid True) (ready : Ready laid .line level q) (nodes : Array Node) :
    Parses laid .line q.startsSimple level (do
      let node ← smallStatement e
      let (node, semicolon) ← eatInto node .semicolon
      if semicolon.isSome && (← canStartSimpleStatement) then return .yield (nodes.push node)
      return .done (nodes.push node)) q (OneMore nodes q) := by
  refine (smallStatement_parses works ready).bind ?_
  rintro node _ r moves ready' ⟨run, rfl, filled, firm⟩
  have alone : Moves laid .line q.startsSimple ([] ++ [.node node run]) q r := moves
  refine alone.eatInto ready.inside ready' firm rfl
    (fun here => bump_ordinary ready' (by rw [here]; rfl)) (.refl _)
    fun node' run' cell? s moves ready' same _ there absent => ?_
  dsimp only
  rw [completes_canStartSimpleStatement]
  split
  next more =>
    obtain ⟨eaten, next⟩ := Bool.and_eq_true_iff.1 more
    have here : r.cell.kind = .semicolon := by
      by_contra other
      simp [(absent other).1] at eaten
    exact moves.done ready' ⟨node', run', rfl, same ▸ firm, rfl, next,
      Nat.lt_of_lt_of_le ((there here).2 (by decide)) alone.weight_le⟩
  next => exact moves.done ready' ⟨node', run', rfl, same ▸ firm, rfl⟩

theorem simpleStatement_parses (works : e.Works laid True) (ready : Ready laid .line level p) :
    Parses laid .block p.startsSimple level (simpleStatement e) p fun nodes ps q =>
      (nodes = nodesOf ps ∧ nodes ≠ []) ∧ Ended p q := by
  let more : Post (Array Node) := fun nodes ps q => nodes.toList = nodesOf ps ∧ q.startsSimple
  rw [parses_iff, simpleStatement]
  refine Completes.bind (Ready.loop ready more Line ((simpleRound_parses works ready #[]).imp ?_) ?_) ?_
  · rintro outcome _ q _ ⟨node, run, rfl, firm, grown⟩
    cases outcome with
    | done nodes => exact ⟨[], node, run, rfl, by simp [grown], firm⟩
    | yield nodes => exact ⟨by simp [grown.1], grown.2.1⟩
  · rintro nodes ps q before ready ⟨parts, -⟩
    refine before.last (simpleRound_parses works ready nodes) ?_
    rintro outcome _ r _ ⟨node, run, rfl, firm, grown⟩
    cases outcome with
    | done all => exact ⟨ps, node, run, rfl, by simp [grown, parts], firm⟩
    | yield all => exact ⟨⟨by simp [grown.1, parts], grown.2.1⟩, grown.2.2⟩
  · rintro nodes _ q line ready' ⟨qs, node, run, rfl, parts, firm⟩
    have same : nodes = (nodesOf qs ++ [node]).toArray := by rw [← parts]
    have last : nodes.back? = some node := by simp [same]
    have others : nodes.pop.toList = nodesOf qs := by simp [same]
    rw [last]
    refine Completes.bind (line.endLine ready.inside ready' firm fun _ ends => ends) ?_
    rintro node' _ r moves ready' ⟨⟨run', rfl, -, -⟩, ended⟩
    exact moves.done ready' ⟨⟨by rw [others]; simp, by simp⟩, ended.before line.weight_le⟩

end TolerantParser.Parser
