import TolerantParser.Parser.Expression.Atom
import TolerantParser.Proofs.Expression.Display
import TolerantParser.Proofs.Expression.Parameters

/-!
Atoms, calls, subscripts and members. What follows an atom takes it in, so that the node made last is made
of all that has been gone over (`Extends`).
-/

namespace TolerantParser

namespace ArgumentList

/-- What counts of the arguments of a call to a function. -/
def roster (list : ArgumentList) (function : Node) : Roster where
  nodes := function :: Parser.madeOf list.children
  starred
    | .star => list.star.toList
    | .doubleStar => list.doubleStar.toList
    | _ => []

theorem count_roster [DecidableEq Node] (list : ArgumentList) (function node : Node) :
    (list.roster function).nodes.count node = [function].count node + list.args.toList.count node +
      list.keywords.toList.count node + list.star.toList.count node +
      list.doubleStar.toList.count node := by
  simp only [roster, children, Parser.madeOf_append, Parser.madeOf_several, Parser.madeOf_child?,
    List.count_append, List.count_cons, List.count_nil]
  omega

variable (list : ArgumentList) (function node : Node)

theorem args_perm : ((list.roster function).nodes ++ [node]).Perm
    (({ list with args := list.args.push node } : ArgumentList).roster function).nodes := by
  classical
  rw [List.perm_iff_count]
  intro other
  simp only [List.count_append, count_roster, Array.toList_push]
  omega

theorem keywords_perm : ((list.roster function).nodes ++ [node]).Perm
    (({ list with keywords := list.keywords.push node } : ArgumentList).roster function).nodes := by
  classical
  rw [List.perm_iff_count]
  intro other
  simp only [List.count_append, count_roster, Array.toList_push]
  omega

theorem star_perm : ((list.roster function).nodes ++ [node]).Perm
    ((({ list with star := some node } : ArgumentList).roster function).nodes ++ list.star.toList) := by
  classical
  rw [List.perm_iff_count]
  intro other
  simp only [List.count_append, count_roster, Option.toList_some]
  omega

theorem doubleStar_perm : ((list.roster function).nodes ++ [node]).Perm
    ((({ list with doubleStar := some node } : ArgumentList).roster function).nodes ++
      list.doubleStar.toList) := by
  classical
  rw [List.perm_iff_count]
  intro other
  simp only [List.count_append, count_roster, Option.toList_some]
  omega

end ArgumentList

namespace Parser

variable {laid lead starts : Prop} {mode : Mode} {level : Depth} {p q r : Parser} {ps qs : List Piece}
  {e : Nested}

/-- The tokens that an atom starts with. -/
def startsAtom : TokenKind → Bool
  | .name | .kwTrue | .kwFalse | .kwNone | .number | .string | .ellipsis | .leftParen | .leftBracket
  | .leftBrace | .backquote => true
  | _ => false

theorem leaf_parses {kind : NodeKind} (detail : String → Detail) (ready : Ready laid .line level p)
    (ordinary : p.cell.kind.isOrdinary) (plain : kind.isPlain) (firm : kind.isFirm) (free : kind.isFree) :
    Parses laid .line True level (leaf kind detail) p (Operand (.ofKind kind)) := by
  refine build_firm ready ?_ plain firm free
  refine ready.opened.bump ordinary fun cell q _ moves ready _ => ?_
  exact moves.done ready (by simp [gathers_iff])

/-- Only literals were gone over, and this is what they say. -/
structure Literals (contents : String) (ps : List Piece) (q : Parser) : Prop where
  made : nodesOf ps = []
  spells : Spells (.string contents) (tokensOf ps)

theorem stringAtom_parses (ready : Ready laid .line level p) (here : p.cell.kind = .string) :
    Parses laid .line True level stringAtom p (Operand .atom) := by
  refine build_line ready ?_ rfl
  refine Completes.bind (Ready.loop ready.opened Literals Literals ?_ ?_)
    fun contents ps q moves ready ⟨parts, spells⟩ => moves.done ready
      ⟨by simp [gathers_iff, parts], .firm rfl, nofun, fun _ => spells, nofun, le_refl _, fun _ _ => .free rfl⟩
  · rw [parses_iff, completes_at, if_pos (by simp [here])]
    refine ready.opened.bump (by simp [here]; rfl) fun cell q same moves ready _ => ?_
    refine moves.done ready ⟨rfl, ?_⟩
    rw [String.empty_append]
    exact spells_singleton (same ▸ here)
  · intro contents ps q moves ready ⟨parts, spells⟩
    rw [completes_at]
    split
    next more =>
      have more : q.cell.kind = .string := by simpa using more
      refine moves.bump ready (by simp [more]; rfl) fun cell r same moves ready lighter => ?_
      refine moves.done ready ⟨⟨by simp [parts], ?_⟩, lighter (by simp [more])⟩
      rw [tokensOf_append]
      exact spells.snoc (same ▸ more)
    next => exact moves.done ready ⟨parts, spells⟩

theorem backquoted_parses (works : e.Works laid starts) (ready : Ready laid .line level p)
    (here : p.cell.kind = .backquote) :
    Parses laid .line True level (backquoted e) p (Operand .atom) := by
  refine build_firm ready ?_ rfl rfl rfl
  rw [parses_iff, discard_bind]
  refine ready.opened.bump (by simp [here]; rfl) fun cell q _ moves ready _ => ?_
  refine moves.bind (testList_item (works.item true) q ready) fun value qs q moves ready ⟨run, made, _⟩ => ?_
  rw [discard_bind]
  refine moves.bind (expectCloser_passes ready _ (level.passes_ordinary rfl) rfl (by decide))
    fun _ qs q moves ready ⟨cells, skipped, _⟩ => ?_
  exact moves.done ready (by simp [gathers_iff, made, skipped])

theorem atom_parses (works : e.Works laid starts) (ready : Ready laid .line level p) :
    Parses laid .line (startsAtom p.cell.kind) level (atom e) p (Operand .trailer) := by
  have tight : Binding.trailer ≤ .atom := by decide
  rw [parses_iff, atom, completes_current]
  split
  next here => exact (leaf_parses _ ready (by simp [here]; rfl) rfl rfl rfl).forget.looser tight
  next here => exact (leaf_parses _ ready (by simp [here]; rfl) rfl rfl rfl).forget.looser tight
  next here => exact (leaf_parses _ ready (by simp [here]; rfl) rfl rfl rfl).forget.looser tight
  next here => exact (leaf_parses _ ready (by simp [here]; rfl) rfl rfl rfl).forget.looser tight
  next here => exact (leaf_parses _ ready (by simp [here]; rfl) rfl rfl rfl).forget.looser tight
  next here => exact (stringAtom_parses ready here).forget.looser tight
  next here => exact (leaf_parses _ ready (by simp [here]; rfl) rfl rfl rfl).forget.looser tight
  next here => exact (parenthesized_parses works ready here).forget
  next here => exact (listDisplay_parses works ready here).forget
  next here => exact (braceDisplay_parses works ready here).forget
  next here => exact (backquoted_parses works ready here).forget.looser tight
  next other =>
    refine ((name_parses ready _).weaken fun led => ?_).looser tight
    simp [startsAtom] at led

/-! ### Calls -/

theorem keywordArgument_parses (works : e.Works laid starts) (ready : Ready laid .line level p)
    (here : p.cell.kind = .name) (equal : p.kinds[1]? = some .equal) :
    Parses laid .line True level (keywordArgument e) p Expression := by
  refine (build_firm ready ?_ rfl rfl rfl).expression
  refine (name_taken ready.opened none here).bind fun name ps q moves ready ⟨⟨run, made, _⟩, kinds⟩ => ?_
  have behind : q.cell.kind = .equal := by
    have kinds : p.kinds = .name :: q.kinds := kinds
    rw [kinds, List.getElem?_cons_succ, kinds_head ready] at equal
    exact Option.some.inj equal
  rw [discard_bind]
  refine moves.bump ready (by simp [behind]; rfl) fun cell q _ moves ready _ => ?_
  refine moves.bind (works.item true q ready) fun value qs r moves ready ⟨run, value', _⟩ => ?_
  exact moves.done ready (by simp [gathers_iff, made, value'])

/-- What one argument does to the arguments of a call, if there is one. -/
inductive Argued (function : Node) (list : ArgumentList) : Option ArgumentList → List Piece → Prop
  | nothing : Argued function list none []
  | added {grown : ArgumentList} {qs : List Piece} (adds : Adds (list.roster function) (grown.roster function) qs)
      (closesNone : ClosesNone qs) : Argued function list (some grown) qs

/-- One argument adds what it should to the arguments read so far. -/
theorem argumentEntry_parses (works : e.Works laid starts) (ready : Ready laid .line level p)
    (function : Node) (list : ArgumentList) :
    Parses laid .line False level (argumentEntry e list) p fun entry qs _ => Argued function list entry qs := by
  rw [parses_iff, argumentEntry]
  refine (Moves.refl laid .line p).eat ready rfl (fun cell q star moves ready _ => ?_) fun _ => ?_
  · rw [if_pos rfl]
    refine moves.bind (works.item true q ready) fun node qs r moves ready ⟨run, made, filled⟩ => ?_
    subst made
    refine moves.done ready (.added ?_ (closesNone_token (by rw [star]; rfl)))
    show Adds _ _ (.token cell :: .node node run :: [])
    refine Adds.ofStarred rfl star filled plain_nil (by simp) (list.star_perm function node)
      (fun _ _ _ => List.pairwise_singleton _ node) rfl fun kind other => ?_
    cases kind <;> first | rfl | exact absurd rfl other
  rw [if_neg (by simp)]
  refine (Moves.refl laid .line p).eat ready rfl (fun cell q star moves ready _ => ?_) fun _ => ?_
  · rw [if_pos rfl]
    refine moves.bind (works.item true q ready) fun node qs r moves ready ⟨run, made, filled⟩ => ?_
    subst made
    refine moves.done ready (.added ?_ (closesNone_token (by rw [star]; rfl)))
    show Adds _ _ (.token cell :: .node node run :: [])
    refine Adds.ofStarred rfl star filled plain_nil (by simp) (list.doubleStar_perm function node)
      (fun _ _ _ => List.pairwise_singleton _ node) rfl fun kind other => ?_
    cases kind <;> first | rfl | exact absurd rfl other
  rw [if_neg (by simp)]
  -- what is left once no starred and no keyword argument is there
  have positional : ∀ {q}, Moves laid .line False [] p q → Ready laid .line level q →
      Completes laid .line False level p (do
        if ← canStartExpression then
          let value ← e.test true
          let value ← if ← at? .kwFor then generatorTail e value else pure value
          return some { list with args := list.args.push value }
        return none) q fun entry qs _ => Argued function list entry qs := by
    intro q moves ready
    have added : ∀ {node run r}, Moves laid .line False ([] ++ [.node node run]) p r →
        Ready laid .line level r → run ≠ [] → Completes laid .line False level p
          (pure (some { list with args := list.args.push node })) r fun entry qs _ =>
            Argued function list entry qs := by
      intro node run r moves ready filled
      exact moves.done ready (.added (.ofPlain (plain_node _ filled) (list.args_perm function node) (rising_node _ _)
        fun _ => rfl) (closesNone_of_bare rfl))
    rw [completes_canStartExpression]
    split
    · refine moves.bind (works.item true q ready) fun value qs q moves ready ⟨run, made, filled⟩ => ?_
      subst made
      rw [completes_at]
      split
      · exact moves.extend filled (generatorTail_extends works ready value) fun node more r moves ready _ =>
          added moves ready (by simp [filled])
      · exact added moves ready filled
    · exact moves.done ready .nothing
  rw [atKeywordArgument, bind_assoc, completes_at]
  split
  next there =>
    have here : p.cell.kind = .name := by simpa using there
    rw [bind_assoc]
    refine (Moves.refl laid .line p).nth ready fun r moves ready still _ => ?_
    rw [completes_pure]
    split
    next equal =>
      have second : r.kinds[1]? = some .equal := by
        rw [still.kinds]
        have kind : p.kinds[1]?.getD .endOfFile = .equal := by simpa using equal
        cases second : p.kinds[1]? with
        | none => simp [second] at kind
        | some kind' => rw [← kind, second, Option.getD_some]
      refine moves.bind (keywordArgument_parses works ready (still.cell ▸ here) second)
        fun node qs s moves ready ⟨run, made, filled⟩ => ?_
      subst made
      exact moves.done ready (.added (.ofPlain (plain_node _ filled) (list.keywords_perm function node)
        (rising_node _ _) fun _ => rfl) (closesNone_of_bare rfl))
    next => exact positional moves ready
  next => exact positional (Moves.refl laid .line p) ready

/-- What was gone over behind the function lists the arguments of a call. -/
structure Called (function : Node) (list : ArgumentList) (ps : List Piece) : Prop where
  listed : ∀ run, run ≠ [] → Listed (list.roster function) (.node function run :: ps)

theorem Called.add {function : Node} {list grown : ArgumentList} (called : Called function list ps)
    (adds : Adds (list.roster function) (grown.roster function) qs)
    (apart : ∀ run, Shut (.node function run :: ps) ∨ Fresh qs) : Called function grown (ps ++ qs) :=
  ⟨fun run filled => (called.listed run filled).add adds (apart run)⟩

theorem called_paren (function : Node) {cell : Cell} (paren : cell.kind = .leftParen) :
    Called function .empty [.token cell] := by
  refine ⟨fun run filled => ?_⟩
  have unstarred : cell.kind.isStar = false := by
    rw [paren]
    rfl
  have nothing : Listed ⟨[], fun _ => []⟩ [] := listed_nil rfl fun _ => rfl
  have behind : Adds ⟨[], fun _ => []⟩ (ArgumentList.empty.roster function) [.node function run, .token cell] :=
    .ofPlain ((plain_node function filled).append (plain_token unstarred)) (.refl _)
      (fun _ _ _ => List.pairwise_singleton _ function) fun kind => by cases kind <;> rfl
  exact nothing.add behind (.inl (shut_of_bare rfl))

theorem call_extends (works : e.Works laid starts) (ready : Ready laid .line level q)
    (here : q.cell.kind = .leftParen) (function : Node) :
    Extends laid level function (call e function) q .trailer fun r => r.weight < q.weight := by
  refine build_takes True (fun made ps _ => ∃ list,
    made.2 = child .function function ++ ArgumentList.children list ∧ Called function list ps ∧
      Sealed .rightParen ps) ready ?_ ?_
  · rw [discard_bind]
    refine ready.opened.bumpOpening .rightParen (by simp [here]; rfl) fun cell r same moves ready _ => ?_
    have paren : cell.kind = .leftParen := by rw [same]; exact here
    let read : Post (Option Nat × ArgumentList) := fun value ps _ => Called function value.2 ps ∧ ClosesNone ps
    -- another argument comes behind the parenthesis or a comma
    let inv : Post (Option Nat × ArgumentList) := fun value ps _ =>
      (Called function value.2 ps ∧ ClosesNone ps) ∧ ∀ run, Shut (.node function run :: ps)
    have opening : ClosesNone [.token cell] := closesNone_token (by rw [paren]; rfl)
    have began : ∀ run, Shut [.node function run, .token cell] := fun run =>
      shut_snoc [.node function run] (by rw [paren]; rfl) (by rw [paren]; decide)
    refine Completes.bind (moves.loop inv read ready ⟨⟨called_paren function paren, opening⟩, began⟩ ?_) ?_
    · rintro ⟨last, list⟩ ps q before ready ⟨⟨(called : Called function list ps), closesNone⟩, shut⟩
      rw [completes_at, completes_hasProgressed]
      split
      · exact before.done ready ⟨called, closesNone⟩
      rw [completes_get]
      refine before.bind (argumentEntry_parses works ready function list)
        fun entry qs r behind ready argued => ?_
      cases argued with
      | nothing => exact behind.done ready (by simpa [read] using ⟨called, closesNone⟩)
      | added adds closesMore =>
        refine behind.eat ready rfl (fun cell s comma moves ready lighter => ?_) fun _ => ?_
        · have more := (called.add adds fun run => .inl (shut run)).add (.comma comma) fun _ => .inr (fresh_of_bare rfl)
          have plainComma : ClosesNone [.token cell] := closesNone_token (by rw [comma]; rfl)
          refine moves.done ready ⟨⟨⟨more, (closesNone.append closesMore).append plainComma⟩, fun run => ?_⟩,
            Nat.lt_of_lt_of_le (lighter (by decide)) (before.later_le behind)⟩
          exact shut_snoc (.node function run :: (ps ++ qs)) (by rw [comma]; rfl) (by rw [comma]; decide)
        · exact behind.done ready ⟨called.add adds fun run => .inl (shut run), closesNone.append closesMore⟩
    · rintro ⟨_, list⟩ ps r moves ready ⟨(called : Called function list ps), closesNone⟩
      dsimp only
      rw [discard_bind]
      refine moves.bind (expectCloser_parses ready none rfl) fun _ qs r moves ready skipped => ?_
      have bare : nodesOf qs = [] := by
        obtain ⟨cells, rfl, -⟩ := skipped
        exact nodesOf_tokenPieces cells
      exact moves.done ready ⟨list, rfl, called.add (.skipped skipped) fun _ => .inr (fresh_of_bare bare),
        closesNone.sealed rfl bare⟩
  · rintro made ps r moves ⟨list, children, called, sealed⟩
    refine ⟨fun run filled line => (called.listed run filled).held rfl
      (by simp [children, ArgumentList.roster]) (fun orderly => ?_) (fun _ closes => ?_) nofun (.free rfl),
      Binding.ofKind_le .call made.1,
      moves.weight_lt trivial ready.rests (by simp [here])⟩
    · exact (line orderly).append (moves.allows orderly)
    · have bare : ∀ cell ∈ tokensOf [.node function run], cell.kind ≠ .rightParen := by simp
      exact Option.some.inj closes ▸ sealed.behind bare

/-! ### Subscripts -/

theorem cell_of_kinds {kind : TokenKind} {rest : List TokenKind} (ready : Ready laid mode level p)
    (kinds : p.kinds = kind :: rest) : p.cell.kind = kind := by
  have head := kinds_head ready
  rw [kinds, List.getElem?_cons_zero] at head
  exact (Option.some.inj head).symm

/-- Three points have been looked for. -/
structure DotsAhead (there : Bool) (qs : List Piece) (q : Parser) : Prop where
  nothing : qs = []
  dots : there → ∃ rest, q.kinds = .dot :: .dot :: .dot :: rest

theorem dottedEllipsis_parses (ready : Ready laid .line level p) :
    Parses laid .line False level atDottedEllipsis p DotsAhead := by
  rw [parses_iff, atDottedEllipsis, completes_get]
  split
  · exact (Moves.refl laid .line p).done ready ⟨rfl, by simp⟩
  rw [completes_at]
  split
  swap
  · exact (Moves.refl laid .line p).done ready ⟨rfl, by simp⟩
  next first =>
  have first : p.cell.kind = .dot := by simpa using first
  refine (Moves.refl laid .line p).nth ready fun q moves ready' still _ => ?_
  split
  swap
  · exact moves.done ready' ⟨rfl, by simp⟩
  next second =>
  have second : p.kinds[1]?.getD .endOfFile = .dot := by simpa using second
  refine moves.nth ready' fun r moves ready' still' _ => ?_
  refine moves.done ready' ⟨rfl, fun third => ?_⟩
  have third : q.kinds[2]?.getD .endOfFile = .dot := by simpa using third
  obtain ⟨rest, kinds⟩ := TokenStream.kinds_eq_cons ready.rests
  have kinds : p.kinds = p.cell.kind :: rest := kinds
  rw [still.kinds, kinds] at third
  rw [kinds] at second
  rw [still'.kinds, still.kinds, kinds, first]
  rcases rest with _ | ⟨_, _ | ⟨_, rest⟩⟩
  · simp at second
  · simp at third
  · simp only [List.getElem?_cons_succ, List.getElem?_cons_zero, Option.getD_some] at second third
    exact ⟨rest, by rw [second, third]⟩

/-- One point after another is gone over. -/
theorem bump_dot {rest : List TokenKind} (ready : Ready laid .line level p)
    (kinds : p.kinds = .dot :: rest) :
    Parses laid .line True level bump p fun _ qs q => q.kinds = rest ∧ nodesOf qs = [] := by
  have here := cell_of_kinds ready kinds
  refine (bump_ordinary ready (by simp [here]; rfl)).imp fun _ ps q _ bumped => ?_
  have behind := bumped.kinds
  rw [kinds, here, List.cons_inj_right] at behind
  exact ⟨behind.symm, by simp [bumped.pieces]⟩

theorem dots_parses {rest : List TokenKind} (ready : Ready laid .line level p)
    (kinds : p.kinds = .dot :: .dot :: .dot :: rest) :
    Parses laid .line True level (build .ellipsis do
      discard bump
      discard bump
      discard bump
      return (.none, [])) p Expression := by
  refine (build_firm ready ?_ rfl rfl rfl).expression
  simp only [discard_bind]
  refine (bump_dot ready.opened kinds).bind fun _ _ q moves ready ⟨kinds, first⟩ => ?_
  refine moves.bind (bump_dot ready kinds) fun _ _ q moves ready ⟨kinds, second⟩ => ?_
  refine moves.bind (bump_dot ready kinds) fun _ _ q moves ready ⟨_, third⟩ => ?_
  exact moves.done ready (by simp [gathers_iff, first, second, third])

/-- A slice from its first colon on. -/
theorem slice_completes (works : e.Works laid starts) (began : Ready laid .line level p)
    (moves : Moves laid .line lead ps p.opened q) (ready : Ready laid .line level q)
    (here : q.cell.kind = .colon) (lower : Option Node) (parts : nodesOf ps = lower.toList) :
    Completes laid .line lead level p (do
      discard bump
      let upper ← optional (e.test true)
      let step ← if ← eat .colon then optional (e.test true) else pure none
      Parser.complete p.marker .slice .none
        (child? .lower lower ++ child? .upper upper ++ child? .step step)) q Expression := by
  rw [discard_bind]
  refine moves.bump ready (by simp [here]; rfl) fun colon q _ moves ready _ => ?_
  refine moves.bind (optional_parses ready (works.item true)) fun upper qs q moves ready part => ?_
  have sliced : ∀ (more : List Piece) {step : Option Node} {r},
      Moves laid .line lead (ps ++ [.token colon] ++ qs ++ more) p.opened r →
      Ready laid .line level r → nodesOf more = step.toList →
      Completes laid .line lead level p (Parser.complete p.marker .slice .none
        (child? .lower lower ++ child? .upper upper ++ child? .step step)) r Expression := by
    intro more step r moves ready part'
    exact moves.complete began.inside ready (.plain (by simp [parts, part.1, part']) rfl rfl (.free rfl)) fun _ _ =>
      ⟨_, rfl, by simp⟩
  refine moves.eat ready rfl (fun cell r _ moves ready _ => ?_) fun _ => ?_
  · refine moves.bind (optional_parses ready (works.item true)) fun step more r moves ready part' => ?_
    rw [List.append_assoc] at moves
    exact sliced _ moves ready (by simp [part'.1])
  · exact sliced [] (by simpa using moves) ready rfl

theorem subscriptItem_item (works : e.Works laid starts) : Item laid level (subscriptItem e) := by
  intro p ready
  rw [parses_iff, subscriptItem]
  refine (dottedEllipsis_parses ready).bind fun there ps q moves ready ⟨nothing, dots⟩ => ?_
  subst nothing
  refine moves.parses ?_
  split
  next found =>
    obtain ⟨rest, kinds⟩ := dots found
    exact (dots_parses ready kinds).weaken False.elim
  next =>
    rw [parses_iff, completes_start, completes_at]
    split
    next here =>
      have here : q.cell.kind = .colon := by simpa using here
      exact slice_completes works ready (Moves.refl laid .line q.opened) ready.opened here none rfl
    next =>
      rw [map_eq_pure_bind, bind_assoc]
      refine (works.item true q.opened ready.opened).bind fun index qs r moves ready' ⟨run, made, filled⟩ => ?_
      rw [completes_pure, completes_at]
      split
      next here =>
        have here : r.cell.kind = .colon := by simpa using here
        exact slice_completes works ready moves ready' here (some index) (by simp [made])
      next =>
        exact moves.abandon ready.inside ready' fun s moves ready _ =>
          moves.done ready ⟨run, made, filled⟩

theorem subscriptList_item (works : e.Works laid starts) : Item laid level (subscriptList e) := by
  intro p ready
  rw [parses_iff, subscriptList]
  refine (subscriptItem_item works p ready).bind fun first ps q moves ready ⟨run, made, filled⟩ => ?_
  rw [completes_at]
  split
  · subst made
    refine (moves.extendLast filled (build_extends ready ?_ rfl) :
      Completes laid .line False level p _ q (Operand .none)).expression
    refine (separated_operands (fun q => q.cell.kind == .rightBracket) ready.opened first (fun _ => rfl)
      (subscriptItem_item works).operands rfl (by decide)).bind fun items qs r moves ready parted => ?_
    exact moves.done ready (tuple_forms parted)
  · exact moves.done ready ⟨run, made, filled⟩

theorem subscript_extends (works : e.Works laid starts) (ready : Ready laid .line level q)
    (here : q.cell.kind = .leftBracket) (value : Node) :
    Extends laid level value (subscript e value) q .trailer fun r => r.weight < q.weight := by
  refine build_follows ready (by simp [here]) ?_ rfl
  rw [parses_iff, discard_bind]
  refine ready.opened.bumpOpening .rightBracket (by simp [here]; rfl) fun cell r same moves ready _ => ?_
  have opening : ClosesNone [.token cell] := closesNone_token (by rw [same]; simp [here]; rfl)
  refine moves.bind (subscriptList_item works r ready) fun index qs r moves ready ⟨run, made, _⟩ => ?_
  rw [discard_bind]
  refine moves.bind (expectCloser_parses ready none rfl) fun _ qs r moves ready ⟨cells, skipped, _⟩ => ?_
  refine moves.done ready ⟨by simp [gathers_iff, made, skipped], .firm rfl, nofun, nofun, fun _ closes => ?_,
    Binding.ofKind_le .subscript .none, fun _ _ => .free rfl⟩
  have bare : nodesOf (tokenPieces cells) = [] := nodesOf_tokenPieces cells
  exact Option.some.inj closes ▸ skipped ▸ (opening.append (closesNone_of_bare (by simp [made]))).sealed rfl bare

/-! ### All that follows an atom -/

theorem member_extends (ready : Ready laid .line level q) (here : q.cell.kind = .dot) (value : Node) :
    Extends laid level value (member value) q .trailer fun r => r.weight < q.weight := by
  refine build_follows ready (by simp [here]) ?_ rfl
  rw [parses_iff, discard_bind]
  refine ready.opened.bump (by simp [here]; rfl) fun cell r _ moves ready _ => ?_
  refine moves.bind (name_item none r ready) fun member qs r moves ready ⟨run, made, _⟩ => ?_
  exact moves.done ready (Gathers.forms (by simp [gathers_iff, made]) rfl rfl)

theorem atomWithTrailers_parses (works : e.Works laid starts) (ready : Ready laid .line level p) :
    Parses laid .line (startsAtom p.cell.kind) level (atomWithTrailers e) p (Operand .trailer) := by
  rw [parses_iff, atomWithTrailers]
  refine (atom_parses works ready).bind fun node ps q moves ready made => ?_
  refine moves.loop (Operand .trailer) (Operand .trailer) ready made ?_
  rintro node ps q moves ready ⟨⟨run, rfl, filled⟩, binds⟩
  rw [completes_current]
  split
  next here =>
    exact moves.takesIn filled (call_extends works ready here node)
  next here =>
    exact moves.takesIn filled (subscript_extends works ready here node)
  next here =>
    exact moves.takesIn filled (member_extends ready here node)
  next => exact moves.done ready ⟨⟨run, rfl, filled⟩, binds⟩

end Parser

end TolerantParser
