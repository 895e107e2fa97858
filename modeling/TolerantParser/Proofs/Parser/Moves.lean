import TolerantParser.Parser.Core
import TolerantParser.Proofs.Stream.Repairing
import TolerantParser.Proofs.Tree.Brackets
import TolerantParser.Proofs.Tree.Extent
import TolerantParser.Proofs.Tree.Literals
import TolerantParser.Proofs.Tree.Placeholders

/-!
How a parse gets on. `Ready` says what holds of a parse between any two steps, `Moves` what lies between
a state and a later one: the pieces made or gone over on the way, and all that has not changed. A step
that gives up because something nests too deeply leaves a state `Broken` off, from which the parse can
still go back.

Where a text was cut into tokens by the lexer the layout is in order (`Laid`), and as long as no statement
has been given up (`Calm`) the parse keeps it so. Both together are `Orderly`; what depends on them is
claimed only then, since arbitrary tokens can be parsed too. In the same way it is claimed only while no
error has been found (`Clean`) that brackets nest and that nothing is missing in a node.

Where a name is missing one is put in. Each error about a missing name has its own (`ErrorNames`), and so has each that
is found on the way over some pieces, owned by the node that was made for it (`NewErrorNames`).
-/

namespace TolerantParser

/-- Layout in order, with so many blocks open: blocks end only where one is open, none is open at the
end of the file, and a line does not stop without its line end. -/
inductive Laid : Nat → List TokenKind → Prop
  | last : Laid 0 [.endOfFile]
  | opens {level : Nat} {rest : List TokenKind} : Laid (level + 1) rest → Laid level (.indent :: rest)
  | closes {level : Nat} {rest : List TokenKind} : Laid level rest → Laid (level + 1) (.dedent :: rest)
  | line {level : Nat} {rest : List TokenKind} : Laid level rest → Laid level (.newline :: rest)
  | inline {level : Nat} {kind next : TokenKind} {rest : List TokenKind} : kind.isInline →
      next.isInline ∨ next = .newline → Laid level (next :: rest) → Laid level (kind :: next :: rest)

/-- A run within a logical line, one that may hold whole lines and blocks, or any. -/
inductive Mode where
  | line
  | block
  | free
  deriving DecidableEq

namespace Mode

/-- What holds of the pieces of a run: a run within a line holds no line ends and no layout, and in one
of lines and blocks the layout that stands outside of the nodes is balanced. -/
def Allows (pieces : List Piece) : Mode → Prop
  | .line => ∀ cell ∈ cellsOf pieces, cell.kind.isInline
  | .block => Balanced ((tokensOf pieces).map (·.kind))
  | .free => True

/-- What holds of the kind at the cursor: within a line there is its end at least. -/
def Stands (kind : TokenKind) : Mode → Prop
  | .line => kind.isInline ∨ kind = .newline
  | .block | .free => True

/-- Runs of one mode are runs of the other. -/
class inductive Within : Mode → Mode → Prop
  | refl (mode : Mode) : Within mode mode
  | line (mode : Mode) : Within .line mode
  | free (mode : Mode) : Within mode .free

attribute [instance] Within.refl Within.line Within.free

theorem allows_block {pieces : List Piece} :
    Mode.block.Allows pieces ↔ Balanced ((tokensOf pieces).map (·.kind)) := .rfl

theorem Allows.within {mode wider : Mode} {pieces : List Piece} (allows : mode.Allows pieces)
    (within : mode.Within wider) : wider.Allows pieces := by
  cases within with
  | refl => exact allows
  | free => trivial
  | line =>
    cases wider with
    | line => exact allows
    | block =>
      refine balanced_of_plain fun kind member => ?_
      obtain ⟨cell, owned, rfl⟩ := List.mem_map.1 member
      exact TokenKind.plain_of_isInline (allows cell (tokensOf_subset owned))
    | free => trivial

theorem Stands.within {mode wider : Mode} {kind : TokenKind} (stands : mode.Stands kind)
    (within : mode.Within wider) : wider.Stands kind := by
  cases within with
  | refl => exact stands
  | free => trivial
  | line =>
    cases wider with
    | line => exact stands
    | block | free => trivial

theorem Allows.append {mode : Mode} {ps qs : List Piece} (first : mode.Allows ps)
    (second : mode.Allows qs) : mode.Allows (ps ++ qs) := by
  cases mode with
  | line =>
    intro cell member
    rw [cellsOf_append, List.mem_append] at member
    exact member.elim (first cell) (second cell)
  | block =>
    rw [Allows, tokensOf_append, List.map_append]
    exact Balanced.append first second
  | free => trivial

/-- A node takes the place of the run it was made of. -/
theorem Allows.whole {mode : Mode} {ps : List Piece} {node : Node} {run : List Cell}
    (allows : mode.Allows ps) (same : cellsOf ps = run) : mode.Allows [.node node run] := by
  cases mode with
  | line => simpa [Allows, same] using allows
  | block => rfl
  | free => trivial

/-- A node takes the place of the last part of a run, whose layout was balanced. -/
theorem Allows.dropped {mode : Mode} {ps qs : List Piece} {node : Node} {run : List Cell}
    (allows : mode.Allows (ps ++ qs)) (same : cellsOf qs = run)
    (balanced : Balanced ((tokensOf qs).map (·.kind))) : mode.Allows (ps ++ [.node node run]) := by
  cases mode with
  | line => simpa [Allows, same] using allows
  | free => trivial
  | block =>
    rw [Allows, tokensOf_append, List.map_append, Balanced, levelAfter_append] at allows
    obtain ⟨level, first, second⟩ := Option.bind_eq_some_iff.1 allows
    rw [balanced.levelAfter_eq] at second
    obtain rfl := Option.some.inj second
    simpa [Allows, Balanced] using first

theorem allows_nil (mode : Mode) : mode.Allows [] := by
  cases mode with
  | line => simp [Allows]
  | block => rfl
  | free => trivial

theorem allows_inline (mode : Mode) {cell : Cell} (inline : cell.kind.isInline) :
    mode.Allows [.token cell] := by
  have line : Mode.line.Allows [.token cell] := by simpa [Allows] using inline
  exact line.within (.line mode)

end Mode

namespace Laid

/-- Behind a token of a line the line goes on or ends. -/
theorem next {level : Nat} {kind next : TokenKind} {rest : List TokenKind}
    (laid : Laid level (kind :: next :: rest)) (inline : kind.isInline) :
    Laid level (next :: rest) ∧ Mode.line.Stands next := by
  cases laid with
  | inline _ stands laid => exact ⟨laid, stands⟩
  | opens | closes | line => cases inline

theorem behind_newline {level : Nat} {rest : List TokenKind} (laid : Laid level (.newline :: rest)) :
    Laid level rest := by
  cases laid with
  | line laid => exact laid
  | inline inline => cases inline

theorem behind_indent {level : Nat} {rest : List TokenKind} (laid : Laid level (.indent :: rest)) :
    Laid (level + 1) rest := by
  cases laid with
  | opens laid => exact laid
  | inline inline => cases inline

theorem behind_dedent {level : Nat} {rest : List TokenKind} (laid : Laid (level + 1) (.dedent :: rest)) :
    Laid level rest := by
  cases laid with
  | closes laid => exact laid
  | inline inline => cases inline

/-- As long as no line end is met, one is in the same line. -/
theorem run {level : Nat} {kinds rest : List TokenKind} {last : TokenKind}
    (laid : Laid level (kinds ++ last :: rest))
    (stands : ∀ kind ∈ (kinds ++ [last]).head?, Mode.line.Stands kind)
    (goesOn : ∀ kind ∈ kinds, kind ≠ .newline) :
    (∀ kind ∈ kinds, kind.isInline) ∧ Laid level (last :: rest) ∧ Mode.line.Stands last := by
  induction kinds with
  | nil => exact ⟨by simp, laid, stands last (by simp)⟩
  | cons kind kinds ih =>
    have inline : kind.isInline := (stands kind (by simp)).resolve_right (goesOn kind (by simp))
    have further : Laid level (kinds ++ last :: rest) ∧
        ∀ next ∈ (kinds ++ [last]).head?, Mode.line.Stands next := by
      cases kinds with
      | nil =>
        have after := laid.next inline
        exact ⟨after.1, by simpa using after.2⟩
      | cons next kinds =>
        have whole : Laid level (kind :: next :: (kinds ++ last :: rest)) := laid
        have after := whole.next inline
        exact ⟨after.1, by simpa using after.2⟩
    obtain ⟨others, after, stands⟩ := ih further.1 further.2 fun other member =>
      goesOn other (by simp [member])
    exact ⟨List.forall_mem_cons.2 ⟨inline, others⟩, after, stands⟩

end Laid

/-- Where a parse is in a document: in so many blocks, and inside of brackets, given as those that will
close them, the innermost first, if those gone over nest. -/
structure Depth where
  blocks : Nat
  awaited : Option (List TokenKind)

namespace Depth

/-- Outside of all blocks and brackets. -/
def outermost : Depth := ⟨0, some []⟩

def indented (level : Depth) : Depth := { level with blocks := level.blocks + 1 }

def within (level : Depth) (closer : TokenKind) : Depth :=
  { level with awaited := level.awaited.map (closer :: ·) }

/-- From one depth a token of a line leads to the other. -/
structure Passes (level : Depth) (kind : TokenKind) (level' : Depth) : Prop where
  inline : kind.isInline
  blocks : level'.blocks = level.blocks
  awaited : level.awaited.bind (awaitedBehind · kind) = level'.awaited

theorem awaited_layout (level : Depth) {kind : TokenKind} (layout : kind.isLayout ∨ kind = .newline) :
    level.awaited.bind (awaitedBehind · kind) = level.awaited := by
  simp only [awaitedBehind_layout _ layout, Option.bind_fun_some]

theorem passes_ordinary (level : Depth) {kind : TokenKind} (ordinary : kind.isOrdinary) :
    level.Passes kind level where
  inline := TokenKind.isInline_of_isOrdinary ordinary
  blocks := rfl
  awaited := by simp only [awaitedBehind_ordinary _ ordinary, Option.bind_fun_some]

theorem passes_opening (level : Depth) {kind closer : TokenKind} (opens : kind.closer? = some closer) :
    level.Passes kind (level.within closer) where
  inline := TokenKind.isInline_of_closer? opens
  blocks := rfl
  awaited := by
    simp only [awaitedBehind_closer? _ opens, within, Option.map_eq_bind, Function.comp_def]

theorem passes_closing (level : Depth) {kind : TokenKind} (closes : kind.isClosing) :
    (level.within kind).Passes kind level where
  inline := TokenKind.isInline_of_isClosing closes
  blocks := rfl
  awaited := by
    simp only [within, Option.bind_map, Function.comp_def, awaitedBehind_isClosing _ closes, Option.bind_fun_some]

end Depth

namespace Parser

/-! ### States -/

/-- The message of an error for a statement that was given up. -/
def tooDeepMessage : String := "Statement is nested too deeply to parse"

/-- No statement has been given up. -/
def Calm (p : Parser) : Prop := ∀ error ∈ p.errors.toList, error.message ≠ tooDeepMessage

/-- The layout of the tokens was in order, and the parse has kept to it. -/
def Orderly (laid : Prop) (p : Parser) : Prop := laid ∧ p.Calm

/-- No error was found that says that blocks do not end where they should. -/
def Proper (p : Parser) : Prop :=
  ∀ error ∈ p.errors.toList, error.kind ≠ .dedentExpected ∧ error.kind ≠ .endOfFileExpected

/-- No error was found. -/
def Clean (p : Parser) : Prop := p.errors = #[]

/-- The layout is in order, and no block ends where it begins. -/
def Solid (laid : Prop) (p : Parser) : Prop :=
  p.Orderly laid ∧ ¬ [.indent, .dedent] <:+: (p.stream.tokens.map (·.kind)).filter (· != .comment)

/-- The kinds of the tokens that the parse has gone over. -/
def passed (p : Parser) : List TokenKind := p.stream.behind.reverse.map (·.kind)

/-- The kinds of the tokens that the parse has yet to meet. -/
def kinds (p : Parser) : List TokenKind := p.stream.kinds

/-- How many tokens the parse has yet to meet, names not counted, since repair puts in more of them. -/
def weight (p : Parser) : Nat := (skeletonOf p.stream.upcoming).length

/-- What holds between any two steps of a parse, so deep in blocks and brackets. -/
structure Ready (laid : Prop) (mode : Mode) (level : Depth) (p : Parser) : Prop where
  sound : p.stream.Sound
  rests : p.stream.Rests
  inside : p.collectors ≠ []
  laid : p.Orderly laid → Laid level.blocks p.kinds ∧ mode.Stands p.cell.kind ∧ p.Proper
  nested : p.Clean → awaitedAfter [] p.passed = level.awaited

/-! ### Changes -/

/-- Tokens handed to the innermost node. -/
def grow (cells : List Cell) : List (Array Cell) → List (Array Cell)
  | [] => []
  | innermost :: outer => innermost.appendList cells :: outer

@[simp] theorem grow_nil (collectors : List (Array Cell)) : grow [] collectors = collectors := by
  cases collectors <;> simp [grow]

theorem grow_length (cells : List Cell) (collectors : List (Array Cell)) :
    (grow cells collectors).length = collectors.length := by
  cases collectors <;> rfl

@[simp] theorem grow_grow (cells more : List Cell) (collectors : List (Array Cell)) :
    grow more (grow cells collectors) = grow (cells ++ more) collectors := by
  cases collectors with
  | nil => rfl
  | cons innermost outer =>
    rw [grow, grow, grow, List.cons.injEq]
    exact ⟨Array.toList_inj.1 (by simp), rfl⟩

theorem grow_ne_nil {cells : List Cell} {collectors : List (Array Cell)} (inside : collectors ≠ []) :
    grow cells collectors ≠ [] := by
  cases collectors with
  | nil => exact absurd rfl inside
  | cons => simp [grow]

/-- The places of the errors about missing names, by the tokens there. -/
def missed (errors : List ParseError) : List Nat := (errors.filter (·.kind == .nameExpected)).map (·.cell.index)

/-- The tokens up to the one at the cursor. -/
def met (p : Parser) : List Cell := p.stream.behind.reverse ++ [p.cell]

/-- For each error about a missing name one was put in that has the number in the list, in front of the token where the
error was found. As long as no statement has been given up no other ones were put in, and none is yet to be met. -/
structure ErrorNames (names : List Nat) (p : Parser) : Prop where
  stands : List.Forall₂ (StandsBeforeAt p.Calm p.met) names (missed p.errors.toList)
  ahead : p.Calm → ∀ token ∈ p.stream.upcoming, token.synthetic = false
  all : p.Calm → ∀ cell ∈ p.stream.behind, cell.synthetic → cell.index ∈ names

/-- The names that were put in on the way over a run are in it, and each is owned by the node that stands for it. -/
structure NewErrorNames (names : List Nat) (pieces : List Piece) (q : Parser) (more : List Nat) : Prop where
  errorNames : ErrorNames (names ++ more) q
  among : more.Sublist ((cellsOf pieces).map Cell.index)
  owners : ∀ node ∈ nodesOf pieces, node.OnlyPlaceholdersOwn more
  apart : ∀ cell ∈ tokensOf pieces, cell.index ∉ more

theorem ErrorNames.ofEngine {names : List Nat} {p q : Parser} (errorNames : ErrorNames names p)
    (engine : q.engine = p.engine) : ErrorNames names q := by
  obtain ⟨_, collectors, position⟩ := q
  dsimp only at engine
  subst engine
  exact ⟨errorNames.stands, errorNames.ahead, errorNames.all⟩

theorem ErrorNames.mem_of_met {names : List Nat} {p : Parser} (errorNames : ErrorNames names p) (calm : p.Calm) :
    ∀ cell ∈ p.met, cell.synthetic → cell.index ∈ names := by
  intro cell met put
  rcases List.mem_append.1 met with before | here
  · exact errorNames.all calm cell (List.mem_reverse.1 before) put
  · obtain rfl := List.mem_singleton.1 here
    have real : p.cell.synthetic = false := errorNames.ahead calm p.cell.toToken List.mem_cons_self
    rw [real] at put
    cases put

/-- Where a statement was given up with what was found in it, the other names are still in front of their tokens. -/
theorem ErrorNames.again {names : List Nat} {p q : Parser} (errorNames : ErrorNames names p) (met : q.met = p.met)
    (same : missed q.errors.toList = missed p.errors.toList) (excited : ¬ q.Calm) : ErrorNames names q where
  stands := by
    rw [met, same]
    exact errorNames.stands.imp fun _ _ stands => stands.mono fun calm => absurd calm excited
  ahead calm := absurd calm excited
  all calm := absurd calm excited

theorem ErrorNames.nothing {names : List Nat} {q : Parser} (errorNames : ErrorNames names q) (pieces : List Piece) :
    NewErrorNames names pieces q [] where
  errorNames := by rwa [List.append_nil]
  among := List.nil_sublist _
  owners node _ := node.onlyPlaceholdersOwn_nil
  apart _ _ := List.not_mem_nil

/-- Names that were put in over two runs that have no token in common. -/
theorem NewErrorNames.append {names more further : List Nat} {ps qs : List Piece} {q r : Parser}
    (early : NewErrorNames names ps q more) (late : NewErrorNames (names ++ more) qs r further)
    (first : ∀ node ∈ nodesOf ps, node.ownedTokens ⊆ cellsOf ps)
    (second : ∀ node ∈ nodesOf qs, node.ownedTokens ⊆ cellsOf qs)
    (disjoint : List.Disjoint ((cellsOf ps).map Cell.index) ((cellsOf qs).map Cell.index)) :
    NewErrorNames names (ps ++ qs) r (more ++ further) := by
  have before : ∀ cell ∈ cellsOf ps, cell.index ∈ more ++ further → cell.index ∈ more := fun cell member named =>
    (List.mem_append.1 named).resolve_right fun later =>
      disjoint (List.mem_map_of_mem member) (late.among.subset later)
  have behind : ∀ cell ∈ cellsOf qs, cell.index ∈ more ++ further → cell.index ∈ further := fun cell member named =>
    (List.mem_append.1 named).resolve_left fun sooner =>
      disjoint (early.among.subset sooner) (List.mem_map_of_mem member)
  refine ⟨List.append_assoc .. ▸ late.errorNames, ?_, fun node made => ?_, fun cell own named => ?_⟩
  · rw [cellsOf_append, List.map_append]
    exact early.among.append late.among
  · rcases List.mem_append.1 (nodesOf_append .. ▸ made) with here | there
    · exact (early.owners node here).mono fun cell own => before cell (first node here own)
    · exact (late.owners node there).mono fun cell own => behind cell (second node there own)
  · rcases List.mem_append.1 (tokensOf_append .. ▸ own) with here | there
    · exact early.apart cell here (before cell (tokensOf_subset here) named)
    · exact late.apart cell there (behind cell (tokensOf_subset there) named)

/-- Errors were found at tokens up to the one at the cursor, and in the order of these. -/
structure Filed (p : Parser) : Prop where
  met : ∀ error ∈ p.errors.toList, error.cell.index ∈ p.stream.trail
  inOrder : p.errors.toList.Pairwise fun error next =>
    error.cell.index = next.cell.index ∨ [error.cell.index, next.cell.index].Sublist p.stream.trail

theorem Filed.ofEngine {p q : Parser} (filed : p.Filed) (engine : q.engine = p.engine) : q.Filed := by
  obtain ⟨_, collectors, position⟩ := q
  dsimp only at engine
  subst engine
  exact ⟨filed.met, filed.inOrder⟩

theorem filed_of_clean {p : Parser} (clean : p.errors = #[]) : p.Filed := by
  have none : p.errors.toList = [] := congrArg Array.toList clean
  refine ⟨?_, ?_⟩
  · rw [none]
    exact List.forall_mem_nil _
  · rw [none]
    exact .nil

/-- Where the cursor goes on, errors that are found at it come last. -/
theorem Filed.onward {p q : Parser} (filed : p.Filed) (trail : p.stream.trail.Sublist q.stream.trail)
    {found : List ParseError} (errors : q.errors.toList = p.errors.toList ++ found)
    (here : ∀ error ∈ found, error.cell.index = p.cell.index) : q.Filed := by
  have last : p.stream.trail = p.stream.behind.reverse.map Cell.index ++ [p.cell.index] := List.map_append
  refine ⟨fun error member => ?_, ?_⟩
  · rw [errors, List.mem_append] at member
    rcases member with old | new
    · exact trail.subset (filed.met error old)
    · rw [here error new]
      exact trail.subset (last ▸ List.mem_append_right _ (List.mem_singleton.2 rfl))
  · rw [errors, List.pairwise_append]
    refine ⟨filed.inOrder.imp (Or.imp_right (·.trans trail)), ?_, fun error old next new => ?_⟩
    · exact List.Pairwise.imp_of_mem (fun first second _ => .inl ((here _ first).trans (here _ second).symm))
        (List.pairwise_of_forall fun _ _ => trivial)
    · rw [here next new]
      have met := filed.met error old
      rw [last, List.mem_append, List.mem_singleton] at met
      refine met.symm.imp_right fun before => List.Sublist.trans ?_ trail
      rw [last]
      exact (List.singleton_sublist.2 before).append (List.Sublist.refl _)

/-- What no step of a parse changes, and in which way the rest does: errors are added, and tokens are put
in only where an error is. -/
structure Grows (p q : Parser) : Prop where
  dialect : q.dialect = p.dialect
  mends : Mends p.stream.tokens q.stream.tokens
  errors : p.errors.toList <+: q.errors.toList
  quiet : q.errors = p.errors → q.stream.tokens = p.stream.tokens
  files : p.Filed → q.Filed

theorem Grows.refl (p : Parser) : Grows p p :=
  ⟨rfl, .refl _, List.prefix_refl _, fun _ => rfl, id⟩

theorem Grows.calm {p q : Parser} (grows : Grows p q) (calm : q.Calm) : p.Calm :=
  fun error member => calm error (grows.errors.subset member)

theorem Grows.trans {p q r : Parser} (first : Grows p q) (second : Grows q r) : Grows p r where
  dialect := second.dialect.trans first.dialect
  mends := first.mends.trans second.mends
  files := second.files ∘ first.files
  errors := first.errors.trans second.errors
  quiet same := by
    have between : q.errors = p.errors := by
      have back : q.errors.toList <+: p.errors.toList := same ▸ second.errors
      exact Array.toList_inj.1 (back.eq_of_length_le first.errors.length_le)
    exact (second.quiet (same.trans between.symm)).trans (first.quiet between)

theorem Grows.clean {p q : Parser} (grows : Grows p q) (clean : q.Clean) : p.Clean := by
  have none : q.errors.toList = [] := congrArg Array.toList clean
  exact Array.toList_inj.1 (List.prefix_nil.1 (none ▸ grows.errors))

theorem Grows.orderly {laid : Prop} {p q : Parser} (grows : Grows p q) (orderly : q.Orderly laid) :
    p.Orderly laid :=
  ⟨orderly.1, fun error member => orderly.2 error (grows.errors.subset member)⟩

theorem Grows.solid {laid : Prop} {p q : Parser} (grows : Grows p q) (clean : q.Clean) (solid : q.Solid laid) :
    p.Solid laid :=
  ⟨grows.orderly solid.1, grows.quiet (Eq.trans clean (grows.clean clean).symm) ▸ solid.2⟩

/-- The token at the cursor was gone over. -/
def Bumps (p q : Parser) : Prop :=
  p.stream.behind.reverse ++ [p.cell] <+: q.stream.behind.reverse ∧ p.position < q.position

/-- The parse has gone on from `p` to `q` over a run made up of the pieces. If `lead` holds it began with
the token at the cursor. -/
structure Moves (laid : Prop) (mode : Mode) (lead : Prop) (pieces : List Piece) (p q : Parser) : Prop
    extends Grows p q where
  behind : ∃ moved, q.stream.behind = moved.reverse ++ p.stream.behind ∧
    TokenStream.significant moved = cellsOf pieces
  collectors : q.collectors = grow (tokensOf pieces) p.collectors
  position : p.position ≤ q.position
  leads : lead → Bumps p q
  spans : ∀ node run, .node node run ∈ pieces → Spans (Spaced p.stream.tokens) (q.Orderly laid) node run
  lies : Spaced p.stream.tokens → Lies p.cell.first pieces q.cell.first
  newNames : (q.stream.behind.map Cell.index).Nodup → ∀ names, ErrorNames names p →
    ∃ more, NewErrorNames names pieces q more
  allows : q.Orderly laid → mode.Allows pieces
  whole : q.Clean → ∀ node ∈ nodesOf pieces, node.Whole (q.Solid laid)
  literate : ∀ node ∈ nodesOf pieces, node.Literate q.errors.toList

/-- The parse was left off between `p` and `q`: what lies before `p` is still there, and so are the nodes
that were under construction. If `lead` holds, so is the token that was at the cursor. -/
structure Broken (lead : Prop) (p q : Parser) : Prop extends Grows p q where
  sound : q.stream.Sound
  kept : p.stream.behind.reverse <+: q.stream.document
  bumped : lead → p.stream.behind.reverse ++ [p.cell] <+: q.stream.document
  collectors : ∃ inner cells, q.collectors = inner ++ grow cells p.collectors

section

variable {laid lead : Prop} {mode : Mode} {p q r : Parser} {ps qs : List Piece}

theorem Bumps.trans (first : Bumps p q) (second : Moves laid mode lead ps q r) : Bumps p r := by
  obtain ⟨moved, behind, -⟩ := second.behind
  refine ⟨?_, Nat.lt_of_lt_of_le first.2 second.position⟩
  rw [behind, List.reverse_append, List.reverse_reverse]
  exact first.1.trans (List.prefix_append ..)

theorem Moves.refl (laid : Prop) (mode : Mode) (p : Parser) : Moves laid mode False [] p p :=
  { Grows.refl p with
    behind := ⟨[], rfl, rfl⟩
    collectors := (grow_nil _).symm
    position := Nat.le_refl _
    leads := False.elim
    spans := by simp
    lies := fun _ => le_refl p.cell.first
    newNames := fun _ _ errorNames => ⟨[], errorNames.nothing []⟩
    allows := fun _ => mode.allows_nil
    whole := fun _ => by simp
    literate := by simp }

/-- The nodes that were made own tokens of the run only. -/
theorem Moves.owned (moves : Moves laid mode lead ps p q) : ∀ node ∈ nodesOf ps, node.ownedTokens ⊆ cellsOf ps := by
  intro node made
  obtain ⟨run, listed⟩ := mem_nodesOf made
  exact fun cell own => cells_subset listed ((moves.spans node run listed).owned_subset own)

theorem Moves.cells_sublist (moves : Moves laid mode lead ps p q) : (cellsOf ps).Sublist q.stream.behind.reverse := by
  obtain ⟨moved, behind, run⟩ := moves.behind
  rw [← run, behind, List.reverse_append, List.reverse_reverse]
  exact List.filter_sublist.trans (List.sublist_append_right ..)

theorem Moves.nodup (moves : Moves laid mode lead ps p q) (nodup : (q.stream.behind.map Cell.index).Nodup) :
    (p.stream.behind.map Cell.index).Nodup := by
  obtain ⟨moved, behind, -⟩ := moves.behind
  rw [behind, List.map_append] at nodup
  exact nodup.of_append_right

/-- Runs one behind the other have no token in common. -/
theorem Moves.disjoint {lead' : Prop} (first : Moves laid mode lead ps p q) (second : Moves laid mode lead' qs q r)
    (nodup : (r.stream.behind.map Cell.index).Nodup) :
    List.Disjoint ((cellsOf ps).map Cell.index) ((cellsOf qs).map Cell.index) := by
  obtain ⟨moved, behind, run⟩ := first.behind
  obtain ⟨more, after, rest⟩ := second.behind
  rw [after, behind, ← List.append_assoc, List.map_append, List.map_append] at nodup
  have apart := List.disjoint_of_nodup_append nodup.of_append_left
  have within : ∀ cells, (TokenStream.significant cells).map Cell.index ⊆ cells.reverse.map Cell.index := fun cells =>
    List.map_subset _ fun cell member => List.mem_reverse.2 (List.mem_filter.1 member).1
  rw [← run, ← rest]
  exact fun number early late => apart (within more late) (within moved early)

theorem Moves.trans {lead' : Prop} (first : Moves laid mode lead ps p q)
    (second : Moves laid mode lead' qs q r) : Moves laid mode lead (ps ++ qs) p r :=
  { first.toGrows.trans second.toGrows with
    behind := by
      obtain ⟨moved, behind, run⟩ := first.behind
      obtain ⟨more, after, rest⟩ := second.behind
      exact ⟨moved ++ more, by simp [after, behind], by simp [run, rest]⟩
    collectors := by rw [second.collectors, first.collectors, grow_grow, tokensOf_append]
    position := Nat.le_trans first.position second.position
    leads := fun led => (first.leads led).trans second
    spans := by
      intro node run member
      rcases List.mem_append.1 member with early | late
      · exact (first.spans node run early).mono id second.toGrows.orderly
      · exact (second.spans node run late).mono first.mends.spaced id
    lies := fun spaced => (first.lies spaced).append (second.lies (first.mends.spaced spaced))
    newNames := fun nodup names errorNames => by
      obtain ⟨more, early⟩ := first.newNames (second.nodup nodup) names errorNames
      obtain ⟨further, late⟩ := second.newNames nodup (names ++ more) early.errorNames
      exact ⟨more ++ further, early.append late first.owned second.owned (first.disjoint second nodup)⟩
    allows := fun orderly =>
      (first.allows (second.toGrows.orderly orderly)).append (second.allows orderly)
    whole := fun clean node made => by
      rcases List.mem_append.1 (nodesOf_append .. ▸ made) with early | late
      · exact (first.whole (second.toGrows.clean clean) node early).mono (second.toGrows.solid clean)
      · exact second.whole clean node late
    literate := fun node made => by
      rcases List.mem_append.1 (nodesOf_append .. ▸ made) with early | late
      · exact (first.literate node early).mono second.errors.subset
      · exact second.literate node late }

/-- A run that began with the token at the cursor holds it. -/
theorem Moves.cell_mem (moves : Moves laid mode lead ps p q) (led : lead) (rests : p.stream.Rests) :
    p.cell ∈ cellsOf ps := by
  obtain ⟨moved, behind, run⟩ := moves.behind
  have began := (moves.leads led).1
  rw [behind, List.reverse_append, List.reverse_reverse, List.prefix_append_right_inj] at began
  rw [← run]
  exact List.mem_filter.2 ⟨began.subset (by simp), bne_iff_ne.2 rests⟩

theorem Moves.filled (moves : Moves laid mode lead ps p q) (led : lead) (rests : p.stream.Rests) :
    cellsOf ps ≠ [] :=
  List.ne_nil_of_mem (moves.cell_mem led rests)

theorem Moves.weaken {lead' : Prop} (moves : Moves laid mode lead ps p q) (weaker : lead' → lead) :
    Moves laid mode lead' ps p q :=
  { moves with leads := fun led => moves.leads (weaker led) }

theorem Moves.within {wider : Mode} (moves : Moves laid mode lead ps p q) (within : mode.Within wider) :
    Moves laid wider lead ps p q :=
  { moves with allows := fun orderly => (moves.allows orderly).within within }

/-- What was gone over is of the mode after all. -/
theorem Moves.shaped (moves : Moves laid .free lead ps p q) (allows : q.Orderly laid → mode.Allows ps) :
    Moves laid mode lead ps p q :=
  { moves with allows }

theorem Ready.within {wider : Mode} {level : Depth} (ready : Ready laid mode level p)
    (within : mode.Within wider) : Ready laid wider level p :=
  { ready with laid := fun orderly =>
    ⟨(ready.laid orderly).1, (ready.laid orderly).2.1.within within, (ready.laid orderly).2.2⟩ }

theorem Ready.block {level : Depth} (ready : Ready laid mode level p) : Ready laid .block level p :=
  { ready with laid := fun orderly => ⟨(ready.laid orderly).1, trivial, (ready.laid orderly).2.2⟩ }

/-- The kind at the cursor tells that it is within a line. -/
theorem Ready.line {level : Depth} (ready : Ready laid mode level p)
    (stands : p.Orderly laid → Mode.line.Stands p.cell.kind) : Ready laid .line level p :=
  { ready with laid := fun orderly =>
    ⟨(ready.laid orderly).1, stands orderly, (ready.laid orderly).2.2⟩ }

/-- Once an error has been found, nothing is claimed of the brackets. -/
theorem Ready.unclean {level level' : Depth} (ready : Ready laid mode level p) (dirty : ¬ p.Clean)
    (blocks : level'.blocks = level.blocks) : Ready laid mode level' p :=
  { ready with laid := blocks ▸ ready.laid, nested := fun clean => absurd clean dirty }

/-- The brackets that are open behind a run are those open in front of it and in the run. -/
theorem Moves.awaitedAfter_passed (moves : Moves laid mode lead ps p q) :
    awaitedAfter [] q.passed =
      (awaitedAfter [] p.passed).bind (awaitedAfter · ((cellsOf ps).map (·.kind))) := by
  obtain ⟨moved, behind, run⟩ := moves.behind
  have met : (cellsOf ps).map (·.kind) = (moved.map (·.kind)).filter (· != .comment) := by
    rw [← run, TokenStream.significant, List.filter_map]
    rfl
  rw [passed, behind, List.reverse_append, List.reverse_reverse, List.map_append, awaitedAfter_append, met]
  exact congrArg _ (funext fun awaited => (awaitedAfter_filter awaited _).symm)

/-- What is left to meet weighs less by what was gone over. -/
theorem Moves.weight_eq (moves : Moves laid mode lead ps p q) :
    p.weight = (skeletonOf ((cellsOf ps).map Cell.toToken)).length + q.weight := by
  obtain ⟨moved, behind, run⟩ := moves.behind
  have same := moves.mends.skeleton
  rw [TokenStream.tokens_eq, TokenStream.tokens_eq, behind] at same
  simp only [List.reverse_append, List.reverse_reverse, List.map_append, skeletonOf_append,
    List.append_assoc, List.append_cancel_left_eq] at same
  have met : skeletonOf (moved.map Cell.toToken) = skeletonOf ((cellsOf ps).map Cell.toToken) := by
    rw [← run, TokenStream.significant]
    simp only [skeletonOf, List.map_map, List.filter_map, List.filter_filter]
    congr 2
    funext cell
    simp [Function.comp, Bool.and_comm]
  rw [weight, weight, ← same, met, List.length_append]

theorem Moves.weight_le (moves : Moves laid mode lead ps p q) : q.weight ≤ p.weight := by
  rw [moves.weight_eq]
  omega

/-- A run that began with a token other than a name leaves less to meet. -/
theorem Moves.weight_lt (moves : Moves laid mode lead ps p q) (led : lead) (rests : p.stream.Rests)
    (other : p.cell.kind ≠ .name) : q.weight < p.weight := by
  have counted : p.cell.kind ∈ skeletonOf ((cellsOf ps).map Cell.toToken) := by
    refine List.mem_filter.2 ⟨by simpa using ⟨p.cell, moves.cell_mem led rests, rfl⟩, ?_⟩
    simp [other, show p.cell.kind ≠ .comment from rests]
  have some := List.length_pos_of_mem counted
  rw [moves.weight_eq]
  omega

theorem Moves.later_le {mode' : Mode} {lead' : Prop} (early : Moves laid mode lead ps p q)
    (late : Moves laid mode' lead' (ps ++ qs) p r) : r.weight ≤ q.weight := by
  have first := early.weight_eq
  have second := late.weight_eq
  rw [cellsOf_append, List.map_append, skeletonOf_append, List.length_append] at second
  omega

/-- From where a later step left off, the parse can go back to before an earlier one. -/
theorem Broken.after {lead' : Prop} (moves : Moves laid mode lead ps p q)
    (broken : Broken lead' q r) : Broken lead p r :=
  { moves.toGrows.trans broken.toGrows with
    sound := broken.sound
    kept := by
      obtain ⟨moved, behind, -⟩ := moves.behind
      have kept := broken.kept
      rw [behind, List.reverse_append, List.reverse_reverse] at kept
      exact (List.prefix_append ..).trans kept
    bumped := fun led => (moves.leads led).1.trans broken.kept
    collectors := by
      obtain ⟨inner, cells, same⟩ := broken.collectors
      exact ⟨inner, tokensOf ps ++ cells, by rw [same, moves.collectors, grow_grow]⟩ }

theorem Broken.weaken {lead' : Prop} (broken : Broken lead p q) (weaker : lead' → lead) :
    Broken lead' p q :=
  { broken with bumped := fun led => broken.bumped (weaker led) }

/-- A node has been begun at the cursor. -/
def opened (p : Parser) : Parser := { p with collectors := #[] :: p.collectors }

/-- Left off inside a node, the parse is left off around it too. -/
theorem Broken.closed (broken : Broken lead p.opened q) : Broken lead p q where
  toGrows := ⟨broken.dialect, broken.mends, broken.errors, broken.quiet, fun filed =>
    broken.files (filed.ofEngine rfl)⟩
  sound := broken.sound
  kept := broken.kept
  bumped := broken.bumped
  collectors := by
    obtain ⟨inner, cells, same⟩ := broken.collectors
    refine ⟨inner ++ [cells.toArray], [], ?_⟩
    rw [same, grow_nil]
    simp [opened, grow]

end

end Parser

end TolerantParser
