import TolerantParser.Proofs.Parser.Completes

/-!
The steps that productions are made of: going over tokens, beginning and ending nodes, and errors with
their repairs.
-/

namespace TolerantParser.Parser

open TokenStream (Steps significant)

variable {α β : Type} {laid lead : Prop} {mode : Mode} {level : Depth} {p q r : Parser}
  {ps qs : List Piece}

/-- The state that steps leave, also when they are refused. -/
def after {σ : Type} : EStateM.Result Fault σ α → σ
  | .ok _ s => s
  | .error _ s => s

/-! ### Going over tokens -/

theorem collect_eq (cells : List Cell) (p : Parser) :
    collect cells p = .ok () { p with collectors := grow cells p.collectors } := by
  cases collectors : p.collectors <;>
    simp [collect, TokenStream.modify_ok, grow, collectors]
  rw [← collectors]

/-- Errors have been found at the cursor, none of them about a missing name. -/
def Finds (p q : Parser) : Prop := ∃ found, q.errors.toList = p.errors.toList ++ found ∧
  ∀ error ∈ found, error.kind ≠ .nameExpected ∧ error.cell = p.cell

theorem Finds.errors (finds : Finds p q) : p.errors.toList <+: q.errors.toList := by
  obtain ⟨found, errors, -⟩ := finds
  exact ⟨found, errors.symm⟩

theorem Finds.missed (finds : Finds p q) : missed q.errors.toList = missed p.errors.toList := by
  obtain ⟨found, errors, others⟩ := finds
  have none : found.filter (·.kind == .nameExpected) = [] := by simpa using fun error member => (others error member).1
  rw [Parser.missed, errors, List.filter_append, none, List.append_nil, Parser.missed]

theorem Finds.files (finds : Finds p q) (trail : p.stream.trail.Sublist q.stream.trail) (filed : p.Filed) :
    q.Filed := by
  obtain ⟨found, errors, here⟩ := finds
  exact filed.onward trail errors fun error member => congrArg Cell.index (here error member).2

theorem finds_of_eq (same : q.errors = p.errors) : Finds p q := ⟨[], by simp [same], by simp⟩

theorem finds_of_push {kind : ErrorKind} {message : Option String}
    (errors : q.errors = p.errors.push (.ofMessage kind p.cell message)) (other : kind ≠ .nameExpected) : Finds p q :=
  ⟨[.ofMessage kind p.cell message], by simp [errors], List.forall_mem_singleton.2 ⟨other, rfl⟩⟩

/-- Going over tokens for which nothing was put in leaves the names where they are. -/
theorem ErrorNames.steps {names : List Nat} (errorNames : ErrorNames names p) {moved : List Cell}
    (steps : Steps p.stream moved q.stream) (finds : Finds p q) : ErrorNames names q := by
  have calmer : q.Calm → p.Calm := fun calm error member => calm error (finds.errors.subset member)
  obtain ⟨more, met⟩ : p.met <+: q.met := by
    rw [met, met, steps.behind, List.reverse_append, List.reverse_reverse]
    cases moved with
    | nil => exact ⟨[], by simpa [Parser.cell] using steps.current_eq.symm⟩
    | cons first rest =>
      obtain rfl : first = p.stream.current := steps.head_passed
      exact ⟨rest ++ [q.cell], by simp [Parser.cell]⟩
  refine ⟨?_, fun calm => ?_, fun calm cell member put => ?_⟩
  · rw [finds.missed, ← met]
    exact errorNames.stands.imp fun _ _ stands => (stands.mono calmer).append more
  · have ahead := errorNames.ahead (calmer calm)
    rw [steps.upcoming, List.forall_mem_append] at ahead
    exact ahead.2
  · have ahead := errorNames.ahead (calmer calm)
    rw [steps.upcoming, List.forall_mem_append, List.forall_mem_map] at ahead
    rw [steps.behind, List.mem_append, List.mem_reverse] at member
    rcases member with passed | before
    · rw [ahead.1 cell passed] at put
      cases put
    · exact errorNames.all (calmer calm) cell before put

/-- Tokens lie one behind the other, up to the one behind them. -/
theorem lies_of_spaced {moved : List Cell} {next : Token} {rest : List Token} {lo : Position}
    (spaced : Spaced (moved.map Cell.toToken ++ next :: rest))
    (here : ∀ token ∈ (moved.map Cell.toToken ++ next :: rest).head?, lo ≤ token.first) :
    Lies lo (tokenPieces (significant moved)) next.first := by
  induction moved generalizing lo with
  | nil => exact here next rfl
  | cons cell moved ih =>
    have le := here cell.toToken rfl
    obtain ⟨apart, stretches⟩ := spaced
    rw [List.map_cons, List.cons_append, List.pairwise_cons] at apart
    rw [List.map_cons, List.cons_append, List.forall_mem_cons] at stretches
    have later : Lies cell.last (tokenPieces (significant moved)) next.first :=
      ih ⟨apart.2, stretches.2⟩ fun token first => apart.1 token (List.mem_of_head? first)
    by_cases comment : cell.kind = .comment
    · have none : significant (cell :: moved) = significant moved := TokenStream.significant_cons_comment comment moved
      rw [none]
      exact later.sooner (le.trans stretches.1.le)
    · have some : significant (cell :: moved) = cell :: significant moved :=
        TokenStream.significant_cons_of_ne comment moved
      rw [some]
      exact ⟨le, ⟨stretches.1.le, nofun, fun _ member => List.mem_singleton.1 member ▸ stretches.1⟩, later⟩

/-- A parse that has moved over tokens and handed them to the innermost node. -/
theorem Moves.ofSteps (laid : Prop) {moved : List Cell} (steps : Steps p.stream moved q.stream)
    (finds : Finds p q)
    (collectors : q.collectors = grow (significant moved) p.collectors)
    (position : p.position ≤ q.position) :
    Moves laid .free False (tokenPieces (significant moved)) p q where
  dialect := steps.dialect
  mends := by
    rw [steps.tokens]
    exact .refl _
  errors := finds.errors
  quiet _ := steps.tokens
  files := finds.files steps.trail
  behind := ⟨moved, steps.behind, by simp⟩
  collectors := by simpa using collectors
  position := position
  leads := False.elim
  spans node run member := by simp [tokenPieces] at member
  lies spaced := by
    have sublist : p.stream.upcoming.Sublist p.stream.tokens := by
      rw [TokenStream.tokens_eq]
      exact List.sublist_append_right ..
    have ahead := spaced.sublist sublist
    rw [steps.upcoming] at ahead
    refine lies_of_spaced ahead fun token first => ?_
    have whole : p.stream.upcoming.head? = some token := steps.upcoming ▸ first
    obtain rfl := Option.some.inj whole
    exact le_refl p.cell.first
  newNames _ _ errorNames := ⟨[], (errorNames.steps steps finds).nothing _⟩
  allows _ := trivial
  whole _ := by simp
  literate := by simp

/-- The parse has only looked around or found errors. -/
structure Still (p q : Parser) : Prop where
  steps : Steps p.stream [] q.stream
  finds : Finds p q
  collectors : q.collectors = p.collectors
  position : q.position = p.position

namespace Still

theorem cell (still : Still p q) : q.cell = p.cell := still.steps.current_eq

theorem kinds (still : Still p q) : q.kinds = p.kinds := still.steps.kinds.symm

theorem weight (still : Still p q) : q.weight = p.weight := by
  rw [Parser.weight, Parser.weight, still.steps.upcoming]
  rfl

theorem dialect (still : Still p q) : q.dialect = p.dialect := still.steps.dialect

theorem passed (still : Still p q) : q.passed = p.passed := by
  rw [Parser.passed, Parser.passed, still.steps.behind]
  rfl

end Still

theorem Moves.still (still : Still p q) : Moves laid mode False [] p q :=
  (Moves.ofSteps laid still.steps still.finds (by simpa [significant] using still.collectors)
    (Nat.le_of_eq still.position.symm)).shaped fun _ => mode.allows_nil

theorem Ready.still (ready : Ready laid mode level p) (still : Still p q)
    (proper : q.Orderly laid → p.Proper → q.Proper) : Ready laid mode level q where
  sound := still.steps.sound
  rests := by
    rw [TokenStream.Rests, still.steps.current_eq]
    exact ready.rests
  inside := still.collectors ▸ ready.inside
  laid orderly := by
    have before := ready.laid ⟨orderly.1, fun error member =>
      orderly.2 error (still.finds.errors.subset member)⟩
    rw [still.kinds, still.cell]
    exact ⟨before.1, before.2.1, proper orderly before.2.2⟩
  nested clean := by
    have moves : Moves laid .free False [] p q := .still still
    rw [still.passed]
    exact ready.nested (moves.toGrows.clean clean)

/-- Which tokens the nodes under construction have makes no difference. -/
theorem Ready.ofEngine (ready : Ready laid mode level p) (engine : q.engine = p.engine)
    (inside : q.collectors ≠ []) : Ready laid mode level q := by
  obtain ⟨_, collectors, position⟩ := q
  dsimp only at engine
  subst engine
  exact ⟨ready.sound, ready.rests, inside, ready.laid, ready.nested⟩

theorem onEngine_ok {steps : EngineM α} {value : α} {engine : Engine}
    (runs : steps p.engine = .ok value engine) :
    onEngine steps p = .ok value { p with engine } := by
  simp [onEngine, runs]

theorem onStream_ok {steps : StreamM α} {value : α} {stream : TokenStream}
    (runs : steps p.stream = .ok value stream) :
    onStream steps p = .ok value { p with engine := { p.engine with stream } } :=
  onEngine_ok (by
    unfold Parser.stream at runs
    simp [Engine.onStream, runs])

/-- The parse has gone over the token at the cursor, and its stream has come to another one. -/
def bumped (p : Parser) (stream : TokenStream) : Parser where
  engine := { p.engine with stream }
  collectors := grow [p.cell] p.collectors
  position := p.position + 1

theorem bump_advance {t : TokenStream} (more : p.cell.kind ≠ .endOfFile)
    (advances : TokenStream.advance p.stream = .ok p.cell t) : bump p = .ok p.cell (p.bumped t) := by
  have start : (get : ParseM Parser) p = .ok p p := rfl
  unfold bump
  rw [TokenStream.bind_ok start, if_neg (by simpa using more),
    TokenStream.bind_ok (TokenStream.discard_ok (onStream_ok advances)),
    TokenStream.bind_ok (collect_eq _ _)]
  rfl

theorem bump_eq (sound : p.stream.Sound) (more : p.cell.kind ≠ .endOfFile) :
    ∃ comments t, bump p = .ok p.cell (p.bumped t) ∧ Steps p.stream (p.cell :: comments) t ∧
      (∀ cell ∈ comments, cell.kind = .comment) ∧ t.Rests := by
  obtain ⟨comments, t, advances, steps, others, rested⟩ := TokenStream.advance_eq sound more
  exact ⟨comments, t, bump_advance more advances, steps, others, rested⟩

/-- The token at the cursor is gone over. -/
theorem bump_ok (laid : Prop) (sound : p.stream.Sound) (rests : p.stream.Rests) (more : p.cell.kind ≠ .endOfFile) :
    ∃ q, bump p = .ok p.cell q ∧ Moves laid .free True [.token p.cell] p q ∧ q.stream.Sound ∧
      q.stream.Rests ∧ q.errors = p.errors ∧ p.kinds = p.cell.kind :: q.kinds := by
  obtain ⟨comments, t, bumps, steps, others, rested⟩ := bump_eq sound more
  have met : significant (p.cell :: comments) = [p.cell] :=
    TokenStream.significant_cons_comments rests others
  let q := p.bumped t
  have moves : Moves laid .free False [.token p.cell] p q := by
    have moves := Moves.ofSteps laid (q := q) steps (finds_of_eq rfl) (by rw [met]; rfl) (Nat.le_succ _)
    rwa [met] at moves
  refine ⟨q, bumps, { moves with leads := fun _ => ⟨?_, Nat.lt_succ_self _⟩ }, steps.sound, rested, rfl,
    steps.kinds_cons rests others⟩
  rw [show q.stream.behind = t.behind from rfl, steps.behind]
  simp [Parser.cell]

/-- The token at the cursor was gone over and nothing else. -/
structure Bumped (p : Parser) (cell : Cell) (pieces : List Piece) (q : Parser) : Prop where
  cell : cell = p.cell
  pieces : pieces = [.token p.cell]
  errors : q.errors = p.errors
  kinds : p.kinds = p.cell.kind :: q.kinds
  weight : p.cell.kind ≠ .name → q.weight < p.weight

theorem Bumped.orderly {cell : Cell} (bumped : Bumped p cell ps q) (orderly : q.Orderly laid) :
    p.Orderly laid :=
  ⟨orderly.1, by rw [Calm, ← bumped.errors]; exact orderly.2⟩

/-- Going over a token, in general: what it changes of the layout and of the brackets is for the caller
to say. -/
theorem bump_takes {mode' : Mode} {level' : Depth} (ready : Ready laid mode level p)
    (more : p.cell.kind ≠ .endOfFile)
    (inOrder : p.Orderly laid → mode.Stands p.cell.kind → ∀ next rest,
      Laid level.blocks (p.cell.kind :: next :: rest) →
        mode'.Allows [.token p.cell] ∧ Laid level'.blocks (next :: rest) ∧ mode'.Stands next)
    (nests : p.Clean → level.awaited.bind (awaitedBehind · p.cell.kind) = level'.awaited) :
    Takes laid mode' True level' bump p (Bumped p) := by
  obtain ⟨q, bumps, moves, sound, rests, errors, kinds⟩ :=
    bump_ok laid ready.sound ready.rests more
  have ordered : q.Orderly laid → mode'.Allows [.token p.cell] ∧ Laid level'.blocks q.kinds ∧
      mode'.Stands q.cell.kind := by
    intro orderly
    have before := moves.toGrows.orderly orderly
    obtain ⟨layout, stands, -⟩ := ready.laid before
    obtain ⟨others, same⟩ := TokenStream.kinds_eq_cons rests
    have head : q.kinds = q.cell.kind :: others := same
    rw [kinds, head] at layout
    rw [head]
    exact inOrder before stands _ _ layout
  have weight : p.cell.kind ≠ .name → q.weight < p.weight := by
    intro other
    have lighter := moves.weight_eq
    have counted : skeletonOf ((cellsOf [.token p.cell]).map Cell.toToken) = [p.cell.kind] := by
      have met : p.cell.kind ≠ .comment := ready.rests
      simp [skeletonOf, other, met]
    rw [counted, List.length_singleton] at lighter
    omega
  refine ⟨_, q, _, bumps, moves.shaped fun orderly => (ordered orderly).1, ⟨sound, rests, ?_, ?_, ?_⟩,
    ⟨rfl, rfl, errors, kinds, weight⟩⟩
  · rw [moves.collectors]
    exact grow_ne_nil ready.inside
  · intro orderly
    obtain ⟨-, layout, stands⟩ := ordered orderly
    refine ⟨layout, stands, ?_⟩
    rw [Proper, errors]
    exact (ready.laid (moves.toGrows.orderly orderly)).2.2
  · intro clean
    have before := moves.toGrows.clean clean
    rw [moves.awaitedAfter_passed, ready.nested before]
    simpa [awaitedAfter_cons, Option.bind_fun_some] using nests before

/-- Within a line, going over a token of the line stays in the line. -/
theorem bump_passes {level' : Depth} (ready : Ready laid mode level p)
    (passes : level.Passes p.cell.kind level') : Parses laid .line True level' bump p (Bumped p) := by
  have more : p.cell.kind ≠ .endOfFile := fun ends => by
    have inline := passes.inline
    rw [ends] at inline
    cases inline
  refine (bump_takes ready more (fun orderly _ next rest layout => ⟨?_, ?_⟩) fun _ => passes.awaited).parses
  · simpa [Mode.Allows] using passes.inline
  · rw [passes.blocks]
    exact layout.next passes.inline

theorem bump_ordinary (ready : Ready laid mode level p) (ordinary : p.cell.kind.isOrdinary) :
    Parses laid .line True level bump p (Bumped p) :=
  bump_passes ready (level.passes_ordinary ordinary)

theorem bump_newline (ready : Ready laid mode level p) (ends : p.cell.kind = .newline) :
    Takes laid .block True level bump p (Bumped p) := by
  refine bump_takes ready (by simp [ends]) (fun _ _ next rest layout => ?_) fun _ =>
    level.awaited_layout (.inr ends)
  rw [ends] at layout
  exact ⟨by simp [Mode.Allows, ends, Balanced, levelAfter, levelBehind], layout.behind_newline, trivial⟩

theorem bump_indent (ready : Ready laid mode level p) (opens : p.cell.kind = .indent) :
    Parses laid .free True level.indented bump p (Bumped p) := by
  refine (bump_takes ready (by simp [opens]) (fun _ _ next rest layout => ?_) fun _ => by
    exact level.awaited_layout (by simp [opens, TokenKind.isLayout])).parses
  rw [opens] at layout
  exact ⟨trivial, layout.behind_indent, trivial⟩

theorem bump_dedent (ready : Ready laid mode level.indented p) (closes : p.cell.kind = .dedent) :
    Parses laid .free True level bump p (Bumped p) := by
  refine (bump_takes ready (by simp [closes]) (fun _ _ next rest layout => ?_) fun _ => by
    exact level.awaited_layout (by simp [closes, TokenKind.isLayout])).parses
  rw [closes] at layout
  exact ⟨trivial, layout.behind_dedent, trivial⟩

/-! ### Nodes under construction -/

/-- What a node begun here is to be ended by. -/
def marker (p : Parser) : Marker := ⟨p.collectors.length, p.cell⟩

@[simp] theorem opened_cell (p : Parser) : p.opened.cell = p.cell := rfl

@[simp] theorem opened_dialect (p : Parser) : p.opened.dialect = p.dialect := rfl

@[simp] theorem opened_weight (p : Parser) : p.opened.weight = p.weight := rfl

theorem Ready.opened (ready : Ready laid mode level p) : Ready laid mode level p.opened :=
  ⟨ready.sound, ready.rests, by simp [Parser.opened], ready.laid, ready.nested⟩

/-- Steps that begin a node and complete it. -/
theorem completes_start {g : Marker → ParseM β} {post : Post β} :
    Completes laid mode lead level p (start >>= g) q post ↔
      Completes laid mode lead level p (g q.marker) q.opened post := Iff.rfl

/-- The children that are there. -/
def madeOf (children : List (Label × Option Node)) : List Node := children.filterMap Prod.snd

section

variable (role : Role) (node : Node) (node? : Option Node) (nodes : List Node)
  (sparseNodes : List (Option Node)) (children more : List (Label × Option Node))

@[simp] theorem madeOf_nil : madeOf [] = [] := rfl

@[simp] theorem madeOf_append : madeOf (children ++ more) = madeOf children ++ madeOf more :=
  List.filterMap_append ..

@[simp] theorem madeOf_child : madeOf (child role node) = [node] := rfl

@[simp] theorem madeOf_child? : madeOf (child? role node?) = node?.toList := by
  cases node? <;> rfl

@[simp] theorem madeOf_sparse : madeOf (sparse role sparseNodes) = sparseNodes.filterMap id := by
  have all : (sparseNodes.zipIdx.map Prod.fst).filterMap id = sparseNodes.filterMap id :=
    congrArg (List.filterMap id) (List.zipIdx_map_fst 0 sparseNodes)
  rw [← all]
  simp only [madeOf, sparse, List.filterMap_map]
  rfl

@[simp] theorem madeOf_several : madeOf (several role nodes) = nodes := by
  simp [several, List.filterMap_map]

variable {role sparseNodes nodes} in
theorem mem_of_mem_sparse {part : Label × Option Node} (member : part ∈ sparse role sparseNodes) :
    part.2 ∈ sparseNodes := by
  obtain ⟨⟨node, place⟩, listed, rfl⟩ := List.mem_map.1 member
  exact List.fst_mem_of_mem_zipIdx listed

variable {role nodes} in
theorem isSome_of_mem_several {part : Label × Option Node} (member : part ∈ several role nodes) :
    part.2.isSome := by
  obtain ⟨node, -, same⟩ := List.mem_map.1 (mem_of_mem_sparse member)
  rw [← same]
  rfl

theorem nodes_ofList : (Children.ofList children).nodes = madeOf children := by
  rw [Children.nodes_eq_filterMap, Children.toList_ofList, madeOf]

end

/-- The children written down are the nodes that were made, and put in order they are in the order of the pieces. -/
structure Arranged (ps : List Piece) (children : List (Label × Option Node)) : Prop where
  nodes : (nodesOf ps).Perm (madeOf children)
  order : ∀ lo hi, Lies lo ps hi → Settled (madeOf children) (nodesOf ps)

/-- The fields of the node are in the order of the pieces. -/
theorem arranged_of_eq {children : List (Label × Option Node)} (same : nodesOf ps = madeOf children) :
    Arranged ps children :=
  ⟨same ▸ .refl _, fun _ _ lies => same ▸ settled_of_pairwise lies.sorted⟩

/-- The fields of the node may be in any order if no two of the nodes begin at one place. -/
theorem arranged_of_rising {children : List (Label × Option Node)} (nodes : (nodesOf ps).Perm (madeOf children))
    (rising : Rising ps) : Arranged ps children :=
  ⟨nodes, fun lo hi lies => settled_of_strict (show (nodesOf ps).Perm (madeOf children ++ []) by simpa using nodes)
    (rising lo hi lies)⟩

/-- Tokens that were gone over make no difference. -/
theorem Arranged.append {children : List (Label × Option Node)} (arranged : Arranged ps children)
    (none : nodesOf qs = []) : Arranged (ps ++ qs) children := by
  have same : nodesOf (ps ++ qs) = nodesOf ps := by simp [none]
  refine ⟨same ▸ arranged.nodes, fun lo hi lies => ?_⟩
  obtain ⟨mid, first, -⟩ := lies_append.1 lies
  exact same ▸ arranged.order lo mid first

/-- What was gone over is what a node with these children is to have. -/
structure Held (kind : NodeKind) (detail : Detail) (children : List (Label × Option Node)) (ps : List Piece)
    (q : Parser) (laid : Prop) : Prop where
  nodes : Childs kind (madeOf children) ps
  starred : kind.isStarred → Starred (q.Orderly laid) ps
  gapless : q.Clean → kind = .dict → ∀ part ∈ children, part.2.isSome
  filled : q.Clean → q.Solid laid → kind.holdsBlock → entriesOf .body children ≠ []
  groups : Groups kind detail children
  fenced : kind.bindsLoosely → Fenced ps
  literal : kind = .string → Spells detail (tokensOf ps)
  order : ∀ lo hi, Lies lo ps hi → Settled (madeOf children) (nodesOf ps)
  contained : Contained kind children ps
  paired : kind = .parameters → Paired children ps
  rows : Rows kind detail children ps

/-- All that was made is a child of the node, and if it is to hold a block there is one. -/
theorem Held.block {kind : NodeKind} {detail : Detail} {children : List (Label × Option Node)}
    (nodes : nodesOf ps = madeOf children) (firm : kind.isFirm) (rows : Rows kind detail children ps)
    (filled : q.Clean → q.Solid laid → kind.holdsBlock → entriesOf .body children ≠ []) :
    Held kind detail children ps q laid where
  nodes := childs_of_eq nodes (NodeKind.isStarred_of_isFirm firm)
  starred starred := by simp [NodeKind.isStarred_of_isFirm firm] at starred
  gapless _ same := absurd same (NodeKind.ne_dict_of_isFirm firm)
  filled := filled
  groups := .firm (NodeKind.bindsLoosely_of_isFirm firm)
  fenced loose := by simp [NodeKind.bindsLoosely_of_isFirm firm] at loose
  literal string := absurd string (NodeKind.ne_string_of_isFirm firm)
  order := (arranged_of_eq nodes).order
  contained := contained_of_none (NodeKind.closer?_of_isFirm firm) children ps
  paired same := absurd same (NodeKind.ne_parameters_of_unstarred (NodeKind.isStarred_of_isFirm firm))
  rows := rows

theorem Held.plain {kind : NodeKind} {detail : Detail} {children : List (Label × Option Node)}
    (nodes : nodesOf ps = madeOf children) (plain : kind.isPlain)
    (firm : kind.isFirm) (rows : Rows kind detail children ps) : Held kind detail children ps q laid :=
  .block nodes firm rows fun _ _ holds => by
    simp [NodeKind.holdsBlock_of_isPlain plain] at holds

/-- A node that binds loosely has the children that its operators ask for. -/
theorem Held.loose {kind : NodeKind} {detail : Detail} {children : List (Label × Option Node)}
    (nodes : nodesOf ps = madeOf children) (groups : Groups kind detail children) (fenced : Fenced ps)
    (loose : kind.bindsLoosely) (sealed : ∀ closer ∈ kind.closer?, Sealed closer ps)
    (rows : Rows kind detail children ps) :
    Held kind detail children ps q laid where
  nodes := childs_of_eq nodes (NodeKind.isStarred_of_isPlain (NodeKind.isPlain_of_bindsLoosely loose))
  starred starred := by simp [NodeKind.isStarred_of_isPlain (NodeKind.isPlain_of_bindsLoosely loose)] at starred
  gapless _ same := absurd same (NodeKind.ne_dict_of_isPlain (NodeKind.isPlain_of_bindsLoosely loose))
  filled _ _ holds := by simp [NodeKind.holdsBlock_of_isPlain (NodeKind.isPlain_of_bindsLoosely loose)] at holds
  groups := groups
  fenced _ := fenced
  literal string := absurd string (NodeKind.ne_string_of_bindsLoosely loose)
  order := (arranged_of_eq nodes).order
  contained := .all sealed
  paired same := absurd same
    (NodeKind.ne_parameters_of_unstarred (NodeKind.isStarred_of_isPlain (NodeKind.isPlain_of_bindsLoosely loose)))
  rows := rows

/-- The node made of what was gone over lacks nothing if its children do not. -/
theorem Held.whole {kind : NodeKind} {detail : Detail} {children : List (Label × Option Node)}
    (held : Held kind detail children ps q laid) (clean : q.Clean) (anchor : Cell) (cells : List Cell)
    (below : ∀ node ∈ nodesOf ps, node.Whole (q.Solid laid)) :
    (Node.make kind detail anchor cells (.ofList children)).Whole (q.Solid laid) := by
  refine .mk (fun same part member => ?_) (fun solid holds => ?_) fun child member => below child ?_
  · refine held.gapless clean same part ?_
    rwa [← Children.toList_ofList children]
  · have filled := held.filled clean solid holds
    rwa [← Children.toList_ofList children] at filled
  · exact held.nodes.subset (nodes_ofList children ▸ member)

/-- If the node is a string it is made of literals. -/
theorem Held.literate {kind : NodeKind} {detail : Detail} {children : List (Label × Option Node)}
    {errors : List ParseError} {cells : List Cell} (held : Held kind detail children ps q laid) (anchor : Cell)
    (own : tokensOf ps = cells) (below : ∀ node ∈ nodesOf ps, node.Literate errors) :
    (Node.make kind detail anchor cells (.ofList children)).Literate errors := by
  refine .mk (fun string => Node.literal_of_spells (own ▸ held.literal string)) fun child member => below child ?_
  exact held.nodes.subset (nodes_ofList children ▸ member)

theorem Held.owners {kind : NodeKind} {detail : Detail} {children : List (Label × Option Node)} {names : List Nat}
    {cells : List Cell} (held : Held kind detail children ps q laid) (anchor : Cell)
    (below : ∀ node ∈ nodesOf ps, node.OnlyPlaceholdersOwn names) (apart : ∀ cell ∈ cells, cell.index ∉ names) :
    (Node.make kind detail anchor cells (.ofList children)).OnlyPlaceholdersOwn names :=
  .mk (fun cell own named => absurd named (apart cell own)) fun child member =>
    below child (held.nodes.subset (nodes_ofList children ▸ member))

/-- The node is of the kind, says what it should, and owns the tokens that were gone over. -/
structure Makes (kind : NodeKind) (detail : Detail) (ps : List Piece) (node : Node) : Prop where
  kind : node.kind = kind
  detail : node.info.detail = detail
  tokens : node.tokens = tokensOf ps
  covers : ∀ cell ∈ tokensOf ps, cell.kind.isSpanless = false → node.first ≤ cell.first ∧ cell.last ≤ node.last

theorem Makes.binding {kind : NodeKind} {detail : Detail} {node : Node} (makes : Makes kind detail ps node) :
    node.binding = .ofNode kind detail := by
  rw [Node.binding, makes.kind, makes.detail]

theorem Makes.binds {kind : NodeKind} {detail : Detail} {node : Node} (makes : Makes kind detail ps node) :
    node.Binds (.ofKind kind) :=
  .inr (makes.binding ▸ Binding.ofKind_le kind detail)

/-- The children written down are the nodes that were made, behind some made before. -/
def Gathers (before : List Node) : Post (Detail × List (Label × Option Node)) := fun made ps _ =>
  before ++ nodesOf ps = madeOf made.2

theorem gathers_iff {before : List Node} {made : Detail × List (Label × Option Node)} :
    Gathers before made ps q ↔ before ++ nodesOf ps = madeOf made.2 := .rfl

/-- The parse goes on outside of the innermost node. -/
def closed (p : Parser) : Parser := { p with collectors := p.collectors.tail }

/-- The same run in other pieces, by which the tokens have gone to other nodes. -/
theorem Moves.regroup (moves : Moves laid mode lead ps p q) {p' q' : Parser}
    (began : p'.engine = p.engine ∧ p'.position = p.position)
    (ended : q'.engine = q.engine ∧ q'.position = q.position) (same : cellsOf qs = cellsOf ps)
    (collectors : q'.collectors = grow (tokensOf qs) p'.collectors) (own : tokensOf qs ⊆ tokensOf ps)
    (spans : ∀ node run, .node node run ∈ qs → Spans (Spaced p.stream.tokens) (q.Orderly laid) node run)
    (lies : Spaced p.stream.tokens → Lies p.cell.first ps q.cell.first → Lies p.cell.first qs q.cell.first)
    (owners : ∀ names, (∀ node ∈ nodesOf ps, node.OnlyPlaceholdersOwn names) →
      (∀ cell ∈ tokensOf ps, cell.index ∉ names) →
      ∀ node ∈ nodesOf qs, node.OnlyPlaceholdersOwn names)
    (allows : q.Orderly laid → mode.Allows ps → mode.Allows qs)
    (whole : q.Clean → ∀ node ∈ nodesOf qs, node.Whole (q.Solid laid))
    (literate : ∀ node ∈ nodesOf qs, node.Literate q.errors.toList) : Moves laid mode lead qs p' q' := by
  obtain ⟨engine, given, position⟩ := p'
  obtain ⟨engine', taken, position'⟩ := q'
  dsimp only at began ended collectors
  obtain ⟨rfl, rfl⟩ := began
  obtain ⟨rfl, rfl⟩ := ended
  obtain ⟨moved, behind, run⟩ := moves.behind
  refine ⟨⟨moves.dialect, moves.mends, moves.errors, moves.quiet, fun filed =>
      (moves.files (filed.ofEngine rfl)).ofEngine rfl⟩,
    ⟨moved, behind, run.trans same.symm⟩, collectors, moves.position, moves.leads, spans,
    fun spaced => lies spaced (moves.lies spaced), fun nodup names errorNames => ?_,
    fun orderly => allows orderly (moves.allows orderly), whole, literate⟩
  obtain ⟨more, newNames⟩ := moves.newNames nodup names (errorNames.ofEngine rfl)
  exact ⟨more, newNames.errorNames.ofEngine rfl, same ▸ newNames.among, owners more newNames.owners newNames.apart,
    fun cell member => newNames.apart cell (own member)⟩

/-- The innermost node can be ended by its own marker. -/
theorem close_ok {cells : List Cell} (collectors : q.collectors = grow cells p.opened.collectors) :
    close p.marker q = .ok cells q.closed ∧ q.closed.collectors = p.collectors := by
  have shape : q.collectors = cells.toArray :: p.collectors := by
    rw [collectors, opened, grow]
    simp
  have start : (get : ParseM Parser) q = .ok q q := rfl
  refine ⟨?_, by simp [closed, shape]⟩
  rw [close, TokenStream.bind_ok start]
  simp only [shape, marker, bne_self_eq_false, Bool.false_eq_true, if_false, closed]
  rfl

/-- A node that was begun at `p` can be completed. -/
theorem Moves.complete_ok {kind : NodeKind} {detail : Detail} {children : List (Label × Option Node)}
    (moves : Moves laid mode lead ps p.opened q) (held : Held kind detail children ps q laid)
    (within : mode.Within .block) :
    ∃ node, complete p.marker kind detail children q = .ok node q.closed ∧ Makes kind detail ps node ∧
      q.closed.collectors = p.collectors ∧
      Moves laid mode lead [.node node (cellsOf ps)] p q.closed := by
  obtain ⟨closes, outer⟩ := close_ok moves.collectors
  let node := Node.make kind detail p.cell (tokensOf ps) (.ofList children)
  have settles : ∀ lo hi, Lies lo ps hi → Settled (Children.ofList children).nodes (nodesOf ps) :=
    nodes_ofList children ▸ held.order
  have spans : Spans (Spaced p.stream.tokens) (q.Orderly laid) node (cellsOf ps) := by
    refine .mk ⟨⟨rfl, rfl⟩, List.Perm.refl _, ?_, held.starred, fun orderly => ?_, ?_, held.fenced,
      fun spaced => settles _ _ (moves.lies spaced), ?_, ?_, ?_⟩ moves.spans
    · exact (nodes_ofList children).symm ▸ held.nodes
    · exact (moves.allows orderly).within within
    · exact (Children.toList_ofList children).symm ▸ held.groups
    · exact (Children.toList_ofList children).symm ▸ held.contained
    · exact (Children.toList_ofList children).symm ▸ held.paired
    · exact (Children.toList_ofList children).symm ▸ held.rows
  have made : (Children.ofList children).nodes ⊆ nodesOf ps := (nodes_ofList children).symm ▸ held.nodes.subset
  refine ⟨node, ?_, ⟨rfl, rfl, rfl, fun _ owned counts => Node.covers_make _ _ _ _ owned counts⟩, outer, ?_⟩
  · rw [complete, TokenStream.bind_ok closes]
    rfl
  · refine moves.regroup ⟨rfl, rfl⟩ ⟨rfl, rfl⟩ (by simp) (by simpa using outer) (by simp) ?_ (fun _ lies => ?_)
      (fun names owners apart => ?_) ?_ (fun clean => ?_) ?_
    · intro inner run member
      simp only [List.mem_singleton, Piece.node.injEq] at member
      obtain ⟨rfl, rfl⟩ := member
      exact spans
    · obtain ⟨first, last, placed⟩ :=
        lies.make ⟨le_refl p.cell.first, lies.le⟩ (List.Subset.refl _) made (settles _ _ lies)
      exact lies_node first last placed lies.stretches
    · simpa using held.owners p.cell owners apart
    · exact fun _ allows => allows.whole rfl
    · simpa using held.whole clean p.cell (tokensOf ps) (moves.whole clean)
    · simpa using held.literate p.cell rfl moves.literate

/-- The run of a node is complete. -/
theorem Moves.complete {kind : NodeKind} {detail : Detail} {children : List (Label × Option Node)}
    (moves : Moves laid mode lead ps p.opened q) (inside : p.collectors ≠ [])
    (ready : Ready laid mode level q) (held : Held kind detail children ps q laid) {post : Post Node}
    (holds : ∀ node, Makes kind detail ps node → post node [.node node (cellsOf ps)] q.closed)
    [within : mode.Within .block] :
    Completes laid mode lead level p (complete p.marker kind detail children) q post := by
  obtain ⟨node, completes, made, outer, whole⟩ := moves.complete_ok held within
  rw [completes_iff, ends_ok completes]
  exact ⟨_, whole, ready.ofEngine rfl (outer ▸ inside), holds node made⟩

/-- A node is completed from what its body comes to. -/
theorem build_ok {kind : NodeKind} {body : ParseM (Detail × List (Label × Option Node))} {detail : Detail}
    {children : List (Label × Option Node)} (steps : body p.opened = .ok (detail, children) q) :
    build kind body p = complete p.marker kind detail children q := by
  have began : start p = .ok p.marker p.opened := rfl
  rw [build, TokenStream.bind_ok began, TokenStream.bind_ok steps]

/-- The shape of a production that makes one node. -/
theorem build_parses {kind : NodeKind} {body : ParseM (Detail × List (Label × Option Node))}
    (mid : Post (Detail × List (Label × Option Node))) {post : Post Node} (ready : Ready laid mode level p)
    (parses : Parses laid mode lead level body p.opened mid)
    (held : ∀ made ps q, Moves laid mode lead ps p.opened q → mid made ps q →
      Held kind made.1 made.2 ps q laid ∧
        ∀ node, Makes kind made.1 ps node → post node [.node node (cellsOf ps)] q.closed)
    [within : mode.Within .block] :
    Parses laid mode lead level (build kind body) p post := by
  rw [parses_iff, build, completes_start]
  refine parses.bind fun made ps q moves ready' holds => ?_
  obtain ⟨held, holds⟩ := held made ps q moves holds
  exact moves.complete ready.inside ready' held holds

/-- A node that was begun is not made after all, and what it holds goes to the one around. -/
theorem Moves.abandon {g : Unit → ParseM β} {post : Post β} (moves : Moves laid mode lead ps p.opened q)
    (inside : p.collectors ≠ []) (ready : Ready laid mode level q)
    (next : ∀ r, Moves laid mode lead ps p r → Ready laid mode level r → r.cell = q.cell →
      Completes laid mode lead level p (g ()) r post) :
    Completes laid mode lead level p (abandon p.marker >>= g) q post := by
  obtain ⟨closes, outer⟩ := close_ok moves.collectors
  have steps : Parser.abandon p.marker q =
      .ok () { q.closed with collectors := grow (tokensOf ps) p.collectors } := by
    rw [Parser.abandon, TokenStream.bind_ok closes, collect_eq, outer]
  rw [completes_iff, ends_bind_ok steps]
  refine next _ (moves.regroup ⟨rfl, rfl⟩ ⟨rfl, rfl⟩ rfl rfl (List.Subset.refl _) moves.spans (fun _ => id)
    (fun _ owners _ => owners) (fun _ => id) moves.whole moves.literate) (ready.ofEngine rfl (grow_ne_nil inside)) rfl

/-- A node takes over the tokens of the one around it. -/
theorem Moves.mergeInto (before after : List Cell) {node : Node} {run : List Cell} {post : Post Node}
    (moves : Moves laid .line lead (tokenPieces before ++ [.node node run] ++ tokenPieces after) p.opened q)
    (inside : p.collectors ≠ []) (ready : Ready laid .line level q)
    (plain : EndsPlain (tokenPieces before)) (ends : EndsPlain (tokenPieces after))
    (closesNone : ClosesNone (tokenPieces before))
    (fences : node.kind.bindsLoosely → ∃ cell rest, before = cell :: rest ∧ cell.kind = .leftParen)
    (given : node.kind = .string →
      (∀ cell ∈ (before ++ after).head?, cell.kind ≠ .string) ∧ Stray q.errors.toList (before ++ after))
    (holds : post (node.addTokens (before ++ after)) [.node (node.addTokens (before ++ after))
      (before ++ run ++ after)] q.closed) :
    Completes laid .line lead level p (mergeInto p.marker node) q post := by
  have owned : tokensOf (tokenPieces before ++ [.node node run] ++ tokenPieces after) = before ++ after := by
    simp
  have collectors := moves.collectors
  rw [owned] at collectors
  obtain ⟨closes, outer⟩ := close_ok collectors
  have steps : Parser.mergeInto p.marker node q = .ok (node.addTokens (before ++ after)) q.closed := by
    rw [Parser.mergeInto, TokenStream.bind_ok closes]
    rfl
  have inline : q.Orderly laid → ∀ cell ∈ before ++ after, cell.kind.isInline := by
    intro orderly cell member
    exact moves.allows orderly cell (tokensOf_subset (owned ▸ member))
  have spans : Spans (Spaced p.stream.tokens) (q.Orderly laid) (node.addTokens (before ++ after))
      (before ++ run ++ after) := by
    exact Spans.surround (moves.spans node run (by simp)) _ _ _ (.refl _)
      (fun orderly cell member => TokenKind.plain_of_isInline (inline orderly cell member))
      (fun _ => ⟨plain, ends, inline⟩) fences closesNone
  rw [completes_iff, ends_ok steps]
  refine ⟨_, ?_, ready.ofEngine rfl (outer ▸ inside), holds⟩
  refine moves.regroup ⟨rfl, rfl⟩ ⟨rfl, rfl⟩ (by simp) (by simpa using outer) (by simp) ?_ (fun _ lies => ?_)
    (fun names owners apart => ?_) ?_ (fun clean => ?_) ?_
  · intro inner whole member
    simp only [List.mem_singleton, Piece.node.injEq] at member
    obtain ⟨rfl, rfl⟩ := member
    exact spans
  · obtain ⟨first, last, placed⟩ := lies.node (show node ∈ nodesOf _ by simp)
    exact lies_node first last (placed.addTokens _) (by simpa using lies.stretches)
  · simpa using (owners node (by simp)).addTokens (owned ▸ apart)
  · exact fun _ allows => allows.whole (by simp)
  · simpa using (moves.whole clean node (by simp)).addTokens (before ++ after)
  · simpa using (moves.literate node (by simp)).addTokens given

/-- The last token that was handed to the innermost node can be given to another. -/
theorem attach_ok {cell : Cell} {collectors : List (Array Cell)} (node : Node)
    (collected : q.collectors = grow [cell] collectors) (inside : collectors ≠ []) :
    attach node cell q = .ok (node.addTokens [cell]) { q with collectors } := by
  cases collectors with
  | nil => exact absurd rfl inside
  | cons innermost outer =>
    have shape : q.collectors = innermost.push cell :: outer := by
      rw [collected, grow]
      simp
    have last : uncollect cell (innermost.push cell) = some innermost := by simp [uncollect]
    have start : (get : ParseM Parser) q = .ok q q := rfl
    have releases : release cell q = .ok () { q with collectors := innermost :: outer } := by
      rw [release, TokenStream.bind_ok start]
      simp only [shape, last]
      rfl
    rw [attach, TokenStream.bind_ok releases]
    rfl

/-- A node that has been made takes the token behind it. -/
theorem Moves.attach {o : Parser} {node : Node} {run : List Cell} {cell : Cell}
    (moves : Moves laid mode lead (ps ++ [.node node run] ++ [.token cell]) o q) (inside : o.collectors ≠ [])
    (plain : q.Orderly laid → cell.kind.isLayout = false)
    (firm : node.kind.isFirm) :
    ∃ r, attach node cell q = .ok (node.addTokens [cell]) r ∧ r.engine = q.engine ∧
      r.collectors ≠ [] ∧
      Moves laid mode lead (ps ++ [.node (node.addTokens [cell]) (run ++ [cell])]) o r := by
  have collected : q.collectors = grow [cell] (grow (tokensOf ps) o.collectors) := by
    rw [moves.collectors]
    simp
  have filled : grow (tokensOf ps) o.collectors ≠ [] := grow_ne_nil inside
  have spans : Spans (Spaced o.stream.tokens) (q.Orderly laid) (node.addTokens [cell]) (run ++ [cell]) := by
    have surrounded := (moves.spans node run (by simp)).surround [] [cell] [cell]
      (.refl _) (fun orderly => by simpa using plain orderly)
      (fun starred => by simp [NodeKind.isStarred_of_isFirm firm] at starred)
      (fun loose => by simp [NodeKind.bindsLoosely_of_isFirm firm] at loose)
      (closesNone_of_bare rfl)
    simpa using surrounded
  refine ⟨_, attach_ok node collected filled, rfl, filled, ?_⟩
  refine moves.regroup ⟨rfl, rfl⟩ ⟨rfl, rfl⟩ (by simp) (by simp) (by simp) ?_ (fun _ lies => ?_)
    (fun names owners apart => forall_nodesOf_concat (fun inner early => owners inner (by simp [early])) ?_) ?_
    (fun clean => forall_nodesOf_concat (fun inner early => moves.whole clean inner (by simp [early])) ?_)
    (forall_nodesOf_concat (fun inner early => moves.literate inner (by simp [early])) ?_)
  · intro inner whole member
    simp only [List.mem_append, List.mem_singleton, Piece.node.injEq] at member
    rcases member with early | ⟨rfl, rfl⟩
    · exact moves.spans inner whole (by simp [early])
    · exact spans
  · rw [List.append_assoc] at lies
    obtain ⟨mid, early, late⟩ := lies_append.1 lies
    obtain ⟨first, last, placed⟩ := late.node (show node ∈ nodesOf _ by simp)
    exact early.append (lies_node first last (placed.addTokens _) (by simpa using late.stretches))
  · exact (owners node (by simp)).addTokens (List.forall_mem_singleton.2 (apart cell (by simp)))
  · intro orderly allows
    rw [List.append_assoc] at allows
    exact allows.dropped (by simp) (balanced_of_plain (by simpa using plain orderly))
  · exact (moves.whole clean node (by simp)).addTokens [cell]
  · exact (moves.literate node (by simp)).addTokens fun string => absurd string (NodeKind.ne_string_of_isFirm firm)

/-- A node is begun behind nodes that become part of it. -/
theorem Moves.adopt {kind : NodeKind} {detail : Detail} {children : List (Label × Option Node)}
    {adopted : List Piece} {wider : Mode} {lead' : Prop} {o : Parser}
    (moves : Moves laid wider lead (ps ++ adopted) o p) (bare : tokensOf adopted = [])
    (inner : Moves laid mode lead' qs p.opened q) (held : Held kind detail children (adopted ++ qs) q laid)
    (within : mode.Within .block) (wide : mode.Within wider) :
    ∃ node, Parser.complete p.marker kind detail children q = .ok node q.closed ∧ Makes kind detail qs node ∧
      q.closed.collectors = p.collectors ∧
      Moves laid wider lead (ps ++ [.node node (cellsOf (adopted ++ qs))]) o q.closed := by
  obtain ⟨closes, outer⟩ := close_ok inner.collectors
  let node := Node.make kind detail p.cell (tokensOf qs) (.ofList children)
  have completes : Parser.complete p.marker kind detail children q = .ok node q.closed := by
    rw [Parser.complete, TokenStream.bind_ok closes]
    rfl
  -- as if the tokens of the node had gone to the node around it
  let loose : Parser := { q with collectors := grow (tokensOf qs) p.collectors }
  have goesOn : Moves laid mode lead' qs p loose :=
    inner.regroup ⟨rfl, rfl⟩ ⟨rfl, rfl⟩ rfl rfl (List.Subset.refl _) inner.spans (fun _ => id)
      (fun _ owners _ => owners) (fun _ => id) inner.whole inner.literate
  have whole := moves.trans (goesOn.within wide)
  have balanced : q.Orderly laid → Balanced ((tokensOf (adopted ++ qs)).map (·.kind)) := by
    intro orderly
    rw [tokensOf_append, bare, List.nil_append]
    exact (inner.allows orderly).within within
  have settles : ∀ lo hi, Lies lo (adopted ++ qs) hi →
    Settled (Children.ofList children).nodes (nodesOf (adopted ++ qs)) :=
    nodes_ofList children ▸ held.order
  have lies : Spaced o.stream.tokens → ∃ mid, Lies o.cell.first ps mid ∧ Lies mid adopted p.cell.first ∧
      Lies p.cell.first qs q.cell.first := fun spaced => by
    obtain ⟨mid, early, late⟩ := lies_append.1 (moves.lies spaced)
    exact ⟨mid, early, late, inner.lies (moves.mends.spaced spaced)⟩
  have spans : Spans (Spaced o.stream.tokens) (q.Orderly laid) node (cellsOf (adopted ++ qs)) := by
    refine .mk ⟨⟨rfl, rfl⟩, ?_, ?_, held.starred, balanced, ?_, held.fenced, fun spaced => ?_, ?_, ?_, ?_⟩
      fun inner run member => ?_
    · rw [tokensOf_append, bare, List.nil_append]
      exact List.Perm.refl _
    · exact (nodes_ofList children).symm ▸ held.nodes
    · exact (Children.toList_ofList children).symm ▸ held.groups
    · obtain ⟨mid, -, first, second⟩ := lies spaced
      exact settles _ _ (first.append second)
    · exact (Children.toList_ofList children).symm ▸ held.contained
    · exact (Children.toList_ofList children).symm ▸ held.paired
    · exact (Children.toList_ofList children).symm ▸ held.rows
    · refine whole.spans inner run ?_
      rw [List.append_assoc]
      exact List.mem_append_right _ member
  have made : (Children.ofList children).nodes ⊆ nodesOf (adopted ++ qs) :=
    (nodes_ofList children).symm ▸ held.nodes.subset
  refine ⟨node, completes, ⟨rfl, rfl, rfl, fun _ owned counts => Node.covers_make _ _ _ _ owned counts⟩, outer, ?_⟩
  rw [List.append_assoc] at whole
  have inside : nodesOf (adopted ++ qs) ⊆ nodesOf (ps ++ (adopted ++ qs)) := by simp
  refine whole.regroup ⟨rfl, rfl⟩ ⟨rfl, rfl⟩ (by simp) ?_ (by simp) ?_ (fun spaced _ => ?_)
    (fun names owners apart => forall_nodesOf_concat (fun inner early => owners inner (by simp [early])) ?_)
    (fun orderly allows => allows.dropped rfl (balanced orderly))
    (fun clean => forall_nodesOf_concat (fun inner early => whole.whole clean inner (by simp [early])) ?_)
    (forall_nodesOf_concat (fun inner early => whole.literate inner (by simp [early])) ?_)
  · rw [outer, moves.collectors]
    simp [bare]
  · intro inner run member
    rw [List.mem_append, List.mem_singleton, Piece.node.injEq] at member
    rcases member with early | ⟨rfl, rfl⟩
    · exact whole.spans inner run (List.mem_append_left _ early)
    · exact spans
  · obtain ⟨mid, early, first, second⟩ := lies spaced
    have both := first.append second
    have own : tokensOf qs ⊆ tokensOf (adopted ++ qs) := by simp
    obtain ⟨begins, ends, placed⟩ := both.make ⟨first.le, second.le⟩ own made (settles _ _ both)
    exact early.append (lies_node begins ends placed both.stretches)
  · exact held.owners p.cell (fun inner made => owners inner (inside made)) fun cell member =>
      apart cell (by simp [member])
  · exact held.whole clean p.cell (tokensOf qs) fun inner made => whole.whole clean inner (inside made)
  · exact held.literate p.cell (by simp [bare]) fun inner made => whole.literate inner (inside made)

/-! ### Going back -/

/-- What the parse goes back to from later on. -/
def here (p : Parser) : Checkpoint :=
  { cursor := p.cell.index, errors := p.errors.size, markers := p.collectors.length,
    collected := (p.collectors.head?.map Array.size).getD 0, position := p.position }

/-- The tokens that nodes had at a checkpoint. -/
def kept (held now : List (Array Cell)) : List (Array Cell) :=
  match now.drop (now.length - held.length) with
  | [] => []
  | innermost :: outer => innermost.take ((held.head?.map Array.size).getD 0) :: outer

/-- A parse that goes back to where it was before. -/
def rewound (start held : Parser) : Parser :=
  { engine := { held.engine with
      stream := held.stream.seek start.cell.index, errors := held.errors.take start.errors.size }
    collectors := kept start.collectors held.collectors
    position := start.position }

theorem rewind_eq (start held : Parser) : rewind start.here held = .ok () (rewound start held) := by
  rw [rewound, kept]
  rfl

theorem errors_rewound {start held : Parser} (retains : start.errors.toList <+: held.errors.toList) :
    (rewound start held).errors = start.errors := by
  have first : start.errors.toList = held.errors.toList.take start.errors.size := List.prefix_iff_eq_take.1 retains
  refine Array.toList_inj.1 (Eq.trans ?_ first.symm)
  show (held.errors.take start.errors.size).toList = _
  simp

/-- Nodes begun since are dropped, and so are the tokens collected since. -/
theorem kept_append (held inner : List (Array Cell)) (cells : List Cell) :
    kept held (inner ++ grow cells held) = held := by
  have dropped : (inner ++ grow cells held).drop ((inner ++ grow cells held).length - held.length) =
      grow cells held := by
    rw [List.length_append, grow_length, Nat.add_sub_cancel, List.drop_left]
  rw [kept, dropped]
  cases held with
  | nil => rfl
  | cons innermost outer =>
    have first : (innermost.appendList cells).take innermost.size = innermost :=
      Array.toList_inj.1 (by simp [List.extract_eq_take_drop])
    simpa [grow] using first

end TolerantParser.Parser
