import TolerantParser.Parser.Expression.Nested
import TolerantParser.Proofs.Parser.Words

/-!
What expressions have in common. Every production of an expression makes one node of all that it goes over
(`Expression`), in a line and with no fault but that of nesting too deeply. The productions one level
further in are assumed to (`Nested.Works`); `Item` is the same for any single one.
-/

namespace TolerantParser

namespace Parser

variable {α β : Type} {laid lead : Prop} {mode mode' wider : Mode} {level : Depth} {p q r o : Parser}
  {ps qs : List Piece}

/-- One node was made of all that was gone over, and that was something. -/
def Expression : Post Node := fun node ps _ => ∃ run, ps = [.node node run] ∧ run ≠ []

/-- The node can be an operand where what binds so tightly can. -/
def Operand (least : Binding) : Post Node := fun node ps q => Expression node ps q ∧ node.Binds least

theorem Operand.mono {least looser : Binding} (le : looser ≤ least) {node : Node} (operand : Operand least node ps q) :
    Operand looser node ps q :=
  ⟨operand.1, operand.2.mono le⟩

theorem Completes.expression {f : ParseM Node} {least : Binding}
    (completes : Completes laid mode lead level p f q (Operand least)) :
    Completes laid mode lead level p f q Expression :=
  completes.imp fun _ _ _ _ operand => operand.1

theorem Completes.looser {f : ParseM Node} {least looser : Binding}
    (completes : Completes laid mode lead level p f q (Operand least)) (le : looser ≤ least) :
    Completes laid mode lead level p f q (Operand looser) :=
  completes.imp fun _ _ _ _ operand => operand.mono le

/-- A production of operands that bind so tightly at least. -/
def OperandItem (laid : Prop) (level : Depth) (least : Binding) (item : ParseM Node) : Prop :=
  ∀ p, Ready laid .line level p → Parses laid .line False level item p (Operand least)

/-- A production of expressions, wherever in a line it is used. -/
def Item (laid : Prop) (level : Depth) (item : ParseM Node) : Prop :=
  ∀ p, Ready laid .line level p → Parses laid .line False level item p Expression

theorem Item.operands {item : ParseM Node} (works : Item laid level item) : OperandItem laid level .none item :=
  fun p ready => (works p ready).imp fun node _ _ _ made => ⟨made, node.binds_none⟩

theorem OperandItem.item {least : Binding} {item : ParseM Node} (works : OperandItem laid level least item) :
    Item laid level item := fun p ready => (works p ready).expression

end Parser

open TolerantParser.Parser in
/-- The productions one level further in do what they should. If they are not the floor of nesting they
take the token at the cursor where an expression starts. -/
structure Nested.Works (laid starts : Prop) (e : Nested) : Prop where
  test {level : Depth} {p : Parser} (conditional : Bool) : Ready laid .line level p →
    Parses laid .line (starts ∧ startsExpression p.cell.kind) level (e.test conditional) p (Operand .test)
  orTest {level : Depth} : OperandItem laid level .or e.orTest
  notTest {level : Depth} : OperandItem laid level .not e.notTest
  expr {level : Depth} : OperandItem laid level .bar e.expr
  factor {level : Depth} : OperandItem laid level .sign e.factor
  parameter {level : Depth} : Item laid level e.parameter

open TolerantParser.Parser in
theorem Nested.Works.operand {laid starts : Prop} {e : Nested} (works : e.Works laid starts) {level : Depth}
    (conditional : Bool) : OperandItem laid level .test (e.test conditional) :=
  fun _ ready => (works.test conditional ready).weaken False.elim

open TolerantParser.Parser in
theorem Nested.Works.item {laid starts : Prop} {e : Nested} (works : e.Works laid starts) {level : Depth}
    (conditional : Bool) : Item laid level (e.test conditional) := (works.operand conditional).item

namespace Parser

variable {α β : Type} {laid lead starts : Prop} {mode mode' wider : Mode} {level : Depth}
  {p q r o : Parser} {ps qs : List Piece} {e : Nested}

/-- The pieces of the node that was made before, if there is one. -/
inductive Adopted : List Node → List Piece → Prop
  | nothing : Adopted [] []
  | node {left : Node} {run : List Cell} (filled : run ≠ []) : Adopted [left] [.node left run]

theorem Adopted.nodes {before : List Node} {adopted : List Piece} (taken : Adopted before adopted) :
    nodesOf adopted = before := by
  cases taken <;> rfl

theorem Adopted.bare {before : List Node} {adopted : List Piece} (taken : Adopted before adopted) :
    tokensOf adopted = [] := by
  cases taken <;> rfl

/-- The children written down are the nodes that were made, besides some made before, and they are what a node of
the kind asks of them, which binds so tightly. -/
structure Forms (kind : NodeKind) (least : Binding) (before : List Node) (made : Detail × List (Label × Option Node))
    (ps : List Piece) (q : Parser) : Prop where
  nodes : Gathers before made ps q
  groups : Groups kind made.1 made.2
  bare : kind.bindsLoosely → ∀ cell ∈ tokensOf ps, cell.kind ≠ .leftParen
  literal : kind = .string → Spells made.1 (tokensOf ps)
  sealed : ∀ closer ∈ kind.closer?, Sealed closer ps
  least : least ≤ .ofNode kind made.1
  rows : ∀ adopted, Adopted before adopted → Rows kind made.1 made.2 (adopted ++ ps)

variable {kind : NodeKind} {least : Binding} {before : List Node} {made : Detail × List (Label × Option Node)}

/-- What is not loose takes children as they are. -/
theorem Gathers.forms (nodes : Gathers before made ps q) (firm : kind.isFirm) (free : kind.isFree) :
    Forms kind (.ofKind kind) before made ps q where
  nodes := nodes
  groups := .firm (NodeKind.bindsLoosely_of_isFirm firm)
  bare loose := by simp [NodeKind.bindsLoosely_of_isFirm firm] at loose
  literal string := absurd string (NodeKind.ne_string_of_isFirm firm)
  sealed closer closes := by simp [NodeKind.closer?_of_isFirm firm] at closes
  least := Binding.ofKind_le kind made.1
  rows _ _ := .free free

/-- What was gone over, with a run in front of it, is what the node is to have. -/
theorem Forms.held {adopted : List Piece} (forms : Forms kind least before made ps q)
    (taken : Adopted before adopted) (plain : kind.isPlain) : Held kind made.1 made.2 (adopted ++ ps) r laid where
  nodes := ⟨[], by
    have nodes : before ++ nodesOf ps = madeOf made.2 := forms.nodes
    simp [taken.nodes, nodes], by simp [NodeKind.isStarred_of_isPlain plain]⟩
  starred starred := by simp [NodeKind.isStarred_of_isPlain plain] at starred
  gapless _ same := absurd same (NodeKind.ne_dict_of_isPlain plain)
  filled _ _ holds := by simp [NodeKind.holdsBlock_of_isPlain plain] at holds
  groups := forms.groups
  fenced loose := fenced_of_bare (by simpa [taken.bare] using forms.bare loose)
  literal string := by simpa [taken.bare] using forms.literal string
  order := (arranged_of_eq (nodesOf_append .. ▸ taken.nodes ▸ forms.nodes)).order
  contained := .all fun closer closes => (forms.sealed closer closes).behind (by simp [taken.bare])
  paired same := absurd same (NodeKind.ne_parameters_of_unstarred (NodeKind.isStarred_of_isPlain plain))
  rows := forms.rows adopted taken

/-- A node that begins with a token of its own. -/
theorem build_node {body : ParseM (Detail × List (Label × Option Node))} (ready : Ready laid .line level p)
    (parses : Parses laid .line True level body p.opened (Forms kind least []))
    (plain : kind.isPlain) : Parses laid .line True level (build kind body) p fun node ps q =>
      Operand least node ps q ∧ node.kind = kind :=
  build_parses _ ready parses fun _ _ _ moves forms =>
    ⟨forms.held .nothing plain, fun _ makes =>
      ⟨⟨⟨_, rfl, moves.filled trivial ready.rests⟩, .inr (makes.binding ▸ forms.least)⟩, makes.kind⟩⟩

theorem build_line {body : ParseM (Detail × List (Label × Option Node))} (ready : Ready laid .line level p)
    (parses : Parses laid .line True level body p.opened (Forms kind least []))
    (plain : kind.isPlain) : Parses laid .line True level (build kind body) p (Operand least) :=
  (build_node ready parses plain).imp fun _ _ _ _ made => made.1

/-- A node that takes its children as they are. -/
theorem build_firm {body : ParseM (Detail × List (Label × Option Node))} (ready : Ready laid .line level p)
    (parses : Parses laid .line True level body p.opened (Gathers []))
    (plain : kind.isPlain) (firm : kind.isFirm) (free : kind.isFree) :
    Parses laid .line True level (build kind body) p (Operand (.ofKind kind)) :=
  build_line ready (parses.imp fun _ _ _ _ nodes => nodes.forms firm free) plain

@[simp] theorem completes_hasProgressed {last : Option Nat} {g : Bool → ParseM β} {post : Post β} :
    Completes laid mode lead level p (hasProgressed last >>= g) q post ↔
      Completes laid mode lead level p (g (last.all (· < q.position))) q post := Iff.rfl

/-! ### Single parts -/

/-- Pieces that hold something, and no star among them. -/
structure Plain (ps : List Piece) : Prop where
  tokens : ∀ cell ∈ tokensOf ps, cell.kind.isStar = false
  filled : ∀ piece ∈ ps, piece.cells ≠ []

theorem plain_nil : Plain [] := ⟨by simp, by simp⟩

theorem Plain.append {ps qs : List Piece} (first : Plain ps) (second : Plain qs) : Plain (ps ++ qs) where
  tokens := by
    intro cell member
    rw [tokensOf_append, List.mem_append] at member
    exact member.elim (first.tokens cell) (second.tokens cell)
  filled := by
    intro piece member
    rw [List.mem_append] at member
    exact member.elim (first.filled piece) (second.filled piece)

theorem plain_token {cell : Cell} (plain : cell.kind.isStar = false) : Plain [.token cell] :=
  ⟨by simpa using plain, by simp⟩

theorem plain_node (node : Node) {run : List Cell} (filled : run ≠ []) : Plain [.node node run] :=
  ⟨by simp, by simpa using filled⟩

@[simp] theorem completes_canStartExpression {g : Bool → ParseM β} {post : Post β} :
    Completes laid mode lead level p (canStartExpression >>= g) q post ↔
      Completes laid mode lead level p (g (startsExpression q.cell.kind)) q post := Iff.rfl

/-- The node that is made of the pieces, if any, and no star among them. -/
def Part : Post (Option Node) := fun node? ps _ => nodesOf ps = node?.toList ∧ Plain ps

theorem optional_bare {item : ParseM Node} (ready : Ready laid .line level p) (works : Item laid level item) :
    Parses laid .line False level (optional item) p fun node? ps q => Part node? ps q ∧ tokensOf ps = [] := by
  rw [parses_iff, optional, completes_canStartExpression]
  split
  · refine (works p ready).bind fun node ps q moves ready ⟨run, made, filled⟩ => ?_
    subst made
    exact moves.done ready ⟨⟨rfl, plain_node _ filled⟩, rfl⟩
  · exact (Moves.refl laid .line p).done ready ⟨⟨rfl, plain_nil⟩, rfl⟩

theorem optional_parses {item : ParseM Node} (ready : Ready laid .line level p)
    (works : Item laid level item) : Parses laid .line False level (optional item) p Part :=
  (optional_bare ready works).imp fun _ _ _ _ part => part.1

/-- A mark and the node behind it were gone over, or there was no mark. -/
inductive Announced (mark : TokenKind) : Option Node → List Piece → Prop
  | nothing : Announced mark none []
  | marked {cell : Cell} {node : Node} {run : List Cell} (kind : cell.kind = mark) (filled : run ≠ []) :
    Announced mark (some node) [.token cell, .node node run]

theorem announced_marked {item : ParseM Node} {mark : TokenKind} (ready : Ready laid .line level p)
    (works : Item laid level item) (ordinary : mark.isOrdinary) :
    Parses laid .line False level (announced mark item) p fun node? ps _ => Announced mark node? ps := by
  rw [parses_iff, announced]
  refine (Moves.refl laid .line p).eat ready ordinary (fun cell q same moves ready _ => ?_) fun _ => ?_
  · refine moves.bind (works q ready) fun node qs r moves ready ⟨run, made, filled⟩ => ?_
    subst made
    exact moves.done ready (.marked same filled)
  · exact (Moves.refl laid .line p).done ready .nothing

theorem Announced.part {mark : TokenKind} {node? : Option Node} (announced : Announced mark node? ps)
    (plain : mark.isStar = false) : Part node? ps q := by
  cases announced with
  | nothing => exact ⟨rfl, plain_nil⟩
  | marked kind filled => exact ⟨rfl, (plain_token (by rw [kind]; exact plain)).append (plain_node _ filled)⟩

theorem Announced.commaless {node? : Option Node} (announced : Announced .colon node? ps) :
    ∀ cell ∈ tokensOf ps, cell.kind ≠ .comma := by
  cases announced with
  | nothing => simp
  | marked kind _ => simp [kind]

/-- A part with a token in front of it begins behind that. -/
theorem Announced.fresh {mark : TokenKind} {node? : Option Node} (announced : Announced mark node? ps)
    (inline : mark.isInline) (other : mark ≠ .name) : Fresh ps := by
  cases announced with
  | nothing => exact fresh_of_bare rfl
  | marked kind => exact fresh_cons _ (by rw [kind]; exact inline) (by rw [kind]; exact other)

theorem announced_parses {item : ParseM Node} {kind : TokenKind} (ready : Ready laid .line level p)
    (works : Item laid level item) (ordinary : kind.isOrdinary) (plain : kind.isStar = false) :
    Parses laid .line False level (announced kind item) p Part :=
  (announced_marked ready works ordinary).imp fun _ _ _ _ announced => announced.part plain

/-- Where there is no name, one is put in. -/
theorem name_eq_missing (message : Option String) (other : p.cell.kind ≠ .name) :
    name message p = build .name (do
      discard <| takeMissingName message
      return (.name missingName, [])) p := by
  have began : start p = .ok p.marker p.opened := rfl
  have looks : at? .name p.opened = .ok false p.opened := by
    have away : (p.cell.kind == .name) = false := by simpa using other
    rw [← away]
    rfl
  rw [name, build, build, TokenStream.bind_ok began, TokenStream.bind_ok began, bind_assoc, TokenStream.bind_ok looks]
  rfl

/-- A name is made, be it there or put in. -/
theorem name_node (ready : Ready laid .line level p) (message : Option String) :
    Parses laid .line (p.cell.kind = .name) level (name message) p fun node ps q =>
      Expression node ps q ∧ node.kind = .name := by
  by_cases here : p.cell.kind = .name
  · refine build_parses (fun made ps _ => made.2 = [] ∧ ∃ cell, ps = [.token cell]) ready ?_
      fun made ps q _ ⟨children, cell, pieces⟩ =>
        ⟨.plain (by simp [children, pieces]) rfl rfl (.free rfl), fun node makes =>
        ⟨⟨_, rfl, by simp [pieces]⟩, makes.kind⟩⟩
    rw [parses_iff, completes_at, if_pos (by simp [here])]
    refine Ready.bump ready.opened (by simp [here]; rfl) fun cell q _ moves ready _ => ?_
    exact moves.done ready ⟨rfl, cell, rfl⟩
  · rw [parses_iff, completes_iff, ends_congr (name_eq_missing message here)]
    refine ((missingName_parses ready message).weaken here).imp fun node qs q _ ⟨cell, made, named, _⟩ => ?_
    exact ⟨⟨[cell], made, by simp⟩, named⟩

theorem name_parses (ready : Ready laid .line level p) (message : Option String) :
    Parses laid .line (p.cell.kind = .name) level (name message) p (Operand .atom) :=
  (name_node ready message).imp fun node _ _ _ ⟨made, named⟩ =>
    ⟨made, .inr (by rw [Node.binding, named]; exact Binding.ofKind_le .name node.info.detail)⟩

/-- A name that is there is the one token that is gone over. -/
theorem name_taken (ready : Ready laid .line level p) (message : Option String)
    (here : p.cell.kind = .name) :
    Parses laid .line True level (name message) p fun node qs q =>
      Expression node qs q ∧ p.kinds = .name :: q.kinds := by
  refine build_parses (fun made ps q => made.2 = [] ∧ nodesOf ps = [] ∧ p.kinds = .name :: q.kinds) ready
    ?_ fun made ps q moves ⟨empty, parts, kinds⟩ => ⟨.plain (by simp [empty, parts]) rfl rfl (.free rfl), fun node _ =>
      ⟨⟨_, rfl, moves.filled trivial ready.rests⟩, kinds⟩⟩
  rw [parses_iff, completes_at, if_pos (by simp [here])]
  refine (bump_ordinary ready.opened (by simp [here]; rfl)).bind fun cell ps q moves ready bumped => ?_
  have kinds : p.kinds = p.cell.kind :: q.kinds := bumped.kinds
  exact moves.done ready ⟨rfl, by simp [bumped.pieces], here ▸ kinds⟩

theorem name_item (message : Option String) : Item laid level (name message) :=
  fun _ ready => ((name_parses ready message).weaken False.elim).expression

/-! ### Lists of parts -/

/-- The parts read so far, of which the first was there before, and the separators between them. -/
structure Parted (separator : TokenKind) (least : Binding) (first : Node) (nodes : List Node) (ps : List Piece) :
    Prop where
  made : nodes = first :: nodesOf ps
  binds : ∀ node ∈ nodesOf ps, node.Binds least
  separators : ∀ cell ∈ tokensOf ps, cell.kind = separator

theorem Parted.closesNone {separator : TokenKind} {first : Node} {nodes : List Node}
    (parted : Parted separator least first nodes ps) (opens : separator.isClosing = false) : ClosesNone ps :=
  fun cell member => parted.separators cell member ▸ opens

theorem Parted.bare {separator : TokenKind} {first : Node} {nodes : List Node}
    (parted : Parted separator least first nodes ps) (plain : separator ≠ .leftParen) :
    ∀ cell ∈ tokensOf ps, cell.kind ≠ .leftParen := fun cell member => parted.separators cell member ▸ plain

/-- The parts behind the first, and whatever separates them. If there is a separator at all, and nothing but its lack
stops the list, then there is a part behind the first. -/
theorem separated_parted {separator : TokenKind} {stop : ParseM Bool} {item : ParseM Node}
    (test : Parser → Bool) (ready : Ready laid .line level p) (first : Node)
    (looks : ∀ q, stop q = .ok (test q) q) (works : OperandItem laid level least item)
    (ordinary : separator.isOrdinary) (named : separator ≠ .name) :
    Parses laid .line False level (separated separator first stop item) p fun nodes qs _ =>
      Parted separator least first nodes qs ∧
        (p.cell.kind = separator → (∀ q, test q = false) → nodesOf qs ≠ []) := by
  -- until a part is read the parser stands where it stood
  let inv : Post (Array Node) := fun nodes qs q =>
    Parted separator least first nodes.toList qs ∧ (nodesOf qs = [] → q.cell.kind = p.cell.kind)
  let kept : Post (Array Node) := fun nodes qs _ => Parted separator least first nodes.toList qs ∧
    (p.cell.kind = separator → (∀ q, test q = false) → nodesOf qs ≠ [])
  rw [parses_iff, separated]
  refine Completes.bind ((Moves.refl laid .line p).loop inv kept ready ⟨⟨by simp, by simp, by simp⟩, fun _ => rfl⟩ ?_)
    fun nodes ps q moves ready kept => moves.done ready kept
  rintro nodes ps q moves ready ⟨(parted : Parted separator least first nodes.toList ps), waits⟩
  refine moves.eat ready ordinary (fun cell r same behind ready lighter => ?_) fun absent => ?_
  · have separators : ∀ other ∈ tokensOf (ps ++ [.token cell]), other.kind = separator := by
      simpa [or_imp, forall_and] using ⟨parted.separators, same⟩
    rw [if_pos rfl, completes_iff, ends_bind_ok (looks r)]
    split
    next stops =>
      exact behind.done ready ⟨⟨by simpa using parted.made, by simpa using parted.binds, separators⟩, fun _ never =>
        absurd ((never r).symm.trans stops) Bool.false_ne_true⟩
    · refine behind.bind (works r ready) fun node qs s moves ready ⟨⟨run, made, _⟩, binds⟩ => ?_
      subst made
      refine moves.done ready ⟨⟨⟨by simp [parted.made], ?_, by simpa using separators⟩, by simp⟩,
        Nat.lt_of_le_of_lt (behind.later_le moves) (lighter named)⟩
      simpa [or_imp, forall_and] using ⟨parted.binds, binds⟩
  · exact moves.done ready ⟨parted, fun here _ nothing => absent ((waits nothing).trans here)⟩

theorem separated_operands {separator : TokenKind} {stop : ParseM Bool} {item : ParseM Node}
    (test : Parser → Bool) (ready : Ready laid .line level p) (first : Node)
    (looks : ∀ q, stop q = .ok (test q) q) (works : OperandItem laid level least item)
    (ordinary : separator.isOrdinary) (named : separator ≠ .name) :
    Parses laid .line False level (separated separator first stop item) p fun nodes qs _ =>
      Parted separator least first nodes qs :=
  (separated_parted test ready first looks works ordinary named).imp fun _ _ _ _ parted => parted.1

theorem separated_parses {separator : TokenKind} {stop : ParseM Bool} {item : ParseM Node}
    (test : Parser → Bool) (ready : Ready laid .line level p) (first : Node)
    (looks : ∀ q, stop q = .ok (test q) q) (works : Item laid level item)
    (ordinary : separator.isOrdinary) (named : separator ≠ .name) :
    Parses laid .line False level (separated separator first stop item) p fun nodes qs _ =>
      nodes = first :: nodesOf qs :=
  (separated_operands test ready first looks works.operands ordinary named).imp fun _ _ _ _ parted => parted.made

theorem commaSeparated_operands {item : ParseM Node} (ready : Ready laid .line level p) (first : Node)
    (works : Item laid level item) :
    Parses laid .line False level (commaSeparated first item) p fun nodes qs _ =>
      Parted .comma .none first nodes qs :=
  separated_operands (fun q => !startsExpression q.cell.kind) ready first (fun _ => rfl) works.operands rfl
    (by decide)

theorem commaSeparated_parses {item : ParseM Node} (ready : Ready laid .line level p) (first : Node)
    (works : Item laid level item) :
    Parses laid .line False level (commaSeparated first item) p fun nodes qs _ =>
      nodes = first :: nodesOf qs :=
  (commaSeparated_operands ready first works).imp fun _ _ _ _ parted => parted.made

/-- The nodes that a part of a node is made of. -/
structure Path (nodes : List Node) (ps : List Piece) (q : Parser) : Prop where
  long : 1 ≤ nodes.length
  nodes : nodes = nodesOf ps
  filled : cellsOf ps ≠ []

theorem dottedName_parses (ready : Ready laid .line level p) :
    Parses laid .line False level dottedName p Path := by
  rw [parses_iff, dottedName]
  refine (name_item none p ready).bind fun first ps q moves ready ⟨run, made, filled⟩ => ?_
  refine moves.last (separated_parses (fun _ => false) ready first (fun _ => rfl)
    (name_item none) rfl (by decide)) fun nodes qs r _ parts => ?_
  exact ⟨by simp [parts], by simp [made, parts], by simp [made, filled]⟩

/-! ### Nodes around one that has been made -/

/-- The production makes a node that takes one in which was made right before. It binds so tightly at least. -/
structure Extends (laid : Prop) (level : Depth) (left : Node) (f : ParseM Node) (q : Parser) (least : Binding)
    (after : Parser → Prop) : Prop where
  takes : ∀ {lead : Prop} (ps : List Piece) {o : Parser} {run : List Cell}, run ≠ [] →
    Moves laid .line lead (ps ++ [.node left run]) o q → Ends f q
      (fun node r => ∃ more, Moves laid .line lead (ps ++ [.node node (run ++ more)]) o r ∧
        Ready laid .line level r ∧ node.Binds least ∧ after r)
      (Broken lead o)

theorem build_takes {left : Node} {body : ParseM (Detail × List (Label × Option Node))} (lead : Prop)
    (mid : Post (Detail × List (Label × Option Node))) {after : Parser → Prop}
    (ready : Ready laid .line level q) (parses : Parses laid .line lead level body q.opened mid)
    (held : ∀ made qs r, Moves laid .line lead qs q.opened r → mid made qs r →
      (∀ run, run ≠ [] → (r.Orderly laid → Mode.line.Allows [.node left run]) →
        Held kind made.1 made.2 (.node left run :: qs) r laid) ∧ least ≤ .ofNode kind made.1 ∧ after r.closed) :
    Extends laid level left (build kind body) q least after := by
  refine ⟨fun {lead'} ps o run filled moves => ?_⟩
  have began : Ends (build kind body) q _ _ ↔
      Ends (body >>= fun made => complete q.marker kind made.1 made.2) q.opened
        (fun node r => ∃ more, Moves laid .line lead' (ps ++ [.node node (run ++ more)]) o r ∧
          Ready laid .line level r ∧ node.Binds least ∧ after r) (Broken lead' o) := Iff.rfl
  rw [began]
  refine Ends.bind (Ends.imp parses (fun _ _ holds => holds) fun _ broken =>
    broken.closed.after moves) ?_
  rintro made r ⟨qs, inner, ready', holds⟩
  obtain ⟨held, binds, later⟩ := held made qs r inner holds
  have line : r.Orderly laid → Mode.line.Allows [.node left run] := fun orderly cell member =>
    moves.allows (inner.toGrows.orderly orderly) cell (by
      rw [cellsOf_append]
      exact List.mem_append_right _ member)
  obtain ⟨node, completes, makes, outer, whole⟩ := moves.adopt rfl inner (held run filled line) (.line _) (.line _)
  rw [ends_ok completes]
  exact ⟨cellsOf qs, whole, ready'.ofEngine rfl (outer ▸ ready.inside), .inr (makes.binding ▸ binds), later⟩

/-- A node of all that was made, with the one made before. -/
theorem build_extends {left : Node} {body : ParseM (Detail × List (Label × Option Node))}
    (ready : Ready laid .line level q)
    (parses : Parses laid .line False level body q.opened (Forms kind least [left]))
    (plain : kind.isPlain) :
    Extends laid level left (build kind body) q least fun _ => True :=
  build_takes _ _ ready parses fun _ _ _ _ forms =>
    ⟨fun _ filled _ => forms.held (.node filled) plain, forms.least, trivial⟩

/-- The node takes the token at the cursor as well, which is not a name. -/
theorem build_follows {left : Node} {body : ParseM (Detail × List (Label × Option Node))}
    (ready : Ready laid .line level q) (other : q.cell.kind ≠ .name)
    (parses : Parses laid .line True level body q.opened (Forms kind least [left]))
    (plain : kind.isPlain) :
    Extends laid level left (build kind body) q least fun r => r.weight < q.weight :=
  build_takes _ _ ready parses fun _ _ _ moves forms =>
    ⟨fun _ filled _ => forms.held (.node filled) plain, forms.least,
      moves.weight_lt trivial ready.rests other⟩

/-- A node is taken in by one around it. -/
theorem Moves.extend {left : Node} {run : List Cell} {f : ParseM Node} {g : Node → ParseM β}
    {after : Parser → Prop} {post : Post β}
    (moves : Moves laid .line lead (ps ++ [.node left run]) o q) (filled : run ≠ [])
    (ext : Extends laid level left f q least after)
    (next : ∀ node more r, Moves laid .line lead (ps ++ [.node node (run ++ more)]) o r →
      Ready laid .line level r → node.Binds least ∧ after r → Completes laid mode lead level p (g node) r post)
    [inside : Inside p o] :
    Completes laid mode lead level p (f >>= g) q post :=
  Ends.bind (Ends.imp (ext.takes ps filled moves) (fun _ _ holds => holds) fun _ broken => broken.inside inside)
    fun node r ⟨more, moves, ready, later⟩ => next node more r moves ready later

/-- The node around takes the place of the one there was, and the parse is to go on so. -/
theorem Moves.takesIn {left : Node} {run : List Cell} {f : ParseM Node}
    (moves : Moves laid .line lead [.node left run] p q) (filled : run ≠ [])
    (ext : Extends laid level left f q least fun r => r.weight < q.weight) :
    Completes laid .line lead level p (f >>= fun node => pure (.yield node)) q
      (round q.weight (Operand least) (Operand least)) := by
  have alone : Moves laid .line lead ([] ++ [.node left run]) p q := moves
  refine alone.extend filled ext fun node more r moves ready ⟨binds, lighter⟩ => ?_
  exact moves.done ready ⟨⟨⟨_, rfl, by simp [filled]⟩, binds⟩, lighter⟩

/-- The node around completes the run. -/
theorem Moves.extendLast {left : Node} {run : List Cell} {f : ParseM Node} {after : Parser → Prop}
    (moves : Moves laid .line lead [.node left run] p q) (filled : run ≠ [])
    (ext : Extends laid level left f q least after) : Completes laid .line lead level p f q (Operand least) :=
  Ends.imp (ext.takes [] filled moves)
    (fun _ _ ⟨_, moves, ready, binds, _⟩ => ⟨_, moves, ready, ⟨_, rfl, by simp [filled]⟩, binds⟩)
    fun _ broken => broken

/-! ### Items with commas between them -/

/-- The items of a tuple, with commas between them. -/
theorem tuple_forms {first : Node} {nodes : List Node} (parted : Parted .comma .none first nodes ps) :
    Forms .tuple .none [first] (.none, several .elements nodes) ps q where
  nodes := by simp [gathers_iff, parted.made]
  groups := .several (fun node _ => node.binds_none) fun _ _ => trivial
  bare _ := parted.bare (by decide)
  literal := nofun
  sealed closer closes := by
    simpa using (parted.closesNone rfl).sealed (NodeKind.isClosing_of_closer closes) nodesOf_nil
  least := Binding.none_le _
  rows _ _ := .free rfl

theorem testList_parses {item : ParseM Node} (first : Parses laid .line lead level item p Expression)
    (works : Item laid level item) : Parses laid .line lead level (testList item) p Expression := by
  rw [parses_iff, testList]
  refine first.bind fun first ps q moves ready ⟨run, made, filled⟩ => ?_
  rw [completes_at]
  split
  · subst made
    refine (moves.extendLast filled (build_extends ready ?_ rfl) :
      Completes laid .line lead level p _ q (Operand .none)).expression
    refine (commaSeparated_operands ready.opened first works).bind fun nodes qs r moves ready parted => ?_
    exact moves.done ready (tuple_forms parted)
  · exact moves.done ready ⟨run, made, filled⟩

theorem testList_item {item : ParseM Node} (works : Item laid level item) :
    Item laid level (testList item) :=
  fun p ready => testList_parses (works p ready) works

/-! ### Yield -/

theorem yieldExpression_node (works : e.Works laid starts) (ready : Ready laid mode level p)
    (here : p.cell.kind = .kwYield) : Parses laid .line True level (yieldExpression e) p fun node ps q =>
      Operand .none node ps q ∧ node.kind = .yield := by
  have ready := ready.line fun _ => .inl (by simp [here]; rfl)
  refine build_node ready ?_ rfl
  rw [parses_iff, discard_bind]
  refine Ready.bump ready.opened (by simp [here]; rfl) fun cell q same moves ready _ => ?_
  refine moves.bind (optional_bare ready (testList_item (works.item true)))
    fun node? qs r moves ready ⟨part, nothing⟩ => ?_
  refine moves.done ready ⟨by simp [gathers_iff, part.1], ?_, fun _ => by simp [nothing, same, here], nofun, nofun,
    Binding.none_le _, fun _ _ => .free rfl⟩
  exact fun _ _ _ _ => .inr trivial

theorem yieldExpression_parses (works : e.Works laid starts) (ready : Ready laid mode level p)
    (here : p.cell.kind = .kwYield) : Parses laid .line True level (yieldExpression e) p Expression :=
  (yieldExpression_node works ready here).imp fun _ _ _ _ made => made.1.1

theorem yieldOr_operand {item : ParseM Node} (works : e.Works laid starts) (ready : Ready laid .line level p)
    (parses : Parses laid .line lead level item p (Operand least)) :
    Parses laid .line lead level (yieldOr e item) p fun node ps q =>
      Expression node ps q ∧ (node.Binds least ∨ node.kind.bindsLoosely) := by
  rw [parses_iff, yieldOr, completes_at, completes_features]
  split
  next here =>
    have here : p.cell.kind = .kwYield := by simpa using (Bool.and_eq_true_iff.1 here).1
    exact (yieldExpression_node works ready here).forget.imp fun _ _ _ _ made =>
      ⟨made.1.1, .inr (made.2 ▸ rfl)⟩
  next => exact parses.imp fun _ _ _ _ made => ⟨made.1, .inl made.2⟩

theorem yieldOr_parses {item : ParseM Node} (works : e.Works laid starts) (ready : Ready laid .line level p)
    (parses : Parses laid .line lead level item p Expression) :
    Parses laid .line lead level (yieldOr e item) p Expression :=
  (yieldOr_operand works ready (parses.imp fun node _ _ _ made => ⟨made, node.binds_none⟩)).imp
    fun _ _ _ _ made => made.1

end Parser

end TolerantParser
