import TolerantParser.Proofs.Tree.Binding
import TolerantParser.Tree.Span

/-!
What a node is made of. While a node is under construction the parser goes over a run of tokens, comments
aside, and every piece of that run is either a token the node is to own or the run of a node made on the
way (`Piece`).
-/

namespace TolerantParser

/-! ### Layout -/

namespace TokenKind

/-- The tokens that stand within a logical line. -/
def isInline (kind : TokenKind) : Bool := !kind.isLineEnd && kind != .indent && kind != .comment

def isStar (kind : TokenKind) : Bool := kind == .star || kind == .doubleStar

theorem plain_of_isInline {kind : TokenKind} (inline : kind.isInline) : kind.isLayout = false := by
  cases kind <;> first | rfl | cases inline

end TokenKind

/-- The number of open blocks behind a token; a block that is not open cannot end. -/
def levelBehind (level : Nat) : TokenKind → Option Nat
  | .indent => some (level + 1)
  | .dedent => if level = 0 then none else some (level - 1)
  | _ => some level

/-- The number of open blocks behind tokens, if none of them ends a block that is not open. -/
def levelAfter (level : Nat) (kinds : List TokenKind) : Option Nat := kinds.foldlM levelBehind level

/-- Every block that begins among the tokens ends there, and no other one does. -/
def Balanced (kinds : List TokenKind) : Prop := levelAfter 0 kinds = some 0

theorem levelBehind_plain (level : Nat) {kind : TokenKind} (plain : kind.isLayout = false) :
    levelBehind level kind = some level := by
  cases kind <;> first | rfl | cases plain

theorem levelBehind_add (deeper : Nat) {level after : Nat} {kind : TokenKind}
    (leads : levelBehind level kind = some after) :
    levelBehind (level + deeper) kind = some (after + deeper) := by
  by_cases layout : kind.isLayout
  · cases kind with
    | indent =>
      obtain rfl := Option.some.inj leads
      simp only [levelBehind, Nat.add_right_comm]
    | dedent =>
      simp only [levelBehind, Option.ite_none_left_eq_some, Option.some.injEq] at leads
      rw [levelBehind, if_neg (by omega)]
      congr 1
      omega
    | _ => cases layout
  · rw [levelBehind_plain level (by simpa using layout)] at leads
    rw [levelBehind_plain _ (by simpa using layout), Option.some.inj leads]

theorem levelAfter_append (level : Nat) (kinds more : List TokenKind) :
    levelAfter level (kinds ++ more) = (levelAfter level kinds).bind (levelAfter · more) :=
  List.foldlM_append ..

theorem levelAfter_add (deeper : Nat) {level after : Nat} {kinds : List TokenKind}
    (leads : levelAfter level kinds = some after) :
    levelAfter (level + deeper) kinds = some (after + deeper) := by
  induction kinds generalizing level with
  | nil =>
    obtain rfl := Option.some.inj leads
    rfl
  | cons kind rest ih =>
    rw [levelAfter, List.foldlM_cons] at leads ⊢
    obtain ⟨next, step, later⟩ := Option.bind_eq_some_iff.1 leads
    rw [levelBehind_add deeper step]
    exact ih later

theorem Balanced.levelAfter_eq {kinds : List TokenKind} (balanced : Balanced kinds) (level : Nat) :
    levelAfter level kinds = some level := by
  simpa using levelAfter_add level balanced

theorem Balanced.append {kinds more : List TokenKind} (first : Balanced kinds) (second : Balanced more) :
    Balanced (kinds ++ more) := by
  rw [Balanced, levelAfter_append, first]
  exact second

/-- A block with its first and last token. -/
theorem Balanced.block {kinds : List TokenKind} (inside : Balanced kinds) :
    Balanced (.indent :: (kinds ++ [.dedent])) := by
  have whole := levelAfter_append 1 kinds [.dedent]
  rw [inside.levelAfter_eq] at whole
  exact whole

theorem balanced_of_plain {kinds : List TokenKind} (plain : ∀ kind ∈ kinds, kind.isLayout = false) :
    Balanced kinds := by
  induction kinds with
  | nil => rfl
  | cons kind rest ih =>
    rw [Balanced, levelAfter, List.foldlM_cons, levelBehind_plain 0 (plain kind (by simp))]
    exact ih fun other member => plain other (by simp [member])

/-! ### Pieces -/

/-- A part of a run: a token, or the run of a node. -/
inductive Piece where
  | token (cell : Cell)
  | node (node : Node) (run : List Cell)

namespace Piece

def cells : Piece → List Cell
  | .token cell => [cell]
  | .node _ run => run

def own : Piece → List Cell
  | .token cell => [cell]
  | .node .. => []

def made : Piece → List Node
  | .token _ => []
  | .node made _ => [made]

@[simp] theorem cells_token (cell : Cell) : (token cell).cells = [cell] := rfl

@[simp] theorem cells_node (made : Node) (run : List Cell) : (node made run).cells = run := rfl

end Piece

/-- The whole run that pieces make up. -/
def cellsOf (pieces : List Piece) : List Cell := pieces.flatMap Piece.cells

/-- The tokens among the pieces. -/
def tokensOf (pieces : List Piece) : List Cell := pieces.flatMap Piece.own

/-- The nodes among the pieces. -/
def nodesOf (pieces : List Piece) : List Node := pieces.flatMap Piece.made

section

variable (p : Piece) (ps qs : List Piece) (cell : Cell) (node : Node) (run : List Cell)

@[simp] theorem cellsOf_nil : cellsOf [] = [] := rfl
@[simp] theorem tokensOf_nil : tokensOf [] = [] := rfl
@[simp] theorem nodesOf_nil : nodesOf [] = [] := rfl
@[simp] theorem cellsOf_token : cellsOf (.token cell :: ps) = cell :: cellsOf ps := rfl
@[simp] theorem tokensOf_token : tokensOf (.token cell :: ps) = cell :: tokensOf ps := rfl
@[simp] theorem nodesOf_token : nodesOf (.token cell :: ps) = nodesOf ps := rfl
@[simp] theorem cellsOf_node : cellsOf (.node node run :: ps) = run ++ cellsOf ps := rfl
@[simp] theorem tokensOf_node : tokensOf (.node node run :: ps) = tokensOf ps := rfl
@[simp] theorem nodesOf_node : nodesOf (.node node run :: ps) = node :: nodesOf ps := rfl

@[simp] theorem cellsOf_append : cellsOf (ps ++ qs) = cellsOf ps ++ cellsOf qs := List.flatMap_append ..
@[simp] theorem tokensOf_append : tokensOf (ps ++ qs) = tokensOf ps ++ tokensOf qs :=
  List.flatMap_append ..
@[simp] theorem nodesOf_append : nodesOf (ps ++ qs) = nodesOf ps ++ nodesOf qs := List.flatMap_append ..

end

/-- Pieces that are tokens. -/
def tokenPieces (cells : List Cell) : List Piece := cells.map .token

@[simp] theorem cellsOf_tokenPieces (cells : List Cell) : cellsOf (tokenPieces cells) = cells := by
  induction cells with
  | nil => rfl
  | cons cell rest ih => simpa [tokenPieces] using ih

@[simp] theorem tokensOf_tokenPieces (cells : List Cell) : tokensOf (tokenPieces cells) = cells := by
  induction cells with
  | nil => rfl
  | cons cell rest ih => simpa [tokenPieces] using ih

@[simp] theorem nodesOf_tokenPieces (cells : List Cell) : nodesOf (tokenPieces cells) = [] := by
  induction cells with
  | nil => rfl
  | cons cell rest ih => simpa [tokenPieces] using ih

theorem filled_tokenPieces (cells : List Cell) : ∀ piece ∈ tokenPieces cells, piece.cells ≠ [] :=
  List.forall_mem_map.2 fun cell _ => List.cons_ne_nil cell []

theorem tokensOf_subset {pieces : List Piece} {cell : Cell} (member : cell ∈ tokensOf pieces) :
    cell ∈ cellsOf pieces := by
  obtain ⟨piece, listed, owned⟩ := List.mem_flatMap.1 member
  refine List.mem_flatMap.2 ⟨piece, listed, ?_⟩
  cases piece with
  | token other => exact owned
  | node node run => cases owned

theorem cells_subset {pieces : List Piece} {piece : Piece} (member : piece ∈ pieces) :
    piece.cells ⊆ cellsOf pieces := fun _ inside => List.mem_flatMap.2 ⟨piece, member, inside⟩

theorem mem_nodesOf {pieces : List Piece} {inner : Node} (member : inner ∈ nodesOf pieces) :
    ∃ run, .node inner run ∈ pieces := by
  obtain ⟨piece, listed, made⟩ := List.mem_flatMap.1 member
  cases piece with
  | token => cases made
  | node other run =>
    obtain rfl := List.mem_singleton.1 made
    exact ⟨run, listed⟩

/-- What holds of the nodes among the pieces and of one more node behind them. -/
theorem forall_nodesOf_concat {holds : Node → Prop} {ps : List Piece} {node : Node} {run : List Cell}
    (early : ∀ inner ∈ nodesOf ps, holds inner) (last : holds node) :
    ∀ inner ∈ nodesOf (ps ++ [.node node run]), holds inner := by
  rw [nodesOf_append]
  exact List.forall_mem_append.2 ⟨early, List.forall_mem_singleton.2 last⟩

/-! ### Stars -/

/-- The number of nodes that stand directly behind a token of a kind. -/
def items (kind : TokenKind) : List Piece → Nat
  | [] => 0
  | .token cell :: rest =>
    (if cell.kind == kind then (nodesOf (rest.take 1)).length else 0) + items kind rest
  | .node .. :: rest => items kind rest

/-- The nodes that can hold starred items. -/
def NodeKind.isStarred (kind : NodeKind) : Bool := kind == .call || kind == .parameters

/-- There is at most one starred item of each sort. -/
def StarsOnce (pieces : List Piece) : Prop := items .star pieces ≤ 1 ∧ items .doubleStar pieces ≤ 1

/-- The pieces do not end with a star. -/
def EndsPlain (pieces : List Piece) : Prop :=
  ∀ cell, pieces.getLast? = some (.token cell) → cell.kind.isStar = false

theorem endsPlain_nil : EndsPlain [] := by simp [EndsPlain]

theorem endsPlain_node (ps : List Piece) (node : Node) (run : List Cell) :
    EndsPlain (ps ++ [.node node run]) := by
  simp [EndsPlain]

theorem endsPlain_token (ps : List Piece) {cell : Cell} (plain : cell.kind.isStar = false) :
    EndsPlain (ps ++ [.token cell]) := by
  simpa [EndsPlain] using plain

theorem EndsPlain.append {ps qs : List Piece} (first : EndsPlain ps) (second : EndsPlain qs) :
    EndsPlain (ps ++ qs) := by
  intro cell last
  rw [List.getLast?_append] at last
  cases ends : qs.getLast? with
  | none =>
    rw [ends, Option.none_or] at last
    exact first cell last
  | some piece =>
    rw [ends, Option.some_or] at last
    exact second cell (ends.trans last)

theorem items_append (kind : TokenKind) {ps : List Piece} (star : kind.isStar) (plain : EndsPlain ps)
    (qs : List Piece) : items kind (ps ++ qs) = items kind ps + items kind qs := by
  induction ps with
  | nil => simp [items]
  | cons piece ps ih =>
    cases ps with
    | nil =>
      cases piece with
      | node node run => simp [items]
      | token cell =>
        have notStar := plain cell rfl
        have other : (cell.kind == kind) = false := by
          rw [beq_eq_false_iff_ne]
          rintro rfl
          simp [star] at notStar
        simp [items, other]
    | cons next ps =>
      have later := ih fun cell last => plain cell (by simpa using last)
      cases piece with
      | node node run => simpa [items] using later
      | token cell =>
        simp only [List.cons_append, items, List.take_succ_cons, List.take_zero] at later ⊢
        rw [later, Nat.add_assoc]

theorem isStar_iff {kind : TokenKind} : kind.isStar ↔ kind = .star ∨ kind = .doubleStar := by
  simp [TokenKind.isStar]

/-- What holds for both sorts of stars. -/
theorem forall_isStar {holds : TokenKind → Prop} :
    (∀ kind : TokenKind, kind.isStar → holds kind) ↔ holds .star ∧ holds .doubleStar := by
  simp [isStar_iff, or_imp, forall_and]

/-- A star with the node behind it, and what else there is in front of the next comma. -/
def StarredItem (kind : TokenKind) (item : List Piece) : Prop :=
  ∃ star node run more, item = .token star :: .node node run :: more ∧ star.kind = kind ∧
    ∀ cell ∈ tokensOf more, cell.kind ≠ .comma

/-- The node is in a starred item, and further on there is another one of the same sort. -/
def Superseded (pieces : List Piece) (node : Node) : Prop :=
  ∃ kind before item between next after, pieces = before ++ item ++ (between ++ next ++ after) ∧ kind.isStar ∧
    StarredItem kind item ∧ StarredItem kind next ∧ node ∈ nodesOf item

theorem Superseded.around {pieces : List Piece} {node : Node} (superseded : Superseded pieces node)
    (ps qs : List Piece) :
    Superseded (ps ++ pieces ++ qs) node := by
  obtain ⟨kind, before, item, between, next, after, rfl, others⟩ := superseded
  exact ⟨kind, ps ++ before, item, between, next, after ++ qs, by simp, others⟩

/-- Pieces without a star hold no starred item. -/
theorem items_plain (kind : TokenKind) {ps : List Piece} (star : kind.isStar)
    (plain : ∀ cell ∈ tokensOf ps, cell.kind.isStar = false) : items kind ps = 0 := by
  induction ps with
  | nil => rfl
  | cons piece ps ih =>
    cases piece with
    | node node run => exact ih plain
    | token cell =>
      have notStar := plain cell (by simp)
      have other : (cell.kind == kind) = false := by
        rw [beq_eq_false_iff_ne]
        rintro rfl
        simp [star] at notStar
      simp [items, other, ih fun next member => plain next (by simp [member])]

theorem endsPlain_of_plain {ps : List Piece} (plain : ∀ cell ∈ tokensOf ps, cell.kind.isStar = false) :
    EndsPlain ps := by
  intro cell last
  exact plain cell (List.mem_flatMap.2 ⟨_, List.mem_of_getLast? last, by simp [Piece.own]⟩)

end TolerantParser
