import TolerantParser.Proofs.Tree.Pieces

/-!
Closing brackets among the pieces of a node. What the node is made of comes in front of the token that ends it
(`Sealed`), with one exception that the parser makes (`Contained`).
-/

namespace TolerantParser

/-- The token that ends a node of the kind where it has brackets of its own. -/
def NodeKind.closer? : NodeKind → Option TokenKind
  | .call | .generator | .tuple => some .rightParen
  | .subscript | .list | .listComprehension => some .rightBracket
  | .dict | .dictComprehension | .set | .setComprehension => some .rightBrace
  | _ => none

theorem NodeKind.isClosing_of_closer {kind : NodeKind} {closer : TokenKind} (closes : closer ∈ kind.closer?) :
    closer.isClosing := by
  cases kind <;> cases closes <;> rfl

/-- None of the tokens of the pieces is a closing bracket. -/
def ClosesNone (pieces : List Piece) : Prop := ∀ cell ∈ tokensOf pieces, cell.kind.isClosing = false

theorem closesNone_of_bare {pieces : List Piece} (bare : tokensOf pieces = []) : ClosesNone pieces := by
    simp [ClosesNone, bare]

theorem closesNone_node (node : Node) (run : List Cell) : ClosesNone [.node node run] := closesNone_of_bare rfl

theorem closesNone_token {cell : Cell} (opens : cell.kind.isClosing = false) : ClosesNone [.token cell] := by
  simpa [ClosesNone] using opens

theorem ClosesNone.append {ps qs : List Piece} (first : ClosesNone ps) (second : ClosesNone qs) :
    ClosesNone (ps ++ qs) := by
  rw [ClosesNone, tokensOf_append]
  exact List.forall_mem_append.2 ⟨first, second⟩

theorem ClosesNone.ne {ps : List Piece} {closer : TokenKind} (closesNone : ClosesNone ps) (closes : closer.isClosing) :
    ∀ cell ∈ tokensOf ps, cell.kind ≠ closer := by
  rintro cell member rfl
  rw [closesNone cell member] at closes
  cases closes

/-- No node comes behind a token of the kind. -/
def Sealed (closer : TokenKind) (pieces : List Piece) : Prop :=
  pieces.Pairwise fun piece later => (∃ cell ∈ piece.own, cell.kind = closer) → later.made = []

section

variable {closer : TokenKind} {ps qs : List Piece}

theorem sealed_of_bare (bare : nodesOf ps = []) : Sealed closer ps :=
  List.Pairwise.imp_of_mem (fun _ later _ _ => List.flatMap_eq_nil_iff.1 bare _ later)
    (List.pairwise_of_forall fun _ _ => trivial)

/-- Where no bracket is closed, whatever comes next may hold nodes. -/
theorem Sealed.behind (sealed : Sealed closer qs) (other : ∀ cell ∈ tokensOf ps, cell.kind ≠ closer) :
    Sealed closer (ps ++ qs) := by
  have never : ∀ piece ∈ ps, ¬ ∃ cell ∈ piece.own, cell.kind = closer := fun piece member ⟨cell, own, same⟩ =>
    other cell (List.mem_flatMap.2 ⟨piece, member, own⟩) same
  refine List.pairwise_append.2 ⟨?_, sealed, fun piece early _ _ closes => absurd closes (never piece early)⟩
  exact List.Pairwise.imp_of_mem (fun early _ _ closes => absurd closes (never _ early))
    (List.pairwise_of_forall fun _ _ => trivial)

theorem Sealed.append (sealed : Sealed closer ps) (bare : nodesOf qs = []) : Sealed closer (ps ++ qs) :=
  List.pairwise_append.2 ⟨sealed, sealed_of_bare bare, fun _ _ _ later _ => List.flatMap_eq_nil_iff.1 bare _ later⟩

/-- The brackets are closed by what comes last. -/
theorem ClosesNone.sealed (closesNone : ClosesNone ps) (closes : closer.isClosing) (bare : nodesOf qs = []) :
    Sealed closer (ps ++ qs) :=
  (sealed_of_bare bare).behind (closesNone.ne closes)

end

/-- Nothing that the node is made of comes behind a bracket that closes it, but for the name that stands for the
missing value of a dictionary comprehension. -/
inductive Contained (kind : NodeKind) (children : List (Label × Option Node)) (pieces : List Piece) : Prop
  | all (sealed : ∀ closer ∈ kind.closer?, Sealed closer pieces)
  | late (comprehension : kind = .dictComprehension) (front back : List Piece) (value : Node) (run : List Cell)
    (split : pieces = front ++ .node value run :: back) (sealed : Sealed .rightBrace front)
    (last : nodesOf back = []) (name : value.kind = .name) (child : (⟨.value, none⟩, some value) ∈ children)
    (others : ∀ part ∈ children, part.1.role ≠ .value → ∀ node ∈ part.2, node ∈ nodesOf front)

/-- Tokens around the pieces make no difference as long as those in front close nothing. -/
theorem Contained.surround {kind : NodeKind} {children : List (Label × Option Node)} {pieces before after : List Piece}
    (contained : Contained kind children pieces) (closesNone : ClosesNone before) (bare : nodesOf after = []) :
    Contained kind children (before ++ pieces ++ after) := by
  cases contained with
  | all sealed =>
    exact .all fun closer closes =>
      ((sealed closer closes).behind (closesNone.ne (NodeKind.isClosing_of_closer closes))).append bare
  | late comprehension front back value run split sealed last name child others =>
    refine .late comprehension (before ++ front) (back ++ after) value run (by simp [split]) 
      (sealed.behind (closesNone.ne rfl)) (by simp [last, bare]) name child fun part member role node there => ?_
    rw [nodesOf_append]
    exact List.mem_append_right _ (others part member role node there)

theorem contained_of_none {kind : NodeKind} (none : kind.closer? = none)
    (children : List (Label × Option Node)) (pieces : List Piece) : Contained kind children pieces :=
  .all fun closer closes => by simp [none] at closes

end TolerantParser
