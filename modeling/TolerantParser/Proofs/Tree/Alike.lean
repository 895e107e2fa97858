import Mathlib.Data.List.Forall2
import Mathlib.Data.Option.Basic
import Mathlib.Order.Basic
import TolerantParser.Dialect.Features
import TolerantParser.Proofs.Tree.Pieces
import TolerantParser.Tree.Span

/-!
When the values of two parses are alike. A parse sees of a token its kind and its text, but not the blanks in
front of it and not in which way it ends a line (`Gist`). What answers to what in the two documents is a
`Pairing`: which tokens do, by number, and which places. Trees are alike if they have the same nodes, the tokens
that their nodes own are alike one by one, and the nodes stand in places that answer to each other. What is alike
stays so when more is paired, and where everything is paired every value is like itself.
-/

namespace TolerantParser

/-- What a parse sees of a token. -/
structure Gist where
  kind : TokenKind
  text : String
  synthetic : Bool
  deriving DecidableEq, Repr

def Token.gist (token : Token) : Gist :=
  { kind := token.kind, text := if token.kind = .newline then "" else token.text
    synthetic := token.synthetic }

theorem Token.kind_of_gist {token other : Token} (same : token.gist = other.gist) :
    token.kind = other.kind := congrArg Gist.kind same

theorem Token.text_of_gist {token other : Token} (same : token.gist = other.gist)
    (inline : token.kind ≠ .newline) : token.text = other.text := by
  have texts := congrArg Gist.text same
  simpa only [gist, if_neg inline, if_neg (Token.kind_of_gist same ▸ inline)] using texts

/-! ### Pairings -/

/-- What answers to what in two documents: tokens by number, places of layout and of all else, how far the two
parses have come, and how many nodes are under construction. -/
structure Pairing where
  tokens : Nat → Nat → Prop
  places : Position → Position → Prop
  layout : Position → Position → Prop
  progress : Nat → Nat → Prop
  depths : Nat → Nat → Prop

namespace Pairing

instance : LE Pairing where
  le W W' := W.tokens ≤ W'.tokens ∧ W.places ≤ W'.places ∧ W.layout ≤ W'.layout ∧
    W.progress ≤ W'.progress ∧ W.depths ≤ W'.depths

instance : Preorder Pairing where
  le_refl W := ⟨le_refl W.tokens, le_refl W.places, le_refl W.layout, le_refl W.progress, le_refl W.depths⟩
  le_trans _ _ _ first second := ⟨first.1.trans second.1, first.2.1.trans second.2.1,
    first.2.2.1.trans second.2.2.1, first.2.2.2.1.trans second.2.2.2.1, first.2.2.2.2.trans second.2.2.2.2⟩

/-- Everything answers to everything. -/
def all : Pairing :=
  ⟨fun _ _ => True, fun _ _ => True, fun _ _ => True, fun _ _ => True, fun _ _ => True⟩

theorem le_all (W : Pairing) : W ≤ all :=
  ⟨fun _ _ _ => trivial, fun _ _ _ => trivial, fun _ _ _ => trivial, fun _ _ _ => trivial,
    fun _ _ _ => trivial⟩

/-- Where a token of a kind may stand. -/
def spots (W : Pairing) (kind : TokenKind) : Position → Position → Prop :=
  if kind.isLayout then W.layout else W.places

theorem spots_mono {W W' : Pairing} (le : W ≤ W') (kind : TokenKind) : W.spots kind ≤ W'.spots kind := by
  rw [spots, spots]
  split
  · exact le.2.2.1
  · exact le.2.1

theorem spots_plain (W : Pairing) {kind : TokenKind} (plain : kind.isLayout = false) :
    W.spots kind = W.places := by
  simp [spots, plain]

/-- The earlier of two places answers to the earlier one, and the later to the later one. -/
structure Monotone (W : Pairing) : Prop where
  min {p p' q q' : Position} : W.places p p' → W.places q q' → W.places (p.min q) (p'.min q')
  max {p p' q q' : Position} : W.places p p' → W.places q q' → W.places (p.max q) (p'.max q')

end Pairing

/-- Values that two parses come to and that are alike as far as they are paired. -/
class Likeness (α : Type) where
  Alike : Pairing → α → α → Prop
  mono {W W' : Pairing} {a b : α} : W ≤ W' → Alike W a b → Alike W' a b
  all (a : α) : Alike .all a a

export Likeness (Alike)

theorem Likeness.Alike.mono {α : Type} [Likeness α] {W W' : Pairing} {a b : α} (alike : Alike W a b)
    (le : W ≤ W') : Alike W' a b :=
  Likeness.mono le alike

/-! ### Values without tokens -/

/-- Values without tokens are alike if they are equal. -/
abbrev Likeness.exact (α : Type) : Likeness α := ⟨fun _ a b => a = b, fun _ same => same, fun _ => rfl⟩

/-- Values of the type are alike only if they are equal. -/
class Exact (α : Type) [Likeness α] : Prop where
  eq {W : Pairing} {a b : α} : Alike W a b → a = b

instance : Likeness Bool := .exact Bool
instance : Likeness Nat := .exact Nat
instance : Likeness String := .exact String
instance : Likeness PUnit := .exact PUnit
instance : Likeness TokenKind := .exact TokenKind
instance : Likeness Features := .exact Features
instance : Likeness Label := .exact Label
instance : Likeness Detail := .exact Detail

instance : Exact Bool := ⟨id⟩
instance : Exact Nat := ⟨id⟩
instance : Exact String := ⟨id⟩
instance : Exact TokenKind := ⟨id⟩
instance : Exact Features := ⟨id⟩

/-! ### Parts -/

section

variable {α β : Type} [Likeness α] [Likeness β] {W : Pairing}

instance : Likeness (α × β) where
  Alike W a b := Alike W a.1 b.1 ∧ Alike W a.2 b.2
  mono le alike := ⟨alike.1.mono le, alike.2.mono le⟩
  all a := ⟨Likeness.all a.1, Likeness.all a.2⟩

instance : Likeness (Option α) where
  Alike W := Option.Rel (Alike W)
  mono le alike := by
    cases alike with
    | none => exact .none
    | some alike => exact .some (alike.mono le)
  all a := by
    cases a with
    | none => exact .none
    | some a => exact .some (Likeness.all a)

instance : Likeness (List α) where
  Alike W := List.Forall₂ (Alike W)
  mono le alike := alike.imp fun _ _ alike => Likeness.mono le alike
  all _ := List.forall₂_same.2 fun a _ => Likeness.all a

instance : Likeness (Array α) where
  Alike W a b := Alike W a.toList b.toList
  mono le alike := Likeness.mono le alike
  all as := Likeness.all as.toList

namespace Likeness.Alike

theorem nil : Alike W ([] : List α) [] := List.Forall₂.nil

theorem cons {a b : α} {as bs : List α} (first : Alike W a b) (rest : Alike W as bs) :
    Alike W (a :: as) (b :: bs) := List.Forall₂.cons first rest

theorem append {as bs as' bs' : List α} (first : Alike W as bs) (second : Alike W as' bs') :
    Alike W (as ++ as') (bs ++ bs') := List.rel_append first second

theorem empty : Alike W (#[] : Array α) #[] := List.Forall₂.nil

theorem push {as bs : Array α} {a b : α} (before : Alike W as bs) (last : Alike W a b) :
    Alike W (as.push a) (bs.push b) := by
  show List.Forall₂ _ (as.push a).toList (bs.push b).toList
  rw [Array.toList_push, Array.toList_push]
  exact append before (cons last nil)

theorem appendList {as bs : Array α} {as' bs' : List α} (before : Alike W as bs) (more : Alike W as' bs') :
    Alike W (as ++ as'.toArray) (bs ++ bs'.toArray) := by
  show List.Forall₂ _ (as ++ as'.toArray).toList (bs ++ bs'.toArray).toList
  rw [Array.toList_append, Array.toList_append]
  exact append before more

theorem dropLast {as bs : List α} (alike : Alike W as bs) : Alike W as.dropLast bs.dropLast := by
  rw [List.dropLast_eq_take, List.dropLast_eq_take, List.Forall₂.length_eq alike]
  exact List.forall₂_take _ alike

theorem head? {as bs : List α} (alike : Alike W as bs) : Alike W as.head? bs.head? := by
  cases alike with
  | nil => exact .none
  | cons first _ => exact .some first

theorem reverse {as bs : List α} (alike : Alike W as bs) : Alike W as.reverse bs.reverse := List.rel_reverse alike

theorem getLast? {as bs : List α} (alike : Alike W as bs) : Alike W as.getLast? bs.getLast? := by
  rw [← List.head?_reverse, ← List.head?_reverse]
  exact alike.reverse.head?

theorem getD {a? b? : Option α} {a b : α} (alike : Alike W a? b?) (otherwise : Alike W a b) :
    Alike W (a?.getD a) (b?.getD b) := by
  cases alike with
  | none => exact otherwise
  | some alike => exact alike

theorem toArray {a? b? : Option α} (alike : Alike W a? b?) : Alike W a?.toArray b?.toArray := by
  cases alike with
  | none => exact empty
  | some alike => exact cons alike nil

end Likeness.Alike

theorem alike_isSome {a? b? : Option α} (alike : Alike W a? b?) : a?.isSome = b?.isSome := by
  cases alike <;> rfl

theorem alike_isEmpty {as bs : List α} (alike : Alike W as bs) : as.isEmpty = bs.isEmpty := by
  cases alike <;> rfl

theorem exact_list [Exact α] {as bs : List α} (alike : Alike W as bs) : as = bs := by
  induction alike with
  | nil => rfl
  | cons first _ ih => rw [Exact.eq first, ih]

end

/-- How far a parse had come when it was last looked at. -/
instance : Likeness (Option Nat) where
  Alike W := Option.Rel W.progress
  mono le alike := by
    cases alike with
    | none => exact .none
    | some alike => exact .some (le.2.2.2.1 _ _ alike)
  all a := by
    cases a with
    | none => exact .none
    | some a => exact .some trivial

/-! ### Tokens and nodes -/

structure Cell.Alike (W : Pairing) (cell other : Cell) : Prop where
  gist : cell.gist = other.gist
  paired : W.tokens cell.index other.index
  first : W.spots cell.kind cell.first other.first
  last : W.spots cell.kind cell.last other.last

theorem Cell.Alike.kind {W : Pairing} {cell other : Cell} (alike : cell.Alike W other) :
    cell.kind = other.kind := Token.kind_of_gist alike.gist

instance : Likeness Cell where
  Alike := Cell.Alike
  mono le alike := ⟨alike.gist, le.1 _ _ alike.paired, Pairing.spots_mono le _ _ _ alike.first,
    Pairing.spots_mono le _ _ _ alike.last⟩
  all cell := ⟨rfl, trivial, by rw [Pairing.spots]; split <;> trivial, by rw [Pairing.spots]; split <;> trivial⟩

/-- What is alike in two nodes besides their children. Which comments hang on them makes no difference. -/
structure NodeInfo.Alike (W : Pairing) (info other : NodeInfo) : Prop where
  kind : info.kind = other.kind
  detail : info.detail = other.detail
  tokens : Likeness.Alike W info.tokens other.tokens
  first : W.places info.first other.first
  last : W.places info.last other.last

theorem NodeInfo.Alike.mono {W W' : Pairing} (le : W ≤ W') {info other : NodeInfo}
    (alike : info.Alike W other) : info.Alike W' other :=
  ⟨alike.kind, alike.detail, alike.tokens.mono le, le.2.1 _ _ alike.first, le.2.1 _ _ alike.last⟩

theorem NodeInfo.Alike.all (info : NodeInfo) : info.Alike .all info :=
  ⟨rfl, rfl, Likeness.all _, trivial, trivial⟩

mutual

inductive Node.Alike (W : Pairing) : Node → Node → Prop
  | mk {info other : NodeInfo} {children others : Children} : info.Alike W other →
      children.Alike W others → Node.Alike W (.mk info children) (.mk other others)

inductive Children.Alike (W : Pairing) : Children → Children → Prop
  | nil : Children.Alike W .nil .nil
  | gap (label : Label) {rest others : Children} : rest.Alike W others →
      Children.Alike W (.gap label rest) (.gap label others)
  | cons (label : Label) {node other : Node} {rest others : Children} : node.Alike W other →
      rest.Alike W others → Children.Alike W (.cons label node rest) (.cons label other others)

end

mutual

theorem Node.Alike.mono {W W' : Pairing} (le : W ≤ W') {node other : Node} (alike : node.Alike W other) :
    node.Alike W' other :=
  match alike with
  | .mk info children => .mk (info.mono le) (children.mono le)

theorem Children.Alike.mono {W W' : Pairing} (le : W ≤ W') {children others : Children}
    (alike : children.Alike W others) : children.Alike W' others :=
  match alike with
  | .nil => .nil
  | .gap label rest => .gap label (rest.mono le)
  | .cons label node rest => .cons label (node.mono le) (rest.mono le)

end

mutual

theorem Node.Alike.all : (node : Node) → node.Alike .all node
  | .mk info children => .mk (.all info) (.all children)

theorem Children.Alike.all : (children : Children) → children.Alike .all children
  | .nil => .nil
  | .gap label rest => .gap label (.all rest)
  | .cons label node rest => .cons label (.all node) (.all rest)

end

instance : Likeness Node where
  Alike := Node.Alike
  mono le alike := Node.Alike.mono le alike
  all := Node.Alike.all

/-! ### Spans -/

section

variable {W : Pairing} {node other : Node}

theorem Node.Alike.ends (alike : node.Alike W other) :
    W.places node.first other.first ∧ W.places node.last other.last := by
  cases alike with
  | mk info _ => exact ⟨info.first, info.last⟩

theorem Children.Alike.nodes {children others : Children} (alike : children.Alike W others) :
    Likeness.Alike W children.nodes others.nodes :=
  match alike with
  | .nil => .nil
  | .gap _ rest => rest.nodes
  | .cons _ node rest => .cons node rest.nodes

/-- Extents that answer to each other at both ends. -/
abbrev Pairing.Extents (W : Pairing) : List (Position × Position) → List (Position × Position) → Prop :=
  List.Forall₂ fun a b => W.places a.1 b.1 ∧ W.places a.2 b.2

theorem isLayout_of_not_isSpanless {kind : TokenKind} (counts : kind.isSpanless = false) :
    kind.isLayout = false := by
  cases kind <;> first | rfl | cases counts

theorem alike_extents {tokens tokens' : List Cell} {nodes nodes' : List Node}
    (owned : Likeness.Alike W tokens tokens') (made : Likeness.Alike W nodes nodes') :
    W.Extents (extents tokens nodes) (extents tokens' nodes') := by
  refine List.rel_append ?_ (List.forall₂_map_left_iff.2 (List.forall₂_map_right_iff.2
    (made.imp fun _ _ alike => Node.Alike.ends alike)))
  induction owned with
  | nil => exact .nil
  | @cons cell other _ _ alike _ ih =>
    have alike : cell.Alike W other := alike
    cases counts : cell.kind.isSpanless with
    | true =>
      rw [List.filter_cons_of_neg (by simp [counts]), List.filter_cons_of_neg (by simp [← alike.kind, counts])]
      exact ih
    | false =>
      rw [List.filter_cons_of_pos (by simp [counts]), List.filter_cons_of_pos (by simp [← alike.kind, counts])]
      have placed := W.spots_plain (isLayout_of_not_isSpanless counts)
      exact .cons ⟨placed ▸ alike.first, placed ▸ alike.last⟩ ih

theorem Pairing.Monotone.foldl (monotone : W.Monotone) {parts others : List (Position × Position)}
    (alike : W.Extents parts others) {span span' : Position × Position}
    (start : W.places span.1 span'.1 ∧ W.places span.2 span'.2) :
    let widen := fun (span next : Position × Position) => (span.1.min next.1, span.2.max next.2)
    W.places (parts.foldl widen span).1 (others.foldl widen span').1 ∧
      W.places (parts.foldl widen span).2 (others.foldl widen span').2 := by
  induction alike generalizing span span' with
  | nil => exact start
  | cons first _ ih => exact ih ⟨monotone.min start.1 first.1, monotone.max start.2 first.2⟩

/-- Spans answer to each other if what they reach over does, or the place where nothing is. -/
theorem Pairing.Monotone.spanOver (monotone : W.Monotone) {anchor anchor' : Position}
    {parts others : List (Position × Position)} (alike : W.Extents parts others)
    (begun : parts = [] → W.places anchor anchor') :
    W.places (spanOver anchor parts).1 (spanOver anchor' others).1 ∧
      W.places (spanOver anchor parts).2 (spanOver anchor' others).2 := by
  cases alike with
  | nil => exact ⟨begun rfl, begun rfl⟩
  | cons first rest => exact monotone.foldl rest first

/-! ### Making nodes -/

theorem Children.Alike.ofList {parts others : List (Label × Option Node)}
    (alike : Likeness.Alike W parts others) : (Children.ofList parts).Alike W (.ofList others) := by
  induction alike with
  | nil => exact .nil
  | @cons part other _ _ first _ ih =>
    obtain ⟨label, node?⟩ := part
    obtain ⟨label', other?⟩ := other
    obtain ⟨same, child⟩ := first
    obtain rfl : label = label' := same
    cases child with
    | none => exact .gap label ih
    | some alike => exact .cons label alike ih

theorem Node.Alike.make (kind : NodeKind) {detail detail' : Detail} {anchor anchor' : Cell}
    {tokens tokens' : List Cell} {parts parts' : List (Label × Option Node)} (monotone : W.Monotone)
    (begun : W.places anchor.first anchor'.first) (owned : Likeness.Alike W tokens tokens')
    (made : Likeness.Alike W (detail, parts) (detail', parts')) :
    (Node.make kind detail anchor tokens (.ofList parts)).Alike W
      (Node.make kind detail' anchor' tokens' (.ofList parts')) := by
  have children := Children.Alike.ofList made.2
  have span := monotone.spanOver (alike_extents owned children.nodes) fun _ => begun
  exact .mk ⟨rfl, made.1, owned, span.1, span.2⟩ children

theorem Node.Alike.addTokens (alike : node.Alike W other) {tokens tokens' : List Cell}
    (more : Likeness.Alike W tokens tokens') : (node.addTokens tokens).Alike W (other.addTokens tokens') := by
  cases alike with
  | mk info children => exact .mk ⟨info.kind, info.detail, info.tokens.append more, info.first, info.last⟩ children

variable (role : Role)

theorem alike_child (alike : Likeness.Alike W node other) :
    Likeness.Alike W (child role node) (child role other) :=
  .cons ⟨rfl, .some alike⟩ .nil

theorem alike_child? {node? other? : Option Node} (alike : Likeness.Alike W node? other?) :
    Likeness.Alike W (child? role node?) (child? role other?) := by
  cases alike with
  | none => exact .nil
  | some alike => exact alike_child role alike

/-- Labelled by the places from one on. -/
theorem alike_labelled {nodes others : List (Option Node)} (alike : Likeness.Alike W nodes others) (place : Nat) :
    Likeness.Alike W ((nodes.zipIdx place).map fun (node, place) => ((⟨role, some place⟩ : Label), node))
      ((others.zipIdx place).map fun (node, place) => ((⟨role, some place⟩ : Label), node)) := by
  induction alike generalizing place with
  | nil => exact .nil
  | cons first _ ih => exact .cons ⟨rfl, first⟩ (ih (place + 1))

theorem alike_sparse {nodes others : List (Option Node)} (alike : Likeness.Alike W nodes others) :
    Likeness.Alike W (sparse role nodes) (sparse role others) := alike_labelled role alike 0

theorem alike_several {nodes others : List Node} (alike : Likeness.Alike W nodes others) :
    Likeness.Alike W (several role nodes) (several role others) :=
  alike_sparse role (List.forall₂_map_left_iff.2 (List.forall₂_map_right_iff.2 (alike.imp fun _ _ => .some)))

end

end TolerantParser
