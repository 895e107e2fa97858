import Mathlib.Order.Lattice
import TolerantParser.Tree.Basic

/-!
How tightly expressions bind. An operator takes as its operand only what binds as tightly as it asks for, unless the
operand stands in parentheses (`Groups`). Parentheses make no node of their own but belong to the expression in them;
those of a node that binds loosely are told by an opening parenthesis among its tokens (`Node.Enclosed`).
-/

namespace TolerantParser

/-- The levels of binding, the loosest first. `none` is for what can only be an operand in parentheses. -/
inductive Binding where
  | none
  | test
  | or
  | and
  | not
  | comparison
  | bar
  | circumflex
  | ampersand
  | shift
  | sum
  | product
  | sign
  | power
  | trailer
  | atom
  deriving DecidableEq, Repr

namespace Binding

instance : Preorder Binding := Preorder.lift Binding.ctorIdx

instance : DecidableLE Binding := fun a b => inferInstanceAs (Decidable (a.ctorIdx ≤ b.ctorIdx))

instance : DecidableLT Binding := fun a b => inferInstanceAs (Decidable (a.ctorIdx < b.ctorIdx))

theorem none_le (b : Binding) : none ≤ b := Nat.zero_le _

/-- The operators between two operands. -/
def ofBinary : String → Binding
  | "|" => bar
  | "^" => circumflex
  | "&" => ampersand
  | "<<" | ">>" => shift
  | "+" | "-" => sum
  | "*" | "/" | "%" | "//" => product
  | "**" => power
  | _ => none

/-- The levels of nodes that bind in one way whatever their operators. -/
def ofKind : NodeKind → Binding
  | .lambda | .choice => test
  | .comparison => comparison
  | .call | .subscript | .member => trailer
  | .name | .number | .string | .ellipsis | .backquoted | .list | .listComprehension | .dict | .dictComprehension
  | .set | .setComprehension => atom
  | _ => none

/-- The level of a node. -/
def ofNode : NodeKind → Detail → Binding
  | .binary, .operator op => ofBinary op
  | .unary, .operator op => if op = "not" then not else sign
  | .boolean, .operator op => if op = "and" then and else or
  | kind, _ => ofKind kind

theorem ofKind_le (kind : NodeKind) (detail : Detail) : ofKind kind ≤ ofNode kind detail := by
  unfold ofNode
  split
  · exact none_le _
  · exact none_le _
  · exact none_le _
  · exact le_refl _

/-- What a node asks of its child of a role if that is not in parentheses. -/
def Suits (kind : NodeKind) (detail : Detail) (role : Role) (operand : Binding) : Prop :=
  match kind, role with
  | .binary, .left => if detail = .operator "**" then trailer ≤ operand else ofNode .binary detail ≤ operand
  | .binary, _ => if detail = .operator "**" then sign ≤ operand else ofNode .binary detail < operand
  | .unary, _ => ofNode .unary detail ≤ operand
  | .comparison, _ => bar ≤ operand
  | .boolean, _ => ofNode .boolean detail < operand
  | .choice, .orElse => True
  | .choice, _ => or ≤ operand
  | _, _ => True

end Binding

/-- The expressions that bind more loosely than a call, and those that only brackets make operands of. -/
def NodeKind.bindsLoosely : NodeKind → Bool
  | .binary | .unary | .comparison | .boolean | .choice | .lambda | .yield | .tuple | .generator => true
  | _ => false

/-- What does not bind loosely binds tightly if it is an operand at all. -/
theorem Binding.trailer_le {kind : NodeKind} {detail : Detail} (firm : kind.bindsLoosely = false)
    (operand : test ≤ ofNode kind detail) : trailer ≤ ofNode kind detail := by
  cases kind <;> first
    | exact absurd firm (by decide)
    | exact absurd (show test ≤ none from operand) (by decide)
    | exact (show trailer ≤ trailer from le_refl _)
    | exact (show trailer ≤ atom by decide)

theorem Binding.suits_of_firm {kind : NodeKind} (firm : kind.bindsLoosely = false) (detail : Detail) (role : Role)
    (operand : Binding) : Suits kind detail role operand := by
  cases kind <;> first | exact absurd firm (by decide) | trivial

namespace Node

/-- The level of a node. -/
def binding (node : Node) : Binding := .ofNode node.kind node.info.detail

/-- The node stands in parentheses of its own. -/
def Enclosed (node : Node) : Prop := node.kind.bindsLoosely ∧ ∃ cell ∈ node.tokens, cell.kind = .leftParen

/-- The node can be an operand where what binds so tightly can. -/
def Binds (least : Binding) (node : Node) : Prop := node.Enclosed ∨ least ≤ node.binding

variable {node : Node} {least : Binding}

theorem Binds.mono {looser : Binding} (binds : node.Binds least) (le : looser ≤ least) : node.Binds looser :=
  binds.imp_right le.trans

theorem binds_none (node : Node) : node.Binds .none := .inr (Binding.none_le _)

/-- In parentheses every operand binds like a call. -/
theorem Binds.enclose (binds : node.Binds .test ∨ node.kind.bindsLoosely) {cells : List Cell}
    (paren : ∃ cell ∈ cells, cell.kind = .leftParen) : (node.addTokens cells).Binds .trailer := by
  obtain ⟨cell, member, kind⟩ := paren
  have given : ∃ cell ∈ (node.addTokens cells).tokens, cell.kind = .leftParen :=
    ⟨cell, List.mem_append_right _ member, kind⟩
  cases loose : node.kind.bindsLoosely with
  | true => exact .inl ⟨loose, given⟩
  | false =>
    rcases binds with (enclosed | operand) | same
    · exact .inl ⟨enclosed.1, given⟩
    · exact .inr (Binding.trailer_le loose operand)
    · rw [loose] at same
      cases same

end Node

/-- Every child is what the node asks of it, or stands in parentheses. -/
def Groups (kind : NodeKind) (detail : Detail) (parts : List (Label × Option Node)) : Prop :=
  ∀ part ∈ parts, ∀ operand ∈ part.2, operand.Enclosed ∨ Binding.Suits kind detail part.1.role operand.binding

namespace Groups

variable {kind : NodeKind} {detail : Detail} {parts more : List (Label × Option Node)}

theorem firm (firm : kind.bindsLoosely = false) : Groups kind detail parts := fun part _ operand _ =>
  .inr (Binding.suits_of_firm firm detail part.1.role operand.binding)

theorem append (first : Groups kind detail parts) (second : Groups kind detail more) :
    Groups kind detail (parts ++ more) := fun part member =>
  (List.mem_append.1 member).elim (first part) (second part)

theorem child {role : Role} {node : Node} {least : Binding} (binds : node.Binds least)
    (suits : ∀ operand, least ≤ operand → Binding.Suits kind detail role operand) :
    Groups kind detail (TolerantParser.child role node) := by
  intro part member operand there
  obtain rfl := List.mem_singleton.1 member
  obtain rfl := Option.mem_some.1 there
  exact binds.imp_right (suits _)

theorem several {role : Role} {nodes : List Node} {least : Binding} (binds : ∀ node ∈ nodes, node.Binds least)
    (suits : ∀ operand, least ≤ operand → Binding.Suits kind detail role operand) :
    Groups kind detail (TolerantParser.several role nodes) := by
  intro part member operand there
  obtain ⟨⟨node?, place⟩, listed, rfl⟩ := List.mem_map.1 member
  obtain ⟨node, among, rfl⟩ := List.mem_map.1 (List.fst_mem_of_mem_zipIdx listed)
  obtain rfl := Option.mem_some.1 there
  exact (binds _ among).imp_right (suits _)

end Groups

end TolerantParser
