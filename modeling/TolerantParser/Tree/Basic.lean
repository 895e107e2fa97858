import TolerantParser.Token.Cell
import TolerantParser.Tree.Kind

/-!
Trees. A node owns tokens: its words and punctuation, the layout around it, and what repair went
over while it was built. Comments hang before and after it. A node's children are kept in the order
of the fields of its kind; a list field may have gaps where repair found no child.

Embeds `Node` and the data that its kinds share.
-/

namespace TolerantParser

/-- The role of a child, and its place in the list if the field is one. -/
structure Label where
  role : Role
  place : Option Nat
  deriving DecidableEq, Repr

/-- What a node holds besides tokens and children. -/
inductive Detail where
  | none
  | name (id : String)
  | number (spelling : String)
  | string (contents : String)
  | operator (op : String)
  | comparison (ops : List String)
  | print (endsLine : Bool)
  | importFrom (level : Nat) (all : Bool)
  deriving DecidableEq, Repr, Inhabited

/-- A node without its children. -/
structure NodeInfo where
  kind : NodeKind
  detail : Detail
  tokens : List Cell
  before : List Cell
  after : List Cell
  first : Position
  last : Position
  deriving DecidableEq, Repr

mutual

/-- A node with its children. -/
inductive Node where
  | mk (info : NodeInfo) (children : Children)

/-- The children of a node, in the order of its fields, each under its label. -/
inductive Children where
  | nil
  | gap (label : Label) (rest : Children)
  | cons (label : Label) (node : Node) (rest : Children)

end

namespace Children

/-- Every entry with its label. -/
def toList : Children → List (Label × Option Node)
  | .nil => []
  | .gap label rest => (label, none) :: rest.toList
  | .cons label node rest => (label, some node) :: rest.toList

def ofList : List (Label × Option Node) → Children
  | [] => .nil
  | (label, none) :: rest => .gap label (ofList rest)
  | (label, some node) :: rest => .cons label node (ofList rest)

@[simp] theorem toList_ofList (entries : List (Label × Option Node)) :
    (ofList entries).toList = entries := by
  induction entries with
  | nil => rfl
  | cons entry rest ih =>
    obtain ⟨label, _ | node⟩ := entry <;> simp [ofList, toList, ih]

/-- The children themselves, in the order of the fields. -/
def nodes : Children → List Node
  | .nil => []
  | .gap _ rest => rest.nodes
  | .cons _ node rest => node :: rest.nodes

/-- Children are taken apart from the front, and what is below them is left alone. -/
@[elab_as_elim] theorem induction {motive : Children → Prop} (nil : motive .nil)
    (gap : ∀ label rest, motive rest → motive (.gap label rest))
    (cons : ∀ label node rest, motive rest → motive (.cons label node rest)) (children : Children) : motive children :=
  @Children.rec (fun _ => True) motive (fun _ _ _ => trivial) nil gap
    (fun label node rest _ later => cons label node rest later) children

theorem nodes_eq_filterMap (children : Children) :
    children.nodes = children.toList.filterMap Prod.snd := by
  induction children using Children.induction with
  | nil => rfl
  | gap _ rest ih => simp [nodes, toList, ih]
  | cons _ _ rest ih => simp [nodes, toList, ih]

end Children

/-! ### Writing down the children of a new node -/

/-- A child that is always there. -/
def child (role : Role) (node : Node) : List (Label × Option Node) := [(⟨role, none⟩, some node)]

/-- A child that may be left out. -/
def child? (role : Role) : Option Node → List (Label × Option Node)
  | some node => child role node
  | none => []

/-- A list of children with gaps. -/
def sparse (role : Role) (nodes : List (Option Node)) : List (Label × Option Node) :=
  nodes.zipIdx.map fun (node, place) => (⟨role, some place⟩, node)

/-- A list of children. -/
def several (role : Role) (nodes : List Node) : List (Label × Option Node) :=
  sparse role (nodes.map some)

namespace Node

def info : Node → NodeInfo
  | .mk info _ => info

def children : Node → Children
  | .mk _ children => children

def kind (node : Node) : NodeKind := node.info.kind

def tokens (node : Node) : List Cell := node.info.tokens

def first (node : Node) : Position := node.info.first

def last (node : Node) : Position := node.info.last

/-- The children by where they begin; children that begin at one place stay in field order. -/
def ordered (node : Node) : List Node :=
  node.children.nodes.mergeSort fun a b => a.first.le b.first

/-- Gives more tokens to a node, outside of its span. -/
def addTokens (node : Node) (cells : List Cell) : Node :=
  .mk { node.info with tokens := node.info.tokens ++ cells } node.children

/-- The text of a name; empty for any other node. -/
def id (node : Node) : String :=
  match node.info.detail with
  | .name id => id
  | _ => ""

/-- The children under a role, gaps included. -/
def entries (node : Node) (role : Role) : List (Option Node) :=
  (node.children.toList.filter (·.1.role == role)).map Prod.snd

/-- A name that repair put in. -/
def isMissing (node : Node) : Bool := node.tokens.any (·.synthetic)

/-- The names under a role, joined by points. -/
def dotted (node : Node) (role : Role) : String :=
  ".".intercalate ((node.entries role).filterMap (·.map Node.id))

end Node

end TolerantParser
