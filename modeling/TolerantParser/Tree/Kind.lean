/-!
The kinds of tree node, and the parts that each kind has.

Embeds the classes of node with their fields, from `Module` to `Tuple`.
-/

namespace TolerantParser

/-- What a node stands for: the whole document, a statement, an expression, or a part of one. -/
inductive NodeKind where
  | document
  | expression
  | assignment
  | augmentedAssignment
  | print
  | delete
  | pass
  | break
  | continue
  | return
  | raise
  | global
  | nonlocal
  | exec
  | assert
  | imported
  | import
  | importFrom
  | conditional
  | whileLoop
  | forLoop
  | handler
  | tryBlock
  | withBlock
  | decorator
  | parameters
  | function
  | classBody
  | boolean
  | binary
  | unary
  | lambda
  | choice
  | dict
  | set
  | clause
  | listComprehension
  | setComprehension
  | dictComprehension
  | generator
  | yield
  | comparison
  | keyword
  | call
  | backquoted
  | number
  | string
  | member
  | subscript
  | slice
  | ellipsis
  | name
  | list
  | tuple
  deriving DecidableEq, Repr, Inhabited

/-- What a child is to its parent. -/
inductive Role where
  | body
  | value
  | targets
  | target
  | destination
  | values
  | type
  | inst
  | traceback
  | cause
  | names
  | globals
  | locals
  | test
  | message
  | name
  | localName
  | path
  | orElse
  | iterable
  | handlers
  | finalBody
  | context
  | boundTo
  | function
  | args
  | defaults
  | hints
  | starParameter
  | starHint
  | keywordOnly
  | keywordDefaults
  | keywordHints
  | doubleStarParameter
  | doubleStarHint
  | decorators
  | returns
  | bases
  | left
  | right
  | operand
  | keys
  | elements
  | conditions
  | element
  | generators
  | key
  | comparators
  | argument
  | keywords
  | starArgument
  | doubleStarArgument
  | member
  | slice
  | lower
  | upper
  | step
  deriving DecidableEq, Repr, Inhabited

/-- A part of a node: one child, which may be left out, or a list of children. -/
structure Field where
  role : Role
  isList : Bool
  deriving DecidableEq, Repr

namespace NodeKind

/-- Every kind, in the order of listings. -/
def all : List NodeKind := [
  .document, .expression, .assignment, .augmentedAssignment, .print, .delete, .pass, .break,
  .continue, .return, .raise, .global, .nonlocal, .exec, .assert, .imported, .import, .importFrom,
  .conditional, .whileLoop, .forLoop, .handler, .tryBlock, .withBlock, .decorator, .parameters,
  .function, .classBody, .boolean, .binary, .unary, .lambda, .choice, .dict, .set, .clause,
  .listComprehension, .setComprehension, .dictComprehension, .generator, .yield, .comparison,
  .keyword, .call, .backquoted, .number, .string, .member, .subscript, .slice, .ellipsis, .name,
  .list, .tuple]

/-- The name that listings show for a kind. -/
def label : NodeKind → String
  | .document => "Module"
  | .expression => "Expr"
  | .assignment => "Assign"
  | .augmentedAssignment => "AugAssign"
  | .print => "Print"
  | .delete => "Delete"
  | .pass => "Pass"
  | .break => "Break"
  | .continue => "Continue"
  | .return => "Return"
  | .raise => "Raise"
  | .global => "Global"
  | .nonlocal => "Nonlocal"
  | .exec => "Exec"
  | .assert => "Assert"
  | .imported => "Alias"
  | .import => "Import"
  | .importFrom => "ImportFrom"
  | .conditional => "If"
  | .whileLoop => "While"
  | .forLoop => "For"
  | .handler => "ExceptHandler"
  | .tryBlock => "Try"
  | .withBlock => "With"
  | .decorator => "Decorator"
  | .parameters => "Arguments"
  | .function => "FunctionDef"
  | .classBody => "ClassDef"
  | .boolean => "BoolOp"
  | .binary => "BinOp"
  | .unary => "UnaryOp"
  | .lambda => "Lambda"
  | .choice => "IfExp"
  | .dict => "Dict"
  | .set => "Set"
  | .clause => "Comprehension"
  | .listComprehension => "ListComp"
  | .setComprehension => "SetComp"
  | .dictComprehension => "DictComp"
  | .generator => "GeneratorExp"
  | .yield => "Yield"
  | .comparison => "Compare"
  | .keyword => "Keyword"
  | .call => "Call"
  | .backquoted => "Repr"
  | .number => "Num"
  | .string => "Str"
  | .member => "Attribute"
  | .subscript => "Subscript"
  | .slice => "Slice"
  | .ellipsis => "EllipsisLiteral"
  | .name => "Name"
  | .list => "List"
  | .tuple => "Tuple"

def ofLabel? (label : String) : Option NodeKind := all.find? (·.label == label)

end NodeKind

/-- The name that listings show for a role. -/
def Role.label : Role → String
  | .body => "body"
  | .value => "value"
  | .targets => "targets"
  | .target => "target"
  | .destination => "dest"
  | .values => "values"
  | .type => "type"
  | .inst => "inst"
  | .traceback => "tback"
  | .cause => "cause"
  | .names => "names"
  | .globals => "globals"
  | .locals => "locals"
  | .test => "test"
  | .message => "msg"
  | .name => "name"
  | .localName => "asname"
  | .path => "module"
  | .orElse => "orelse"
  | .iterable => "iter"
  | .handlers => "handlers"
  | .finalBody => "finalbody"
  | .context => "context_expr"
  | .boundTo => "optional_vars"
  | .function => "func"
  | .args => "args"
  | .defaults => "defaults"
  | .hints => "annotations"
  | .starParameter => "vararg"
  | .starHint => "vararg_annotation"
  | .keywordOnly => "kwonlyargs"
  | .keywordDefaults => "kw_defaults"
  | .keywordHints => "kwonly_annotations"
  | .doubleStarParameter => "kwarg"
  | .doubleStarHint => "kwarg_annotation"
  | .decorators => "decorators"
  | .returns => "returns"
  | .bases => "bases"
  | .left => "left"
  | .right => "right"
  | .operand => "operand"
  | .keys => "keys"
  | .elements => "elts"
  | .conditions => "ifs"
  | .element => "elt"
  | .generators => "generators"
  | .key => "key"
  | .comparators => "comparators"
  | .argument => "arg"
  | .keywords => "keywords"
  | .starArgument => "starargs"
  | .doubleStarArgument => "kwargs"
  | .member => "attr"
  | .slice => "slice"
  | .lower => "lower"
  | .upper => "upper"
  | .step => "step"

private def one (role : Role) : Field := ⟨role, false⟩

private def many (role : Role) : Field := ⟨role, true⟩

/-- The parts of a node, in the order in which listings show them. -/
def NodeKind.fields : NodeKind → List Field
  | .document => [many .body]
  | .expression => [one .value]
  | .assignment => [many .targets, one .value]
  | .augmentedAssignment => [one .target, one .value]
  | .print => [one .destination, many .values]
  | .delete => [many .targets]
  | .pass => []
  | .break => []
  | .continue => []
  | .return => [one .value]
  | .raise => [one .type, one .inst, one .traceback, one .cause]
  | .global => [many .names]
  | .nonlocal => [many .names]
  | .exec => [one .body, one .globals, one .locals]
  | .assert => [one .test, one .message]
  | .imported => [many .name, one .localName]
  | .import => [many .names]
  | .importFrom => [many .path, many .names]
  | .conditional => [one .test, many .body, many .orElse]
  | .whileLoop => [one .test, many .body, many .orElse]
  | .forLoop => [one .target, one .iterable, many .body, many .orElse]
  | .handler => [one .type, one .name, many .body]
  | .tryBlock => [many .body, many .handlers, many .orElse, many .finalBody]
  | .withBlock => [one .context, one .boundTo, many .body]
  | .decorator => [one .function]
  | .parameters => [
    many .args, many .defaults, many .hints, one .starParameter, one .starHint, many .keywordOnly,
    many .keywordDefaults, many .keywordHints, one .doubleStarParameter, one .doubleStarHint]
  | .function => [many .decorators, one .name, one .args, one .returns, many .body]
  | .classBody => [many .decorators, one .name, many .bases, many .body]
  | .boolean => [many .values]
  | .binary => [one .left, one .right]
  | .unary => [one .operand]
  | .lambda => [one .args, one .body]
  | .choice => [one .body, one .test, one .orElse]
  | .dict => [many .keys, many .values]
  | .set => [many .elements]
  | .clause => [one .target, one .iterable, many .conditions]
  | .listComprehension => [one .element, many .generators]
  | .setComprehension => [one .element, many .generators]
  | .dictComprehension => [one .key, one .value, many .generators]
  | .generator => [one .element, many .generators]
  | .yield => [one .value]
  | .comparison => [one .left, many .comparators]
  | .keyword => [one .argument, one .value]
  | .call => [
    one .function, many .args, many .keywords, one .starArgument, one .doubleStarArgument]
  | .backquoted => [one .value]
  | .number => []
  | .string => []
  | .member => [one .value, one .member]
  | .subscript => [one .value, one .slice]
  | .slice => [one .lower, one .upper, one .step]
  | .ellipsis => []
  | .name => []
  | .list => [many .elements]
  | .tuple => [many .elements]

theorem NodeKind.mem_all (kind : NodeKind) : kind ∈ NodeKind.all := by
  cases kind <;> decide

end TolerantParser
