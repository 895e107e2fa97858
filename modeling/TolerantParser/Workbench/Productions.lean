import TolerantParser.Parser.Statement.Basic

/-!
The productions of the grammar, to be run one at a time.
-/

namespace TolerantParser

/-- What a production gives. -/
inductive Product where
  | node (made : Node)
  | nodes (made : List Node)
  | suite (made : Suite)
  | parsed (made : Parsed)

namespace Product

/-- The nodes that a production gave. -/
def all : Product → List Node
  | .node made => [made]
  | .nodes made => made
  | .suite made => made.body
  | .parsed made => made.nodes

end Product

/-- A production of the grammar. -/
inductive Production where
  | name
  | dottedName
  | testList
  | exprList
  | unconditionalTest
  | testListOrYield
  | testOrYield
  | test
  | orTest
  | andTest
  | notTest
  | comparison
  | expr
  | xorExpr
  | andExpr
  | shiftExpr
  | sumExpr
  | term
  | factor
  | power
  | atomWithTrailers
  | atom
  | subscriptList
  | subscriptItem
  | parenthesized
  | listDisplay
  | braceDisplay
  | parameter
  | lambda
  | yieldExpression
  | simpleStatement
  | smallStatement
  | expressionStatement
  | printStatement
  | deleteStatement
  | passStatement
  | breakStatement
  | continueStatement
  | returnStatement
  | raiseStatement
  | globalStatement
  | nonlocalStatement
  | execStatement
  | assertStatement
  | yieldStatement
  | importStatement
  | dottedAlias
  | importFromStatement
  | nameAlias
  | document
  | statement
  | anyStatement
  | unexpectedBlock
  | suite
  | block
  | conditional
  | whileLoop
  | forLoop
  | tryBlock
  | withBlock
  | function
  | classBody
  | signature
  | decorated
  | decorator
  deriving DecidableEq, Repr

namespace Parser

private def givesNode (steps : ParseM Node) : ParseM Product := .node <$> steps

private def givesNodes (steps : ParseM (List Node)) : ParseM Product := .nodes <$> steps

/-- Runs a production at the cursor. -/
def runProduction (inner : Inner) (production : Production) : ParseM Product :=
  let e := inner.e
  match production with
  | .name => givesNode (name none)
  | .dottedName => givesNodes dottedName
  | .testList => givesNode (testList (e.test true))
  | .exprList => givesNode (exprList e)
  | .unconditionalTest => givesNode (e.test false)
  | .testListOrYield => givesNode (testListOrYield e)
  | .testOrYield => givesNode (yieldOr e (e.test true))
  | .test => givesNode (e.test true)
  | .orTest => givesNode (orTest e)
  | .andTest => givesNode (andTest e)
  | .notTest => givesNode (notTest e)
  | .comparison => givesNode (comparison e)
  | .expr => givesNode (expr e)
  | .xorExpr => givesNode (binaryChain (factor e) (binaryLevels.drop 1))
  | .andExpr => givesNode (binaryChain (factor e) (binaryLevels.drop 2))
  | .shiftExpr => givesNode (binaryChain (factor e) (binaryLevels.drop 3))
  | .sumExpr => givesNode (binaryChain (factor e) (binaryLevels.drop 4))
  | .term => givesNode (binaryChain (factor e) (binaryLevels.drop 5))
  | .factor => givesNode (factor e)
  | .power => givesNode (power e)
  | .atomWithTrailers => givesNode (atomWithTrailers e)
  | .atom => givesNode (atom e)
  | .subscriptList => givesNode (subscriptList e)
  | .subscriptItem => givesNode (subscriptItem e)
  | .parenthesized => givesNode (parenthesized e)
  | .listDisplay => givesNode (listDisplay e)
  | .braceDisplay => givesNode (braceDisplay e)
  | .parameter => givesNode (parameter e)
  | .lambda => givesNode (lambda e true)
  | .yieldExpression => givesNode (yieldExpression e)
  | .simpleStatement => givesNodes (simpleStatement e)
  | .smallStatement => givesNode (smallStatement e)
  | .expressionStatement => givesNode (expressionStatement e)
  | .printStatement => givesNode (printStatement e)
  | .deleteStatement => givesNode (deleteStatement e)
  | .passStatement => givesNode (wordStatement .pass)
  | .breakStatement => givesNode (wordStatement .break)
  | .continueStatement => givesNode (wordStatement .continue)
  | .returnStatement => givesNode (returnStatement e)
  | .raiseStatement => givesNode (raiseStatement e)
  | .globalStatement => givesNode (namesStatement .global)
  | .nonlocalStatement => givesNode (namesStatement .nonlocal)
  | .execStatement => givesNode (execStatement e)
  | .assertStatement => givesNode (assertStatement e)
  | .yieldStatement => givesNode (yieldStatement e)
  | .importStatement => givesNode importStatement
  | .dottedAlias => givesNode (imported dottedName)
  | .importFromStatement => givesNode importFromStatement
  | .nameAlias => givesNode (imported (return [← name none]))
  | .document => givesNode (document inner)
  | .statement => .parsed <$> guardedStatement inner
  | .anyStatement => .parsed <$> anyStatement inner
  | .unexpectedBlock => .parsed <$> unexpectedBlock inner
  | .suite => .suite <$> suite inner
  | .block => .suite <$> block inner
  | .conditional => givesNode (conditional inner)
  | .whileLoop => givesNode (whileLoop inner)
  | .forLoop => givesNode (forLoop inner)
  | .tryBlock => givesNode (tryBlock inner)
  | .withBlock => givesNode (withBlock inner)
  | .function => givesNode (compoundForm inner .function)
  | .classBody => givesNode (compoundForm inner .classBody)
  | .signature => givesNode (signature e)
  | .decorated => givesNode (decorated inner)
  | .decorator => givesNode (decorator e)

end Parser

end TolerantParser
