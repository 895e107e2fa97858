import TolerantParser.Dialect.Basic

/-!
Where the dialects differ beyond their words: one switch for each construct.

Embeds `GrammarFeatures` and `_features`.
-/

namespace TolerantParser

/-- Which constructs a dialect has. -/
structure Features where
  conditionalExpressions : Bool
  withStatement : Bool
  unifiedTry : Bool
  relativeImports : Bool
  yieldExpressions : Bool
  emptyClassBases : Bool
  exceptAs : Bool
  exceptComma : Bool
  classDecorators : Bool
  tupleParameters : Bool
  tupleComprehensionIterables : Bool
  keywordOnlyArguments : Bool
  annotations : Bool
  raiseFrom : Bool
  raiseWithArguments : Bool
  setLiterals : Bool
  setDictComprehensions : Bool
  letterOctal : Bool
  binaryLiterals : Bool
  zeroOctal : Bool
  longSuffix : Bool
  unicodeIdentifiers : Bool
  deriving DecidableEq, Repr

/-- The constructs of a dialect. What 3.0 takes away is written as not yet being 3.0. -/
def Dialect.features (d : Dialect) : Features :=
  let since25 := d.since .v25
  let since26 := d.since .v26
  let since30 := d.since .v30
  { conditionalExpressions := since25
    withStatement := since25
    unifiedTry := since25
    relativeImports := since25
    yieldExpressions := since25
    emptyClassBases := since25
    exceptAs := since26
    exceptComma := !since30
    classDecorators := since26
    tupleParameters := !since30
    tupleComprehensionIterables := !since30
    keywordOnlyArguments := since30
    annotations := since30
    raiseFrom := since30
    raiseWithArguments := !since30
    setLiterals := since30
    setDictComprehensions := since30
    letterOctal := since26
    binaryLiterals := since26
    zeroOctal := !since30
    longSuffix := !since30
    unicodeIdentifiers := since30 }

/-- Every switch with the name listings show for it. -/
def Features.entries (f : Features) : List (String × Bool) := [
  ("conditional_expressions", f.conditionalExpressions),
  ("with_statement", f.withStatement),
  ("unified_try", f.unifiedTry),
  ("relative_imports", f.relativeImports),
  ("yield_expressions", f.yieldExpressions),
  ("empty_class_bases", f.emptyClassBases),
  ("except_as", f.exceptAs),
  ("except_comma", f.exceptComma),
  ("class_decorators", f.classDecorators),
  ("tuple_parameters", f.tupleParameters),
  ("tuple_comprehension_iterables", f.tupleComprehensionIterables),
  ("keyword_only_arguments", f.keywordOnlyArguments),
  ("annotations", f.annotations),
  ("raise_from", f.raiseFrom),
  ("raise_with_arguments", f.raiseWithArguments),
  ("set_literals", f.setLiterals),
  ("set_dict_comprehensions", f.setDictComprehensions),
  ("octal_o_prefix", f.letterOctal),
  ("binary_literals", f.binaryLiterals),
  ("legacy_octal", f.zeroOctal),
  ("long_suffix", f.longSuffix),
  ("unicode_identifiers", f.unicodeIdentifiers)]

end TolerantParser
