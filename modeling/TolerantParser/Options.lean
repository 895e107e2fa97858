import TolerantParser.Text.Integer

/-!
Options of a parse, and reading them from the environment.

Embeds `ParseOptions` and `from_environ`.
-/

namespace TolerantParser

/-- How far the search for the end of a block looks, unless told otherwise. -/
def defaultDedentBudget : Nat := 50

/-- Options of a parse. `trace` keeps a log of repairs, `onDemand` reads tokens only when they are
needed, and `dedentBudget` bounds how many tokens the search for the end of a block looks at. -/
structure ParseOptions where
  trace : Bool
  onDemand : Bool
  dedentBudget : Nat
  budget_pos : 0 < dedentBudget := by decide
  deriving DecidableEq, Repr

/-- Why options were refused. -/
inductive OptionsError where
  | budgetTooSmall
  | budgetUnreadable (cause : IntegerError)
  deriving DecidableEq, Repr

def OptionsError.message : OptionsError → String
  | .budgetTooSmall => "dedent_search_budget must be at least 1"
  | .budgetUnreadable cause => cause.message

namespace ParseOptions

def default : ParseOptions := { trace := false, onDemand := false, dedentBudget := defaultDedentBudget }

def make? (trace onDemand : Bool) (budget : Int) : Except OptionsError ParseOptions :=
  if h : 0 < budget.toNat then .ok { trace, onDemand, dedentBudget := budget.toNat, budget_pos := h }
  else .error .budgetTooSmall

/-- Words that switch a flag on, in any case of letters. -/
def isTruthy (text : String) : Bool :=
  ["1", "true", "yes", "on"].contains (String.ofList (text.toList.map Char.toLower))

/-- The names that the environment is asked for. -/
def traceKey : String := "LENIENTPY_TRACE_RECOVERY"

def onDemandKey : String := "LENIENTPY_NAIVE_TOKEN_STREAM"

def budgetKey : String := "LENIENTPY_DEDENT_BUDGET"

def keys : List String := [traceKey, onDemandKey, budgetKey]

/-- The flags that the environment sets. A budget that is not set, or set to nothing, is the usual
one. -/
def ofEnvironment? (lookup : String → Option String) : Except OptionsError ParseOptions :=
  let trace := ((lookup traceKey).map isTruthy).getD false
  let onDemand := ((lookup onDemandKey).map isTruthy).getD false
  match lookup budgetKey with
  | none => make? trace onDemand defaultDedentBudget
  | some text =>
    if text.isEmpty then make? trace onDemand defaultDedentBudget
    else match readInteger text with
      | .ok budget => make? trace onDemand budget
      | .error cause => .error (.budgetUnreadable cause)

end ParseOptions

end TolerantParser
