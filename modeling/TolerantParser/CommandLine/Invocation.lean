import TolerantParser.CommandLine.Path
import TolerantParser.CommandLine.Settings

/-!
Reading the words of a command line: a command, then switches and one path in any order. A switch
may be cut short as long as one switch fits it, its value may stand behind `=` or be the next word,
and behind `--` no word is a switch.

Embeds how the reader of arguments that `build_parser` makes takes a command line apart, and what it says about one that
it refuses.
-/

namespace TolerantParser

/-- Why a command line was refused. -/
inductive UsageError where
  | noCommand
  | unknownCommand (word : String)
  | ambiguous (word : String)
  | unexpectedValue (value : String)
  | missingValue
  | badValue (value : String)
  | noPath
  | surplusWords
  deriving DecidableEq, Repr

def UsageError.message : UsageError → String
  | .noCommand => "a command is required"
  | .unknownCommand word => s!"unknown command {quoted word}"
  | .ambiguous word => s!"more than one switch fits {quoted word}"
  | .unexpectedValue value => s!"a switch without value was given {quoted value}"
  | .missingValue => "a switch needs a value"
  | .badValue value => s!"invalid value {quoted value}"
  | .noPath => "a path is required"
  | .surplusWords => "there are words that nothing takes"

/-- How a command line ends before there is anything to run. -/
inductive Refusal where
  | help
  | usage (cause : UsageError)
  deriving DecidableEq, Repr

/-- What a word of the command line is. A switch may have a value attached to it. -/
inductive Word where
  | operand (text : String)
  | known (action : SwitchAction) (attached : Option String)
  | unknown
  | separator

/-- Cuts a word at its first `=`. -/
def cutValue (word : List Char) : String × Option String :=
  match word.span (· != '=') with
  | (name, []) => (String.ofList name, none)
  | (name, _ :: value) => (String.ofList name, some (String.ofList value))

/-- A minus and digits, with a point before the last of them or none. A line feed may follow. -/
def isNegativeNumber (word : List Char) : Bool :=
  let isDigit := fun c => (digitValue? c).isSome
  match word with
  | '-' :: rest =>
    let body := if rest.getLast? == some '\n' then rest.dropLast else rest
    let decimals := match body.dropWhile isDigit with
      | [] => body
      | '.' :: decimals => decimals
      | _ => []
    !decimals.isEmpty && decimals.all isDigit
  | _ => false

namespace Word

/-- A word with a minus in front that no switch fits: a negative number and a word with a space in
it are operands. -/
def unmatched (word : String) : Word :=
  if isNegativeNumber word.toList || word.toList.contains ' ' then .operand word else .unknown

/-- Every one of these letters is a switch, and there is one at least. -/
def areSwitches (switches : List Switch) (letters : List Char) : Bool :=
  !letters.isEmpty &&
    letters.all fun letter => switches.any fun s => s.name.toList == ['-', letter]

/-- A switch with what is attached to it. To a switch of one letter more of them may be attached;
the only one there is asks for help, so that the first of them decides. All else is a value. -/
def ofSwitch (switches : List Switch) (s : Switch) (attached : Option String) : Word :=
  .known s.action
    (attached.filter fun text => !(s.isLetter && areSwitches switches text.toList))

/-- Tells what a word is, before any `--`. -/
def ofText? (switches : List Switch) (word : String) : Except UsageError Word :=
  let find? (name : String) := switches.find? (·.name == name)
  let (name, attached) := cutValue word.toList
  match word.toList, find? name with
  | ['-', '-'], _ => .ok .separator
  | '-' :: _, some s => .ok (ofSwitch switches s attached)
  | '-' :: '-' :: _, none =>
    match switches.filter fun s => name.toList.isPrefixOf s.name.toList with
    | [] => .ok (unmatched word)
    | [s] => .ok (ofSwitch switches s attached)
    | _ => .error (.ambiguous word)
  | '-' :: letter :: tail, none =>
    match find? (String.ofList ['-', letter]) with
    | some s => .ok (ofSwitch switches s (some (String.ofList tail)))
    | none => .ok (unmatched word)
  | _, _ => .ok (.operand word)

/-- Tells what the words are. All behind `--` are operands. -/
def ofTexts? (switches : List Switch) : List String → Except UsageError (List Word)
  | [] => .ok []
  | text :: rest => do
    match ← ofText? switches text with
    | .separator => return .separator :: rest.map .operand
    | word => return word :: (← ofTexts? switches rest)

end Word

/-- What has been read of a command line: the path, the settings, and whether there were words that
nothing takes. -/
structure Reading where
  path : Option String
  settings : Settings
  surplus : Bool
  deriving DecidableEq, Repr

namespace Reading

def start (surplus : Bool) : Reading := { path := none, settings := {}, surplus }

/-- The first operand is the path. -/
def take (reading : Reading) (text : String) : Reading :=
  if reading.path.isNone then { reading with path := some text } else { reading with surplus := true }

def set (reading : Reading) (setting : Setting) : Reading :=
  { reading with settings := reading.settings.apply setting }

/-- Makes the setting that a value stands for. -/
def setValue (reading : Reading) (read? : String → Option Setting) (value : String) :
    Except Refusal Reading :=
  match read? value with
  | some setting => .ok (reading.set setting)
  | none => .error (.usage (.badValue value))

/-- Reads words from left to right; a request for help ends it. A separator belongs to the path that
stands directly before or behind it. -/
def read (reading : Reading) : List Word → Except Refusal Reading
  | [] => .ok reading
  | .known .help none :: _ => .error .help
  | .known (.sets setting) none :: rest => read (reading.set setting) rest
  | .known (.takes read?) (some value) :: rest => do read (← reading.setValue read? value) rest
  | .known (.takes read?) none :: .operand value :: rest => do
    read (← reading.setValue read? value) rest
  | .known (.takes _) none :: _ => .error (.usage .missingValue)
  | .known _ (some value) :: _ => .error (.usage (.unexpectedValue value))
  | .operand text :: .separator :: rest => read (reading.take text) rest
  | .operand text :: rest => read (reading.take text) rest
  | .separator :: .operand text :: rest => read (reading.take text) rest
  | .separator :: rest => read { reading with surplus := true } rest
  | .unknown :: rest => read { reading with surplus := true } rest

end Reading

/-- What is to be run: a command on a path. -/
structure Invocation where
  command : Command
  path : Path
  settings : Settings
  deriving DecidableEq, Repr

namespace Invocation

def ofReading? (command : Command) (reading : Reading) : Except Refusal Invocation :=
  match reading.path, reading.surplus with
  | none, _ => .error (.usage .noPath)
  | some _, true => .error (.usage .surplusWords)
  | some text, false => .ok { command, path := .ofText text, settings := reading.settings }

/-- Reads the words behind the command. They are all told apart before the first of them counts. -/
def ofArguments? (command : Command) (surplus : Bool) (texts : List String) :
    Except Refusal Invocation := do
  match Word.ofTexts? (Switch.ofCommand command) texts with
  | .error cause => throw (.usage cause)
  | .ok words => ofReading? command (← (Reading.start surplus).read words)

/-- Reads a command line. Unknown switches before the command are surplus words. -/
def ofWords? (surplus : Bool) : List String → Except Refusal Invocation
  | [] => .error (.usage .noCommand)
  | text :: rest =>
    match Word.ofText? Switch.general text with
    | .ok .unknown => ofWords? true rest
    | .ok (.known .help none) => .error .help
    | .ok (.known _ (some value)) => .error (.usage (.unexpectedValue value))
    | .ok (.operand name) =>
      match Command.ofName? name with
      | some command => ofArguments? command surplus rest
      | none => .error (.usage (.unknownCommand name))
    | .ok _ => .error (.usage .noCommand)
    | .error cause => .error (.usage cause)

/-- Reads the words of a command line. -/
def read (words : List String) : Except Refusal Invocation := ofWords? false words

end Invocation

end TolerantParser
