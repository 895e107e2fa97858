import TolerantParser.CommandLine.Invocation
import TolerantParser.CommandLine.Report
import TolerantParser.Document
import TolerantParser.Text.Utf8

/-!
Benchmarks: the texts of a directory, parsed again and again.

Embeds `_collect_sources`, `_run_once` and `_cmd_bench`; threads and the progress bar are left out.
-/

namespace TolerantParser

/-- The text of a file. -/
def decodeFile (bytes : Bytes) : String := String.ofList (decodeUtf8 none bytes)

namespace Settings

/-- The dialect asked for. -/
def dialect? (settings : Settings) : Except RunError Dialect :=
  match settings.version with
  | .nothing => .ok .latest
  | .blank => .error .blankSetting
  | .value version => .ok (Dialect.choose (some version)).dialect

/-- The session that settings and the environment ask for. A flag set in either of them is on. -/
def session? (settings : Settings) (environment : String → Option String) :
    Except RunError Session := do
  let base ← (ParseOptions.ofEnvironment? environment).mapError .options
  let options := { base with
    trace := base.trace || settings.trace
    onDemand := base.onDemand || settings.onDemand }
  return { dialect := ← settings.dialect?, options }

end Settings

/-- Texts to be parsed in one session, and how often. -/
structure Benchmark where
  root : Path
  session : Session
  texts : List String
  runs : Nat
  warmups : Nat
  threads : Nat
  deriving DecidableEq, Repr

/-- What a run of a benchmark counts. -/
structure Tally where
  statements : Nat
  errors : Nat
  deriving DecidableEq, Repr

namespace Tally

def zero : Tally := { statements := 0, errors := 0 }

def add (a b : Tally) : Tally :=
  { statements := a.statements + b.statements, errors := a.errors + b.errors }

def ofDocument (document : Document) : Tally :=
  { statements := document.statements.length, errors := document.errors.length }

end Tally

namespace Benchmark

def isSourceName (name : String) : Bool := ".py".toList.isSuffixOf name.toList

/-- The files to be parsed, in the order of their paths. A file that is named itself counts,
whatever its name. -/
def sources : Place → List Bytes
  | .missing => []
  | .file bytes => [bytes]
  | .directory files =>
    let named := files.filter fun entry => entry.parts.getLast?.any isSourceName
    (named.mergeSort FileEntry.le).map (·.bytes)

/-- A count that was given, or the usual one. -/
def count? (usual : Int) : Given Int → Except RunError Int
  | .nothing => .ok usual
  | .blank => .error .blankSetting
  | .value count => .ok count

/-- No more files than a limit, if it is positive. -/
def limited (limit : Int) (files : List Bytes) : List Bytes :=
  if 0 < limit then files.take limit.toNat else files

/-- A benchmark of the files at `root`. At least one run is made, on at least one thread. -/
def ofFiles? (settings : Settings) (environment : String → Option String) (root : Path)
    (files : List Bytes) : Except RunError Benchmark := do
  let files := limited (← count? 0 settings.fileLimit) files
  let session ← settings.session? environment
  return {
    root, session
    texts := files.map decodeFile
    runs := (max (← count? 5 settings.runs) 1).toNat
    warmups := (← count? 1 settings.warmups).toNat
    threads := (max (← count? 1 settings.threads) 1).toNat }

/-- A benchmark of what stands at `root`, or how it ends at once. -/
def prepare? (settings : Settings) (environment : String → Option String) (root : Path)
    (place : Place) : Except Ending Benchmark :=
  match place, sources place with
  | .missing, _ => .error (.complaint s!"Invalid path: {root.text}")
  | _, [] => .error (.complaint s!"No .py files found under {root.text}")
  | _, files => (ofFiles? settings environment root files).mapError .failed

/-- One run over all texts. -/
def run (benchmark : Benchmark) : Except Fault Tally :=
  benchmark.texts.foldlM (fun tally text => do
    return tally.add (.ofDocument (← benchmark.session.parse text))) .zero

/-- What was measured, but for the times. -/
def summary (benchmark : Benchmark) (tally : Tally) : String :=
  s!"Dataset: {benchmark.root.text}\nGrammar: {benchmark.session.dialect.label}\n" ++
  s!"Files: {benchmark.texts.length}\nStatements: {tally.statements}\nErrors: {tally.errors}\n" ++
  s!"Runs: {benchmark.runs} (warmups={benchmark.warmups}, threads={benchmark.threads})\n"

end Benchmark

end TolerantParser
