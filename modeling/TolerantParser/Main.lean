import TolerantParser.CommandLine.Run
import TolerantParser.CommandLine.Timing

/-!
The program: it reads its words, the environment and the files that a command needs, runs the
command, and writes what that leaves behind.

Embeds `main`, with the files that `_read_source` and `_collect_sources` read and the clock of `_run_once`.
-/

namespace TolerantParser.Program

def usage : String :=
  "usage: lenientpy COMMAND [SWITCH ...] PATH\n" ++
  "commands: " ++ ", ".intercalate (Command.all.map (·.name))

/-- The switches of a command on one line. -/
def switchLine (command : Command) : String :=
  command.name ++ ": " ++ " ".intercalate ((Switch.ofCommand command).map (·.name))

/-- The part of the environment that is looked at. -/
def environment : IO (String → Option String) := do
  let entries ← ParseOptions.keys.mapM fun key => do return (key, ← IO.getEnv key)
  return fun key => (entries.lookup key).join

def readBytes (path : String) : IO Bytes := do
  return (← IO.FS.readBinFile path).toList.map (·.toNat)

/-- The files below a directory that a benchmark may want. -/
partial def sourcesBelow (directory : String) (parts : List String) : IO (List FileEntry) := do
  let mut found : List FileEntry := []
  for entry in ← (← IO.FS.realPath directory).readDir do
    let name := entry.fileName
    let path := directory ++ "/" ++ name
    if ← entry.path.isDir then
      found := found ++ (← sourcesBelow path (parts ++ [name]))
    else if Benchmark.isSourceName name then
      found := { parts := parts ++ [name], bytes := ← readBytes path } :: found
  return found

/-- What stands at a path on the disk. -/
def look (path : Path) : IO Place := do
  try
    let place ← IO.FS.realPath path.text
    if ← place.isDir then return .directory (← sourcesBelow path.text [])
    else return .file (← readBytes path.text)
  catch _ => return .missing

/-- Computes a value and tells how long that took. -/
def timed {α : Type} (compute : Unit → α) : IO (Nat × α) := do
  let start ← IO.monoNanosNow
  let value ← IO.lazyPure compute
  let stop ← IO.monoNanosNow
  return (stop - start, value)

/-- Ends the program as a run ended. -/
def finish : Ending → IO UInt32
  | .code code => return code.toUInt32
  | .complaint text => do
    IO.eprintln text
    return 1
  | .failed cause => do
    IO.eprintln cause.message
    return 1

/-- Writes what a run left. -/
def write (report : Report) (elapsed : Nat) : IO UInt32 := do
  IO.eprint (report.diagnostics (millisecondsText elapsed))
  IO.print report.output
  finish report.ending

/-- One timed run, announced unless that is not wanted. -/
def measure (benchmark : Benchmark) (quiet : Bool) (label : String) (index count : Nat) :
    IO (Nat × Except Fault Tally) := do
  let measured ← timed fun _ => benchmark.run
  unless quiet do
    IO.eprintln s!"{label} {index + 1}/{count}: {millisecondsText measured.1}ms"
  return measured

/-- Measures the runs of a benchmark, and reports what they counted and their times. -/
def runBenchmark (benchmark : Benchmark) (quiet : Bool) : IO UInt32 := do
  for index in [0:benchmark.warmups] do
    let _ ← measure benchmark quiet "warmup" index benchmark.warmups
  let mut durations : List Nat := []
  for index in [0:benchmark.runs] do
    match ← measure benchmark quiet "run" index benchmark.runs with
    | (_, .error cause) => return ← finish (.failed (.fault cause))
    | (duration, .ok _) => durations := duration :: durations
  IO.print benchmark.report.output
  for line in timingLines benchmark.texts.length durations do IO.println line
  return 0

/-- Runs a command on the disk. -/
def run (invocation : Invocation) : IO UInt32 := do
  let environment ← environment
  let place ← look invocation.path
  match invocation.command with
  | .bench =>
    match Benchmark.prepare? invocation.settings environment invocation.path place with
    | .error ending => finish ending
    | .ok benchmark => runBenchmark benchmark invocation.settings.quiet
  | _ =>
    let (elapsed, report) ← timed fun _ => invocation.run environment place
    write report elapsed

/-- Runs a command line. -/
def start (words : List String) : IO UInt32 := do
  match Invocation.read words with
  | .ok invocation => run invocation
  | .error .help =>
    IO.println usage
    for command in Command.all do IO.println (switchLine command)
    return 0
  | .error (.usage cause) =>
    IO.eprintln usage
    IO.eprintln s!"lenientpy: error: {cause.message}"
    return 2

end TolerantParser.Program

def main (words : List String) : IO UInt32 := TolerantParser.Program.start words
