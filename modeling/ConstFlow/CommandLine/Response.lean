import ConstFlow.CommandLine.Arguments
import ConstFlow.Constants.Propagation
import ConstFlow.Dataflow.Journal

/-! # Answering the command line

Constant propagation over a sample procedure, with the flow graph before the facts if it
is asked for. The exit code is zero for success, one for a failed analysis and two for
arguments that cannot be read.
-/
namespace ConstFlow.CommandLine

structure Response where
  code : Nat
  /-- What goes to standard output. -/
  output : String
  /-- What went wrong with the analysis, for standard error. -/
  failure : Option String := none
  /-- What else is told on standard error, line by line. -/
  notes : List String := []
  deriving DecidableEq, Repr

def helpText : String :=
  "Run constant propagation over a built-in procedure and print the IN and OUT facts of " ++
  "every CFG node\n\n" ++
  "Usage: cprop-demo [OPTIONS] <PROGRAM>\n\n" ++
  "Arguments:\n" ++
  "  <PROGRAM>  [possible values: straight, branch, loop, params]\n\n" ++
  "Options:\n" ++
  "      --max-iterations <MAX_ITERATIONS>  Worklist iteration limit [default: 100000]\n" ++
  "      --cfg                              Print the CFG before the facts\n" ++
  "  -v, --verbose...                       Log solver progress (-v for debug, -vv for trace)\n" ++
  "  -h, --help                             Print help\n" ++
  "  -V, --version                          Print version\n"

def versionText : String := "cprop-demo 0.1.0\n"

/-- Reports a failure with its cause. -/
def failureText (context cause : String) : String :=
  s!"Error: {context}\n\nCaused by:\n    {cause}\n"

def Options.levels (o : Options) : List Level :=
  match o.verbosity with
  | 0 => []
  | 1 => [.debug]
  | _ => [.debug, .trace]

def Options.settings (o : Options) : Settings :=
  { ConstantPropagation.settings with maxIterations := o.maxIterations }

def Options.respondOn (o : Options) (g : FlowGraph) : Response :=
  let a := ConstantPropagation.analysis o.settings
  let graph := if o.showGraph then g.text ++ "\n" else ""
  let notes := if o.levels.isEmpty then [] else
    ((a.journal g o.maxIterations).filter fun e => o.levels.contains e.level).map
      fun e => s!"[{e.level.name}] {e.text}"
  match a.solve g with
  | .ok r => { code := 0, output := graph ++ r.text Valuation.text g, notes := notes }
  | .error e =>
    { code := 1
      output := graph
      failure := some (failureText s!"analysing `{g.procedure.name}`" e.message)
      notes := notes }

def Options.respond (o : Options) : Response :=
  match o.program.procedure.flowGraph with
  | .ok g => o.respondOn g
  | .error e => { code := 1, output := "", failure := some s!"Error: {e.message}\n" }

def respond (args : List String) : Response :=
  match requestFrom ConstantPropagation.settings.maxIterations {} args with
  | .ok (.run o) => o.respond
  | .ok .help => { code := 0, output := helpText }
  | .ok .version => { code := 0, output := versionText }
  | .error e => { code := 2, output := "", notes := [s!"error: {e.message}"] }

end ConstFlow.CommandLine
