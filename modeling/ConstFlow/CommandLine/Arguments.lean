import ConstFlow.Program.Samples

/-! # Arguments of the command line

Options and the one operand come in any order. The value of an option follows it or is
attached with `=`, short options may be run together, and after `--` every argument is an
operand. Arguments are judged from left to right: the first that is out of place decides,
unless a request for help or for the version comes before it.
-/
namespace ConstFlow.CommandLine

inductive UsageError where
  | unexpected (arg : String)
  | repeated (option : String)
  | missingValue (option : String)
  | invalidValue (option value : String)
  | missingProgram
  deriving DecidableEq, Repr

def UsageError.message : UsageError → String
  | unexpected arg => s!"unexpected argument '{arg}' found"
  | repeated option => s!"the argument '{option}' cannot be used multiple times"
  | missingValue option => s!"a value is required for '{option}' but none was supplied"
  | invalidValue option value => s!"invalid value '{value}' for '{option}'"
  | missingProgram => "the required argument <PROGRAM> was not provided"

structure Options where
  program : Sample
  maxIterations : Nat
  showGraph : Bool
  verbosity : Nat
  deriving DecidableEq, Repr

inductive Request where
  | run (o : Options)
  | help
  | version
  deriving DecidableEq, Repr

/-- What the arguments read so far have settled. -/
structure Settled where
  program : Option Sample := none
  maxIterations : Option Nat := none
  showGraph : Bool := false
  verbosity : Nat := 0

/-- A number below `2 ^ 64` in decimal digits, after a plus sign or not. -/
def limit? (s : String) : Option Nat :=
  let digits := match s.toList with
    | '+' :: rest => rest
    | cs => cs
  let n := digits.foldl (fun acc c => 10 * acc + (c.toNat - '0'.toNat)) 0
  if !digits.isEmpty && digits.all (fun c => '0' ≤ c && c ≤ '9') && n < UInt64.size then some n
  else none

namespace Settled

def setProgram (s : Settled) (arg : String) : Except UsageError Settled :=
  match s.program, Sample.ofName? arg with
  | some _, _ => .error (.unexpected arg)
  | none, none => .error (.invalidValue "<PROGRAM>" arg)
  | none, some p => .ok { s with program := some p }

def setLimit (s : Settled) (value : String) : Except UsageError Settled :=
  match limit? value, s.maxIterations with
  | none, _ => .error (.invalidValue "--max-iterations" value)
  | some _, some _ => .error (.repeated "--max-iterations")
  | some n, none => .ok { s with maxIterations := some n }

def setGraph (s : Settled) : Except UsageError Settled :=
  if s.showGraph then .error (.repeated "--cfg") else .ok { s with showGraph := true }

def moreVerbose (s : Settled) : Settled := { s with verbosity := s.verbosity + 1 }

def request (defaultLimit : Nat) (s : Settled) : Except UsageError Request :=
  match s.program with
  | none => .error .missingProgram
  | some p => .ok (.run ⟨p, s.maxIterations.getD defaultLimit, s.showGraph, s.verbosity⟩)

/-- Reads short options that are run together. -/
def shortOptions (s : Settled) (arg : String) : List Char → Except UsageError (Settled ⊕ Request)
  | [] => .ok (.inl s)
  | 'v' :: rest => s.moreVerbose.shortOptions arg rest
  | 'h' :: _ => .ok (.inr .help)
  | 'V' :: _ => .ok (.inr .version)
  | _ :: _ => .error (.unexpected arg)

end Settled

inductive Argument where
  | endOfOptions
  | long (name : String) (value : Option String)
  | short (options : List Char)
  | operand
  deriving DecidableEq, Repr

def Argument.of (arg : String) : Argument :=
  match arg.toList with
  | ['-', '-'] => .endOfOptions
  | '-' :: '-' :: cs =>
    let value := match cs.dropWhile (· ≠ '=') with
      | [] => none
      | _ :: v => some (String.ofList v)
    .long (String.ofList (cs.takeWhile (· ≠ '='))) value
  | '-' :: c :: cs => .short (c :: cs)
  | _ => .operand

/-- Reads arguments that can only be operands. -/
def operands (s : Settled) (args : List String) : Except UsageError Settled :=
  args.foldlM Settled.setProgram s

/-- Reads arguments after what is settled. -/
def requestFrom (defaultLimit : Nat) (s : Settled) : List String → Except UsageError Request
  | [] => s.request defaultLimit
  | arg :: rest =>
    match Argument.of arg with
    | .endOfOptions => do
      let t ← operands s rest
      t.request defaultLimit
    | .long "help" none => .ok .help
    | .long "version" none => .ok .version
    | .long "cfg" none => do
      let t ← s.setGraph
      requestFrom defaultLimit t rest
    | .long "verbose" none => requestFrom defaultLimit s.moreVerbose rest
    | .long "max-iterations" (some value) => do
      let t ← s.setLimit value
      requestFrom defaultLimit t rest
    | .long "max-iterations" none =>
      match rest with
      | [] => .error (.missingValue arg)
      | value :: rest =>
        match Argument.of value with
        | .operand => do
          let t ← s.setLimit value
          requestFrom defaultLimit t rest
        | _ => .error (.missingValue arg)
    | .long _ _ => .error (.unexpected arg)
    | .short options =>
      match s.shortOptions arg options with
      | .ok (.inl t) => requestFrom defaultLimit t rest
      | .ok (.inr r) => .ok r
      | .error e => .error e
    | .operand => do
      let t ← s.setProgram arg
      requestFrom defaultLimit t rest

end ConstFlow.CommandLine
