import ScriptC.Compilation
import ScriptC.Text.Quoted
import ScriptC.Tree.Decoding

/-! # Command line

Compile a tree and show the stages of its compilation.
-/

namespace ScriptC

/-- What to do with a tree. -/
structure Request where
  /-- The file with the tree; standard input if there is none. -/
  input : Option String := none
  printIr : Bool := false
  printCfg : Bool := false
  printDom : Bool := false
  emitC : Bool := false
  /-- The file that the C is written to. -/
  output : Option String := none
  stem : Option String := none
  noPreamble : Bool := false
  stats : Bool := false
deriving DecidableEq, Repr

/-- What the arguments ask for. -/
inductive Invocation where
  | compile (r : Request)
  | help
  | version
  | misuse
deriving DecidableEq, Repr

namespace Request

/-- Set a switch, which may be given once. -/
def setSwitch? (r : Request) : String → Option Request
  | "print-ir" => if r.printIr then none else some { r with printIr := true }
  | "print-cfg" => if r.printCfg then none else some { r with printCfg := true }
  | "print-dom" => if r.printDom then none else some { r with printDom := true }
  | "emit-c" => if r.emitC then none else some { r with emitC := true }
  | "no-preamble" => if r.noPreamble then none else some { r with noPreamble := true }
  | "stats" => if r.stats then none else some { r with stats := true }
  | _ => none

def takesValue (name : String) : Bool := name == "output" || name == "prefix"

/-- Set an option with a value, which may be given once. -/
def setOption? (r : Request) (name value : String) : Option Request :=
  match name with
  | "output" => if r.output.isSome then none else some { r with output := some value }
  | "prefix" => if r.stem.isSome then none else some { r with stem := some value }
  | _ => none

def setInput? (r : Request) (path : String) : Option Request :=
  if r.input.isSome then none else some { r with input := some path }

end Request

namespace Invocation

/-- One argument, taken apart. -/
inductive Arg where
  | long (name : String) (value : Option String)
  | short (letters : List Char)
  /-- The rest of the arguments are no options. -/
  | divider
  | positional (text : String)
deriving DecidableEq, Repr

def Arg.ofString (s : String) : Arg :=
  match s.toList with
  | ['-', '-'] => divider
  | '-' :: '-' :: cs =>
    let name := cs.takeWhile (· != '=')
    match cs.drop name.length with
    | _ :: value => long (String.ofList name) (some (String.ofList value))
    | [] => long (String.ofList name) none
  | '-' :: c :: cs => short (c :: cs)
  | _ => positional s

/-- A text that can stand as the value of an option. -/
def isValue (s : String) : Bool :=
  match Arg.ofString s with
  | .positional _ => true
  | _ => false

/-- The value of an option that is written in the same argument. -/
def attached : List Char → String
  | '=' :: value => String.ofList value
  | value => String.ofList value

/-- How the next argument is read. -/
inductive Mode where
  | free
  /-- As the value of an option. -/
  | value (name : String)
  /-- As the input, whatever it looks like. -/
  | positional
deriving DecidableEq, Repr

def accept (mode : Mode) : Option Request → Except Invocation (Request × Mode)
  | some r => .ok (r, mode)
  | none => .error misuse

/-- Read one argument, unless it settles what to do. -/
def step (r : Request) (mode : Mode) (arg : String) : Except Invocation (Request × Mode) :=
  match mode, Arg.ofString arg with
  | .positional, _ => accept .positional (r.setInput? arg)
  | .value name, _ => if isValue arg then accept .free (r.setOption? name arg) else .error misuse
  | .free, .divider => .ok (r, .positional)
  | .free, .positional path => accept .free (r.setInput? path)
  | .free, .long "help" none => .error help
  | .free, .long "version" none => .error version
  | .free, .long name (some value) => accept .free (r.setOption? name value)
  | .free, .long name none =>
    if Request.takesValue name then .ok (r, .value name) else accept .free (r.setSwitch? name)
  | .free, .short ('h' :: _) => .error help
  | .free, .short ('V' :: _) => .error version
  | .free, .short ['o'] => .ok (r, .value "output")
  | .free, .short ('o' :: value) => accept .free (r.setOption? "output" (attached value))
  | .free, .short _ => .error misuse

/-- Read the arguments from the left. -/
def read (r : Request) (mode : Mode) : List String → Invocation
  | [] =>
    match mode with
    | .value _ => misuse
    | _ => compile r
  | arg :: rest =>
    match step r mode arg with
    | .ok (r, mode) => read r mode rest
    | .error done => done

def ofArgs (args : List String) : Invocation := read {} .free args

end Invocation

/-- A record with named fields. -/
def recordText (name : String) (fields : List String) : String :=
  name ++ " \x7b " ++ String.intercalate ", " fields ++ " \x7d"

/-- The error as a record with its fields. -/
def CompileError.record : CompileError → String
  | unimplemented f => recordText "Unimplemented" ["feature: " ++ Text.quoted f.text]
  | unterminatedBlock p b => recordText "UnterminatedBlock" [s!"proc: {p}", s!"block: {b}"]
  | invalidOperand p r =>
    recordText "InvalidOperand" [s!"proc: {p}", "reason: " ++ Text.quoted r.text]
  | unexpectedOpcode op =>
    recordText "UnexpectedOpcode"
      ["opcode: " ++ Text.quoted op.name, "stage: " ++ Text.quoted "assignment"]
  | unknownSymbol id => recordText "UnknownSymbol" [s!"id: {id}"]
  | host f => recordText "Host" ["reason: " ++ Text.quoted f.text]

/-- Why a run failed. -/
inductive RunError where
  | unreadableTree
  | refused (error : CompileError)
  | stopped (breach : Breach)
deriving DecidableEq, Repr

/-- What a run writes. -/
structure Output where
  stdout : String := ""
  stderr : String := ""
  /-- The contents of the output file, if one was asked for. -/
  file : Option String := none
deriving DecidableEq, Repr

namespace Request

def options (r : Request) : Options :=
  let base : Options := {}
  let named := match r.stem with
    | some stem => base.withStem stem
    | none => base
  if r.noPreamble then named.withoutPreamble else named

/-- The control flow of a proc, as far as it was asked for. -/
def flowText (r : Request) (p : Proc) : String :=
  match p.flow with
  | none => ""
  | some flow =>
    (if r.printCfg then s!"CFG for Proc%{p.id}\n" ++ flow.graph.text else "") ++
    (if r.printDom then s!"Dominators for Proc%{p.id}\n" ++ flow.dominators.text else "")

/-- Run a request on the text of a tree. -/
def run (r : Request) (text : String) : Except RunError Output := do
  let some tree := Tree.read? text | .error .unreadableTree
  let outcome := tree.compile r.options {} Host.root {}
  match outcome.result with
  | .error (.refused e) => .error (.refused e)
  | .error (.stopped b) => .error (.stopped b)
  | .ok compiled =>
    let ir ← if r.printIr then compiled.module.listing.mapError .stopped else pure ""
    let flows := String.join (compiled.module.procs.toList.map r.flowText)
    let c := compiled.unit.source
    return {
      stdout := ir ++ flows ++ (if r.emitC then c else "")
      stderr := if r.stats then outcome.stats.report else ""
      file := if r.output.isSome then some c else none }

end Request

def versionText : String := "ravel-dump 0.1.0\n"

def helpText : String := String.join ([
  "Compile a typed syntax tree and dump IR, CFG and C",
  "",
  "Usage: ravel-dump [OPTIONS] [INPUT]",
  "",
  "Arguments:",
  "  [INPUT]  JSON syntax tree; stdin when omitted",
  "",
  "Options:",
  "      --print-ir         Print the linearized IR",
  "      --print-cfg        Print the control flow graph of every proc",
  "      --print-dom        Print the immediate dominators of every proc",
  "      --emit-c           Print the generated C unit",
  "  -o, --output <FILE>    Write the generated C unit to a file",
  "      --prefix <PREFIX>  Prefix of generated function names [default: ravel_proc_]",
  "      --no-preamble      Leave the C preamble out of the unit",
  "      --stats            Print session statistics to stderr",
  "  -h, --help             Print help",
  "  -V, --version          Print version"].map (· ++ "\n"))

end ScriptC
