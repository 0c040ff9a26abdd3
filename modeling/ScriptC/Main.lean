import ScriptC.CommandLine

/-! # The program -/

namespace ScriptC

/-- Run a request and write what it gives. -/
def Request.perform (r : Request) : IO UInt32 := do
  let text ← match r.input with
    | some path => IO.FS.readFile path
    | none => (← IO.getStdin).readToEnd
  match r.run text with
  | .ok out =>
    IO.print out.stdout
    if let (some path, some contents) := (r.output, out.file) then
      IO.FS.writeFile path contents
    IO.eprint out.stderr
    return 0
  | .error .unreadableTree =>
    IO.eprintln "Error: Json"
    return 1
  | .error (.refused e) =>
    IO.eprintln s!"Error: {e.record}"
    return 1
  | .error (.stopped b) =>
    IO.eprintln (b.message?.getD "contract broken")
    return 101

def Invocation.perform : Invocation → IO UInt32
  | help => do
    IO.print helpText
    return 0
  | version => do
    IO.print versionText
    return 0
  | misuse => do
    IO.eprintln "Usage: ravel-dump [OPTIONS] [INPUT]"
    return 2
  | compile r => r.perform

end ScriptC

def main (args : List String) : IO UInt32 := (ScriptC.Invocation.ofArgs args).perform
