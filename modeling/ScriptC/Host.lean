import ScriptC.Failure
import ScriptC.Proc
import ScriptC.Text
import ScriptC.Text.Utf8

/-! # Hosts

The runtime owns one prototype for each function, and compiles the generated C. A host keeps the
prototypes as they were set up, and a record of every request that it granted.
-/

namespace ScriptC

structure Prototype where
  parent : Option Nat := none
  children : List Nat := []
  strings : List String := []
  upvalues : List Upvalue := []
  params : Nat := 0
  slots : Nat := 0
  /-- The compiled function attached to the prototype. -/
  function : Option String := none
deriving DecidableEq, Repr, Inhabited

inductive HostEvent where
  | newChild (parent child : Nat)
  | internString (proto : Nat) (value : String) (index : Nat)
  | declareUpvalue (proto : Nat) (upvalue : Upvalue)
  | setParams (proto count : Nat)
  | setSlots (proto slots : Nat)
  | compile (bytes : Nat)
  | lookup (name : String)
  | attach (proto : Nat) (function : String)
deriving DecidableEq, Repr

structure Host where
  /-- The first is the prototype of the main function. -/
  prototypes : Array Prototype := #[{}]
  events : Array HostEvent := #[]
  /-- The C that was compiled last. -/
  source : Option String := none
  /-- Why every attempt to compile C fails. -/
  refusal : Option String := none
deriving DecidableEq, Repr, Inhabited

namespace Host

variable (h : Host)

def root : Nat := 0

def record (e : HostEvent) : Host := { h with events := h.events.push e }

/-- Change a prototype and record the request. -/
def update (proto : Nat) (f : Prototype → Prototype) (e : HostEvent) : Except HostFault Host :=
  if proto < h.prototypes.size then
    .ok (record { h with prototypes := h.prototypes.modify proto f } e)
  else .error (.unknownPrototype proto)

/-- Create the prototype of the next function nested in `parent`. -/
def newChild (parent : Nat) : Except HostFault (Host × Nat) := do
  let child := h.prototypes.size
  let h ← h.update parent (fun p => { p with children := p.children ++ [child] })
    (.newChild parent child)
  return ({ h with prototypes := h.prototypes.push { parent := some parent } }, child)

/-- The index of a string among the constants of a prototype, added if it is new. -/
def internString (proto : Nat) (value : String) : Except HostFault (Host × Nat) := do
  let strings := (h.prototypes.getD proto {}).strings
  match strings.idxOf? value with
  | some index => return (← h.update proto id (.internString proto value index), index)
  | none =>
    let index := strings.length
    return (← h.update proto (fun p => { p with strings := p.strings ++ [value] })
      (.internString proto value index), index)

def declareUpvalue (proto : Nat) (u : Upvalue) : Except HostFault Host :=
  h.update proto (fun p => { p with upvalues := p.upvalues ++ [u] }) (.declareUpvalue proto u)

def setParams (proto count : Nat) : Except HostFault Host :=
  h.update proto (fun p => { p with params := count }) (.setParams proto count)

def setSlots (proto slots : Nat) : Except HostFault Host :=
  h.update proto (fun p => { p with slots }) (.setSlots proto slots)

def attach (proto : Nat) (function : String) : Except HostFault Host :=
  h.update proto (fun p => { p with function := some function }) (.attach proto function)

/-- Compile a complete unit of C. -/
def compile (source : String) : Except HostFault Host :=
  match h.refusal with
  | some reason => .error (.compileFailed reason)
  | none => .ok (record { h with source := some source } (.compile source.utf8ByteSize))

/-- How the definition of a function starts. -/
def definition (name : String) : String := s!"int {name}(ravel_State *L)"

/-- Whether compiled C defines a function. The request is recorded in either case. -/
def lookup (source name : String) : Host × Except HostFault Unit :=
  (h.record (.lookup name),
    if Text.contains (definition name).toList source.toList then .ok ()
    else .error (.functionNotFound name))

end Host

end ScriptC
