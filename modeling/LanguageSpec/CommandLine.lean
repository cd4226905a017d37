import LanguageSpec.Run

/-!
# Command line

The options of the program and what it does with them. An option that takes a value has it behind
an equals sign, in the next argument or, in its short form, attached; short options can be joined.
-/

namespace LanguageSpec.CommandLine

structure Options where
  spec : String
  outputDir : Option String
  name : String
  debug : Bool
deriving DecidableEq, Repr

inductive Refusal where
  | help
  | usage
deriving DecidableEq, Repr

inductive Setting where
  | spec
  | outputDir
  | name
deriving DecidableEq, Repr

structure Draft where
  spec : Option String
  outputDir : Option String
  name : Option String
  debug : Bool
deriving DecidableEq, Repr

namespace Draft

def empty : Draft := ⟨none, none, none, false⟩

/-- Gives an option its value, once. A path must not be empty. -/
def assign (d : Draft) (s : Setting) (value : String) : Except Refusal Draft :=
  match s with
  | .spec =>
    if d.spec.isSome || value.isEmpty then .error .usage else .ok { d with spec := some value }
  | .outputDir =>
    if d.outputDir.isSome || value.isEmpty then .error .usage
    else .ok { d with outputDir := some value }
  | .name => if d.name.isSome then .error .usage else .ok { d with name := some value }

/-- Turns the debug mode on, once. -/
def enable (d : Draft) : Except Refusal Draft :=
  if d.debug then .error .usage else .ok { d with debug := true }

def options (d : Draft) : Except Refusal Options :=
  match d.spec with
  | some spec => .ok ⟨spec, d.outputDir, d.name.getD "minire", d.debug⟩
  | none => .error .usage

end Draft

/-! ## Arguments -/

/-- What an argument asks for besides the debug mode: nothing, an option to be set, whose value may
be left to the next argument, or something that ends the reading. -/
inductive Request where
  | nothing
  | set (setting : Setting) (value : Option String)
  | refuse (refusal : Refusal)
deriving DecidableEq, Repr

/-- An argument: how often it asks for the debug mode, and what it asks for after that. -/
structure Word where
  debugs : Nat
  request : Request
deriving DecidableEq, Repr

def shortSetting? (c : Char) : Option Setting :=
  if c = 's' then some .spec
  else if c = 'o' then some .outputDir
  else if c = 'n' then some .name
  else none

def longSetting? (name : String) : Option Setting :=
  if name = "spec" then some .spec
  else if name = "output-dir" then some .outputDir
  else if name = "name" then some .name
  else none

def attached? : List Char → Option String
  | [] => none
  | '=' :: cs => some (String.ofList cs)
  | cs => some (String.ofList cs)

def readShort (debugs : Nat) : List Char → Word
  | [] => ⟨debugs, .nothing⟩
  | c :: cs =>
    if c = 'd' then readShort (debugs + 1) cs
    else if c = 'h' then ⟨debugs, .refuse .help⟩
    else match shortSetting? c with
      | some s => ⟨debugs, .set s (attached? cs)⟩
      | none => ⟨debugs, .refuse .usage⟩

def readLong (cs : List Char) : Word :=
  let name := String.ofList (cs.takeWhile (· ≠ '='))
  let value :=
    match cs.dropWhile (· ≠ '=') with
    | [] => none
    | _ :: v => some (String.ofList v)
  match longSetting? name with
  | some s => ⟨0, .set s value⟩
  | none =>
    if value.isSome then ⟨0, .refuse .usage⟩
    else if name = "debug" then ⟨1, .nothing⟩
    else if name = "help" then ⟨0, .refuse .help⟩
    else ⟨0, .refuse .usage⟩

def readWord (argument : String) : Word :=
  match argument.toList with
  | '-' :: '-' :: cs => readLong cs
  | '-' :: c :: cs => readShort 0 (c :: cs)
  | _ => ⟨0, .refuse .usage⟩

/-- Whether an argument cannot be the value of the option in front of it. -/
def isOption (argument : String) : Bool :=
  match argument.toList with
  | '-' :: _ :: _ => true
  | _ => false

def enableTimes (d : Draft) : Nat → Except Refusal Draft
  | 0 => .ok d
  | n + 1 => do enableTimes (← d.enable) n

/-- Reads the arguments in order, of which the first that is refused decides. -/
def readAll (d : Draft) : List String → Except Refusal Draft
  | [] => .ok d
  | ["--"] => .ok d
  | argument :: rest => do
    let w := readWord argument
    let d ← enableTimes d w.debugs
    match w.request with
    | .nothing => readAll d rest
    | .refuse r => .error r
    | .set s (some value) => readAll (← d.assign s value) rest
    | .set s none =>
      match rest with
      | [] => .error .usage
      | value :: rest =>
        if isOption value then .error .usage else readAll (← d.assign s value) rest

def parse (arguments : List String) : Except Refusal Options := do
  (← readAll .empty arguments).options

/-! ## Running -/

def usage : String :=
  "Generate automata and an LL(1) parse table from a language specification\n\n" ++
    "Options:\n" ++
    "  -s, --spec <SPEC>              Path to the input specification file\n" ++
    "  -o, --output-dir <OUTPUT_DIR>  Directory to write the report into\n" ++
    "  -n, --name <NAME>              Name of the report file [default: minire]\n" ++
    "  -d, --debug                    Debug records and automata in the report\n" ++
    "  -h, --help                     Print help\n"

/-- How the program ends: its exit code, and what it prints to each stream. -/
structure Completion where
  code : Nat
  output : String
  messages : List String
deriving DecidableEq, Repr

variable {m : Type → Type} [Monad m]

def execute (fs : Files m) (o : Options) : m Completion := do
  let run ←
    match o.outputDir with
    | some directory => Run.generate fs o.spec directory o.name o.debug
    | none => Run.load fs o.spec
  let records := run.journal.filter fun r => o.debug && r.level != .trace
  let messages := records.map Journal.Record.line
  match run.result with
  | .ok f => return ⟨0, f.table.text, messages⟩
  | .error e => return ⟨1, "", messages ++ [s!"Error: {e.message}"]⟩

def run (fs : Files m) (arguments : List String) : m Completion := do
  match parse arguments with
  | .ok o => execute fs o
  | .error .help => return ⟨0, usage, []⟩
  | .error .usage => return ⟨2, "", [usage]⟩

end LanguageSpec.CommandLine
