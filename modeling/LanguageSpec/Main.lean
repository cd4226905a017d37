import LanguageSpec.CommandLine

/-!
# Program

The command line on the file system of the machine.
-/

namespace LanguageSpec

/-- Whether an error code, which may come negated, is a given one. -/
def isCode (code given : UInt32) : Bool := code == given || code == 0 - given

/-- A fault of the machine's file system. -/
def FileFault.ofSystem : IO.Error → FileFault
  | .noFileOrDirectory .. => .missing
  | .inappropriateType _ code _ => if isCode code 21 then .isADirectory else .notADirectory
  | .invalidArgument _ code text => if isCode code 36 then .nameTooLong else .other text
  | e => .other (toString e)

/-- Does something with a path that the machine can be asked for. -/
def attempt {α : Type} (path : String) (act : IO α) : IO (Except FileFault α) := do
  if path.contains '\x00' then
    return .error .nullInName
  try
    return .ok (← act)
  catch e =>
    return .error (.ofSystem e)

def systemFiles : Files IO where
  read path := attempt path (IO.FS.readBinFile path)
  write path text := attempt path (IO.FS.writeFile path text)

end LanguageSpec

def main (arguments : List String) : IO UInt32 := do
  let c ← LanguageSpec.CommandLine.run LanguageSpec.systemFiles arguments
  for line in c.messages do
    IO.eprintln line
  IO.print c.output
  return UInt32.ofNat c.code
