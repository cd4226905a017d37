import LanguageSpec.Files
import LanguageSpec.Frontend.Journal
import LanguageSpec.Frontend.Report

/-!
# Runs

A run reads a specification from a file, builds its front end, and may write a report.
-/

namespace LanguageSpec

inductive RunError where
  | unreadable (path : String) (fault : FileFault)
  | rejected (path : String) (error : Error)
  | uncreatable (path : String) (fault : FileFault)
deriving DecidableEq, Repr

namespace RunError

/-- What failed, and behind a colon why. -/
def message : RunError → String
  | .unreadable path fault => s!"cannot read specification {path}: {fault.message}"
  | .rejected path error => s!"in specification {path}: {error.message}"
  | .uncreatable path fault => s!"cannot create report {path}: {fault.message}"

def cause? : RunError → Option Error
  | .rejected _ error => some error
  | _ => none

end RunError

/-- The end of a run and the records on the way to it. -/
structure Run where
  result : Except RunError Frontend
  journal : List Journal.Record

namespace Run

variable {m : Type → Type} [Monad m]

def load (fs : Files m) (path : String) : m Run := do
  match ← fs.readText path with
  | .error fault => return ⟨.error (.unreadable path fault), []⟩
  | .ok text =>
    match Frontend.ofText text with
    | .ok f => return ⟨.ok f, Frontend.journal text⟩
    | .error e => return ⟨.error (.rejected path e), Frontend.journal text⟩

def reportPath (directory name : String) : String := joinPath directory (name ++ ".txt")

/-- Builds the front end of the specification in a file and writes the report on it. -/
def generate (fs : Files m) (spec directory name : String) (automata : Bool) : m Run := do
  let run ← load fs spec
  match run.result with
  | .error _ => return run
  | .ok f =>
    let path := reportPath directory name
    match ← fs.write path (f.report automata) with
    | .error fault => return { run with result := .error (.uncreatable path fault) }
    | .ok () =>
      return { run with journal := run.journal ++ [Journal.info s!"report written to {path}"] }

end Run

end LanguageSpec
