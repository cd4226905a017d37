/-!
# Journal records

What a run reports about itself on the way, besides its result.
-/

namespace LanguageSpec

namespace Journal

inductive Level where
  | trace
  | debug
  | info
deriving DecidableEq, Repr

def Level.name : Level → String
  | .trace => "TRACE"
  | .debug => "DEBUG"
  | .info => "INFO"

structure Record where
  level : Level
  text : String
deriving DecidableEq, Repr

def trace (text : String) : Record := ⟨.trace, text⟩

def debug (text : String) : Record := ⟨.debug, text⟩

def info (text : String) : Record := ⟨.info, text⟩

/-- A record as one line, its level first. -/
def Record.line (r : Record) : String := s!"{r.level.name} {r.text}"

end Journal

end LanguageSpec
