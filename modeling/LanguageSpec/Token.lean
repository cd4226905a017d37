import LanguageSpec.Position

/-!
# Tokens

A token is a piece of text with its kind and the place where it starts.
-/

namespace LanguageSpec

structure Token (κ : Type) where
  kind : κ
  text : String
  pos : Position
deriving DecidableEq, Repr

/-- The place just behind a token, counted in bytes. -/
def Token.stop {κ : Type} (t : Token κ) : Position := t.pos.right t.text.utf8ByteSize

end LanguageSpec
