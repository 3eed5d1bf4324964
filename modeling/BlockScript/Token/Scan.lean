import BlockScript.Token.Lexeme

/-!
# Scanning

`Token.scan` cuts a text into lexemes and keeps the tokens, each with its position, with an end
token behind them.  The first text that starts no lexeme ends the scan without any tokens.
-/

namespace BlockScript

/-- A place in a text at which no lexeme starts. -/
structure LexError where
  position : Position
  fault : LexFault
  deriving DecidableEq, Repr

namespace Token

/-- The token of a lexeme that starts at a position; blanks and comments have none. -/
def ofLexeme? (position : Position) (lexeme : Lexeme) : Option Token :=
  lexeme.kind?.map fun kind => ⟨kind, String.ofList lexeme.text, position⟩

def endAt (position : Position) : Token := ⟨.eof, "", position⟩

/-- Scans a text that starts at a position, behind tokens already read, the last one first. -/
def scanFrom (position : Position) (read : List Token) (text : List Char) :
    Except LexError (List Token) :=
  match text with
  | [] => .ok ((endAt position :: read).reverse)
  | character :: rest =>
    match _found : Lexeme.first character rest with
    | .error fault => .error ⟨position, fault⟩
    | .ok lexeme =>
      scanFrom (position.after lexeme.text) ((ofLexeme? position lexeme).toList ++ read) lexeme.rest
termination_by text.length
decreasing_by exact Lexeme.length_rest_lt _found

/-- The tokens of a text, the last one being its end. -/
def scan (source : String) : Except LexError (List Token) :=
  scanFrom .start [] source.toList

end Token

end BlockScript
