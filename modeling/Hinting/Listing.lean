import Hinting.Text.Quoted
import Hinting.Token

/-!
# Listings

Reading the words of a program gives its statements in order. An operand belongs
to the last instruction in front of it, so a statement is complete once the next
instruction or the end of the text comes. Reading stops at the first word that
cannot be placed, and the statement still open there is lost.
-/

namespace Hinting

namespace DecodeCause

def message : DecodeCause → String
  | .leadingData word => "data token " ++ Text.quoted word ++ " precedes the first instruction"
  | .unknownMnemonic name => "unrecognized mnemonic " ++ Text.quoted name

end DecodeCause

/-- A word of the program `tag` that cannot be placed. -/
structure DecodeError where
  tag : String
  /-- How many words stand in front of the faulty one. -/
  position : Nat
  cause : DecodeCause
deriving DecidableEq

namespace DecodeError

def message (e : DecodeError) : String :=
  e.tag ++ " token " ++ toString e.position ++ ": " ++ e.cause.message

end DecodeError

/-- The statements read, and the error that ended the reading if one did. -/
structure Listing where
  statements : List Statement
  error? : Option DecodeError
deriving DecidableEq

namespace Listing

def addInFront (earlier : List Statement) (l : Listing) : Listing :=
  { l with statements := earlier ++ l.statements }

/-- Reads words with the statement still open, the number of words read and the
number of instructions among them. -/
def scan (tag : String) : (position index : Nat) → Option Statement → List String → Listing
  | _, _, current, [] => ⟨current.toList, none⟩
  | position, index, current, word :: rest =>
    match Token.ofWord word, current with
    | .error cause, _ => ⟨[], some ⟨tag, position, cause⟩⟩
    | .ok (.operand _), none => ⟨[], some ⟨tag, position, .leadingData word⟩⟩
    | .ok (.operand operand), some s =>
      scan tag (position + 1) index (some { s with operands := s.operands ++ [operand] }) rest
    | .ok (.instruction mnemonic flags), current =>
      (scan tag (position + 1) (index + 1) (some ⟨mnemonic, flags.toList, index⟩) rest).addInFront
        current.toList

def ofWords (tag : String) (words : List String) : Listing :=
  scan tag 0 0 none words

def ofText (tag text : String) : Listing :=
  ofWords tag (Token.words text)

/-- All statements, unless the reading ended in an error. -/
def complete (l : Listing) : Except DecodeError (List Statement) :=
  match l.error? with
  | none => .ok l.statements
  | some error => .error error

end Listing

/-- Reads the text of the program `tag`. -/
def readProgram (tag text : String) : Except DecodeError (List Statement) :=
  (Listing.ofText tag text).complete

end Hinting
