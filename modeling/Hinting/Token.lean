import Hinting.Statement
import Hinting.Text.Blank

/-!
# Tokens

A program text is cut into lines, each line up to its first comment, and each
line into words at the blanks outside brackets, so that `PUSHB[ ]` is one word.
A word is then an operand or an instruction with its flag digits.
-/

namespace Hinting.Token

/-- Cuts at line feeds; a carriage return right in front of one goes with it. -/
def lines : List Char → List (List Char)
  | [] => [[]]
  | '\r' :: '\n' :: cs => [] :: lines cs
  | '\n' :: cs => [] :: lines cs
  | c :: cs =>
    match lines cs with
    | [] => [[c]]
    | line :: rest => (c :: line) :: rest

/-- The part of a line in front of its first `/*`. -/
def beforeComment : List Char → List Char
  | [] => []
  | '/' :: '*' :: _ => []
  | c :: cs => c :: beforeComment cs

/-- The bracket depth after a character; it never falls below zero. -/
def depthAfter (depth : Nat) (c : Char) : Nat :=
  if c = '[' then depth + 1 else if c = ']' then depth - 1 else depth

/-- The words of a line. `word` holds the characters of the current word, the
last one first, and `depth` its open brackets. -/
def wordsFrom (word : List Char) (depth : Nat) : List Char → List (List Char)
  | [] => if word.isEmpty then [] else [word.reverse]
  | c :: cs =>
    if depth = 0 ∧ Text.isBlank c then
      if word.isEmpty then wordsFrom [] 0 cs else word.reverse :: wordsFrom [] 0 cs
    else
      wordsFrom (c :: word) (depthAfter depth c) cs

/-- The words of a line in front of its comment. -/
def lineWords (line : List Char) : List (List Char) :=
  wordsFrom [] 0 (beforeComment line)

/-- The words of a program text. -/
def words (text : String) : List String :=
  ((lines text.toList).flatMap lineWords).map String.ofList

end Hinting.Token

namespace Hinting

/-- Why a word or its place in a program is wrong. -/
inductive DecodeCause
  | leadingData (word : String)
  | unknownMnemonic (name : String)
deriving DecidableEq

inductive Token
  | operand (data : Operand)
  | instruction (mnemonic : Mnemonic) (flags : Option Operand)
deriving DecidableEq

namespace Token

/-- A numeral is an operand, as a word when it fits in one. -/
def operand? (word : List Char) : Option Operand :=
  if Text.isNumeral word then
    match Text.readWord? word with
    | some value => some (.word value)
    | none => some (.numeral (String.ofList word))
  else
    none

/-- The digits between the first bracket and the next closing one. -/
def flagDigits (afterBracket : List Char) : Option Operand :=
  let digits := (afterBracket.takeWhile (· ≠ ']')).filter Char.isDigit
  if digits.isEmpty then none else some (.numeral (String.ofList digits))

/-- Cuts a word at its first opening bracket. -/
def splitBracket (word : List Char) : List Char × Option Operand :=
  (word.takeWhile (· ≠ '['), flagDigits ((word.dropWhile (· ≠ '[')).drop 1))

/-- Classifies a word. -/
def ofChars (word : List Char) : Except DecodeCause Token :=
  match operand? word with
  | some found => .ok (.operand found)
  | none =>
    let (head, flags) := splitBracket word
    let name := String.ofList (Text.trim head)
    match Mnemonic.ofName? name with
    | some mnemonic => .ok (.instruction mnemonic flags)
    | none => .error (.unknownMnemonic name)

def ofWord (word : String) : Except DecodeCause Token :=
  ofChars word.toList

end Token

end Hinting
