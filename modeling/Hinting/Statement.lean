import Hinting.Mnemonic
import Hinting.Text.Numeral

/-!
# Statements

A statement is an instruction with its operands and its position in the program
it was read from. It has two written forms: the listing text on one line, and
the assembly lines in which every push form becomes a plain `PUSH` with one
value a line.
-/

namespace Hinting

inductive Operand
  /-- A word, as in the values after a push. -/
  | word (value : Int32)
  /-- Numeral text kept as it stands: flag digits in brackets, or a numeral too
  wide for a word. -/
  | numeral (text : String)
deriving DecidableEq

namespace Operand

/-- The word an operand denotes. Flag digits read as a decimal number. -/
def value? : Operand → Option Int32
  | .word value => some value
  | .numeral text => Text.readWord? text.toList

def text : Operand → String
  | .word value => Text.wordText value
  | .numeral text => text

end Operand

structure Statement where
  mnemonic : Mnemonic
  /-- Flag digits come first, then the values that follow the instruction. -/
  operands : List Operand := []
  /-- The position of the statement in the program it was read from. -/
  index : Nat
deriving DecidableEq

/-- The `PUSH` line for a number of values. -/
def pushHeader (count : Nat) : String :=
  if 1 < count then "PUSH[ ]  /* " ++ toString count ++ " values pushed */" else "PUSH[ ]"

namespace Statement

def kind (s : Statement) : Kind :=
  s.mnemonic.kind

/-- Reads flag text as a binary number of eight bits: every byte of the text is
a digit, and only `1` is a set one. -/
def flagBits (bits : List Char) : UInt8 :=
  bits.foldl (fun acc c => (acc <<< c.utf8Size.toUInt8) ||| (if c = '1' then 1 else 0)) 0

/-- The flags of an instruction such as `MIRP[10100]`, zero without flag text. -/
def flags (s : Statement) : UInt8 :=
  match s.operands with
  | .numeral bits :: _ => flagBits bits.toList
  | _ => 0

/-- The words that the operands denote; text that denotes none is passed over. -/
def values (s : Statement) : List Int32 :=
  s.operands.filterMap Operand.value?

/-- The listing text. -/
def text (s : Statement) : String :=
  match s.operands with
  | .numeral bits :: rest => s.mnemonic.name ++ "[" ++ bits ++ "]" ++ trailing rest
  | operands => s.mnemonic.name ++ "[ ]" ++ trailing operands
where
  trailing (operands : List Operand) : String :=
    String.join (operands.map fun operand => " " ++ operand.text)

/-- The assembly lines. -/
def assembly (s : Statement) : List String :=
  match s.kind, s.operands with
  | .push, operands => pushHeader operands.length :: operands.map Operand.text
  | _, [] => [s.mnemonic.name ++ "[ ]"]
  | _, operands => [s.mnemonic.name ++ "[" ++ String.join (operands.map Operand.text) ++ "]"]

end Statement

/-- Names a statement by the tag of its program and its position there; a
position outside the program has no number. -/
structure StatementId where
  tag : String
  index? : Option Nat
deriving DecidableEq

namespace StatementId

def text (id : StatementId) : String :=
  id.tag ++ "." ++ (match id.index? with | some index => toString index | none => "?")

end StatementId

/-- The identifier of a statement of the program `tag`. -/
def Statement.id (s : Statement) (tag : String) : StatementId :=
  ⟨tag, some s.index⟩

end Hinting
