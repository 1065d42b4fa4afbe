/-!
# Mnemonics

The instruction names of the assembly form. Flag digits such as the `01101` of
`MDRP[01101]` are no part of the name: they are an operand of the statement.
-/

namespace Hinting

/-- The instructions, in table order. -/
inductive Mnemonic
  -- Graphics state: vectors
  | SVTCA | SPVTCA | SFVTCA | SPVTL | SFVTL | SDPVTL | SPVFS | SFVFS | GPV | GFV | SFVTPV
  -- Graphics state: reference points, zones and loop
  | SRP0 | SRP1 | SRP2 | SZP0 | SZP1 | SZP2 | SZPS | SLOOP
  -- Graphics state: rounding
  | RTG | RTHG | RTDG | RDTG | RUTG | ROFF | SROUND | S45ROUND
  -- Graphics state: distances and controls
  | SMD | SCVTCI | SSWCI | SSW | SDB | SDS | FLIPON | FLIPOFF | SCANCTRL | SCANTYPE | INSTCTRL
  | SANGW | AA
  -- Stack
  | DUP | POP | CLEAR | SWAP | DEPTH | CINDEX | MINDEX | ROLL
  -- Pushing data
  | PUSH | PUSHB | PUSHW | NPUSHB | NPUSHW
  -- Storage and control values
  | WS | RS | WCVTP | WCVTF | RCVT
  -- Measurements and queries
  | GC | SCFS | MD | MPPEM | MPS | GETINFO | GETVARIATION
  -- Point movement
  | ISECT | ALIGNPTS | UTP | MDAP | IUP | SHP | SHC | SHZ | SHPIX | IP | MSIRP | ALIGNRP | MIAP
  | MDRP | MIRP | FLIPPT | FLIPRGON | FLIPRGOFF | DELTAP1 | DELTAP2 | DELTAP3 | DELTAC1 | DELTAC2
  | DELTAC3
  -- Arithmetic and logic
  | LT | LTEQ | GT | GTEQ | EQ | NEQ | ODD | EVEN | AND | OR | NOT | ADD | SUB | DIV | MUL | ABS
  | NEG | FLOOR | CEILING | MAX | MIN | ROUND | NROUND
  -- Flow of control
  | IF | ELSE | EIF | JMPR | JROT | JROF
  -- Definitions and calls
  | FDEF | ENDF | IDEF | CALL | LOOPCALL | DEBUG
deriving DecidableEq

/-- The form of a jump. -/
inductive Jump
  | relative | onTrue | onFalse
deriving DecidableEq

/-- What an instruction means for the structure of a program. -/
inductive Kind
  | generic | ifStart | elseStart | ifEnd | defStart | defEnd | push
  | jump (form : Jump)
deriving DecidableEq

namespace Mnemonic

/-- All instructions in table order. -/
def all : List Mnemonic :=
  [.SVTCA, .SPVTCA, .SFVTCA, .SPVTL, .SFVTL, .SDPVTL, .SPVFS, .SFVFS, .GPV, .GFV, .SFVTPV, .SRP0,
   .SRP1, .SRP2, .SZP0, .SZP1, .SZP2, .SZPS, .SLOOP, .RTG, .RTHG, .RTDG, .RDTG, .RUTG, .ROFF,
   .SROUND, .S45ROUND, .SMD, .SCVTCI, .SSWCI, .SSW, .SDB, .SDS, .FLIPON, .FLIPOFF, .SCANCTRL,
   .SCANTYPE, .INSTCTRL, .SANGW, .AA, .DUP, .POP, .CLEAR, .SWAP, .DEPTH, .CINDEX, .MINDEX, .ROLL,
   .PUSH, .PUSHB, .PUSHW, .NPUSHB, .NPUSHW, .WS, .RS, .WCVTP, .WCVTF, .RCVT, .GC, .SCFS, .MD,
   .MPPEM, .MPS, .GETINFO, .GETVARIATION, .ISECT, .ALIGNPTS, .UTP, .MDAP, .IUP, .SHP, .SHC, .SHZ,
   .SHPIX, .IP, .MSIRP, .ALIGNRP, .MIAP, .MDRP, .MIRP, .FLIPPT, .FLIPRGON, .FLIPRGOFF, .DELTAP1,
   .DELTAP2, .DELTAP3, .DELTAC1, .DELTAC2, .DELTAC3, .LT, .LTEQ, .GT, .GTEQ, .EQ, .NEQ, .ODD,
   .EVEN, .AND, .OR, .NOT, .ADD, .SUB, .DIV, .MUL, .ABS, .NEG, .FLOOR, .CEILING, .MAX, .MIN,
   .ROUND, .NROUND, .IF, .ELSE, .EIF, .JMPR, .JROT, .JROF, .FDEF, .ENDF, .IDEF, .CALL, .LOOPCALL,
   .DEBUG]

/-- The name of an instruction in program text. -/
def name : Mnemonic → String
  | .SVTCA => "SVTCA"
  | .SPVTCA => "SPVTCA"
  | .SFVTCA => "SFVTCA"
  | .SPVTL => "SPVTL"
  | .SFVTL => "SFVTL"
  | .SDPVTL => "SDPVTL"
  | .SPVFS => "SPVFS"
  | .SFVFS => "SFVFS"
  | .GPV => "GPV"
  | .GFV => "GFV"
  | .SFVTPV => "SFVTPV"
  | .SRP0 => "SRP0"
  | .SRP1 => "SRP1"
  | .SRP2 => "SRP2"
  | .SZP0 => "SZP0"
  | .SZP1 => "SZP1"
  | .SZP2 => "SZP2"
  | .SZPS => "SZPS"
  | .SLOOP => "SLOOP"
  | .RTG => "RTG"
  | .RTHG => "RTHG"
  | .RTDG => "RTDG"
  | .RDTG => "RDTG"
  | .RUTG => "RUTG"
  | .ROFF => "ROFF"
  | .SROUND => "SROUND"
  | .S45ROUND => "S45ROUND"
  | .SMD => "SMD"
  | .SCVTCI => "SCVTCI"
  | .SSWCI => "SSWCI"
  | .SSW => "SSW"
  | .SDB => "SDB"
  | .SDS => "SDS"
  | .FLIPON => "FLIPON"
  | .FLIPOFF => "FLIPOFF"
  | .SCANCTRL => "SCANCTRL"
  | .SCANTYPE => "SCANTYPE"
  | .INSTCTRL => "INSTCTRL"
  | .SANGW => "SANGW"
  | .AA => "AA"
  | .DUP => "DUP"
  | .POP => "POP"
  | .CLEAR => "CLEAR"
  | .SWAP => "SWAP"
  | .DEPTH => "DEPTH"
  | .CINDEX => "CINDEX"
  | .MINDEX => "MINDEX"
  | .ROLL => "ROLL"
  | .PUSH => "PUSH"
  | .PUSHB => "PUSHB"
  | .PUSHW => "PUSHW"
  | .NPUSHB => "NPUSHB"
  | .NPUSHW => "NPUSHW"
  | .WS => "WS"
  | .RS => "RS"
  | .WCVTP => "WCVTP"
  | .WCVTF => "WCVTF"
  | .RCVT => "RCVT"
  | .GC => "GC"
  | .SCFS => "SCFS"
  | .MD => "MD"
  | .MPPEM => "MPPEM"
  | .MPS => "MPS"
  | .GETINFO => "GETINFO"
  | .GETVARIATION => "GETVARIATION"
  | .ISECT => "ISECT"
  | .ALIGNPTS => "ALIGNPTS"
  | .UTP => "UTP"
  | .MDAP => "MDAP"
  | .IUP => "IUP"
  | .SHP => "SHP"
  | .SHC => "SHC"
  | .SHZ => "SHZ"
  | .SHPIX => "SHPIX"
  | .IP => "IP"
  | .MSIRP => "MSIRP"
  | .ALIGNRP => "ALIGNRP"
  | .MIAP => "MIAP"
  | .MDRP => "MDRP"
  | .MIRP => "MIRP"
  | .FLIPPT => "FLIPPT"
  | .FLIPRGON => "FLIPRGON"
  | .FLIPRGOFF => "FLIPRGOFF"
  | .DELTAP1 => "DELTAP1"
  | .DELTAP2 => "DELTAP2"
  | .DELTAP3 => "DELTAP3"
  | .DELTAC1 => "DELTAC1"
  | .DELTAC2 => "DELTAC2"
  | .DELTAC3 => "DELTAC3"
  | .LT => "LT"
  | .LTEQ => "LTEQ"
  | .GT => "GT"
  | .GTEQ => "GTEQ"
  | .EQ => "EQ"
  | .NEQ => "NEQ"
  | .ODD => "ODD"
  | .EVEN => "EVEN"
  | .AND => "AND"
  | .OR => "OR"
  | .NOT => "NOT"
  | .ADD => "ADD"
  | .SUB => "SUB"
  | .DIV => "DIV"
  | .MUL => "MUL"
  | .ABS => "ABS"
  | .NEG => "NEG"
  | .FLOOR => "FLOOR"
  | .CEILING => "CEILING"
  | .MAX => "MAX"
  | .MIN => "MIN"
  | .ROUND => "ROUND"
  | .NROUND => "NROUND"
  | .IF => "IF"
  | .ELSE => "ELSE"
  | .EIF => "EIF"
  | .JMPR => "JMPR"
  | .JROT => "JROT"
  | .JROF => "JROF"
  | .FDEF => "FDEF"
  | .ENDF => "ENDF"
  | .IDEF => "IDEF"
  | .CALL => "CALL"
  | .LOOPCALL => "LOOPCALL"
  | .DEBUG => "DEBUG"

/-- Looks a name up; upper and lower case differ. -/
def ofName? (name : String) : Option Mnemonic :=
  all.find? fun mnemonic => mnemonic.name == name

def kind : Mnemonic → Kind
  | .IF => .ifStart
  | .ELSE => .elseStart
  | .EIF => .ifEnd
  | .FDEF => .defStart
  | .ENDF => .defEnd
  | .PUSH | .PUSHB | .PUSHW | .NPUSHB | .NPUSHW => .push
  | .JMPR => .jump .relative
  | .JROT => .jump .onTrue
  | .JROF => .jump .onFalse
  | _ => .generic

/-- Whether the instruction takes as many points as the loop counter says. -/
def usesLoopCounter : Mnemonic → Bool
  | .SHP | .SHPIX | .IP | .ALIGNRP | .FLIPPT => true
  | _ => false

/-- How many values an instruction pops and then pushes, for instructions whose
only effect on the tracked state is on the stack and whose results are unknown. -/
def stackEffect? : Mnemonic → Option (Nat × Nat)
  | .MPPEM | .MPS => some (0, 1)
  | .GC | .GETINFO | .ROUND | .NROUND => some (1, 1)
  | .MD => some (2, 1)
  | .UTP | .SHC | .SHZ | .SANGW | .AA | .DEBUG => some (1, 0)
  | .SCFS | .ALIGNPTS | .FLIPRGON | .FLIPRGOFF => some (2, 0)
  | .ISECT => some (5, 0)
  | .IUP => some (0, 0)
  | _ => none

end Mnemonic

end Hinting
