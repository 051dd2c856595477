import Armator.Gdb
import Armator.Lib.Slots

/-!
# The scanner (`scanner.l`)

The characters that belong to no token are collected in a buffer, which is reported with
a request for retransmission when the next token comes, or when it is full.  A newline
that is not in a packet matches no rule at all, and flex copies it to the standard output.

The messages of `debug` go to the standard error and are left out.
-/

namespace Armator

open Text

def maxErrorSize : ℕ := 1024

structure ParserData where
  gdb : Gdb
  buffer : Vector Byte maxErrorSize
  len : ℤ

def handleError (data : ParserData) : Except Stop ParserData :=
  if data.len ≠ 0 then do
    let buffer ← Slots.write .overflow data.buffer data.len 0
    let gdb ← gdbRequireRetransmission data.gdb
    return ⟨gdb, buffer, 0⟩
  else return data

def addCharacterToError (data : ParserData) (c : Byte) : Except Stop ParserData := do
  let data ← if data.len > maxErrorSize - 2 then handleError data else pure data
  let buffer ← Slots.write .overflow data.buffer data.len c
  return { data with buffer := buffer, len := data.len + 1 }

/-- What a rule matches. -/
inductive Lexeme
  | token (t : Token)
  /-- A character for the rule `.`. -/
  | other (c : Byte)
  | newline

def onLexeme (data : ParserData) : Lexeme → Except Stop ParserData
  | .token t => do
    let data ← handleError data
    let gdb ← onToken data.gdb t
    return { data with gdb := gdb }
  | .other c => addCharacterToError data c
  | .newline => .ok data

/-- A connection from its beginning to the end of the input. -/
def gdbScanner (arm : ArmCore) (target : Endian) (garbage : Nat → Byte)
    (buffer : Vector Byte maxErrorSize) (ls : List Lexeme) : Except Stop ParserData := do
  let data ← Run.run onLexeme ⟨gdbInitData arm target garbage, buffer, 0⟩ ls
  handleError data

end Armator
