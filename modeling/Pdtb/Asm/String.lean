/-
`string.nas`: writers of characters, strings and numbers. All of them
put bytes at `di` while there is room in `cx` and drop the rest.
-/
import Pdtb.Dos

namespace Pdtb.Asm

open Lib

/-- Writes a single character. -/
def writeChar (s : Bot) : Bot :=
  if s.cx = 0 then s else { s.stosb with cx := s.cx - 1 }

/-- Writes a string, truncating to the smallest value. -/
def writeStr (s : Bot) : Bot :=
  let s := if s.cx < s.bx then { s with bx := s.cx } else s
  let s := { s with cx := s.cx - s.bx }
  let s := { s with bx := s.cx, cx := s.bx }
  let s := s.repMovsb
  { s with bx := s.cx, cx := s.bx }

/-- `writeNum.divTable` -/
def divTable : List Word := [10000, 1000, 100, 10]

/-- `writeNum.loop`, once for each entry of the table `bp` walks; `bp`
counts from `writeNum.divTable`. -/
def writeNumLoop : List Word → Bot → Bot
  | [], s => s
  | d :: ds, s =>
      let s := { s with ax := s.ax / d, dx := s.ax % d }
      -- `jnz .write`, then `jl .skip`
      let s :=
        if s.ax ≠ 0 ∨ ¬ s.bx.slt s.si then
          writeChar { s with ax := s.ax + 0x30 }
        else s
      writeNumLoop ds { s with ax := s.dx, bp := s.bp + 2, si := s.si - 1 }

/-- Writes an unsigned number, padded to `bx` digits. -/
def writeNum (s : Bot) : Bot :=
  let s := s.push s.dx
  let s := s.push s.bp
  let s := { s with si := 4, bx := s.bx - 1, bp := 0 }
  let s := writeNumLoop divTable s
  let s := writeChar { s with ax := s.ax + 0x30 }
  let s := { s.pop with bp := s.top }
  let s := { s.pop with dx := s.top }
  { s with ax := 0, bx := 0, si := 0 }

/-- Writes a signed number. -/
def writeNumSigned (s : Bot) : Bot :=
  if ¬ s.ax.slt 0 then writeNum s
  else
    let s := { s with si := s.ax, ax := 0x2D }
    let s := writeChar s
    writeNum { s with ax := -s.si }

end Pdtb.Asm
