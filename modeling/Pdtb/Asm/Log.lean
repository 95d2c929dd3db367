/-
`log.nas`: one log record is a time stamp, a tag and a line, built in
`logBuffer` and written to the log file and to the screen.
-/
import Pdtb.Asm.String

namespace Pdtb.Asm

open Lib Dos

variable (img : Image)

/-- `ax` = line, `cx` = length. -/
def writeLog (s : Bot) : Bot :=
  let s := ((s.push s.ax).push s.bx).push s.dx
  let s := { s with dx := s.ax, bx := s.mem.word img.logHandle, ax := 0x4000 }
  let s := int21 s
  let s := int21 { s with bx := 1, ax := 0x4000 }
  let s := { s.pop with dx := s.top }
  let s := { s.pop with bx := s.top }
  { s.pop with ax := s.top }

/-- `createTimestamp` until it has the time and the date: they are in
its frame, with the output string. -/
def readClock (s : Bot) : Bot :=
  let s := s.push s.bp
  let s := { s with bp := s.sp }
  let s := s.reserve 8
  -- save output string
  let s := s.setSlot 7 s.di
  let s := s.setSlot 8 s.cx
  let s := int21 { s with ax := 0x2C00 }
  let s := s.setAh 0
  let s := s.setAl (hiByte s.dx)
  let s := s.setSlot 1 s.ax -- second
  let s := s.setAl (loByte s.cx)
  let s := s.setSlot 2 s.ax -- minute
  let s := s.setAl (hiByte s.cx)
  let s := s.setSlot 3 s.ax -- hour
  let s := int21 { s with ax := 0x2A00 }
  let s := s.setAh 0
  let s := s.setAl (loByte s.dx)
  let s := s.setSlot 4 s.ax -- day
  let s := s.setAl (hiByte s.dx)
  let s := s.setSlot 5 s.ax -- month
  s.setSlot 6 s.cx -- year

/-- Writes the time stamp at `di`. -/
def createTimestamp (s : Bot) : Bot :=
  let s := readClock s
  let s := { s with bx := 4 }
  -- load output string
  let s := { s with di := s.slot 7 }
  let s := { s with cx := s.slot 8 }
  let s := writeNum { s with ax := s.slot 6 }
  let s := writeChar { s with ax := 0x2D }
  let s := writeNum { s with bx := 2, ax := s.slot 5 }
  let s := writeChar { s with ax := 0x2D }
  let s := writeNum { s with bx := 2, ax := s.slot 4 }
  let s := writeChar { s with ax := 0x54 }
  let s := writeNum { s with bx := 2, ax := s.slot 3 }
  let s := writeChar { s with ax := 0x3A }
  let s := writeNum { s with bx := 2, ax := s.slot 2 }
  let s := writeChar { s with ax := 0x3A }
  let s := writeNum { s with bx := 2, ax := s.slot 1 }
  let s := s.leave
  { s.pop with bp := s.top }

/-- `ax` = tag, `bx` = its length, `si` = line, `cx` = its length. -/
def logGeneral (s : Bot) : Bot :=
  let s := ((((s.push s.ax).push s.si).push s.bx).push s.cx).push s.di
  let s := (((s.push s.si).push s.cx).push s.ax).push s.bx
  let s := { s with di := img.logBuffer, cx := logBufferLen }
  let s := createTimestamp s
  let s := writeChar { s with ax := 0x20 }
  let s := { s.pop with bx := s.top }
  let s := { s.pop with si := s.top }
  let s := writeStr s
  let s := writeChar { s with ax := 0x20 }
  let s := { s.pop with bx := s.top }
  let s := { s.pop with si := s.top }
  let s := writeStr s
  let s := writeChar { s with ax := 0x0D }
  let s := writeChar { s with ax := 0x0A }
  let s := { s with cx := s.bx, bx := s.cx }
  let s := { s with cx := logBufferLen }
  let s := { s with cx := s.cx - s.bx }
  let s := writeLog img { s with ax := img.logBuffer }
  let s := { s.pop with di := s.top }
  let s := { s.pop with cx := s.top }
  let s := { s.pop with bx := s.top }
  let s := { s.pop with si := s.top }
  { s.pop with ax := s.top }

end Pdtb.Asm
