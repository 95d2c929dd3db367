/-
DOS behind `int 0x21` and `getenv_`, as far as the assembly calls it.
Every call changes its documented result registers and nothing else.

What DOS answers is given in advance: a clock that is read once for each
time or date call, the `BOT_AUTH` variable and what opening and reading
the file it names comes to. What DOS is told is kept: `written` is every
block handed to a file handle.
-/
import Pdtb.Image

namespace Pdtb

open Lib

/-- What the clock shows at one call of `0x2A` or `0x2C`. -/
structure Clock where
  year : Word
  month : Byte
  day : Byte
  weekday : Byte
  hour : Byte
  minute : Byte
  second : Byte
  hundredths : Byte
  deriving Inhabited

/-- DOS, with its answers and what it was told. -/
structure Dos where
  /-- the clock at each call that reads it -/
  clock : Nat → Clock
  /-- how often it was read -/
  now : Nat
  /-- what `getenv` finds under `BOT_AUTH`, 0 if nothing -/
  authEnv : Word
  /-- opening that file: a handle or an error code -/
  authOpen : Except Word Word
  /-- reading it: its bytes or an error code -/
  authRead : Except Word (List Byte)
  /-- the blocks written so far, each with its handle -/
  written : List (Word × List Byte)
  deriving Inhabited

/-- The bot's processor. -/
abbrev Bot := Cpu Dos

namespace Dos

/-- `getenv_`, for the one name the assembly asks for. -/
def getenv_ (s : Bot) : Bot := { s with ax := s.dev.authEnv }

/-- `0x2A`: the date. -/
def getDate (s : Bot) : Bot :=
  let c := s.dev.clock s.dev.now
  { s.setAl c.weekday with
    cx := c.year
    dx := mkWord c.month c.day
    dev := { s.dev with now := s.dev.now + 1 } }

/-- `0x2C`: the time. -/
def getTime (s : Bot) : Bot :=
  let c := s.dev.clock s.dev.now
  { s with
    cx := mkWord c.hour c.minute
    dx := mkWord c.second c.hundredths
    dev := { s.dev with now := s.dev.now + 1 } }

/-- `0x3D`: open a file. -/
def openFile (s : Bot) : Bot :=
  match s.dev.authOpen with
  | .ok handle => { s with ax := handle, cf := false }
  | .error code => { s with ax := code, cf := true }

/-- `0x3F`: read at most `cx` bytes to `ds:dx`. -/
def readFile (s : Bot) : Bot :=
  match s.dev.authRead with
  | .ok file =>
      let bytes := file.take s.cx.toNat
      { s with
        mem := s.mem.write s.dx bytes
        ax := BitVec.ofNat 16 bytes.length
        cf := false }
  | .error code => { s with ax := code, cf := true }

/-- `0x3E`: close a file. -/
def closeFile (s : Bot) : Bot := { s with cf := false }

/-- `0x40`: write `cx` bytes from `ds:dx`. -/
def writeFile (s : Bot) : Bot :=
  { s with
    ax := s.cx
    cf := false
    dev := { s.dev with
      written := s.dev.written ++ [(s.bx, s.mem.read s.dx s.cx.toNat)] } }

/-- `int 0x21` -/
def int21 (s : Bot) : Bot :=
  if s.ah = 0x2A then getDate s
  else if s.ah = 0x2C then getTime s
  else if s.ah = 0x3D then openFile s
  else if s.ah = 0x3E then closeFile s
  else if s.ah = 0x3F then readFile s
  else if s.ah = 0x40 then writeFile s
  else s

end Dos

end Pdtb
