/-
`parse.nas`: the IRC message parser. The input is the `bx` bytes at
`si`; what the parser keeps of it is copied to `parseBuffer` through
`di`, with `cx` the room left; `cf` says whether a routine failed, and
after a failure every caller returns at once (`parseThen`).

The copy and skip loops end because each round uses up a byte of input.
`parseParams` jumps back to its own label, and what bounds it is
`paramsListLen` in memory: it is given fuel, and `parseMessage` gives it
as much as the counter lets it use.
-/
import Pdtb.Dos

namespace Pdtb.Asm

open Lib

-- ==================================================== low level

/-- Reads a character to `al`, without moving on. -/
def peek (s : Bot) : Bot :=
  if s.bx = 0 then { s with cf := true }
  else { s.setAl (s.mem s.si) with cf := false }

/-- Reads a character to `al`. -/
def read (s : Bot) : Bot :=
  if s.bx = 0 then { s with cf := true }
  else
    { s.setAl (s.mem s.si) with
      si := s.si + 1
      bx := s.bx - 1
      cf := false }

/-- Copies a character from the read to the write buffer. -/
def copy (s : Bot) : Bot :=
  if s.bx = 0 then { s with cf := true }
  else if s.cx = 0 then { s with cf := true }
  else
    { s.setAl (s.mem s.si) with
      mem := Function.update s.mem s.di (s.mem s.si)
      si := s.si + 1
      di := s.di + 1
      bx := s.bx - 1
      cx := s.cx - 1
      cf := false }

theorem word_pred_lt {v : Word} (h : v ≠ 0) : (v - 1).toNat < v.toNat := by
  bv_omega

theorem peek_bx (s : Bot) : (peek s).bx = s.bx := by
  unfold peek
  split <;> rfl

theorem read_bx_lt {s : Bot} (h : ¬ (read s).cf = true) :
    (read s).bx.toNat < s.bx.toNat := by
  unfold read at h ⊢
  split
  next h0 => simp [h0] at h
  next h0 => exact word_pred_lt h0

theorem copy_bx_lt {s : Bot} (h : ¬ (copy s).cf = true) :
    (copy s).bx.toNat < s.bx.toNat := by
  unfold copy at h ⊢
  split
  next h0 => simp [h0] at h
  next h0 =>
    split
    next h1 => simp [h1] at h
    next => exact word_pred_lt h0

-- ==================================================== high level

/-- Copies up to a byte `stop` holds of, which stays unread. -/
def copyUntil (stop : Byte → Bool) (s : Bot) : Bot :=
  let t := peek s
  if t.cf then t
  else if stop t.al then { t with cf := false }
  else
    let u := copy t
    if _h : u.cf then u else copyUntil stop u
termination_by s.bx.toNat
decreasing_by
  exact Nat.lt_of_lt_of_eq (copy_bx_lt ‹_›) (congrArg _ (peek_bx s))

/-- Copies a possibly empty word until a space or CR. -/
def copyWord : Bot → Bot := copyUntil fun b => b == space || b == cr

/-- Copies data until CR. -/
def copyToCR : Bot → Bot := copyUntil (· == cr)

/-- Skips any spaces. -/
def skipSpace (s : Bot) : Bot :=
  let t := peek s
  if t.cf then t
  else if t.al ≠ space then { t with cf := false }
  else
    let u := read { t with cf := false }
    if _h : u.cf then u else skipSpace u
termination_by s.bx.toNat
decreasing_by
  exact Nat.lt_of_lt_of_eq (read_bx_lt ‹_›) (congrArg _ (peek_bx s))

/-- The macro `do_parse`: calls `f` and returns at once if that failed;
`k` is the code behind it. -/
def parseThen (f k : Bot → Bot) (s : Bot) : Bot :=
  let s := f s
  if s.cf then s else k s

/-- Copies the word behind the character in `ah`, if it comes next. -/
def parseWordIf : Bot → Bot :=
  parseThen peek fun s =>
  if s.al ≠ s.ah then { s with cf := false } else
  parseThen read (parseThen copyWord skipSpace) { s with cf := false }

-- ==================================================== IRC syntax

/-- Compares the next character with CR, into `zf`. -/
def peekCR : Bot → Bot :=
  parseThen peek fun s => { s with zf := decide (s.al = cr), cf := false }

def parseCRLF (s : Bot) : Bot :=
  let s := read s
  if s.cf then { s with cf := true } else
  if s.al ≠ cr then { s with cf := true } else
  let s := read s
  if s.cf then { s with cf := true } else
  if s.al ≠ lf then { s with cf := true } else
  { s with cf := false }

/-- The macro `set_parse_buffer`. -/
def setParseBuffer (buf len : Word) (s : Bot) : Bot :=
  { s with
    mem := (s.mem.setWord buf s.di).setWord len s.cx
    cf := false }

/-- The macro `sub_parse_buffer_len`. -/
def subParseBufferLen (len : Word) (s : Bot) : Bot :=
  { s with mem := s.mem.setWord len (s.mem.word len - s.cx), cf := false }

/-- A field: its buffer is set to where `f` starts to copy, its length
to how much `f` copies. -/
def parseField (buf len : Word) (f : Bot → Bot) (s : Bot) : Bot :=
  parseThen f (subParseBufferLen len) (setParseBuffer buf len s)

variable (img : Image)

def parseTags : Bot → Bot :=
  parseField img.tagsBuffer img.tagsBufferLen
    fun s => parseWordIf (s.setAh atSign)

def parsePrefix : Bot → Bot :=
  parseField img.prefixBuffer img.prefixBufferLen
    fun s => parseWordIf (s.setAh colon)

def parseCmd : Bot → Bot :=
  parseField img.cmdBuffer img.cmdBufferLen copyWord

/-- `parseParams.enoughParams`: `bp` is the current entry of
`paramsList`. -/
def beginParam (s : Bot) : Bot :=
  { s with mem := (s.mem.setWord s.bp s.di).setWord (s.bp + 2) s.cx }

/-- `parseParams.parseLong` behind a `:`, `.parseShort` without one. -/
def parseParam : Bot → Bot :=
  parseThen peek fun s =>
  if s.al = colon then parseThen read copyToCR { s with cf := false }
  else copyWord { s with cf := false }

/-- `parseParams.done` -/
def endParam (s : Bot) : Bot :=
  { s with
    mem := s.mem.setWord (s.bp + 2) (s.mem.word (s.bp + 2) - s.cx)
    bp := s.bp + paramsListEntryLen
    cf := false }

/-- `bp` is the current entry of `paramsList`. -/
def parseParams : Nat → Bot → Bot
  | 0, s => s
  | fuel + 1, s =>
      let n := s.mem.word img.paramsListLen + 1
      let s := { s with mem := s.mem.setWord img.paramsListLen n }
      if ¬ n.slt paramsListMax then { s with cf := true } else
      parseThen skipSpace
        (parseThen parseParam fun s =>
          parseThen peekCR
            (fun s => if s.zf then s else parseParams fuel s)
            (endParam s))
        (beginParam s)

def parseMessage : Bot → Bot :=
  parseThen (parseTags img) <|
  parseThen (parsePrefix img) <|
  parseThen (parseCmd img) fun s =>
  parseThen (parseParams img paramsListMax.toNat) parseCRLF
    { s with
      bp := img.paramsList
      mem := s.mem.setWord img.paramsListLen 0 }

/-- `doParse.return` -/
def doParseReturn (s : Bot) : Bot :=
  let s := { s.pop with bp := s.top }
  let s := { s.pop with di := s.top }
  let s := { s.pop with bx := s.top }
  { s.pop with ax := s.top }

/-- Parses the `cx` bytes at `si`; `cf` is set on failure. -/
def doParse (s : Bot) : Bot :=
  let s := (((s.push s.ax).push s.bx).push s.di).push s.bp
  let s := { s with bx := s.cx, di := img.parseBuffer }
  let s := { s with cx := parseBufferLenMax }
  doParseReturn (parseThen (parseMessage img)
    (fun s => { s with cf := decide (s.bx ≠ 0) }) s)

-- ==================================================== reading the result

/-- `paramAt.loop` -/
def paramAtLoop (s : Bot) : Bot :=
  let s := { s with ax := s.ax - 1 }
  let s := { s with si := s.si + paramsListEntryLen }
  if _h : s.ax = 0 then s else paramAtLoop s
termination_by (s.ax - 1).toNat
decreasing_by exact word_pred_lt ‹_›

/-- `ax` is the parameter's number, starting at 0; `si` and `cx` are
its buffer and length, both 0 past the last one. -/
def paramAt (s : Bot) : Bot :=
  if ¬ s.ax.slt (s.mem.word img.paramsListLen) then
    { s with si := 0, cx := 0 }
  else
    let s := { s with si := img.paramsList }
    let s := if s.ax = 0 then s else paramAtLoop s
    let s := { s with cx := s.mem.word (s.si + 2) }
    { s with si := s.mem.word s.si }

end Pdtb.Asm
