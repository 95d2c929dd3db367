/-
The bot's own data as the linker lays it out: the sections its modules
declare, the symbols in them and the texts of `logic.nas`. Where a
section starts is the linker's choice, so an `Image` carries the five
addresses and the proofs that the sections do not run into one another
or past the end of the segment; everything inside a section is at the
offset its source gives it.

Two areas are not the bot's and still matter. `nullArea` is what a null
pointer points at: `paramAt` returns one, and `idleState` compares the
six bytes there. `outSpill` is what the longest reply to a 512-byte line
reaches when it runs over the end of `outBuffer`. The spill is kept
apart from everything the bot reads again, but not from `lineBuffer`,
which the linker puts right behind `logic.nas`'s variables and which is
refilled after every dispatch.
-/
import Mathlib.Data.List.Pairwise
import Pdtb.Lib.Cpu

namespace Pdtb

open Lib

/-- The bytes of an ASCII text. -/
def ascii (s : String) : List Byte :=
  s.toList.map fun c => BitVec.ofNat 8 c.toNat

/-- `'@'` -/
def atSign : Byte := 0x40
/-- `':'` -/
def colon : Byte := 0x3A
/-- `' '` -/
def space : Byte := 0x20
/-- `0x0d` -/
def cr : Byte := 0x0d
/-- `0x0a` -/
def lf : Byte := 0x0a

/-- What ends an IRC line. -/
def crlf : List Byte := [cr, lf]

-- ================================================ logic.nas, CONST2

/-- The texts of `logic.nas`, in the order of its `CONST2` section. -/
inductive Text where
  | incomingTag
  | outgoingTag
  | logicTag
  | badParseMessage
  | initMessage
  | authFailMessage
  | exitMessage
  | quitMessage
  | pongCmd
  | privmsgCmd
  | startCmd
  | helloText
  | authEnv
  deriving DecidableEq, Repr

namespace Text

/-- What stands behind each label. -/
def bytes : Text → List Byte
  | incomingTag => ascii "INCOMING"
  | outgoingTag => ascii "OUTGOING"
  | logicTag => ascii "LOGIC"
  | badParseMessage => ascii "Couldn't parse message"
  | initMessage => ascii "Sending login credentials..."
  | authFailMessage => ascii "Unable to open BOT_AUTH!"
  | exitMessage => ascii "Quitting time" ++ crlf
  | quitMessage => ascii "QUIT pdtb https://twitch.tv/jookia2" ++ crlf
  | pongCmd => ascii "PONG"
  | privmsgCmd => ascii "PRIVMSG"
  | startCmd =>
      ascii "CAP REQ :twitch.tv/membership twitch.tv/tags twitch.tv/commands"
        ++ crlf ++ ascii "JOIN #jookia2" ++ crlf
  | helloText => ascii "HELLO THERE"
  | authEnv => ascii "BOT_AUTH" ++ [0]

/-- The texts in section order. -/
def all : List Text :=
  [incomingTag, outgoingTag, logicTag, badParseMessage, initMessage,
    authFailMessage, exitMessage, quitMessage, pongCmd, privmsgCmd,
    startCmd, helloText, authEnv]

/-- The section's contents. -/
def allBytes : List Byte := all.flatMap bytes

/-- The bytes in front of a label. -/
def before (t : Text) : List Byte := (all.takeWhile (· ≠ t)).flatMap bytes

/-- The bytes behind a label's own. -/
def behind (t : Text) : List Byte :=
  ((all.dropWhile (· ≠ t)).drop 1).flatMap bytes

theorem allBytes_split (t : Text) :
    allBytes = t.before ++ t.bytes ++ t.behind := by
  cases t <;>
    simp [allBytes, before, behind, all, List.takeWhile, List.dropWhile]

end Text

-- ================================================ the sections

/-- Two runs of addresses, neither reaching into the other. -/
def Apart (p q : Word × Nat) : Prop :=
  p.1.toNat + p.2 ≤ q.1.toNat ∨ q.1.toNat + q.2 ≤ p.1.toNat

instance (p q : Word × Nat) : Decidable (Apart p q) :=
  inferInstanceAs (Decidable (_ ∨ _))

/-- In a run that ends inside the segment, an address is inside when it
lies between the ends. -/
theorem mem_region_iff {a x : Word} {n : Nat} (h : a.toNat + n ≤ 65536) :
    x ∈ region a n ↔ a.toNat ≤ x.toNat ∧ x.toNat < a.toNat + n := by
  rw [mem_region, off, BitVec.toNat_sub]
  omega

theorem Apart.disjoint {p q : Word × Nat} (hp : p.1.toNat + p.2 ≤ 65536)
    (hq : q.1.toNat + q.2 ≤ 65536) (h : Apart p q) :
    Disjoint (region p.1 p.2) (region q.1 q.2) := by
  rw [Set.disjoint_left]
  intro x hx hx'
  rw [mem_region_iff hp] at hx
  rw [mem_region_iff hq] at hx'
  unfold Apart at h
  omega

/-- Bytes in `logic.nas`'s `CONST2`. -/
def constSize : Nat := 258
/-- Bytes in `parse.nas`'s `DATA`. -/
def parseSize : Nat := 544
/-- Bytes in `logic.nas`'s `_BSS`. -/
def outSize : Nat := 518
/-- How far the longest reply to a 512-byte line reaches: 23 bytes of
`writeHello`'s own around a parameter of at most 510. -/
def outSpill : Nat := 533
/-- Bytes in `log.nas`'s `_BSS`. -/
def logSize : Nat := 514
/-- Bytes in `state.nas`'s `_BSS`. -/
def lineSize : Nat := 512
/-- Bytes `idleState` compares behind a null pointer. -/
def nullSize : Nat := 6

theorem Text.length_allBytes : Text.allBytes.length = constSize := by
  decide +kernel

/-- Where the linker put the bot. -/
structure Image where
  /-- `logic.nas`, section `CONST2` -/
  constAt : Word
  /-- `parse.nas`, section `DATA` -/
  parseAt : Word
  /-- `logic.nas`, section `_BSS` -/
  outAt : Word
  /-- `log.nas`, section `_BSS` -/
  logAt : Word
  /-- `state.nas`, section `_BSS` -/
  lineAt : Word
  /-- the code of `startState` -/
  startState : Word
  /-- the code of `idleState` -/
  idleState : Word
  handlers_ne : startState ≠ idleState
  fits : ∀ p ∈ [(constAt, constSize), (parseAt, parseSize),
    (outAt, outSpill), (logAt, logSize), (lineAt, lineSize)],
    p.1.toNat + p.2 ≤ 65536
  apart : [(0, nullSize), (constAt, constSize), (parseAt, parseSize),
    (logAt, logSize), (outAt, outSpill)].Pairwise Apart
  line_apart : ∀ p ∈ [(0, nullSize), (constAt, constSize),
    (parseAt, parseSize), (logAt, logSize), (outAt, outSize)],
    Apart (lineAt, lineSize) p

/-- A layout, with the sections in the order the modules are linked. -/
instance : Inhabited Image where
  default := {
    constAt := 0x0100
    parseAt := 0x0300
    logAt := 0x0600
    outAt := 0x0900
    lineAt := 0x0B06
    startState := 0x2000
    idleState := 0x2022
    handlers_ne := by decide
    fits := by decide
    apart := by decide
    line_apart := by decide }

namespace Image

variable (img : Image)

-- parse.nas, section DATA
def parseBuffer : Word := img.parseAt
def parseBufferLen : Word := img.parseAt + 512
def tagsBuffer : Word := img.parseAt + 514
def tagsBufferLen : Word := img.parseAt + 516
def prefixBuffer : Word := img.parseAt + 518
def prefixBufferLen : Word := img.parseAt + 520
def cmdBuffer : Word := img.parseAt + 522
def cmdBufferLen : Word := img.parseAt + 524
def paramsList : Word := img.parseAt + 526
def paramsListLen : Word := img.parseAt + 542

-- logic.nas, section _BSS
def outBuffer : Word := img.outAt
def outBufferLen : Word := img.outAt + 512
def botState : Word := img.outAt + 514

-- log.nas, section _BSS
def logHandle : Word := img.logAt
def logBuffer : Word := img.logAt + 2

-- state.nas, section _BSS
def lineBuffer : Word := img.lineAt

/-- `parse.nas`'s variables behind `parseBufferLen`, as the array of 15
words they are: three fields of two words each, the four entries of
`paramsList`, and `paramsListLen`. -/
@[irreducible]
def varAt (i : Nat) : Word := img.parseAt + BitVec.ofNat 16 (514 + 2 * i)

/-- The address of a text of `logic.nas`. -/
def text (t : Text) : Word := img.constAt + BitVec.ofNat 16 t.before.length

-- ------------------------------------------------ the sections as sets

def constData : Set Word := region img.constAt constSize
def parseData : Set Word := region img.parseAt parseSize
def outData : Set Word := region img.outAt outSize
def outReach : Set Word := region img.outAt outSpill
def logData : Set Word := region img.logAt logSize
def lineData : Set Word := region img.lineAt lineSize
def nullData (_ : Image) : Set Word := region 0 nullSize

theorem logBuffer_subset : region img.logBuffer 512 ⊆ img.logData :=
  region_subset (a := img.logAt) (i := 2) (n := 512) (k := 514)
    (Nat.le_refl 514)

theorem outData_subset_outReach : img.outData ⊆ img.outReach :=
  region_mono (by decide)

theorem const_fits : img.constAt.toNat + constSize ≤ 65536 :=
  img.fits (img.constAt, constSize) (by simp)

theorem parse_fits : img.parseAt.toNat + parseSize ≤ 65536 :=
  img.fits (img.parseAt, parseSize) (by simp)

theorem out_fits : img.outAt.toNat + outSpill ≤ 65536 :=
  img.fits (img.outAt, outSpill) (by simp)

theorem log_fits : img.logAt.toNat + logSize ≤ 65536 :=
  img.fits (img.logAt, logSize) (by simp)

theorem line_fits : img.lineAt.toNat + lineSize ≤ 65536 :=
  img.fits (img.lineAt, lineSize) (by simp)

/-- Two of the sections that keep apart, by their places in `apart`. -/
theorem apart_of (i j : Fin 5) (hij : i < j) :
    Apart
      ([(0, nullSize), (img.constAt, constSize), (img.parseAt, parseSize),
        (img.logAt, logSize), (img.outAt, outSpill)].get i)
      ([(0, nullSize), (img.constAt, constSize), (img.parseAt, parseSize),
        (img.logAt, logSize), (img.outAt, outSpill)].get j) :=
  List.pairwise_iff_get.mp img.apart i j hij

theorem null_disjoint_parse : Disjoint img.nullData img.parseData :=
  Apart.disjoint (p := (0, nullSize)) (q := (img.parseAt, parseSize))
    (by decide) img.parse_fits (img.apart_of 0 2 (by decide))

theorem null_disjoint_log : Disjoint img.nullData img.logData :=
  Apart.disjoint (p := (0, nullSize)) (q := (img.logAt, logSize))
    (by decide) img.log_fits (img.apart_of 0 3 (by decide))

theorem null_disjoint_out : Disjoint img.nullData img.outReach :=
  Apart.disjoint (p := (0, nullSize)) (q := (img.outAt, outSpill))
    (by decide) img.out_fits (img.apart_of 0 4 (by decide))

theorem const_disjoint_parse : Disjoint img.constData img.parseData :=
  Apart.disjoint (p := (img.constAt, constSize)) (q := (img.parseAt, parseSize))
    img.const_fits img.parse_fits (img.apart_of 1 2 (by decide))

theorem const_disjoint_log : Disjoint img.constData img.logData :=
  Apart.disjoint (p := (img.constAt, constSize)) (q := (img.logAt, logSize))
    img.const_fits img.log_fits (img.apart_of 1 3 (by decide))

theorem const_disjoint_out : Disjoint img.constData img.outReach :=
  Apart.disjoint (p := (img.constAt, constSize)) (q := (img.outAt, outSpill))
    img.const_fits img.out_fits (img.apart_of 1 4 (by decide))

theorem parse_disjoint_log : Disjoint img.parseData img.logData :=
  Apart.disjoint (p := (img.parseAt, parseSize)) (q := (img.logAt, logSize))
    img.parse_fits img.log_fits (img.apart_of 2 3 (by decide))

theorem parse_disjoint_out : Disjoint img.parseData img.outReach :=
  Apart.disjoint (p := (img.parseAt, parseSize)) (q := (img.outAt, outSpill))
    img.parse_fits img.out_fits (img.apart_of 2 4 (by decide))

/-- `lineBuffer` keeps apart from what the others are. -/
theorem line_disjoint {p : Word × Nat}
    (hp : p ∈ [(0, nullSize), (img.constAt, constSize),
      (img.parseAt, parseSize), (img.logAt, logSize),
      (img.outAt, outSize)]) (hfits : p.1.toNat + p.2 ≤ 65536) :
    Disjoint img.lineData (region p.1 p.2) :=
  Apart.disjoint (p := (img.lineAt, lineSize)) img.line_fits hfits
    (img.line_apart p hp)

theorem line_disjoint_parse : Disjoint img.lineData img.parseData :=
  img.line_disjoint (p := (img.parseAt, parseSize)) (by simp)
    img.parse_fits

theorem line_disjoint_log : Disjoint img.lineData img.logData :=
  img.line_disjoint (p := (img.logAt, logSize)) (by simp) img.log_fits

theorem log_disjoint_out : Disjoint img.logData img.outReach :=
  Apart.disjoint (p := (img.logAt, logSize)) (q := (img.outAt, outSpill))
    img.log_fits img.out_fits (img.apart_of 3 4 (by decide))

end Image

/-- `parseBufferLenMax equ $ - parseBuffer` -/
def parseBufferLenMax : Word := 512
/-- `paramsListEntryLen equ 4` -/
def paramsListEntryLen : Word := 4
/-- `paramsListMax equ ($ - paramsList) / paramsListEntryLen` -/
def paramsListMax : Word := 4
/-- `outBufferMax equ $ - outBuffer` -/
def outBufferMax : Word := 512
/-- `logBufferLen equ $ - logBuffer` -/
def logBufferLen : Word := 512
/-- `lineBufferLen equ $ - lineBuffer` -/
def lineBufferLen : Word := 512

end Pdtb
