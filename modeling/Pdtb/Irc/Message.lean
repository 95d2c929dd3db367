/-
An IRC message and its parse, over lists: what `parse.nas` computes, free
of registers and addresses. `parse` goes through the parts in the order
the assembly does and carries the one thing that ties them together, the
room left in the buffer all of them are copied to.
-/
import Pdtb.Image
import Pdtb.Lib.Scan

namespace Pdtb.Irc

open Lib

/-- Where a word ends: at a space or CR. -/
def endsWord (b : Byte) : Bool := b == space || b == cr

/-- Where a parameter behind `':'` ends: at CR. -/
def isCR (b : Byte) : Bool := b == cr

/-- Where spaces end. -/
def notSpace (b : Byte) : Bool := b != space

/-- A message: tags and prefix without their markers, the command, and
the parameters. -/
structure Msg where
  tags : List Byte
  pfx : List Byte
  cmd : List Byte
  params : List (List Byte)
  deriving DecidableEq

/-- All of a message that is kept, in the order it is kept. -/
def Msg.bytes (m : Msg) : List Byte :=
  m.tags ++ m.pfx ++ m.cmd ++ m.params.flatten

theorem Msg.length_bytes (m : Msg) :
    m.bytes.length = m.tags.length + m.pfx.length + m.cmd.length
      + m.params.flatten.length := by
  simp only [Msg.bytes, List.length_append]

/-- What is kept in front of parameter `i`. -/
def Msg.before (m : Msg) (i : Nat) : List Byte :=
  m.tags ++ m.pfx ++ m.cmd ++ (m.params.take i).flatten

/-- A parameter's place among what is kept. -/
theorem Msg.bytes_split (m : Msg) {i : Nat} (hi : i < m.params.length) :
    m.bytes = m.before i ++ m.params[i]
      ++ (m.params.drop (i + 1)).flatten := by
  have hparams : m.params.flatten = (m.params.take i).flatten
      ++ (m.params[i] ++ (m.params.drop (i + 1)).flatten) := by
    rw [← List.flatten_cons, ← List.drop_eq_getElem_cons hi,
      ← List.flatten_append, List.take_append_drop]
  rw [Msg.bytes, Msg.before, hparams]
  simp only [List.append_assoc]

/-- How many parameters are too many. -/
def slotMax : Nat := 4

/-- A part that is there only if its marker comes next: its word, and
what follows the spaces behind it. -/
def wordIf (mark : Byte) (room : Nat) :
    List Byte → Option (List Byte × List Byte)
  | [] => none
  | b :: inp =>
      if b = mark then
        (scan endsWord room inp).bind fun (w, rest) =>
          (skip notSpace rest).map fun rest => (w, rest)
      else some ([], b :: inp)

/-- One parameter, behind its spaces: all up to CR if it is marked, a
word if not. -/
def slot (room : Nat) : List Byte → Option (List Byte × List Byte)
  | [] => none
  | b :: inp =>
      if b = colon then scan isCR room inp
      else scan endsWord room (b :: inp)

/-- At most `n` parameters, until CR. -/
def slots : Nat → Nat → List Byte → Option (List (List Byte) × List Byte)
  | 0, _, _ => none
  | n + 1, room, inp =>
      (skip notSpace inp).bind fun inp =>
        (slot room inp).bind fun (p, rest) =>
          if rest.head? = some cr then some ([p], rest)
          else
            (slots n (room - p.length) rest).map fun (ps, rest) =>
              (p :: ps, rest)

/-- What is behind CR LF, if that comes next. -/
def lineEnd : List Byte → Option (List Byte)
  | b :: c :: rest => if b = cr ∧ c = lf then some rest else none
  | _ => none

/-- A message, with `room` bytes to keep it in, and what follows it. -/
def message (room : Nat) (inp : List Byte) : Option (Msg × List Byte) :=
  (wordIf atSign room inp).bind fun (tags, inp) =>
  (wordIf colon (room - tags.length) inp).bind fun (pfx, inp) =>
  (scan endsWord (room - tags.length - pfx.length) inp).bind
      fun (cmd, inp) =>
  (slots (slotMax - 1) (room - tags.length - pfx.length - cmd.length)
      inp).bind fun (params, inp) =>
  (lineEnd inp).map fun rest => (⟨tags, pfx, cmd, params⟩, rest)

/-- The parse of a line: a message and nothing behind it. -/
def parse (room : Nat) (inp : List Byte) : Option Msg :=
  (message room inp).bind fun (msg, rest) =>
  if rest = [] then some msg else none

end Pdtb.Irc
