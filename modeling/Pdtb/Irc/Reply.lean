/-
What the bot is for: the answer it owes a message. It waits for the
server's 004, asks for its capabilities and joins; from then on it
answers a PING with a PONG and a greeting with a greeting.

`answer` is stated over messages alone. The handlers of `logic.nas` do
not compare commands but the bytes at a pointer, so what they do is not
always this; where it is and where it is not is what the proofs about
them are about.
-/
import Pdtb.Irc.Message

namespace Pdtb.Irc

open Lib

/-- Where the bot stands: before the server's 004, or past it. -/
inductive BotState where
  | start
  | idle
  deriving DecidableEq, Repr

/-- The reply to a PING with parameter `p`. -/
def pong (p : List Byte) : List Byte :=
  Text.pongCmd.bytes ++ [space] ++ [colon] ++ p ++ [cr] ++ [lf]

/-- The reply to a greeting in channel `p`. -/
def hello (p : List Byte) : List Byte :=
  Text.privmsgCmd.bytes ++ [space] ++ p ++ [space] ++ [colon]
    ++ Text.helloText.bytes ++ [cr] ++ [lf]

/-- What greets the bot. -/
def greeting : List Byte := ascii ">HELLO"

/-- The first parameter: there is always one, if only an empty one. -/
def Msg.target (m : Msg) : List Byte := m.params.headD []

theorem Msg.target_eq (m : Msg) (h : 0 < m.params.length) :
    m.target = m.params[0] := by
  obtain ⟨p, ps, hps⟩ := List.exists_cons_of_length_pos h
  simp only [Msg.target, hps, List.headD_cons, List.getElem_cons_zero]

/-- The first parameter is among what is kept. -/
theorem Msg.length_target (m : Msg) : m.target.length ≤ m.bytes.length := by
  rw [m.length_bytes, Msg.target]
  cases hps : m.params with
  | nil => simp
  | cons p ps =>
      rw [List.headD_cons, List.flatten_cons, List.length_append]
      omega

/-- The message greets the bot. -/
def Msg.Greets (m : Msg) : Prop :=
  m.cmd = ascii "PRIVMSG" ∧ ∃ p, m.params[1]? = some p ∧ greeting <+: p

instance (m : Msg) : Decidable m.Greets :=
  match h : m.params[1]? with
  | none => .isFalse fun ⟨_, _, hp, _⟩ => by rw [h] at hp; cases hp
  | some p =>
      decidable_of_iff (m.cmd = ascii "PRIVMSG" ∧ greeting <+: p) <| by
        simp [Msg.Greets, h]

/-- The reply a message is owed, empty for none, and where the bot
stands after it. -/
def answer : BotState → Msg → List Byte × BotState
  | .start, m =>
      if m.cmd = ascii "004" then (Text.startCmd.bytes, .idle)
      else ([], .start)
  | .idle, m =>
      if m.cmd = ascii "PING" then (pong m.target, .idle)
      else if m.Greets then (hello m.target, .idle)
      else ([], .idle)

theorem length_startCmd : Text.startCmd.bytes.length = 80 := by
  decide +kernel

theorem length_pong (p : List Byte) : (pong p).length = p.length + 8 := by
  have htext : Text.pongCmd.bytes.length = 4 := by decide
  simp only [pong, List.length_append, List.length_singleton, htext]
  omega

theorem length_hello (p : List Byte) : (hello p).length = p.length + 23 := by
  have hcmd : Text.privmsgCmd.bytes.length = 7 := by decide
  have htext : Text.helloText.bytes.length = 11 := by decide
  simp only [hello, List.length_append, List.length_singleton, hcmd, htext]
  omega

end Pdtb.Irc
