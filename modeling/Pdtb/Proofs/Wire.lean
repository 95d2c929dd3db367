/-
A run of the program is a run of `asmRun` in a world: the world whose
packets are those that `recvNewPacket` hands over and whose answers are
those that `sendNewBuffer` gives (`steps_in_world`). So what is proved
about worlds holds of the program.

A step of the assembly looks at the world in `recvNewPacket` and when it
sends (`sending`), and nowhere else.
-/
import Pdtb.Net.Bot
import Pdtb.Proofs.Loop

namespace Pdtb.Net

open Lib Asm

variable {h : Host} {img : Image} {w w' : World} {r : Run} {t : Turn}
  {s : Sys} {n : Globals} {len : Word} {ans : Answer} {ps : List Packet}

-- ==================================================== a step and its world

/-- What `sendPacket` returns for an answer. -/
def result (ans : Answer) : Word := if ans.buffer = 0 then 10 else ans.rc

theorem sendPacket_ax (ans : Answer) (s : Bot) :
    (Asm.sendPacket ans s).ax = result ans := by
  unfold Asm.sendPacket result
  simp only
  split
  · rfl
  · rfl

theorem sendPacket_failed (next : Label)
    (hfail : result (w.answers r.sends) ≠ 0) :
    (Run.sendPacket w next r).label = .stateEnd := by
  simp only [Run.sendPacket, sendPacket_ax]
  rw [if_pos hfail]

/-- Where the code sends. -/
theorem label_of_sending (hs : sending img r = some len) :
    r.label = .stateStart ∨ r.label = .stateDispatch
      ∨ r.label = .stateQuit := by
  unfold sending at hs
  split at hs
  · next hl => exact Or.inl hl
  · next hl => exact Or.inr (Or.inl hl)
  · next hl => exact Or.inr (Or.inr hl)
  · cases hs

theorem label_ne_of_sending (hs : sending img r = some len) :
    r.label ≠ .stateGetPacket := by
  rcases label_of_sending hs with hl | hl | hl
  · rw [hl]
    decide
  · rw [hl]
    decide
  · rw [hl]
    decide

variable (ps) in
theorem sendPacket_congr (r : Run) (next : Label)
    (hans : w.answers r.sends = w'.answers r.sends) :
    Run.sendPacket w next { r with packets := ps }
      = { Run.sendPacket w' next r with packets := ps } := by
  simp only [Run.sendPacket, hans]

/-- Steps that are given the same answer are the same. -/
theorem step_congr (hlabel : r.label ≠ .stateGetPacket)
    (hans : w.answers r.sends = w'.answers r.sends) :
    step img w { r with packets := ps }
      = { step img w' r with packets := ps } := by
  cases hl : r.label with
  | stateGetPacket => exact absurd hl hlabel
  | stateStart =>
      simp only [step, hl]
      generalize dispatchInit img r.cpu = s
      have hsend := sendPacket_congr ps { r with cpu := s }
        .stateGetPacket hans
      simp only [hl] at hsend
      rw [hsend]
      generalize Run.sendPacket w' .stateGetPacket _ = r'
      split
      · rfl
      · split
        · rfl
        · rfl
  | stateDispatch =>
      simp only [step, hl]
      split
      · rfl
      · next t _ =>
          split
          · rfl
          · exact sendPacket_congr ps
              { r with cpu := t, events := _ } _ hans
  | stateQuit =>
      simp only [step, hl]
      have hsend := sendPacket_congr ps
        { r with cpu := dispatchExit img r.cpu } .stateDisconnect hans
      simp only [hl] at hsend
      rw [hsend]
  | asmRun => simp only [step, hl]
  | stateAppendLine => simp only [step, hl]
  | copyLoop => simp only [step, hl]
  | stateSkipLine => simp only [step, hl]
  | finish => simp only [step, hl]
  | stateDisconnect => simp only [step, hl]
  | stateEnd => simp only [step, hl]
  | returned => simp only [step, hl]
  | astray => simp only [step, hl]

/-- Code that does not send does not ask. -/
theorem step_quiet (hlabel : r.label ≠ .stateGetPacket)
    (hs : sending img r = none) : step img w r = step img w' r := by
  cases hl : r.label with
  | stateGetPacket => exact absurd hl hlabel
  | stateStart =>
      simp only [sending, hl] at hs
      simp only [step, hl]
      generalize dispatchInit img r.cpu = s at hs ⊢
      split
      · rfl
      · next hax =>
          rw [if_neg hax] at hs
          cases hs
  | stateDispatch =>
      simp only [sending, hl] at hs
      simp only [step, hl]
      split
      · rfl
      · next t ht =>
          rw [ht] at hs
          simp only at hs
          split
          · rfl
          · next hcx =>
              rw [if_neg hcx] at hs
              cases hs
  | stateQuit =>
      simp only [sending, hl] at hs
      cases hs
  | asmRun => simp only [step, hl]
  | stateAppendLine => simp only [step, hl]
  | copyLoop => simp only [step, hl]
  | stateSkipLine => simp only [step, hl]
  | finish => simp only [step, hl]
  | stateDisconnect => simp only [step, hl]
  | stateEnd => simp only [step, hl]
  | returned => simp only [step, hl]
  | astray => simp only [step, hl]

/-- `sends` counts. -/
theorem step_sends (img : Image) (w : World) (r : Run) :
    (step img w r).sends
      = r.sends + if (sending img r).isSome then 1 else 0 := by
  cases hl : r.label with
  | stateGetPacket =>
      simp only [step, sending, hl, Run.getPacket]
      split
      · rfl
      · rfl
  | stateStart =>
      simp only [step, sending, hl]
      generalize dispatchInit img r.cpu = s
      split
      · rfl
      · split
        · rfl
        · rfl
  | stateDispatch =>
      simp only [step, sending, hl]
      generalize dispatchLine img _ = o
      cases o with
      | none => rfl
      | some t =>
          simp only
          split
          · rfl
          · rfl
  | stateQuit => simp only [step, sending, hl, Run.sendPacket]; rfl
  | asmRun => simp only [step, sending, hl]; rfl
  | stateAppendLine => simp only [step, sending, hl]; rfl
  | copyLoop => simp only [step, sending, hl]; rfl
  | stateSkipLine => simp only [step, sending, hl]; rfl
  | finish => simp only [step, sending, hl]; rfl
  | stateDisconnect => simp only [step, sending, hl]; rfl
  | stateEnd => simp only [step, sending, hl]; rfl
  | returned => simp only [step, sending, hl]; rfl
  | astray => simp only [step, sending, hl]; rfl

-- ==================================================== the end of a run

/-- Past the last send. -/
def Ended : Label → Prop
  | .stateDisconnect => True
  | .stateEnd => True
  | .returned => True
  | _ => False

theorem Ended.label (he : Ended r.label) : r.label ≠ .stateGetPacket := by
  intro hl
  rw [hl] at he
  exact he

theorem Ended.sending (he : Ended r.label) : sending img r = none := by
  cases hs : Net.sending img r with
  | none => rfl
  | some len =>
      rcases label_of_sending hs with hl | hl | hl
      · rw [hl] at he
        cases he
      · rw [hl] at he
        cases he
      · rw [hl] at he
        cases he

theorem Ended.step (he : Ended r.label) :
    Ended (step img w r).label := by
  unfold Ended at he
  split at he
  · next hl =>
      simp only [Asm.step, hl]
      trivial
  · next hl =>
      simp only [Asm.step, hl]
      trivial
  · next hl =>
      simp only [Asm.step, hl]
      trivial
  · cases he

/-- A send that fails is the last. -/
theorem ended_of_failed (hs : sending img r = some len)
    (hfail : result (w.answers r.sends) ≠ 0) :
    Ended (step img w r).label := by
  rcases label_of_sending hs with hl | hl | hl
  · simp only [step, hl]
    generalize dispatchInit img r.cpu = s
    split
    · trivial
    · have hend := sendPacket_failed (r := { r with cpu := s })
        .stateGetPacket hfail
      simp only [hl] at hend
      rw [if_pos hend, hend]
      trivial
  · simp only [Net.sending, hl] at hs
    simp only [step, hl]
    split
    · next hnone =>
        rw [hnone] at hs
        cases hs
    · next t ht =>
        rw [ht] at hs
        simp only at hs
        split
        · next hcx =>
            rw [if_pos hcx] at hs
            cases hs
        · refine (congrArg Ended (sendPacket_failed .finish ?_)).mpr trivial
          exact hfail
  · simp only [step, hl]
    trivial

-- ==================================================== receiving

/-- The loop of `recvNewPacket` when there is a packet. -/
theorem recvNewPacket_packet {p : Packet}
    (hin : n.stack.incoming.toList = p :: ps) :
    ∃ q : RingBuffer Packet, q.toList = ps
      ∧ n.recvNewPacket h t = (.packet p, { n with
        stack := { n.stack with incoming := q }
        handed := n.handed ++ [p] }) := by
  obtain ⟨hp, hps⟩ := Ring.dequeue_cons hin
  unfold Globals.recvNewPacket
  generalize n.stack.incoming.dequeue = d at hp hps ⊢
  obtain ⟨o, q⟩ := d
  simp only at hp hps
  rw [hp]
  exact ⟨q, hps, rfl⟩

/-- And when there is none. -/
theorem recvNewPacket_empty (hin : n.stack.incoming.toList = []) :
    (n.recvNewPacket h t).2 = { n with stack := n.stack.serve h t }
      ∧ ((n.recvNewPacket h t).1 = .closed
        ↔ (n.stack.serve h t).state.isRemoteClosed = true)
      ∧ ((n.recvNewPacket h t).1 = .closed
        ∨ (n.recvNewPacket h t).1 = .quit
        ∨ (n.recvNewPacket h t).1 = .waiting) := by
  unfold Globals.recvNewPacket
  rw [Ring.dequeue_nil hin]
  simp only
  split
  · next hclosed =>
      exact ⟨rfl, iff_of_true rfl hclosed, Or.inl rfl⟩
  · next hclosed =>
      split
      · exact ⟨rfl, iff_of_false (by simp) hclosed, Or.inr (Or.inl rfl)⟩
      · exact ⟨rfl, iff_of_false (by simp) hclosed, Or.inr (Or.inr rfl)⟩

-- ==================================================== the program's steps

variable (h img t) in
theorem step_received (hlabel : s.run.label = .stateGetPacket) :
    s.step h img t = ⟨received img s.run (s.net.recvNewPacket h t).1,
      (s.net.recvNewPacket h t).2⟩ := by
  unfold Sys.step
  rw [if_pos hlabel]

/-- A step that asks nothing, in any world. -/
theorem step_unasked (w : World) (hlabel : s.run.label ≠ .stateGetPacket)
    (hs : sending img s.run = none) :
    s.step h img t = { s with run := Asm.step img w s.run } := by
  unfold Sys.step
  rw [if_neg hlabel, hs]
  simp only
  rw [step_quiet hlabel hs]

/-- A step that sends. -/
theorem step_sent (hs : sending img s.run = some len) :
    s.step h img t = ⟨Asm.step img (answering
        (s.net.sendPacket h t len).1) s.run,
      (s.net.sendPacket h t len).2⟩ := by
  unfold Sys.step
  rw [if_neg (label_ne_of_sending hs), hs]

/-- `sends` counts. -/
theorem sends_step (h : Host) (img : Image) (t : Turn) (s : Sys) :
    (s.step h img t).run.sends
      = s.run.sends + if (sending img s.run).isSome then 1 else 0 := by
  by_cases hlabel : s.run.label = .stateGetPacket
  · have hnone : sending img s.run = none := by
      simp only [sending, hlabel]
    rw [step_received h img t hlabel, hnone]
    cases (s.net.recvNewPacket h t).1 with
    | waiting => rfl
    | packet q => simp only [received, Asm.step, hlabel, Run.getPacket]; rfl
    | closed => simp only [received, Asm.step, hlabel, Run.getPacket]; rfl
    | quit => simp only [received, Asm.step, hlabel, Run.getPacket]; rfl
  · cases hs : sending img s.run with
    | none =>
        rw [step_unasked (asked false) hlabel hs]
        simp only
        rw [step_sends, hs]
    | some len =>
        rw [step_sent hs]
        simp only
        rw [step_sends, hs]

-- ==================================================== in a world

/-- What is left of the program's run, once `recvNewPacket` has returned
for the last time. -/
def Leaving : Label → Prop
  | .stateQuit => True
  | l => Ended l

theorem Leaving.label (hl : Leaving r.label) :
    r.label ≠ .stateGetPacket := by
  intro hget
  rw [hget] at hl
  exact hl

theorem Leaving.step (hl : Leaving r.label) :
    Leaving (Asm.step img w r).label := by
  unfold Leaving at hl
  split at hl
  · next hquit =>
      simp only [Asm.step, hquit]
      trivial
  · have hended : Ended (Asm.step img w r).label := Ended.step hl
    unfold Leaving
    split
    · trivial
    · exact hended

/-- `k` steps lead to where the program is, in each world with the
packets that were handed over and `more`, and with the answers that were
given. -/
def Runs (img : Image) (s₀ : Bot) (s : Sys) (as : Nat → Answer) (k : Nat)
    (quit : Bool) (more : List Packet) : Prop :=
  ∀ w : World, w.packets = s.net.handed ++ more → w.quit = quit →
    (∀ i < s.run.sends, w.answers i = as i) →
    Asm.steps img w k (w.start s₀) = { s.run with packets := more }

/-- The program's run is one in a world, to which more packets may come as
long as `recvNewPacket` may be called. -/
def InWorld (img : Image) (s₀ : Bot) (s : Sys) : Prop :=
  ∃ as k, (∀ quit more, Runs img s₀ s as k quit more)
    ∨ (Leaving s.run.label ∧ ∃ quit, Runs img s₀ s as k quit [])

section

variable {s₀ : Bot} {as : Nat → Answer} {k : Nat} {quit : Bool}
  {more : List Packet}

variable (img as quit more) in
/-- `main` begins in any world. -/
theorem Runs.main (stack : Stack) (s₀ : Bot) :
    Runs img s₀ (Sys.main stack s₀) as 0 quit more := by
  intro w hpackets _ _
  simp only [Sys.main, List.nil_append] at hpackets
  simp only [Asm.steps, Function.iterate_zero, id_eq, World.start,
    Sys.main, asked, hpackets]

theorem Runs.unasked (hrun : Runs img s₀ s as k quit more)
    (hlabel : s.run.label ≠ .stateGetPacket)
    (hs : sending img s.run = none) :
    Runs img s₀ (s.step h img t) as (k + 1) quit more := by
  intro w hpackets hquit hanswers
  rw [step_unasked w hlabel hs] at hpackets hanswers ⊢
  have hsends : (Asm.step img w s.run).sends = s.run.sends := by
    rw [step_sends, hs]
    rfl
  rw [hsends] at hanswers
  rw [steps_succ, hrun w hpackets hquit hanswers]
  exact step_congr hlabel rfl

/-- Sending hands over nothing. -/
theorem sendPacket_handed (h : Host) (t : Turn) (len : Word)
    (n : Globals) : (n.sendPacket h t len).2.handed = n.handed := by
  unfold Globals.sendPacket Globals.sendNewBuffer
  simp only
  split
  · rfl
  · split
    · rfl
    · split
      · rfl
      · split
        · rfl
        · split
          · rfl
          · rfl

theorem Runs.sent (hrun : Runs img s₀ s as k quit more)
    (hs : sending img s.run = some len) :
    Runs img s₀ (s.step h img t)
      (Function.update as s.run.sends (s.net.sendPacket h t len).1)
      (k + 1) quit more := by
  intro w hpackets hquit hanswers
  rw [step_sent hs] at hpackets hanswers ⊢
  simp only at hpackets hanswers ⊢
  rw [sendPacket_handed] at hpackets
  have hsends : (Asm.step img (answering (s.net.sendPacket h t len).1)
      s.run).sends = s.run.sends + 1 := by
    rw [step_sends, hs]
    rfl
  rw [hsends] at hanswers
  have hans := hanswers s.run.sends (Nat.lt_succ_self _)
  rw [Function.update_self] at hans
  rw [steps_succ, hrun w hpackets hquit ?_]
  · exact step_congr (label_ne_of_sending hs) hans
  · intro i hi
    rw [hanswers i (hi.trans (Nat.lt_succ_self _)),
      Function.update_of_ne (Nat.ne_of_lt hi)]

/-- A packet is the next one of the world. -/
theorem Runs.packet {p : Packet}
    (hrun : Runs img s₀ s as k quit (p :: more))
    (hlabel : s.run.label = .stateGetPacket)
    (hin : s.net.stack.incoming.toList = p :: ps) :
    Runs img s₀ (s.step h img t) as (k + 1) quit more := by
  obtain ⟨q, -, hgot⟩ := recvNewPacket_packet (h := h) (t := t) hin
  intro w hpackets hquit hanswers
  rw [step_received h img t hlabel, hgot] at hpackets hanswers ⊢
  simp only [received, Asm.step, hlabel, Run.getPacket] at hanswers ⊢
  rw [List.append_assoc, List.singleton_append] at hpackets
  rw [steps_succ, hrun w hpackets hquit hanswers]
  simp only [Asm.step, hlabel, Run.getPacket]

/-- The loop ends without one, where the world has none left. -/
theorem Runs.ended {got : Received} (hrun : Runs img s₀ s as k quit [])
    (hlabel : s.run.label = .stateGetPacket)
    (hin : s.net.stack.incoming.toList = [])
    (hgot : (s.net.recvNewPacket h t).1 = got)
    (hend : received img s.run got
      = Asm.step img (asked quit) { s.run with packets := [] }) :
    Runs img s₀ (s.step h img t) as (k + 1) quit [] := by
  obtain ⟨hnext, -⟩ := recvNewPacket_empty (h := h) (t := t) hin
  intro w hpackets hquit hanswers
  rw [step_received h img t hlabel, hnext, hgot, hend] at hpackets hanswers ⊢
  simp only [Asm.step, hlabel, Run.getPacket, asked] at hanswers ⊢
  rw [steps_succ, hrun w hpackets hquit hanswers]
  subst hquit
  simp only [Asm.step, hlabel, Run.getPacket]
  rfl

/-- The two ends are the two ends of a world. -/
theorem received_closed :
    received img r .closed
      = Asm.step img (asked false) { r with packets := [] } := rfl

theorem received_quit :
    received img r .quit
      = Asm.step img (asked true) { r with packets := [] } := rfl

theorem leaving_received (hlabel : r.label = .stateGetPacket)
    (quit : Bool) :
    Leaving (Asm.step img (asked quit) { r with packets := [] }).label := by
  simp only [Asm.step, hlabel, Run.getPacket, asked]
  cases quit
  · trivial
  · trivial

theorem InWorld.main (stack : Stack) (s₀ : Bot) :
    InWorld img s₀ (Sys.main stack s₀) :=
  ⟨fun _ => ⟨0, 0, 0⟩, 0,
    Or.inl fun quit more => .main img _ quit more stack s₀⟩

theorem InWorld.step (hs : InWorld img s₀ s) :
    InWorld img s₀ (s.step h img t) := by
  obtain ⟨as, k, hruns⟩ := hs
  by_cases hlabel : s.run.label = .stateGetPacket
  · rcases hruns with hruns | ⟨hleaving, -⟩
    · cases hin : s.net.stack.incoming.toList with
      | cons p ps =>
          exact ⟨as, k + 1, Or.inl fun quit more =>
            (hruns quit (p :: more)).packet hlabel hin⟩
      | nil =>
          obtain ⟨hnext, -, hgot⟩ :=
            recvNewPacket_empty (h := h) (t := t) hin
          have hstep := step_received h img t hlabel
          rcases hgot with hgot | hgot | hgot
          · refine ⟨as, k + 1, Or.inr ⟨?_, false, (hruns false []).ended
              hlabel hin hgot received_closed⟩⟩
            rw [hstep, hgot]
            exact leaving_received hlabel false
          · refine ⟨as, k + 1, Or.inr ⟨?_, true, (hruns true []).ended
              hlabel hin hgot received_quit⟩⟩
            rw [hstep, hgot]
            exact leaving_received hlabel true
          · refine ⟨as, k, Or.inl fun quit more => ?_⟩
            rw [hstep, hnext, hgot]
            exact hruns quit more
    · exact absurd hlabel hleaving.label
  · have hleft : Leaving s.run.label → Leaving (s.step h img t).run.label := by
      intro hleaving
      cases hs : sending img s.run with
      | none =>
          rw [step_unasked (asked false) hlabel hs]
          exact hleaving.step
      | some len =>
          rw [step_sent hs]
          exact hleaving.step
    have hnext : ∃ as', ∀ quit more, Runs img s₀ s as k quit more →
        Runs img s₀ (s.step h img t) as' (k + 1) quit more := by
      cases hs : sending img s.run with
      | none =>
          exact ⟨as, fun quit more hrun => hrun.unasked hlabel hs⟩
      | some len =>
          exact ⟨_, fun quit more hrun => hrun.sent hs⟩
    obtain ⟨as', hnext⟩ := hnext
    rcases hruns with hruns | ⟨hleaving, quit, hrun⟩
    · exact ⟨as', k + 1,
        Or.inl fun quit more => hnext quit more (hruns quit more)⟩
    · exact ⟨as', k + 1,
        Or.inr ⟨hleft hleaving, quit, hnext quit [] hrun⟩⟩

end

variable (h img) in
theorem inWorld_steps (stack : Stack) (s₀ : Bot) (turns : Nat → Turn)
    (n : Nat) :
    InWorld img s₀ (Sys.steps h img turns n (Sys.main stack s₀)) := by
  induction n with
  | zero => exact .main stack s₀
  | succ n ih => exact ih.step

variable (h img) in
/-- Wherever the program gets, `asmRun` gets in a world whose packets are
those that were handed over. -/
theorem steps_in_world (stack : Stack) (s₀ : Bot) (turns : Nat → Turn)
    (n : Nat) :
    ∃ (w : World) (k : Nat),
      w.packets
          = (Sys.steps h img turns n (Sys.main stack s₀)).net.handed
        ∧ { (Sys.steps h img turns n (Sys.main stack s₀)).run with
            packets := [] } = Asm.steps img w k (w.start s₀) := by
  obtain ⟨as, k, hruns⟩ := inWorld_steps h img stack s₀ turns n
  generalize Sys.steps h img turns n (Sys.main stack s₀) = s at hruns ⊢
  have hrun : ∃ quit, Runs img s₀ s as k quit [] := by
    rcases hruns with hruns | ⟨-, hrun⟩
    · exact ⟨false, hruns false []⟩
    · exact hrun
  obtain ⟨quit, hrun⟩ := hrun
  refine ⟨⟨s.net.handed, quit, as⟩, k, rfl, ?_⟩
  exact (hrun _ (List.append_nil _).symm rfl fun _ _ => rfl).symm

end Pdtb.Net
