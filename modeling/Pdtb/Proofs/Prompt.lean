/-
Who is due an answer gets one. In a world in which every line is due one,
every send goes well and the server stays, each line costs a send: there
is one for the credentials and one for each line dispatched.
-/
import Pdtb.Proofs.Commands
import Pdtb.Proofs.Lines
import Mathlib.Data.List.Induction

namespace Pdtb.Asm

open Lib Irc

variable {img : Image} {w : World} {C : Mem 16 Byte → List Byte → Prop}
  {s₀ : Bot} {r : Run} {ls : List (List Byte)}

/-- Where the bot stands after lines that are all due an answer. -/
def standing (ls : List (List Byte)) : BotState :=
  if ls = [] then .start else .idle

/-- The line behind `ls` is due an answer, and there is room for it. -/
def DueAfter (ls : List (List Byte)) (inp : List Byte) : Prop :=
  ∃ msg, parse 512 inp = some msg ∧ (answer (standing ls) msg).1 ≠ []
    ∧ (answer (standing ls) msg).1.length ≤ 512

/-- Every line is. -/
def Due (ls : List (List Byte)) : Prop :=
  ∀ before inp, before ++ [inp] <+: ls → DueAfter before inp

theorem Due.mono {ls' : List (List Byte)} (h : Due ls) (hpre : ls' <+: ls) :
    Due ls' := fun before inp hbefore => h before inp (hbefore.trans hpre)

/-- Whoever gets an answer is past the server's 004. -/
theorem answer_idle {st : BotState} {msg : Msg}
    (h : (answer st msg).1 ≠ []) : (answer st msg).2 = .idle := by
  cases st with
  | start =>
      simp only [answer] at h ⊢
      split
      · rfl
      · next hcmd =>
          rw [if_neg hcmd] at h
          exact absurd rfl h
  | idle =>
      simp only [answer]
      split
      · rfl
      · split
        · rfl
        · rfl

/-- A session over lines that are due answers stands where they lead. -/
theorem Session.standing {m₀ m : Mem 16 Byte} (h : Session img C m₀ ls m)
    (hdue : Due ls) :
    m.word img.botState = Asm.handler img (Asm.standing ls) := by
  induction ls using List.reverseRecOn generalizing m with
  | nil => exact session_start h
  | append_singleton ls inp ih =>
      obtain ⟨msg, hparse, hans, hlen⟩ := hdue ls inp (List.prefix_refl _)
      have hbefore := hdue.mono (List.prefix_append ls [inp])
      obtain ⟨s, t, rfl, hd, hact, hst⟩ := Session.owed ls (Asm.standing ls)
        h hparse (fun m' hm' => ih hm' hbefore) hans
      have hne : ls ++ [inp] ≠ [] := List.append_ne_nil_of_right_ne_nil _
        (List.cons_ne_nil _ _)
      rw [hd.state hst, hact, answer_idle hans, Asm.standing, if_neg hne]
      rw [hact]
      omega

/-- The labels where a session is under way. -/
def Label.underWay : Label → Bool
  | .stateGetPacket | .stateAppendLine | .copyLoop | .stateSkipLine
  | .stateDispatch | .finish => true
  | _ => false

/-- Each line dispatched so far was answered. -/
def Run.Prompt (r : Run) : Prop :=
  r.label.underWay = true → r.sends = 1 + r.lines.length

theorem Run.Prompt.keep {r' : Run} (h : r.Prompt)
    (hway : r.label.underWay = true) (hsends : r'.sends = r.sends)
    (hevents : r'.events = r.events) : r'.Prompt := by
  intro _
  rw [hsends, Run.lines, hevents]
  exact h hway

theorem prompt_stateStart {cs : List Byte}
    (hcs : credentials s₀.dev = some cs) (hlabel : r.label = .stateStart)
    (hat : At img w C s₀ r) : (step img w r).Prompt := by
  simp only [At, hlabel] at hat
  rw [hat, step_stateStart_some hcs rfl]
  intro _
  rfl

/-- A line that is due an answer is given one. -/
theorem prompt_stateDispatch (hok : w.Delivers) (hdue : Due (whole w).2)
    (hlabel : r.label = .stateDispatch) (hat : At img w C s₀ r)
    (h : r.Prompt) : (step img w r).Prompt := by
  have hsends := h (by rw [hlabel]; rfl)
  simp only [At, hlabel] at hat
  obtain ⟨hlive, held, cur, hline, -, hrest, -, hne⟩ := hat
  obtain ⟨m, hsession, hown⟩ := hlive.session
  have hpre : r.lines ++ [held] <+: (whole w).2 := by
    rw [hrest]
    simp only [Framed.andThen]
    exact (List.prefix_append_right_inj _).mpr (List.prefix_append _ _)
  obtain ⟨msg, hparse, hans, -⟩ := hdue _ _ hpre
  have hbefore := hdue.mono ((List.prefix_append _ _).trans hpre)
  rw [← dispatchArgs_mem img r.cpu] at hown
  have hstate : (dispatchArgs img r.cpu).mem.word img.botState
      = handler img (standing r.lines) := by
    rw [← hsession.standing hbefore]
    exact Mem.word_congr (hown.mono botState_subset_own)
  have hd := hlive.dispatch hline hne
  generalize hreturns : dispatchLine img (dispatchArgs img r.cpu) = o at hd
  cases hd with
  | reject hnone =>
      rw [hnone] at hparse
      cases hparse
  | astray hno _ => exact absurd hstate (hno _)
  | @accept st' msg' t hst' hparse' hd =>
      cases handler_inj (hstate.symm.trans hst')
      rw [hparse] at hparse'
      cases hparse'
      have hact : act img (dispatchArgs img r.cpu).mem (standing r.lines)
          msg = answer (standing r.lines) msg := act_answer _ hans
      have hcx : t.cx ≠ 0 := hd.heard (by rw [hact]; exact hans)
      rw [step_stateDispatch_some hlabel hline hne hreturns,
        Run.dispatched, if_neg hcx, Run.sendPacket_ok _ rfl (hok.ax _ _)]
      intro _
      simp only [Run.lines, List.filterMap_append, List.length_append]
        at hsends ⊢
      rw [hsends]
      rfl

theorem prompt_stateGetPacket (hlabel : r.label = .stateGetPacket)
    (h : r.Prompt) : (step img w r).Prompt := by
  rw [step_stateGetPacket img w hlabel, Run.getPacket]
  split
  · intro hway
    cases hquit : w.quit
    · rw [hquit] at hway
      cases hway
    · rw [hquit] at hway
      cases hway
  · exact h.keep (by rw [hlabel]; rfl) rfl rfl

/-- The run goes on answering. -/
theorem prompt_step (hok : w.Delivers) {cs : List Byte}
    (hcs : credentials s₀.dev = some cs) (hdue : Due (whole w).2)
    (hat : At img w C s₀ r) (h : r.Prompt) : (step img w r).Prompt := by
  have hsilent : ∀ r' : Run, r'.label.underWay = false → r'.Prompt := by
    intro r' hlabel hway
    rw [hlabel] at hway
    cases hway
  cases hlabel : r.label with
  | asmRun =>
      apply hsilent
      simp only [step, hlabel]
      rfl
  | stateStart => exact prompt_stateStart hcs hlabel hat
  | stateGetPacket => exact prompt_stateGetPacket hlabel h
  | stateAppendLine =>
      simp only [step, hlabel]
      exact h.keep (by rw [hlabel]; rfl) rfl rfl
  | copyLoop =>
      simp only [step, hlabel]
      exact h.keep (by rw [hlabel]; rfl) rfl rfl
  | stateSkipLine =>
      simp only [step, hlabel]
      exact h.keep (by rw [hlabel]; rfl) rfl rfl
  | stateDispatch => exact prompt_stateDispatch hok hdue hlabel hat h
  | finish =>
      simp only [step, hlabel]
      exact h.keep (by rw [hlabel]; rfl) rfl rfl
  | stateQuit =>
      apply hsilent
      simp only [step, hlabel]
      rfl
  | stateDisconnect =>
      apply hsilent
      simp only [step, hlabel]
      rfl
  | stateEnd =>
      apply hsilent
      simp only [step, hlabel]
      rfl
  | returned =>
      apply hsilent
      simp only [step, hlabel]
      rfl
  | astray =>
      apply hsilent
      simp only [step, hlabel]
      rfl

theorem prompt_steps (hw : w.Apart img) (hok : w.Delivers)
    (hfresh : Fresh img s₀.mem) {cs : List Byte}
    (hcs : credentials s₀.dev = some cs) (hdue : Due (whole w).2) (n : Nat) :
    (steps img w n (w.start s₀)).Prompt := by
  induction n with
  | zero =>
      intro hway
      cases hway
  | succ n ih =>
      have hat := at_steps (C := fun _ _ => True) hw hfresh
        (fun _ _ => trivial) n
      rw [steps_succ]
      exact prompt_step hok hcs hdue hat ih

/-- When the stream is used up, the credentials were sent and an answer to
each line. -/
theorem Run.Prompt.drained (h : r.Prompt) (hat : At img w C s₀ r)
    (hdrained : r.Drained) : r.sends = 1 + (whole w).2.length := by
  rw [← (hat.drained hdrained).1]
  refine h ?_
  rw [hdrained.1]
  rfl

end Pdtb.Asm
