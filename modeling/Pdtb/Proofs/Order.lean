/-
What a run says, and when. `Talk` is the conversation as a grammar over
the events of a run: the credentials come first, then lines with at most
one reply each, the 004 answered once and PONGs and greetings only behind
that, and a QUIT at the end if the user asked for one. A send that fails
is the last.

A run is always somewhere in such a conversation, the label says where
(`Stands`), and `botState` holds the handler that goes with it.
-/
import Pdtb.Proofs.Lines

namespace Pdtb.Asm

open Lib Irc

variable {img : Image} {w : World} {C : Mem 16 Byte → List Byte → Prop}
  {s₀ s t : Bot} {r : Run} {inp : List Byte} {st : BotState}

-- ==================================================== the conversation

/-- How far the conversation is. -/
inductive Phase where
  /-- nothing was sent -/
  | silent
  /-- logged in, and every send went well -/
  | speaking (st : BotState)
  /-- a send did not -/
  | failed (st : BotState)
  /-- the server has closed the connection -/
  | left (st : BotState)
  /-- the QUIT was sent -/
  | quit (st : BotState)

/-- Which handler the bot is in. -/
def Phase.state : Phase → BotState
  | .silent => .start
  | .speaking st => st
  | .failed st => st
  | .left st => st
  | .quit st => st

/-- One of the two parties has left. -/
def Phase.parted : Phase → Bool
  | .left _ => true
  | .quit _ => true
  | _ => false

/-- Where a send that returned `rc` leads. -/
def Phase.sent (st : BotState) (rc : Word) : Phase :=
  if rc = 0 then .speaking st else .failed st

@[simp] theorem Phase.state_sent (st : BotState) (rc : Word) :
    (Phase.sent st rc).state = st := by
  unfold Phase.sent
  split
  · rfl
  · rfl

@[simp] theorem Phase.parted_sent (st : BotState) (rc : Word) :
    (Phase.sent st rc).parted = false := by
  unfold Phase.sent
  split
  · rfl
  · rfl

/-- The replies a line may be given in a state, and the state then. -/
inductive Replies (inp : List Byte) :
    BotState → List Byte → BotState → Prop
  | join : Replies inp .start Text.startCmd.bytes .idle
  | pong {msg : Msg} : parse 512 inp = some msg →
      Replies inp .idle (pong msg.target) .idle
  | hello {msg : Msg} : parse 512 inp = some msg →
      Replies inp .idle (hello msg.target) .idle

/-- The events of a conversation with the credentials `cs`, which ends by
the quit key or not. -/
inductive Talk (cs : Option (List Byte)) (quit : Bool) :
    Phase → List Event → Prop
  | silent : Talk cs quit .silent []
  /-- the credentials come first -/
  | login {c : List Byte} {rc : Word} : cs = some c →
      Talk cs quit (.sent .start rc) [.send c rc]
  /-- a line without a reply -/
  | heard {st : BotState} {es : List Event} {inp : List Byte} :
      Talk cs quit (.speaking st) es →
      Talk cs quit (.speaking st) (es ++ [.line inp])
  /-- a line and its reply -/
  | answered {st st' : BotState} {es : List Event} {inp reply : List Byte}
      {rc : Word} : Talk cs quit (.speaking st) es →
      Replies inp st reply st' →
      Talk cs quit (.sent st' rc) (es ++ [.line inp, .send reply rc])
  /-- the server's end -/
  | left {st : BotState} {es : List Event} : quit = false →
      Talk cs quit (.speaking st) es → Talk cs quit (.left st) es
  /-- the user's end -/
  | quit {st : BotState} {es : List Event} {rc : Word} : quit = true →
      Talk cs quit (.speaking st) es →
      Talk cs quit (.quit st) (es ++ [.send Text.quitMessage.bytes rc])

/-- The conversation is over: there were no credentials to begin it with,
a send failed, or one of the two parties has left. -/
def Over (cs : Option (List Byte)) : Phase → Prop
  | .silent => cs = none
  | .speaking _ => False
  | .failed _ => True
  | .left _ => True
  | .quit _ => True

/-- Where the conversation is at each label. -/
def Stands (cs : Option (List Byte)) (ph : Phase) : Label → Prop
  | .asmRun => ph = .silent
  | .stateStart => ph = .silent
  | .stateGetPacket => ∃ st, ph = .speaking st
  | .stateAppendLine => ∃ st, ph = .speaking st
  | .copyLoop => ∃ st, ph = .speaking st
  | .stateSkipLine => ∃ st, ph = .speaking st
  | .stateDispatch => ∃ st, ph = .speaking st
  | .finish => ∃ st, ph = .speaking st
  | .stateQuit => ∃ st, ph = .speaking st
  | .stateDisconnect => Over cs ph
  | .stateEnd => Over cs ph
  | .returned => Over cs ph
  | .astray => False

/-- `dispatchInit` has run. -/
def Label.begun : Label → Bool
  | .asmRun => false
  | .stateStart => false
  | _ => true

/-- A run in its conversation. Somebody has left when `recvNewPacket` has
said so, and it does when there are no more packets. -/
structure InTalk (img : Image) (w : World) (s₀ : Bot) (r : Run)
    (ph : Phase) : Prop where
  talk : Talk (credentials s₀.dev) w.quit ph r.events
  stands : Stands (credentials s₀.dev) ph r.label
  state : r.label.begun = true →
    r.cpu.mem.word img.botState = handler img ph.state
  packets : ph.parted = true → r.packets = []

-- ==================================================== a dispatch

theorem botState_subset_ours : region img.botState 2 ⊆ ours img :=
  botState_subset_own.trans own_subset_ours

variable (img) in
/-- What a handler does is to reply, or to say nothing and stay. -/
theorem act_replies (m : Mem 16 Byte) (st : BotState) {msg : Msg}
    (hparse : parse 512 inp = some msg) :
    act img m st msg = ([], st)
      ∨ (act img m st msg).1 ≠ []
        ∧ Replies inp st (act img m st msg).1 (act img m st msg).2 := by
  cases st with
  | start =>
      rw [act]
      split
      · exact Or.inr ⟨startCmd_ne_nil, .join⟩
      · exact Or.inl rfl
  | idle =>
      rw [act]
      split
      · exact Or.inr ⟨pong_ne_nil _, .pong hparse⟩
      · split
        · exact Or.inr ⟨hello_ne_nil _, .hello hparse⟩
        · exact Or.inl rfl

/-- A dispatch gives a reply that may be given, or none. -/
theorem Dispatch.replies {o : Option Bot} (h : Dispatch img inp s o)
    (hstate : s.mem.word img.botState = handler img st)
    (hshort : Short img 512 s.mem inp) : ∃ t, o = some t
      ∧ (t.cx = 0 ∧ t.mem.word img.botState = handler img st
        ∨ t.cx ≠ 0 ∧ ∃ st', Replies inp st (t.mem.read t.si t.cx.toNat) st'
          ∧ t.mem.word img.botState = handler img st') := by
  cases h with
  | @reject t _ hzero _ hmem =>
      refine ⟨t, rfl, Or.inl ⟨hzero, ?_⟩⟩
      rw [← hstate]
      exact Mem.word_congr (hmem.mono (botState_subset.trans out_subset))
  | @accept st' msg t hst' hparse hd =>
      obtain rfl := handler_inj (hst'.symm.trans hstate)
      have hlen : (act img s.mem st' msg).1.length ≤ 512 :=
        (short_iff (by decide) hst' hparse).mp hshort
      have hnext := hd.state hst' (Nat.le_trans hlen (by decide))
      have hsent : sent img (act img s.mem st' msg).1
          = (act img s.mem st' msg).1 :=
        sent_eq img (Nat.le_trans hlen (by decide))
      have hcx := hd.cx
      rw [hsent] at hcx
      refine ⟨t, rfl, ?_⟩
      rcases act_replies img s.mem st' hparse with hnone | ⟨hne, hreply⟩
      · rw [hnone] at hcx hnext
        exact Or.inl ⟨BitVec.eq_of_toNat_eq hcx, hnext⟩
      · refine Or.inr ⟨?_, _, ?_, hnext⟩
        · intro hzero
          rw [hzero] at hcx
          exact hne (List.eq_nil_of_length_eq_zero hcx.symm)
        · rw [hd.reply (Nat.le_trans hlen (by decide)), hsent]
          exact hreply
  | astray hno _ => exact absurd hstate (hno st)

-- ==================================================== the steps

/-- What says nothing and keeps `botState` stays in the conversation. -/
theorem InTalk.keep {ph : Phase} {r' : Run} (h : InTalk img w s₀ r ph)
    (hbegun : r.label.begun = true)
    (hlabel : Stands (credentials s₀.dev) ph r'.label)
    (hevents : r'.events = r.events)
    (hm : Set.EqOn r'.cpu.mem r.cpu.mem (region img.botState 2))
    (hpackets : ph.parted = true → r'.packets = r.packets) :
    InTalk img w s₀ r' ph := by
  refine ⟨?_, hlabel, fun _ => ?_, fun hparted => ?_⟩
  · rw [hevents]
    exact h.talk
  · rw [Mem.word_congr hm]
    exact h.state hbegun
  · rw [hpackets hparted]
    exact h.packets hparted

theorem talk_stateStart (hw : w.Apart img)
    (hlabel : r.label = .stateStart) (hat : At img w C s₀ r) :
    ∃ ph, InTalk img w s₀ (step img w r) ph := by
  simp only [At, hlabel] at hat
  cases hcs : credentials s₀.dev with
  | none =>
      obtain ⟨-, -, hstate⟩ := dispatchInit_none img (s := entered s₀) hcs
      rw [hat, step_stateStart_none hcs]
      exact ⟨.silent, .silent, hcs, fun _ => hstate,
        (absurd · Bool.false_ne_true)⟩
  | some cs =>
      have hbegun := dispatchInit_some img (s := entered s₀) hcs
      obtain ⟨a, ha⟩ : ∃ a, a = dispatchInit img (entered s₀) := ⟨_, rfl⟩
      obtain ⟨b, hb⟩ : ∃ b, b = sendPacket (w.answers 0) a := ⟨_, rfl⟩
      rw [hat, step_stateStart_some hcs (ha ▸ hb)]
      rw [← ha] at hbegun
      obtain ⟨hposted, -⟩ := login_posted hw hbegun hb
      have hstate : b.mem.word img.botState = handler img .start := by
        rw [Mem.word_congr (hposted.ours.mono botState_subset_ours)]
        exact hbegun.state
      refine ⟨.sent .start b.ax, .login hcs, ?_, fun _ => ?_,
        fun hparted => ?_⟩
      · by_cases hax : b.ax = 0
        · rw [Phase.sent, if_pos hax, if_pos hax]
          exact ⟨.start, rfl⟩
        · rw [Phase.sent, if_neg hax, if_neg hax]
          trivial
      · rw [Phase.state_sent]
        split
        · exact hstate
        · exact hstate
      · rw [Phase.parted_sent] at hparted
        cases hparted

theorem talk_stateGetPacket (hw : w.Apart img) {ph : Phase}
    (hlabel : r.label = .stateGetPacket) (hat : At img w C s₀ r)
    (h : InTalk img w s₀ r ph) :
    ∃ ph', InTalk img w s₀ (step img w r) ph' := by
  simp only [At, hlabel] at hat
  obtain ⟨hlive, -⟩ := hat
  have hbegun : r.label.begun = true := by rw [hlabel]; rfl
  have hstands := h.stands
  rw [hlabel] at hstands
  obtain ⟨st, rfl⟩ := hstands
  rw [step_stateGetPacket img w hlabel]
  cases hpackets : r.packets with
  | nil =>
      cases hquit : w.quit with
      | true =>
          refine ⟨.speaking st, h.keep hbegun ?_ ?_ ?_
            (absurd · Bool.false_ne_true)⟩
          · simp only [Run.getPacket, hpackets, hquit]
            exact ⟨st, rfl⟩
          · simp only [Run.getPacket, hpackets]
          · simp only [Run.getPacket, hpackets]
            exact fun _ _ => rfl
      | false =>
          simp only [Run.getPacket, hpackets, hquit]
          exact ⟨.left st, .left hquit h.talk, trivial, fun _ => h.state hbegun,
            fun _ => rfl⟩
  | cons q ps =>
      have hq : q ∈ w.packets := by
        apply hlive.packets
        rw [hpackets]
        exact List.mem_cons_self
      refine ⟨.speaking st, h.keep hbegun ?_ ?_ ?_
        (absurd · Bool.false_ne_true)⟩
      · simp only [Run.getPacket, hpackets]
        exact ⟨st, rfl⟩
      · simp only [Run.getPacket, hpackets]
      · simp only [Run.getPacket, hpackets]
        intro x hx
        exact Mem.write_of_notMem (Set.disjoint_right.mp (hw.data q hq)
          (botState_subset_ours hx))

theorem talk_stateAppendLine {ph : Phase}
    (hlabel : r.label = .stateAppendLine) (h : InTalk img w s₀ r ph) :
    ∃ ph', InTalk img w s₀ (step img w r) ph' := by
  have hbegun : r.label.begun = true := by rw [hlabel]; rfl
  have hstands := h.stands
  rw [hlabel] at hstands
  rw [step_stateAppendLine img w hlabel]
  refine ⟨ph, h.keep hbegun ?_ rfl (fun _ _ => rfl) fun _ => rfl⟩
  unfold appendLine
  split
  · exact hstands
  · split
    · exact hstands
    · exact hstands

theorem talk_copyLoop {ph : Phase} (hlabel : r.label = .copyLoop)
    (hat : At img w C s₀ r) (h : InTalk img w s₀ r ph) :
    ∃ ph', InTalk img w s₀ (step img w r) ph' := by
  simp only [At, hlabel] at hat
  obtain ⟨-, held, cur, hline, -, -, -, -, hfree⟩ := hat
  obtain ⟨-, hm⟩ := hline.copyByte hfree
  have hbegun : r.label.begun = true := by rw [hlabel]; rfl
  have hstands := h.stands
  rw [hlabel] at hstands
  rw [step_copyLoop img w hlabel]
  refine ⟨ph, h.keep hbegun ?_ rfl (fun x hx => hm ?_) fun _ => rfl⟩
  · simp only
    split
    · exact hstands
    · exact hstands
  · exact Set.disjoint_right.mp line_disjoint_own (botState_subset_own hx)

theorem talk_stateDispatch (hw : w.Apart img) {ph : Phase}
    (hlabel : r.label = .stateDispatch) (hat : At img w C s₀ r)
    (hshort : Short img 512 r.cpu.mem (r.waiting img))
    (h : InTalk img w s₀ r ph) :
    ∃ ph', InTalk img w s₀ (step img w r) ph' := by
  simp only [At, hlabel] at hat
  obtain ⟨hlive, held, cur, hline, -, -, -, hne⟩ := hat
  rw [hline.waiting] at hshort
  have hatline := hline.atLine hne
  obtain ⟨htalk, hstands, hstate, hparted⟩ := h
  rw [hlabel] at hstands hstate
  obtain ⟨st, rfl⟩ := hstands
  rw [← dispatchArgs_mem img r.cpu] at hshort hstate
  have hd := hlive.dispatch hline hne
  obtain ⟨t, hans, hreply⟩ := hd.replies (hstate rfl) hshort
  rw [step_stateDispatch_some hlabel hline hne hans, Run.dispatched]
  rcases hreply with ⟨hcx, hnext⟩ | ⟨hcx, st', hreply, hnext⟩
  · rw [if_pos hcx]
    exact ⟨.speaking st, .heard htalk, ⟨st, rfl⟩, fun _ => hnext,
      (absurd · Bool.false_ne_true)⟩
  · rw [if_neg hcx]
    rw [hans] at hd
    have hposted := hd.posted hw hatline hcx r.sends
    obtain ⟨u, hu⟩ : ∃ u, u = sendPacket (w.answers r.sends) t := ⟨_, rfl⟩
    rw [← hu] at hposted
    have hafter : u.mem.word img.botState = handler img st' := by
      rw [Mem.word_congr (hposted.ours.mono botState_subset_ours)]
      exact hnext
    have hsaid : ∀ rc, Talk (credentials s₀.dev) w.quit (.sent st' rc)
        (r.events ++ [.line held]
          ++ [.send (t.mem.read t.si t.cx.toNat) rc]) := by
      intro rc
      rw [List.append_assoc]
      exact .answered htalk hreply
    by_cases hax : u.ax = 0
    · rw [Run.sendPacket_ok _ hu hax]
      have hphase : Phase.sent st' u.ax = .speaking st' := if_pos hax
      refine ⟨.speaking st', ?_, ⟨st', rfl⟩, fun _ => hafter,
        (absurd · Bool.false_ne_true)⟩
      rw [← hphase]
      exact hsaid u.ax
    · rw [Run.sendPacket_failed _ hu hax]
      have hphase : Phase.sent st' u.ax = .failed st' := if_neg hax
      refine ⟨.failed st', ?_, trivial, fun _ => hafter,
        (absurd · Bool.false_ne_true)⟩
      rw [← hphase]
      exact hsaid u.ax

theorem talk_stateQuit (hw : w.Apart img) {ph : Phase}
    (hlabel : r.label = .stateQuit) (hat : At img w C s₀ r)
    (h : InTalk img w s₀ r ph) :
    ∃ ph', InTalk img w s₀ (step img w r) ph' := by
  simp only [At, hlabel] at hat
  obtain ⟨hlive, hquit, hnone, -⟩ := hat
  obtain ⟨htalk, hstands, hstate, hparted⟩ := h
  rw [hlabel] at hstands hstate
  obtain ⟨st, rfl⟩ := hstands
  obtain ⟨m, hsession, hown⟩ := hlive.session
  have hloaded := (hsession.sane.congr hown).loaded
  have hexit := dispatchExit_spec hloaded
  have hposted := dispatchExit_posted hw hloaded r.sends
  obtain ⟨a, ha⟩ : ∃ a, a = dispatchExit img r.cpu := ⟨_, rfl⟩
  rw [← ha] at hexit hposted
  obtain ⟨b, hb⟩ : ∃ b, b = sendPacket (w.answers r.sends) a := ⟨_, rfl⟩
  rw [← hb] at hposted
  rw [step_stateQuit img hlabel ha hb, hexit.read]
  refine ⟨.quit st, .quit hquit htalk, trivial, fun _ => ?_,
    fun _ => hnone⟩
  rw [Mem.word_congr (hposted.ours.mono botState_subset_ours),
    Mem.word_congr fun x hx => hexit.mem ?_]
  · exact hstate rfl
  · exact Set.disjoint_right.mp log_disjoint_outData
      (botState_subset_outData hx)

/-- Every step keeps to the conversation. -/
theorem talk_step (hw : w.Apart img) {ph : Phase}
    (hat : At img w C s₀ r)
    (hshort : r.label = .stateDispatch →
      Short img 512 r.cpu.mem (r.waiting img))
    (h : InTalk img w s₀ r ph) :
    ∃ ph', InTalk img w s₀ (step img w r) ph' := by
  cases hlabel : r.label with
  | asmRun =>
      simp only [At, hlabel] at hat
      rw [hat, step_asmRun]
      exact ⟨.silent, .silent, rfl, (absurd · Bool.false_ne_true),
        (absurd · Bool.false_ne_true)⟩
  | stateStart => exact talk_stateStart hw hlabel hat
  | stateGetPacket => exact talk_stateGetPacket hw hlabel hat h
  | stateAppendLine => exact talk_stateAppendLine hlabel h
  | copyLoop => exact talk_copyLoop hlabel hat h
  | stateSkipLine =>
      have hstands := h.stands
      rw [hlabel] at hstands
      simp only [At, hlabel] at hat
      obtain ⟨-, held, cur, -, hpacket, -⟩ := hat
      obtain ⟨z, hskip⟩ := skipLine_eq hpacket
      rw [step_stateSkipLine img w hlabel, hskip]
      exact ⟨ph, h.keep (by rw [hlabel]; rfl) hstands rfl (fun _ _ => rfl)
        fun _ => rfl⟩
  | stateDispatch =>
      exact talk_stateDispatch hw hlabel hat (hshort hlabel) h
  | finish =>
      have hstands := h.stands
      rw [hlabel] at hstands
      rw [step_finish img w hlabel]
      exact ⟨ph, h.keep (by rw [hlabel]; rfl) hstands rfl (fun _ _ => rfl)
        fun _ => rfl⟩
  | stateQuit => exact talk_stateQuit hw hlabel hat h
  | stateDisconnect =>
      have hstands := h.stands
      rw [hlabel] at hstands
      rw [step_stateDisconnect img w hlabel]
      exact ⟨ph, h.keep (by rw [hlabel]; rfl) hstands rfl (fun _ _ => rfl)
        fun _ => rfl⟩
  | stateEnd =>
      have hstands := h.stands
      rw [hlabel] at hstands
      refine ⟨ph, h.keep (by rw [hlabel]; rfl) ?_ ?_ ?_ fun _ => ?_⟩
      · simp only [step, hlabel]
        exact hstands
      · simp only [step, hlabel]
      · simp only [step, hlabel]
        exact fun _ _ => rfl
      · simp only [step, hlabel]
  | returned =>
      rw [step_returned img w hlabel]
      exact ⟨ph, h⟩
  | astray =>
      have hstands := h.stands
      rw [hlabel] at hstands
      exact hstands.elim

/-- A run is in a conversation from its start. -/
theorem asmRun_inTalk (hw : w.Apart img) (hfresh : Fresh img s₀.mem)
    (hshort : ShortReplies img w 512 s₀) (n : Nat) :
    ∃ ph, InTalk img w s₀ (steps img w n (w.start s₀)) ph := by
  induction n with
  | zero =>
      exact ⟨.silent, .silent, rfl, (absurd · Bool.false_ne_true),
        (absurd · Bool.false_ne_true)⟩
  | succ n ih =>
      obtain ⟨ph, h⟩ := ih
      have hat := at_steps (C := fun _ _ => True) hw hfresh
        (fun _ _ => trivial) n
      rw [steps_succ]
      exact talk_step hw hat (hshort n) h

/-- In every run whose replies fit in `outBuffer`, what is sent and the
lines that are dispatched make up a conversation that is where the label
says, and `botState` holds the handler it has come to. It has ended by one
party leaving only if `recvNewPacket` has come to the end of the packets,
where it reports how (-1 for the quit key, which `Talk` asks for, or 0). -/
theorem asmRun_talks (hw : w.Apart img) (hfresh : Fresh img s₀.mem)
    (hshort : ShortReplies img w 512 s₀) (n : Nat) :
    ∃ ph, Talk (credentials s₀.dev) w.quit ph
        (steps img w n (w.start s₀)).events
      ∧ Stands (credentials s₀.dev) ph (steps img w n (w.start s₀)).label
      ∧ ((steps img w n (w.start s₀)).label.begun = true →
        (steps img w n (w.start s₀)).cpu.mem.word img.botState
          = handler img ph.state)
      ∧ (ph.parted = true → (steps img w n (w.start s₀)).packets = []) := by
  obtain ⟨ph, h⟩ := asmRun_inTalk hw hfresh hshort n
  exact ⟨ph, h.talk, h.stands, h.state, h.packets⟩

/-- A line, or how a reply begins and what sending it returned. -/
def Event.opening : Event → List Byte × Option Word
  | .line bytes => (bytes, none)
  | .send bytes rc => (bytes.take 4, some rc)

/-- A run to its end: the credentials, the 004 and the capabilities that
are asked for then, a PING and its PONG. -/
theorem asmRun_talks_ping :
    let r := steps default (demo [startLine, pingLine]) 41
      ((demo [startLine, pingLine]).start (boot default))
    ∃ ph, Talk (credentials (boot default).dev) false ph r.events
      ∧ Stands (credentials (boot default).dev) ph .returned
      ∧ (ph.parted = true → r.packets = [])
      ∧ r.events.map Event.opening = [([], some 0), (startLine, none),
        (ascii "CAP ", some 0), (pingLine, none), (ascii "PONG", some 0)] := by
  intro r
  have hw : (demo [startLine, pingLine]).Apart default :=
    demo_apart (by decide)
  have hshort : ShortReplies default (demo [startLine, pingLine]) 512
      (boot default) := by
    apply shortReplies_of_length hw (boot_fresh default)
    decide +kernel
  have hlabel : r.label = .returned := by decide +kernel
  have hevents : r.events.map Event.opening = [([], some 0),
      (startLine, none), (ascii "CAP ", some 0), (pingLine, none),
      (ascii "PONG", some 0)] := by decide +kernel
  have htalks := asmRun_talks hw (boot_fresh default) hshort 41
  have hr : steps default (demo [startLine, pingLine]) 41
      ((demo [startLine, pingLine]).start (boot default)) = r := rfl
  rw [hr] at htalks
  clear_value r
  obtain ⟨ph, htalk, hstands, -, hpackets⟩ := htalks
  rw [hlabel] at hstands
  exact ⟨ph, htalk, hstands, hpackets, hevents⟩

end Pdtb.Asm
