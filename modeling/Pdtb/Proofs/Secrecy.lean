/-
The credentials do not show. Two runs that differ in the content of the
`BOT_AUTH` file only stay side by side: the credentials are in
`outBuffer` and where the first send copies them, everything else is
alike (`Paired`). A later send takes the bytes of `outBuffer` that the
reply has just written, and the log takes no others, so both are the
same in the two runs.
-/
import Pdtb.Proofs.Order
import Pdtb.Proofs.Twins

namespace Pdtb.Asm

open Lib Irc

variable {img : Image} {w : World} {C : Mem 16 Byte → List Byte → Prop}
  {A : Set Word} {s₀ s₀' s s' : Bot} {r r' : Run} {st : BotState}

-- ==================================================== what is alike

/-- Where the credentials are not. -/
def seen (img : Image) (w : World) : Set Word :=
  {x | x ∉ region img.outBuffer 512
    ∧ ((w.answers 0).buffer ≠ 0 → x ∉ region (w.answers 0).buffer 512)}

theorem outBuffer_disjoint_seen :
    Disjoint (region img.outBuffer 512) (seen img w) :=
  Set.disjoint_left.mpr fun _ hx hx' => hx'.1 hx

theorem login_disjoint_seen (hnull : (w.answers 0).buffer ≠ 0) {n : Nat}
    (hn : n ≤ 512) :
    Disjoint (region (w.answers 0).buffer n) (seen img w) :=
  Set.disjoint_left.mpr fun _ hx hx' => hx'.2 hnull (region_mono hn hx)

/-- What is apart from `outBuffer` is seen, if it is the bot's. -/
theorem subset_seen (hw : w.Apart img) (hA : A ⊆ ours img)
    (hout : Disjoint (region img.outBuffer 512) A) : A ⊆ seen img w := by
  refine fun x hx => ⟨Set.disjoint_right.mp hout hx, fun hnull hx' => ?_⟩
  exact Set.disjoint_left.mp (hw.buffer 0 hnull)
    (region_mono (by decide) hx') (hA hx)

theorem known_seen (hw : w.Apart img) : Known img (seen img w) := by
  have hreach : region img.outBuffer 512 ⊆ img.outReach :=
    region_mono (by decide)
  have hdata : region img.outBuffer 512 ⊆ img.outData :=
    outBuffer_subset (Nat.le_refl _)
  refine ⟨?_, ?_, ?_, ?_, ?_, ?_, ?_⟩
  · exact subset_seen hw const_subset_ours
      (img.const_disjoint_out.symm.mono_left hreach)
  · exact subset_seen hw (parse_subset_own.trans own_subset_ours)
      (img.parse_disjoint_out.symm.mono_left hreach)
  · exact subset_seen hw (null_subset_own.trans own_subset_ours)
      (img.null_disjoint_out.symm.mono_left hreach)
  · exact subset_seen hw log_subset_ours
      (img.log_disjoint_out.symm.mono_left hreach)
  · exact subset_seen hw line_subset_ours
      (line_disjoint_own.symm.mono_left (hdata.trans out_subset_own))
  · exact subset_seen hw
      (outBufferLen_subset.trans (out_subset_own.trans own_subset_ours))
      (outBuffer_disjoint_outBufferLen (Nat.le_refl _))
  · exact subset_seen hw botState_subset_ours
      (outBuffer_disjoint_botState (by decide))

/-- Packets are seen. -/
theorem packet_subset_seen (hw : w.Apart img) {q : Packet}
    (hq : q ∈ w.packets) : region q.data q.bytes.length ⊆ seen img w := by
  refine fun x hx => ⟨fun hx' => ?_, fun hnull hx' => ?_⟩
  · have hours : region img.outBuffer 512 ⊆ ours img :=
      (outBuffer_subset (Nat.le_refl _)).trans
        (out_subset_own.trans own_subset_ours)
    exact Set.disjoint_left.mp (hw.data q hq) hx (hours hx')
  · exact Set.disjoint_left.mp (hw.buffer_data 0 hnull q hq)
      (region_mono (by decide) hx') hx

/-- Events that differ in the first send at most. -/
def Alike (es es' : List Event) : Prop :=
  es = es' ∨ ∃ cs cs' rc rest,
    es = .send cs rc :: rest ∧ es' = .send cs' rc :: rest

theorem Alike.append {es es' : List Event} (h : Alike es es')
    (more : List Event) : Alike (es ++ more) (es' ++ more) := by
  rcases h with rfl | ⟨cs, cs', rc, rest, rfl, rfl⟩
  · exact Or.inl rfl
  · exact Or.inr ⟨cs, cs', rc, rest ++ more, rfl, rfl⟩

/-- Two runs side by side. -/
structure Paired (A : Set Word) (r r' : Run) : Prop where
  label : r'.label = r.label
  packets : r'.packets = r.packets
  sends : r'.sends = r.sends
  cpu : Twin A r.cpu r'.cpu
  events : Alike r.events r'.events

theorem Paired.relabel (h : Paired A r r') (l : Label) :
    Paired A { r with label := l } { r' with label := l } :=
  ⟨rfl, h.packets, h.sends, h.cpu, h.events⟩

-- ==================================================== sending

/-- Twins send alike, if what they send is the same, or else stays out
of sight. -/
theorem sendPacket_twin (hw : w.Apart img) (k : Nat) (h : Twin A s s')
    (hcx : s.cx.toNat ≤ outSpill)
    (hsrc : region s.si s.cx.toNat ⊆ ours img)
    (hsent : s'.mem.read s.si s.cx.toNat = s.mem.read s.si s.cx.toNat
      ∨ ((w.answers k).buffer ≠ 0 →
        Disjoint (region (w.answers k).buffer s.cx.toNat) A)) :
    Twin A (sendPacket (w.answers k) s) (sendPacket (w.answers k) s') := by
  obtain ⟨m, z, f, heq, hm⟩ := h
  by_cases hnull : (w.answers k).buffer = 0
  · rw [sendPacket, sendPacket]
    simp only
    rw [if_pos hnull, if_pos hnull, heq]
    exact ⟨m, z, f, rfl, hm⟩
  · have hd := hw.source hnull hcx hsrc
    have hd' : Disjoint (region s'.si s'.cx.toNat)
        (region (w.answers k).buffer s'.cx.toNat) := by
      rw [heq]
      exact hd
    rw [sendPacket_eq hnull hd, sendPacket_eq hnull hd', heq]
    rw [heq] at hsent
    simp only at hsent
    have hwrite : Set.EqOn
        (m.write (w.answers k).buffer (m.read s.si s.cx.toNat))
        (s.mem.write (w.answers k).buffer (s.mem.read s.si s.cx.toNat))
        A := by
      rcases hsent with hsame | hapart
      · rw [hsame]
        exact eqOn_write hm _ _
      · have hkeep : ∀ m' : Mem 16 Byte, Set.EqOn
            (m'.write (w.answers k).buffer (m'.read s.si s.cx.toNat)) m'
            A := by
          intro m' x hx
          refine Mem.write_of_notMem fun hx' => ?_
          rw [Mem.length_read] at hx'
          exact Set.disjoint_left.mp (hapart hnull) hx' hx
        exact ((hkeep m).trans hm).trans (hkeep s.mem).symm
    generalize m.write (w.answers k).buffer (m.read s.si s.cx.toNat)
      = m₁ at hwrite ⊢
    generalize s.mem.write (w.answers k).buffer
      (s.mem.read s.si s.cx.toNat) = m₂ at hwrite ⊢
    exact ⟨m₁, z, f, rfl, hwrite⟩

/-- Paired runs about to send the same bytes. -/
theorem Paired.sendPacket (hw : w.Apart img) (next : Label)
    (h : Paired A r r') (hcx : r.cpu.cx.toNat ≤ outSpill)
    (hsrc : region r.cpu.si r.cpu.cx.toNat ⊆ ours img)
    (hsent : Set.EqOn r'.cpu.mem r.cpu.mem
      (region r.cpu.si r.cpu.cx.toNat)) :
    Paired A (r.sendPacket w next) (r'.sendPacket w next) := by
  have hread : r'.cpu.mem.read r.cpu.si r.cpu.cx.toNat
      = r.cpu.mem.read r.cpu.si r.cpu.cx.toNat :=
    Mem.read_congr (Nat.le_of_lt r.cpu.cx.isLt) hsent
  have hsend := sendPacket_twin hw r.sends h.cpu hcx hsrc (Or.inl hread)
  unfold Run.sendPacket
  simp only
  rw [h.sends, hsend.ax, h.cpu.si, h.cpu.cx, hread]
  exact ⟨rfl, h.packets, rfl, hsend, h.events.append _⟩

-- ==================================================== the steps

/-- The bots the runs start with: they differ in the content of the file
of credentials at most. -/
def SameBut (s₀ s₀' : Bot) : Prop :=
  ∃ f, s₀' = { s₀ with dev := { s₀.dev with authRead := f } }
    ∧ SameSize s₀.dev.authRead f

/-- Both have credentials, of one length, or neither has. -/
theorem credentials_pair {d : Dos} {f : Except Word (List Byte)}
    (hf : SameSize d.authRead f) :
    (credentials d = none ∧ credentials { d with authRead := f } = none)
      ∨ ∃ cs cs', credentials d = some cs
        ∧ credentials { d with authRead := f } = some cs' := by
  obtain ⟨bs, bs', hbs, rfl, -⟩ := hf
  by_cases henv : d.authEnv = 0
  · exact Or.inl ⟨by rw [credentials, if_pos henv],
      by rw [credentials, if_pos henv]⟩
  · cases hopen : d.authOpen with
    | error code =>
        refine Or.inl ⟨?_, ?_⟩
        · rw [credentials, if_neg henv, hopen]
        · simp only [credentials, if_neg henv]
    | ok handle =>
        refine Or.inr ⟨bs.take 512, bs'.take 512, ?_, ?_⟩
        · rw [credentials, if_neg henv, hopen, hbs]
        · simp only [credentials, if_neg henv]

theorem paired_stateStart (hw : w.Apart img) (hsame : SameBut s₀ s₀') :
    Paired (seen img w)
      (step img w { w.start s₀ with
        label := .stateStart, cpu := entered s₀ })
      (step img w { w.start s₀' with
        label := .stateStart, cpu := entered s₀' }) := by
  obtain ⟨f, rfl, hf⟩ := hsame
  have hinit : Twin (seen img w) (dispatchInit img (entered s₀))
      (dispatchInit img { entered s₀ with
        dev := { (entered s₀).dev with authRead := f } }) :=
    dispatchInit_twin (known_seen hw) outBuffer_disjoint_seen hf
  obtain ⟨u, hu⟩ : ∃ u : Bot, u
      = { s₀ with dev := { s₀.dev with authRead := f } } := ⟨_, rfl⟩
  have hentered : entered u = { entered s₀ with
      dev := { (entered s₀).dev with authRead := f } } := by
    rw [hu]
    rfl
  rw [← hu]
  rw [← hentered] at hinit
  rcases credentials_pair hf with ⟨hcs, hcs'⟩ | ⟨cs, cs', hcs, hcs'⟩
  · have hcs' : credentials u.dev = none := by
      rw [hu]
      exact hcs'
    rw [step_stateStart_none hcs, step_stateStart_none hcs']
    exact ⟨rfl, rfl, rfl, hinit, Or.inl rfl⟩
  · have hcs' : credentials u.dev = some cs' := by
      rw [hu]
      exact hcs'
    have hbegun := dispatchInit_some img (s := entered s₀) hcs
    rw [step_stateStart_some hcs rfl, step_stateStart_some hcs' rfl]
    generalize dispatchInit img (entered s₀) = a at hinit hbegun ⊢
    generalize dispatchInit img (entered u) = a' at hinit ⊢
    have hcx : a.cx.toNat ≤ 512 := by
      rw [hbegun.cx]
      exact hbegun.short
    have hsend : Twin (seen img w) (sendPacket (w.answers 0) a)
        (sendPacket (w.answers 0) a') := by
      refine sendPacket_twin hw 0 hinit (hcx.trans (by decide)) ?_
        (Or.inr fun hnull => login_disjoint_seen hnull hcx)
      rw [hbegun.si]
      exact (outBuffer_subset hcx).trans
        (out_subset_own.trans own_subset_ours)
    generalize sendPacket (w.answers 0) a = b at hsend ⊢
    generalize sendPacket (w.answers 0) a' = b' at hsend ⊢
    rw [hsend.ax]
    refine ⟨rfl, rfl, rfl, ?_, Or.inr ⟨cs, cs', b.ax, [], rfl, rfl⟩⟩
    simp only
    split
    · obtain ⟨m, z, g, rfl, hm⟩ := hsend
      exact ⟨m, z, g, rfl, hm⟩
    · exact hsend

theorem paired_stateGetPacket (hlabel : r.label = .stateGetPacket)
    (h : Paired A r r') : Paired A (step img w r) (step img w r') := by
  have hlabel' := h.label.trans hlabel
  have hpackets := h.packets
  obtain ⟨m, z, f, hcpu, hm⟩ := h.cpu
  simp only [step, hlabel, hlabel', Run.getPacket, hpackets, hcpu]
  cases hps : r.packets with
  | nil =>
      refine ⟨rfl, ?_, h.sends, ⟨m, z, f, rfl, hm⟩, h.events⟩
      simp only
  | cons q ps =>
      simp only
      have hwrite := eqOn_write hm q.data q.bytes
      generalize m.write q.data q.bytes = m₁ at hwrite ⊢
      generalize r.cpu.mem.write q.data q.bytes = m₂ at hwrite ⊢
      exact ⟨rfl, rfl, h.sends, ⟨m₁, z, f, rfl, hwrite⟩, h.events⟩

theorem paired_stateAppendLine (hlabel : r.label = .stateAppendLine)
    (h : Paired A r r') : Paired A (step img w r) (step img w r') := by
  have hlabel' := h.label.trans hlabel
  obtain ⟨m, z, f, hcpu, hm⟩ := h.cpu
  simp only [step, hlabel, hlabel', hcpu]
  exact ⟨rfl, h.packets, h.sends, ⟨m, z, f, rfl, hm⟩, h.events⟩

theorem paired_copyLoop (hw : w.Apart img) (hlabel : r.label = .copyLoop)
    (hat : At img w C s₀ r) (h : Paired (seen img w) r r') :
    Paired (seen img w) (step img w r) (step img w r') := by
  simp only [At, hlabel] at hat
  obtain ⟨-, held, cur, -, hpacket, -, -, hcur, -⟩ := hat
  obtain ⟨q, hq, hsub⟩ := hpacket.within
  have hlabel' := h.label.trans hlabel
  obtain ⟨m, z, f, hcpu, hm⟩ := h.cpu
  have hbyte : m r.cpu.si = r.cpu.mem r.cpu.si :=
    hm (packet_subset_seen hw hq
      (hsub (base_mem_region (List.length_pos_iff.mpr hcur))))
  have hcopy : Twin (seen img w) (copyByte r.cpu) (copyByte r'.cpu) := by
    rw [copyByte_eq, copyByte_eq, hcpu]
    simp only [hbyte]
    have hwrite := eqOn_write hm r.cpu.di [r.cpu.mem r.cpu.si]
    exact ⟨_, z, f, rfl, hwrite⟩
  have hal : (copyByte r'.cpu).al = (copyByte r.cpu).al := by
    rw [Cpu.al, Cpu.al, hcopy.ax]
  simp only [step, hlabel, hlabel', hal]
  exact ⟨rfl, h.packets, h.sends, hcopy, h.events⟩

theorem paired_stateSkipLine (hw : w.Apart img)
    (hlabel : r.label = .stateSkipLine) (hat : At img w C s₀ r)
    (h : Paired (seen img w) r r') :
    Paired (seen img w) (step img w r) (step img w r') := by
  simp only [At, hlabel] at hat
  obtain ⟨-, held, cur, -, hpacket, -⟩ := hat
  obtain ⟨q, hq, hsub⟩ := hpacket.within
  have hlabel' := h.label.trans hlabel
  obtain ⟨m, z, f, hcpu, hm⟩ := h.cpu
  have hpacket' : InPacket w cur r'.cpu.si r'.cpu := by
    rw [hcpu]
    refine ⟨hpacket.count, ?_, q, hq, hsub⟩
    have hlen : cur.length < 2 ^ 16 := by
      rw [← hpacket.count]
      exact r.cpu.bx.isLt
    exact (Mem.read_congr (Nat.le_of_lt hlen)
      (hm.mono (hsub.trans (packet_subset_seen hw hq)))).trans hpacket.read
  obtain ⟨z₁, hskip⟩ := skipLine_eq hpacket
  obtain ⟨z₂, hskip'⟩ := skipLine_eq hpacket'
  have htwin : Twin (seen img w) (skipLine r.cpu) (skipLine r'.cpu) := by
    rw [hskip, hskip', hcpu]
    exact ⟨m, z₂, f, rfl, hm⟩
  simp only [step, hlabel, hlabel']
  exact ⟨rfl, h.packets, h.sends, htwin, h.events⟩

theorem paired_stateDispatch (hw : w.Apart img)
    (hlabel : r.label = .stateDispatch) (hat : At img w C s₀ r)
    (hat' : At img w C s₀' r')
    (hstate : r.cpu.mem.word img.botState = handler img st)
    (h : Paired (seen img w) r r') :
    Paired (seen img w) (step img w r) (step img w r') := by
  have hlabel' := h.label.trans hlabel
  simp only [At, hlabel] at hat
  simp only [At, hlabel'] at hat'
  obtain ⟨hlive, held, cur, hline, -, -, -, hne⟩ := hat
  obtain ⟨-, held', cur', hline', -, -, -, hne'⟩ := hat'
  obtain ⟨m, hsession, hown⟩ := hlive.session
  rw [← dispatchArgs_mem img r.cpu] at hown hstate
  have hsane := hsession.sane.congr hown
  have hargs : Twin (seen img w) (dispatchArgs img r.cpu)
      (dispatchArgs img r'.cpu) := by
    obtain ⟨m, z, f, hcpu, hm⟩ := h.cpu
    rw [dispatchArgs, dispatchArgs, hcpu]
    exact ⟨m, z, f, rfl, hm⟩
  -- the line is the same
  have hheld : held' = held := by
    rw [← hline.waiting, ← hline'.waiting]
    obtain ⟨m, z, f, hcpu, hm⟩ := h.cpu
    rw [Run.waiting, Run.waiting, hcpu]
    refine Mem.read_congr (by omega)
      (hm.mono ((region_mono ?_).trans (known_seen hw).line))
    exact Nat.sub_le _ _
  rw [hheld] at hline' hne'
  have hatline := hline.atLine hne
  obtain ⟨t, t', ht, ht', htwin⟩ := dispatchLine_twin (known_seen hw) hargs
    hatline (hsane.alive hstate)
  have hd := hsession.next hown hatline
  rw [ht] at hd
  rw [step_stateDispatch_some hlabel hline hne ht,
    step_stateDispatch_some hlabel' hline' hne' ht', Run.dispatched,
    Run.dispatched, htwin.cx]
  have hafter : Paired (seen img w)
      { r with label := .finish, cpu := t
               events := r.events ++ [.line held] }
      { r' with label := .finish, cpu := t'
                events := r'.events ++ [.line held] } :=
    ⟨rfl, h.packets, h.sends, htwin.mono Set.subset_union_left,
      h.events.append _⟩
  by_cases hcx : t.cx = 0
  · rw [if_pos hcx, if_pos hcx]
    exact hafter
  · rw [if_neg hcx, if_neg hcx]
    obtain ⟨hlen, hsrc⟩ := hd.source hatline hcx
    exact hafter.sendPacket hw .finish hlen hsrc
      (htwin.eqOn.mono Set.subset_union_right)

theorem paired_stateQuit (hw : w.Apart img)
    (hlabel : r.label = .stateQuit) (hat : At img w C s₀ r)
    (h : Paired (seen img w) r r') :
    Paired (seen img w) (step img w r) (step img w r') := by
  have hlabel' := h.label.trans hlabel
  simp only [At, hlabel] at hat
  obtain ⟨hlive, -, -, -⟩ := hat
  obtain ⟨m, hsession, hown⟩ := hlive.session
  have hexit := dispatchExit_spec (hsession.sane.congr hown).loaded
  have htwin := dispatchExit_twin (known_seen hw) h.cpu
  have hsrc : region (dispatchExit img r.cpu).si
      (dispatchExit img r.cpu).cx.toNat ⊆ img.constData := by
    rw [hexit.si, hexit.cx]
    exact text_subset img .quitMessage
  have hlen : (dispatchExit img r.cpu).cx.toNat ≤ outSpill := by
    rw [hexit.cx]
    decide +kernel
  have hbefore : Paired (seen img w)
      { r with cpu := dispatchExit img r.cpu }
      { r' with cpu := dispatchExit img r'.cpu } :=
    ⟨h.label, h.packets, h.sends, htwin, h.events⟩
  have hsend := hbefore.sendPacket hw .stateDisconnect hlen
    (hsrc.trans const_subset_ours)
    (htwin.eqOn.mono (hsrc.trans (known_seen hw).const))
  simp only [step, hlabel, hlabel']
  exact hsend.relabel .stateDisconnect

/-- Two runs stay side by side. -/
theorem paired_step (hw : w.Apart img) (hsame : SameBut s₀ s₀')
    (hat : At img w C s₀ r) (hat' : At img w C s₀' r')
    (hstate : r.label = .stateDispatch →
      ∃ st, r.cpu.mem.word img.botState = handler img st)
    (h : Paired (seen img w) r r') :
    Paired (seen img w) (step img w r) (step img w r') := by
  cases hlabel : r.label with
  | asmRun =>
      have hlabel' := h.label.trans hlabel
      obtain ⟨m, z, f, hcpu, hm⟩ := h.cpu
      simp only [step, hlabel, hlabel', hcpu, Cpu.push]
      exact ⟨rfl, h.packets, h.sends, ⟨m, z, f, rfl, hm⟩, h.events⟩
  | stateStart =>
      have hlabel' := h.label.trans hlabel
      simp only [At, hlabel] at hat
      simp only [At, hlabel'] at hat'
      rw [hat, hat']
      exact paired_stateStart hw hsame
  | stateGetPacket => exact paired_stateGetPacket hlabel h
  | stateAppendLine => exact paired_stateAppendLine hlabel h
  | copyLoop => exact paired_copyLoop hw hlabel hat h
  | stateSkipLine => exact paired_stateSkipLine hw hlabel hat h
  | stateDispatch =>
      obtain ⟨st, hst⟩ := hstate hlabel
      exact paired_stateDispatch hw hlabel hat hat' hst h
  | finish =>
      have hlabel' := h.label.trans hlabel
      obtain ⟨m, z, f, hcpu, hm⟩ := h.cpu
      simp only [step, hlabel, hlabel', hcpu, freshLine]
      exact ⟨rfl, h.packets, h.sends, ⟨m, z, f, rfl, hm⟩, h.events⟩
  | stateQuit => exact paired_stateQuit hw hlabel hat h
  | stateDisconnect =>
      have hlabel' := h.label.trans hlabel
      obtain ⟨m, z, f, hcpu, hm⟩ := h.cpu
      simp only [step, hlabel, hlabel', hcpu]
      exact ⟨rfl, h.packets, h.sends, ⟨m, z, f, rfl, hm⟩, h.events⟩
  | stateEnd =>
      have hlabel' := h.label.trans hlabel
      obtain ⟨m, z, f, hcpu, hm⟩ := h.cpu
      simp only [step, hlabel, hlabel', hcpu, Cpu.pop, Cpu.top]
      exact ⟨rfl, h.packets, h.sends, ⟨m, z, f, rfl, hm⟩, h.events⟩
  | returned =>
      have hlabel' := h.label.trans hlabel
      simp only [step, hlabel, hlabel']
      exact h
  | astray =>
      have hlabel' := h.label.trans hlabel
      simp only [step, hlabel, hlabel']
      exact h

-- ==================================================== the runs

/-- The buffers that were sent. -/
def Event.sent? : Event → Option (List Byte)
  | .line _ => none
  | .send bytes _ => some bytes

def Run.buffers (r : Run) : List (List Byte) :=
  r.events.filterMap Event.sent?

theorem Alike.buffers {es es' : List Event} (h : Alike es es') :
    (es'.filterMap Event.sent?).tail = (es.filterMap Event.sent?).tail := by
  rcases h with rfl | ⟨cs, cs', rc, rest, rfl, rfl⟩
  · rfl
  · rfl

/-- Of two runs that differ in the content of the credentials only, and
whose replies fit, neither goes astray; they log the same and send the
same but for the first buffer. -/
theorem asmRun_secret (hw : w.Apart img) (hfresh : Fresh img s₀.mem)
    (hsame : SameBut s₀ s₀') (hshort : ShortReplies img w 512 s₀)
    (n : Nat) :
    (steps img w n (w.start s₀)).label ≠ .astray
      ∧ (steps img w n (w.start s₀')).label
        = (steps img w n (w.start s₀)).label
      ∧ (steps img w n (w.start s₀')).cpu.dev.written
        = (steps img w n (w.start s₀)).cpu.dev.written
      ∧ (steps img w n (w.start s₀')).buffers.tail
        = (steps img w n (w.start s₀)).buffers.tail := by
  have hfresh' : Fresh img s₀'.mem := by
    obtain ⟨f, rfl, -⟩ := hsame
    exact hfresh
  have htalk : ∀ n, (steps img w n (w.start s₀)).label ≠ .astray := by
    intro n hastray
    obtain ⟨ph, -, hstands, -⟩ := asmRun_inTalk hw hfresh hshort n
    rw [hastray] at hstands
    exact hstands
  have hstate : ∀ n, (steps img w n (w.start s₀)).label = .stateDispatch →
      ∃ st, (steps img w n (w.start s₀)).cpu.mem.word img.botState
        = handler img st := by
    intro n hlabel
    obtain ⟨ph, -, -, hbegun⟩ := asmRun_inTalk hw hfresh hshort n
    rw [hlabel] at hbegun
    exact ⟨ph.state, hbegun rfl⟩
  have hpaired : Paired (seen img w) (steps img w n (w.start s₀))
      (steps img w n (w.start s₀')) := by
    induction n with
    | zero =>
        obtain ⟨f, rfl, -⟩ := hsame
        exact ⟨rfl, rfl, rfl, ⟨s₀.mem, s₀.zf, f, rfl, fun _ _ => rfl⟩,
          Or.inl rfl⟩
    | succ n ih =>
        have hat := at_steps (C := fun _ _ => True) hw hfresh
          (fun _ _ => trivial) n
        have hat' := at_steps (C := fun _ _ => True) hw hfresh'
          (fun _ _ => trivial) n
        rw [steps_succ, steps_succ]
        exact paired_step hw hsame hat hat' (hstate n) ih
  exact ⟨htalk n, hpaired.label, hpaired.cpu.written,
    hpaired.events.buffers⟩

/-- A bot that finds these credentials. -/
def withAuth (s : Bot) (file : List Byte) : Bot :=
  { s with dev := { s.dev with authRead := .ok file } }

theorem withAuth_mem (s : Bot) (file : List Byte) :
    (withAuth s file).mem = s.mem := rfl

theorem withAuth_sameBut (s : Bot) {file file' : List Byte}
    (hlen : file.length = file'.length) :
    SameBut (withAuth s file) (withAuth s file') :=
  ⟨.ok file', rfl, file, file', rfl, rfl, hlen⟩

theorem asmRun_secret_ping :
    (steps default (demo [startLine, pingLine]) 12
        ((demo [startLine, pingLine]).start
          (withAuth (boot default) (ascii "PASS b")))).buffers.tail
      = (steps default (demo [startLine, pingLine]) 12
        ((demo [startLine, pingLine]).start
          (withAuth (boot default) (ascii "PASS a")))).buffers.tail := by
  have hw : (demo [startLine, pingLine]).Apart default :=
    demo_apart (by decide)
  have hfresh : Fresh default
      (withAuth (boot default) (ascii "PASS a")).mem := by
    rw [withAuth_mem]
    exact boot_fresh default
  have hsame : SameBut (withAuth (boot default) (ascii "PASS a"))
      (withAuth (boot default) (ascii "PASS b")) :=
    withAuth_sameBut _ (by decide)
  have hshort : ShortReplies default (demo [startLine, pingLine]) 512
      (withAuth (boot default) (ascii "PASS a")) := by
    apply shortReplies_of_length hw hfresh
    decide +kernel
  exact (asmRun_secret hw hfresh hsame hshort 12).2.2.2

end Pdtb.Asm
