/-
What `lineBuffer` and its registers hold while a run receives. Wherever
a run stands at `stateAppendLine`, `dx` is the room left, `di` is where
it begins, and what stands in front are the last bytes taken of the
stream (`Filling`). A byte is stored only where there is room, every pass
takes some of the packet and none takes more than there is, so packets
are finished; and the lines dispatched end in LF or are 512 bytes without
one.

A line of the second kind is rejected: no parse ends but in CR LF.
-/
import Pdtb.Proofs.Lines

namespace Pdtb.Asm

open Lib Irc

variable {img : Image} {w : World} {C : Mem 16 Byte → List Byte → Prop}
  {s₀ s t : Bot} {r : Run} {cur : List Byte} {cs : List Byte}

-- ==================================================== lineBuffer

theorem steps_add (k n : Nat) (r : Run) :
    steps img w (k + n) r = steps img w k (steps img w n r) :=
  Function.iterate_add_apply _ k n r

/-- The line that a run dispatches here is its last: there is no handler
at `botState` to answer it, or the answer is not sent. -/
inductive Run.Ends (img : Image) (w : World) (r : Run) : Prop
  | astray (hlabel : r.label = .stateDispatch)
      (hans : dispatchLine img (dispatchArgs img r.cpu) = none)
      (hnext : (step img w r).label = .astray) : Run.Ends img w r
  | unsent {t : Bot} (hlabel : r.label = .stateDispatch)
      (hans : dispatchLine img (dispatchArgs img r.cpu) = some t)
      (hcx : t.cx ≠ 0)
      (hrc : (Asm.sendPacket (w.answers r.sends) t).ax ≠ 0)
      (hnext : (step img w r).label = .stateEnd) : Run.Ends img w r

/-- From `r` to `r'`, `j` bytes of the packet were taken. -/
structure Consumed (j : Nat) (r r' : Run) : Prop where
  bx : r'.cpu.bx.toNat + j = r.cpu.bx.toNat
  si : r'.cpu.si = r.cpu.si + BitVec.ofNat 16 j
  packets : r'.packets = r.packets

theorem Consumed.trans {j k : Nat} {r r' r'' : Run} (h : Consumed j r r')
    (h' : Consumed k r' r'') : Consumed (j + k) r r'' := by
  have hbx := h.bx
  have hbx' := h'.bx
  refine ⟨by omega, ?_, h'.packets.trans h.packets⟩
  rw [h'.si, h.si, BitVec.add_assoc, ← BitVec.ofNat_add]

theorem stateSkipLine_pass (hlabel : r.label = .stateSkipLine)
    (h : At img w C s₀ r) :
    (step img w r).label = .stateDispatch
      ∧ ∃ j, 1 ≤ j ∧ Consumed j r (step img w r) := by
  simp only [At, hlabel] at h
  obtain ⟨-, held, cur, -, hpacket, -, -, hcur, -⟩ := h
  have hless := afterFirst_length_lt (x := lf) hcur
  have hcount := hpacket.count
  have hlt := r.cpu.bx.isLt
  obtain ⟨z, hskip⟩ := skipLine_eq hpacket
  rw [step_stateSkipLine img w hlabel]
  refine ⟨rfl, cur.length - (Cpu.afterFirst lf cur).length, by omega,
    ⟨?_, ?_, rfl⟩⟩
  · rw [hskip]
    simp only
    rw [BitVec.toNat_sub, BitVec.toNat_ofNat]
    omega
  · rw [hskip]

/-- A run about to dispatch a line that comes to nothing. -/
structure Inert (img : Image) (w : World) (r : Run) : Prop where
  label : r.label = .stateDispatch
  length : (r.waiting img).length = 512
  word : lf ∉ r.waiting img
  parse : (doParse img
    (logIncoming img (dispatchArgs img r.cpu))).cf = true
  answer : ∃ t, dispatchLine img (dispatchArgs img r.cpu) = some t
    ∧ t.cx = 0
    ∧ t.mem.word img.botState = r.cpu.mem.word img.botState
  /-- it is dispatched and nothing is sent -/
  next : (step img w r).label = .finish
    ∧ (step img w r).sends = r.sends
    ∧ (step img w r).events = r.events ++ [.line (r.waiting img)]
  state : (step img w r).cpu.mem.word img.botState
    = r.cpu.mem.word img.botState

/-- A line without LF is no message. -/
theorem parse_eq_none {room : Nat} {inp : List Byte} (h : lf ∉ inp) :
    parse room inp = none := by
  cases hparse : parse room inp with
  | none => rfl
  | some msg =>
      obtain ⟨u, rfl, -⟩ := parse_params hparse
      refine absurd ?_ h
      exact List.mem_append_right _ (by decide)

/-- What skipping leads to is inert. -/
theorem stateSkipLine_inert (hw : w.Apart img) (hfresh : Fresh img s₀.mem)
    (n : Nat)
    (hlabel : (steps img w n (w.start s₀)).label = .stateSkipLine) :
    Inert img w (steps img w (n + 1) (w.start s₀)) := by
  have hat := at_steps (C := fun _ _ => True) hw hfresh
    (fun _ _ => trivial) n
  have hat' := at_steps (C := fun _ _ => True) hw hfresh
    (fun _ _ => trivial) (n + 1)
  have hskip := (stateSkipLine_pass hlabel hat).1
  obtain ⟨r, hr⟩ : ∃ r, r = steps img w n (w.start s₀) := ⟨_, rfl⟩
  rw [← hr] at hlabel hat hskip
  rw [steps_succ, ← hr] at hat' ⊢
  obtain ⟨a, ha⟩ : ∃ a, a = step img w r := ⟨_, rfl⟩
  -- the line is still the one that was full
  have hheld : (a.waiting img).length = 512 ∧ lf ∉ a.waiting img := by
    simp only [At, hlabel] at hat
    obtain ⟨-, held, cur, hline, hpacket, -, htaken, -, hfull⟩ := hat
    obtain ⟨z, hz⟩ := skipLine_eq hpacket
    have hline' : InLine img held a.cpu := by
      rw [ha, step_stateSkipLine img w hlabel, hz]
      exact hline.congr rfl rfl fun _ _ => rfl
    rw [hline'.waiting]
    exact ⟨hfull, htaken.word⟩
  obtain ⟨hlength, hword⟩ := hheld
  rw [← ha] at hskip hat' ⊢
  simp only [At, hskip] at hat'
  obtain ⟨hlive, held, cur, hline, -, -, -, hne⟩ := hat'
  have hatline := hline.atLine hne
  have hheld := hline.waiting
  have hnone : Irc.parse 512 held = none := parse_eq_none (hheld ▸ hword)
  obtain ⟨t, hans, hcx, hret, hmem⟩ := dispatchLine_reject hatline hnone
  have hstate : t.mem.word img.botState = a.cpu.mem.word img.botState := by
    rw [Mem.word_congr (hmem.mono (botState_subset.trans out_subset)),
      dispatchArgs_mem]
  have hnext := step_stateDispatch_some (w := w) hskip hline hne hans
  rw [Run.dispatched, if_pos hcx] at hnext
  refine ⟨hskip, hlength, hword, ?_, ⟨t, hans, hcx, hstate⟩, ?_, ?_⟩
  · have hcf := (doParse_spec hatline.given).1
    rw [hcf, hnone]
    rfl
  · rw [hnext, hheld]
    exact ⟨rfl, rfl, rfl⟩
  · rw [hnext]
    exact hstate

/-- A packet that goes on without LF fills `lineBuffer`. -/
theorem exists_skip (hw : w.Apart img) {held : List Byte}
    (hlabel : r.label = .stateAppendLine) (hline : InLine img held r.cpu)
    (hpacket : InPacket w cur r.cpu.si r.cpu) (hword : lf ∉ cur)
    (hlong : 512 < held.length + cur.length) :
    ∃ k, (steps img w k r).label = .stateSkipLine := by
  have hroom := hline.room
  induction cur generalizing held r with
  | nil =>
      rw [List.length_nil] at hlong
      omega
  | cons b bs ih =>
      rw [List.mem_cons, not_or] at hword
      have hcount := hpacket.count
      have hbx : r.cpu.bx ≠ 0 := by
        intro hzero
        rw [hzero] at hcount
        cases hcount
      have hstep := step_stateAppendLine img w hlabel
      obtain ⟨a, ha⟩ : ∃ a, a = step img w r := ⟨_, rfl⟩
      rw [← ha] at hstep
      by_cases hfull : held.length = 512
      · have hdx : r.cpu.dx = 0 := BitVec.eq_of_toNat_eq (by
          have : (0 : Word).toNat = 0 := rfl
          omega)
        refine ⟨1, ?_⟩
        rw [show steps img w 1 r = a from ha.symm, hstep]
        simp only [appendLine, if_neg hbx, if_pos hdx]
      · have hdx : r.cpu.dx ≠ 0 := by
          intro hzero
          rw [hzero] at hroom
          have : (0 : Word).toNat = 0 := rfl
          omega
        have hacopy : a.label = .copyLoop := by
          rw [hstep]
          simp only [appendLine, if_neg hbx, if_neg hdx]
        have haline : InLine img held a.cpu := by
          rw [hstep]
          exact hline.congr rfl rfl fun _ _ => rfl
        have hapacket : InPacket w (b :: bs) a.cpu.si a.cpu := by
          rw [hstep]
          exact hpacket.congr rfl fun _ _ _ _ => rfl
        obtain ⟨hline', hm⟩ := haline.copyByte hfull
        obtain ⟨hb, hpacket'⟩ := hapacket.next
          (hw.keeps fun x hx => hm (line_disjoint_ours_compl hx))
        have hal : (copyByte a.cpu).al = b := by
          rw [copyByte_eq, Cpu.al, loByte_mkWord, hb]
        have hcopied : step img w a = { a with
            label := .stateAppendLine
            cpu := copyByte a.cpu } := by
          simp only [step, hacopy, hal, if_neg (Ne.symm hword.1)]
        obtain ⟨c, hc⟩ : ∃ c, c = step img w a := ⟨_, rfl⟩
        rw [← hc] at hcopied
        have hccpu : c.cpu = copyByte a.cpu := by rw [hcopied]
        rw [← hccpu, hb] at hline'
        rw [← hccpu] at hpacket'
        have hlong' : 512 < (held ++ [b]).length + bs.length := by
          rw [List.length_append, List.length_singleton]
          rw [List.length_cons] at hlong
          omega
        obtain ⟨k, hk⟩ := ih (by rw [hcopied]) hline' hpacket' hword.2
          hlong' hline'.room
        refine ⟨k + 2, ?_⟩
        rw [steps_add]
        rw [hc, ha] at hk
        exact hk

/-- The first packet of a run, where it goes on without LF. -/
theorem first_skip {q : Packet} (hw : w.Apart img) (hok : w.Delivers)
    (hfresh : Fresh img s₀.mem) (hcs : credentials s₀.dev = some cs)
    (hpackets : w.packets = [q]) (hword : lf ∉ q.bytes)
    (hlong : 512 < q.bytes.length) :
    ∃ n, (steps img w n (w.start s₀)).label = .stateSkipLine := by
  have hat := at_steps (C := fun _ _ => True) hw hfresh
    (fun _ _ => trivial) 3
  obtain ⟨hlabel, hps, hbx⟩ := third_step img hok hcs hpackets
  obtain ⟨r, hr⟩ : ∃ r, r = steps img w 3 (w.start s₀) := ⟨_, rfl⟩
  rw [← hr] at hat hlabel hps hbx
  simp only [At, hlabel] at hat
  obtain ⟨-, held, cur, hline, hpacket, -, -, bs, hsplit, -⟩ := hat
  have hlen : q.bytes.length < 65535 := by
    apply hw.length
    rw [hpackets]
    exact List.mem_singleton_self q
  have hcount := hpacket.count
  rw [hbx, BitVec.toNat_ofNat, Nat.mod_eq_of_lt (by omega)] at hcount
  -- the whole stream is in the packet
  have hstream : bs ++ cur = q.bytes := by
    rw [hps, World.stream, hpackets] at hsplit
    simpa using hsplit
  have hcur : cur = q.bytes := by
    have hsum := congrArg List.length hstream
    rw [List.length_append] at hsum
    have hbs : bs = [] := List.eq_nil_of_length_eq_zero (by omega)
    rw [hbs] at hstream
    exact hstream
  obtain ⟨k, hk⟩ := exists_skip hw hlabel hline hpacket (hcur ▸ hword)
    (by rw [hcur]; omega)
  refine ⟨k + 3, ?_⟩
  rw [steps_add]
  rw [hr] at hk
  exact hk

/-- A line of 513 bytes that looks like a PING. -/
theorem stateSkipLine_inert_ping :
    ∃ n, Inert default
      (demo [ascii "PING :" ++ List.replicate 505 0x78 ++ [cr, cr]])
      (steps default
        (demo [ascii "PING :" ++ List.replicate 505 0x78 ++ [cr, cr]])
        (n + 1)
        ((demo [ascii "PING :" ++ List.replicate 505 0x78 ++ [cr, cr]]).start
          (boot default))) := by
  have hcs : credentials (boot default).dev = some [] := rfl
  have hw : (demo [ascii "PING :" ++ List.replicate 505 0x78
      ++ [cr, cr]]).Apart default := demo_apart (by decide +kernel)
  obtain ⟨n, hn⟩ := first_skip hw (demo_delivers _) (boot_fresh default)
    hcs rfl (by decide +kernel) (by decide +kernel)
  exact ⟨n, stateSkipLine_inert hw (boot_fresh default) n hn⟩

end Pdtb.Asm
