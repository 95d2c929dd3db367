/-
The commands the bot answers. What it is asked for it answers, exactly
as `answer` has it. But it also takes a command that only starts like
one, or a parameter that runs on into what is behind it, for one it
knows; `Spurious` is when.
-/
import Pdtb.Proofs.Bound

namespace Pdtb.Asm

open Lib Irc

variable {img : Image} {m₀ m : Mem 16 Byte} {inp : List Byte}
  {ls : List (List Byte)} {s t : Bot} {st : BotState} {msg : Msg}
  {C : Mem 16 Byte → List Byte → Prop}

-- ==================================================== what is owed

/-- A handler gives the answer a message is owed. -/
theorem act_answer (m : Mem 16 Byte) (hdue : (answer st msg).1 ≠ []) :
    act img m st msg = answer st msg := by
  cases st with
  | start =>
      by_cases hcmd : msg.cmd = ascii "004"
      · rw [answer, if_pos hcmd, act, if_pos (starts_of_cmd hcmd)]
      · rw [answer, if_neg hcmd] at hdue
        exact absurd rfl hdue
  | idle =>
      by_cases hcmd : msg.cmd = ascii "PING"
      · rw [answer, if_pos hcmd, act, if_pos (pings_of_cmd hcmd)]
      · by_cases hgreets : msg.Greets
        · obtain ⟨hping, hhails⟩ : ¬ Pings img m msg ∧ Hails img m msg :=
            hails_of_greets hgreets
          rw [answer, if_neg hcmd, if_pos hgreets, act, if_neg hping,
            if_pos hhails]
        · rw [answer, if_neg hcmd, if_neg hgreets] at hdue
          exact absurd rfl hdue

/-- A message that is owed an answer of at most 512 bytes is given it,
and `cx` is its length. -/
theorem dispatchLine_answers (h : Session img C m₀ ls m)
    (hs : Set.EqOn s.mem m (own img)) (hline : AtLine img inp s)
    (hparse : parse parseBufferLenMax.toNat inp = some msg)
    (hstate : s.mem.word img.botState = handler img st)
    (hdue : (answer st msg).1 ≠ [])
    (hfits : (answer st msg).1.length ≤ outBufferMax.toNat) :
    ∃ t, dispatchLine img s = some t
      ∧ t.mem.read t.si t.cx.toNat = (answer st msg).1
      ∧ t.cx.toNat = (answer st msg).1.length
      ∧ t.mem.word img.botState = handler img (answer st msg).2 := by
  have halive := (h.sane.congr hs).alive hstate
  obtain ⟨t, ht, hd⟩ := dispatchLine_accept hline halive hparse
  have hact : act img s.mem st msg = answer st msg := act_answer s.mem hdue
  have hmax : outBufferMax.toNat = 512 := rfl
  have hlen : (act img s.mem st msg).1.length ≤ 512 := by
    rw [hact]
    exact hmax ▸ hfits
  have hsent := sent_eq img (Nat.le_trans hlen (by omega))
  have hreply := hd.reply (act_length_le img s.mem st (hline.target_le hparse))
  have hcx := hd.cx
  have hnext := hd.state hstate (Nat.le_trans hlen (by omega))
  rw [hsent, hact] at hreply hcx
  rw [hact] at hnext
  exact ⟨t, ht, hreply, hcx, hnext⟩

/-- An idle bot handed `PING :x` answers `PONG :x`. -/
theorem dispatchLine_answers_ping :
    ∃ s t, AtLine default pingLine s ∧ dispatchLine default s = some t
      ∧ t.mem.read t.si t.cx.toNat = ascii "PONG :x" ++ crlf := by
  obtain ⟨m, s, hsession, hown, hline, halive⟩ :=
    boot_handed default pingLine (C := fun _ _ => True)
      (fun _ _ => trivial) (by decide) (by decide)
  obtain ⟨t, ht, hreply, -⟩ := dispatchLine_answers hsession hown hline
    pingLine_parse halive.state (by decide) (by decide)
  exact ⟨s, t, hline, ht, hreply.trans (by decide)⟩

-- ==================================================== what is not

/-- The handler of `st` answers `msg` though it is not what the answer
is for. -/
def Spurious (img : Image) (m : Mem 16 Byte) (st : BotState) (msg : Msg) :
    Prop :=
  match st with
  | .start => Starts img m msg ∧ msg.cmd ≠ ascii "004"
  | .idle =>
      Pings img m msg ∧ msg.cmd ≠ ascii "PING"
        ∨ ¬ Pings img m msg ∧ Hails img m msg ∧ ¬ msg.Greets

/-- The bot did one of the things it may: it joined on a 004, it
answered a PING or a greeting, or it did nothing. -/
def Obeyed (img : Image) (st : BotState) (msg : Msg) (s t : Bot) : Prop :=
  let reply := t.mem.read t.si t.cx.toNat
  let stays := t.mem.word img.botState = s.mem.word img.botState
  t.cx = 0 ∧ stays ∨
    match st with
    | .start => msg.cmd = ascii "004" ∧ reply = Text.startCmd.bytes
        ∧ t.mem.word img.botState = img.idleState
    | .idle => msg.cmd = ascii "PING" ∧ reply = sent img (pong msg.target)
        ∨ msg.Greets ∧ reply = sent img (hello msg.target)

/-- A handler that has no answer does nothing. -/
theorem Dispatched.nothing (h : Dispatched img st msg s t)
    (hstate : s.mem.word img.botState = handler img st)
    (hact : act img s.mem st msg = ([], st)) :
    t.cx = 0 ∧ t.mem.word img.botState = s.mem.word img.botState := by
  have hcx := h.cx
  have hnext := h.state hstate (by rw [hact]; exact Nat.zero_le _)
  rw [hact] at hcx hnext
  refine ⟨BitVec.eq_of_toNat_eq ?_, hnext.trans hstate.symm⟩
  rw [hcx, sent, List.take_nil]
  rfl

/-- A handler that has one is heard. -/
theorem Dispatched.heard (h : Dispatched img st msg s t)
    (hact : (act img s.mem st msg).1 ≠ []) : t.cx ≠ 0 := by
  intro hzero
  have hcx := h.cx
  have hroom := room_gt img
  rw [hzero, sent, List.length_take] at hcx
  have hlen := List.length_pos_iff.mpr hact
  have hzero' : (0 : Word).toNat = 0 := rfl
  omega

theorem pong_ne_nil (p : List Byte) : pong p ≠ [] := by
  refine List.ne_nil_of_length_pos ?_
  rw [length_pong]
  omega

theorem hello_ne_nil (p : List Byte) : hello p ≠ [] := by
  refine List.ne_nil_of_length_pos ?_
  rw [length_hello]
  omega

theorem startCmd_ne_nil : Text.startCmd.bytes ≠ [] := by
  refine List.ne_nil_of_length_pos ?_
  rw [length_startCmd]
  omega

theorem Dispatched.obeyed_iff (h : Dispatched img st msg s t)
    (hstate : s.mem.word img.botState = handler img st)
    (hlen : msg.target.length ≤ 510) :
    Obeyed img st msg s t ↔ ¬ Spurious img s.mem st msg := by
  have hreply := h.reply (act_length_le img s.mem st hlen)
  cases st with
  | start =>
      by_cases hstarts : Starts img s.mem msg
      · have hact : act img s.mem .start msg
            = (Text.startCmd.bytes, .idle) := if_pos hstarts
        have hcx := h.heard (by rw [hact]; exact startCmd_ne_nil)
        have hnext := h.state hstate
          (by rw [hact, length_startCmd]; omega)
        rw [hact, sent_eq _ (by rw [length_startCmd]; omega)] at hreply
        rw [hact] at hnext
        simp only [Obeyed, Spurious, hcx, false_and, false_or, hstarts,
          true_and, not_not, ne_eq]
        exact ⟨fun hob => hob.1, fun hcmd => ⟨hcmd, hreply, hnext⟩⟩
      · have hact : act img s.mem .start msg = ([], .start) :=
          if_neg hstarts
        exact iff_of_true (Or.inl (h.nothing hstate hact))
          fun hsp => hstarts hsp.1
  | idle =>
      by_cases hping : Pings img s.mem msg
      · have hact : act img s.mem .idle msg = (pong msg.target, .idle) :=
          if_pos hping
        have hcx := h.heard (by rw [hact]; exact pong_ne_nil _)
        have hno : ¬ msg.Greets := fun hg => (hails_of_greets hg).1 hping
        rw [hact] at hreply
        simp only [Obeyed, Spurious, hcx, false_and, false_or, hping, hno,
          not_true_eq_false, or_false, true_and, not_not, ne_eq]
        exact ⟨fun hob => hob.1, fun hcmd => ⟨hcmd, hreply⟩⟩
      · have hcmd : msg.cmd ≠ ascii "PING" := fun hcmd =>
          hping (pings_of_cmd hcmd)
        by_cases hhails : Hails img s.mem msg
        · have hact : act img s.mem .idle msg
              = (hello msg.target, .idle) := by
            rw [act, if_neg hping, if_pos hhails]
          have hcx := h.heard (by rw [hact]; exact hello_ne_nil _)
          rw [hact] at hreply
          simp only [Obeyed, Spurious, hcx, false_and, false_or, hping,
            hcmd, hhails, not_false_eq_true, true_and, not_not]
          exact ⟨fun hob => hob.1, fun hg => ⟨hg, hreply⟩⟩
        · have hact : act img s.mem .idle msg = ([], .idle) := by
            rw [act, if_neg hping, if_neg hhails]
          refine iff_of_true (Or.inl (h.nothing hstate hact)) ?_
          intro hor
          rcases hor with ⟨hp, -⟩ | ⟨-, hh, -⟩
          · exact hping hp
          · exact hhails hh

/-- The bot does what it may with an accepted line exactly when
`botState` is a handler that does not take it for something else. -/
theorem dispatchLine_obeyed_iff (h : Session img C m₀ ls m)
    (hs : Set.EqOn s.mem m (own img)) (hline : AtLine img inp s)
    (hparse : parse parseBufferLenMax.toNat inp = some msg) :
    (∃ st t, s.mem.word img.botState = handler img st
        ∧ dispatchLine img s = some t ∧ Obeyed img st msg s t)
      ↔ ∃ st, s.mem.word img.botState = handler img st
        ∧ ¬ Spurious img s.mem st msg := by
  have hsane := h.sane.congr hs
  have hlen := hline.target_le hparse
  refine exists_congr fun st => ?_
  constructor
  · intro hex
    obtain ⟨t, hstate, ht, hob⟩ := hex
    obtain ⟨u, hu, hd⟩ :=
      dispatchLine_accept hline (hsane.alive hstate) hparse
    rw [ht] at hu
    cases hu
    exact ⟨hstate, (hd.obeyed_iff hstate hlen).mp hob⟩
  · intro hand
    obtain ⟨hstate, hsp⟩ := hand
    obtain ⟨t, ht, hd⟩ :=
      dispatchLine_accept hline (hsane.alive hstate) hparse
    exact ⟨t, hstate, ht, (hd.obeyed_iff hstate hlen).mpr hsp⟩

/-- A command that only starts like a 004. -/
def longStart : List Byte := ascii "0040" ++ crlf

theorem longStart_parse :
    parse 512 longStart = some ⟨[], [], ascii "0040", [[]]⟩ := by
  decide +kernel

theorem starts_longStart (m : Mem 16 Byte) :
    Starts img m ⟨[], [], ascii "0040", [[]]⟩ := by
  obtain ⟨ys, hys⟩ := shown_cmd img m
    ⟨[], [], ascii "0040", [[]]⟩
  rw [Starts, Shows, hys]
  exact (show ascii "004" <+: ascii "0040" by decide).trans
    (List.prefix_append _ _)

theorem dispatchLine_not_obeyed :
    ¬ ∀ (m₀ : Mem 16 Byte) (ls : List (List Byte)) (m : Mem 16 Byte)
        (inp : List Byte) (s : Bot) (msg : Msg),
      Session default (fun _ _ => True) m₀ ls m →
      Set.EqOn s.mem m (own default) → AtLine default inp s →
      parse parseBufferLenMax.toNat inp = some msg →
      ∃ st t, s.mem.word (Image.botState default) = handler default st
        ∧ dispatchLine default s = some t
        ∧ Obeyed default st msg s t := by
  intro hall
  obtain ⟨m, hsession, hstart, -⟩ := boot_start default fun _ _ => True
  obtain ⟨s, hown, hline, halive⟩ :=
    hsession.handed longStart hstart (by decide) (by decide)
  obtain ⟨st, t, hstate, ht, hob⟩ :=
    hall _ _ _ _ _ _ hsession hown hline longStart_parse
  cases handler_inj (halive.state.symm.trans hstate)
  obtain ⟨u, hu, hd⟩ := dispatchLine_accept hline halive longStart_parse
  rw [ht] at hu
  cases hu
  refine (hd.obeyed_iff hstate ?_).mp hob ⟨starts_longStart _, by decide⟩
  exact hline.target_le longStart_parse

/-- An idle bot handed `PING :x` may answer it. -/
theorem dispatchLine_obeyed_ping :
    ∃ s st t, AtLine default pingLine s ∧ dispatchLine default s = some t
      ∧ Obeyed default st ⟨[], [], ascii "PING", [ascii "x"]⟩ s t := by
  obtain ⟨m, s, hsession, hown, hline, halive⟩ :=
    boot_handed default pingLine (C := fun _ _ => True)
      (fun _ _ => trivial) (by decide) (by decide)
  obtain ⟨st, t, -, ht, hob⟩ :=
    (dispatchLine_obeyed_iff hsession hown hline pingLine_parse).mpr
      ⟨.idle, halive.state, by
        intro h
        rcases h with ⟨-, hcmd⟩ | ⟨hping, -⟩
        · exact hcmd rfl
        · exact hping (pings_of_cmd (by rfl))⟩
  exact ⟨s, st, t, hline, ht, hob⟩

-- ==================================================== one line at a time

/-- CR and LF end the text, and are nowhere else in it. -/
def OneLine (text : List Byte) : Prop :=
  ∃ u, text = u ++ crlf ∧ cr ∉ u ∧ lf ∉ u

theorem oneLine_pong {p : List Byte} (hcr : cr ∉ p) (hlf : lf ∉ p) :
    OneLine (pong p) := by
  have hcmd : cr ∉ Text.pongCmd.bytes ++ [space] ++ [colon]
      ∧ lf ∉ Text.pongCmd.bytes ++ [space] ++ [colon] := by decide
  refine ⟨Text.pongCmd.bytes ++ [space] ++ [colon] ++ p, ?_, ?_, ?_⟩
  · simp only [pong, crlf, List.append_assoc, List.singleton_append]
  · rw [List.mem_append, not_or]
    exact ⟨hcmd.1, hcr⟩
  · rw [List.mem_append, not_or]
    exact ⟨hcmd.2, hlf⟩

theorem oneLine_hello {p : List Byte} (hcr : cr ∉ p) (hlf : lf ∉ p) :
    OneLine (hello p) := by
  have hcmd : cr ∉ Text.privmsgCmd.bytes ++ [space]
      ∧ lf ∉ Text.privmsgCmd.bytes ++ [space] := by decide
  have htext : cr ∉ [space] ++ [colon] ++ Text.helloText.bytes
      ∧ lf ∉ [space] ++ [colon] ++ Text.helloText.bytes := by decide
  refine ⟨Text.privmsgCmd.bytes ++ [space] ++ p
    ++ ([space] ++ [colon] ++ Text.helloText.bytes), ?_, ?_, ?_⟩
  · simp only [hello, crlf, List.append_assoc, List.singleton_append]
  · rw [List.mem_append, List.mem_append, not_or, not_or]
    exact ⟨⟨hcmd.1, hcr⟩, htext.1⟩
  · rw [List.mem_append, List.mem_append, not_or, not_or]
    exact ⟨⟨hcmd.2, hlf⟩, htext.2⟩

/-- What the first parameter of a line can be, with LF at the line's end
only. -/
theorem target_clean (hparse : parse 512 inp = some msg)
    (hlf : lf ∉ inp.dropLast) : cr ∉ msg.target ∧ lf ∉ msg.target := by
  obtain ⟨u, rfl, hparams⟩ := parse_params hparse
  have hpos := parse_params_pos hparse
  have hmem : msg.target ∈ msg.params := by
    rw [msg.target_eq hpos]
    exact List.getElem_mem hpos
  obtain ⟨hcr, hsub⟩ := hparams _ hmem
  refine ⟨hcr, fun hmem => hlf ?_⟩
  rw [List.dropLast_append_of_ne_nil (show crlf ≠ [] by decide)]
  exact List.mem_append_left _ (hsub hmem)

/-- What an idle bot answers within 512 bytes is one line, whatever the
line it answers. -/
theorem dispatchLine_oneLine (h : Session img C m₀ ls m)
    (hs : Set.EqOn s.mem m (own img)) (hline : AtLine img inp s)
    (hlf : lf ∉ inp.dropLast)
    (hidle : s.mem.word img.botState = img.idleState)
    (hans : dispatchLine img s = some t) (hcx : t.cx ≠ 0)
    (hfits : t.cx.toNat ≤ outBufferMax.toNat) :
    OneLine (t.mem.read t.si t.cx.toNat) := by
  have hd := h.next hs hline
  rw [hans] at hd
  cases hd with
  | reject _ hzero => exact absurd hzero hcx
  | @accept st msg t hstate hparse hd =>
      cases handler_inj (hstate.symm.trans hidle : _ = handler img .idle)
      obtain ⟨hcr, hlf'⟩ := target_clean hparse hlf
      have hmax : outBufferMax.toNat = 512 := rfl
      have hlen : (act img s.mem .idle msg).1.length ≤ 518 := by
        have hroom := room_gt img
        rw [hd.cx, sent, List.length_take] at hfits
        omega
      rw [hd.reply (act_length_le img s.mem .idle (hline.target_le hparse)),
        sent_eq img hlen]
      have hne : (act img s.mem .idle msg).1 ≠ [] := by
        intro hnil
        have hzero := hd.cx
        rw [hnil, sent, List.take_nil] at hzero
        exact hcx (BitVec.eq_of_toNat_eq hzero)
      rw [act] at hne ⊢
      split at hne
      · next hping =>
          rw [if_pos hping]
          exact oneLine_pong hcr hlf'
      · next hping =>
          rw [if_neg hping]
          split at hne
          · next hhails =>
              rw [if_pos hhails]
              exact oneLine_hello hcr hlf'
          · exact absurd rfl hne

/-- The PONG of an idle bot is one line. -/
theorem dispatchLine_oneLine_ping :
    ∃ s t, AtLine default pingLine s ∧ dispatchLine default s = some t
      ∧ OneLine (t.mem.read t.si t.cx.toNat) := by
  obtain ⟨m, s, hsession, hown, hline, halive⟩ :=
    boot_handed default pingLine (C := fun _ _ => True)
      (fun _ _ => trivial) (by decide) (by decide)
  obtain ⟨t, ht, hd⟩ := dispatchLine_accept hline halive pingLine_parse
  have hact : act default s.mem .idle ⟨[], [], ascii "PING", [ascii "x"]⟩
      = answer .idle ⟨[], [], ascii "PING", [ascii "x"]⟩ :=
    act_answer s.mem (by decide)
  have hlen : t.cx.toNat = 9 := by
    rw [hd.cx, hact, sent_eq default (by decide)]
    decide
  have hcx : t.cx ≠ 0 := by
    intro hzero
    rw [hzero] at hlen
    exact absurd hlen (by decide)
  refine ⟨s, t, hline, ht, ?_⟩
  apply dispatchLine_oneLine hsession hown hline (by decide) halive.state
    ht hcx
  rw [hlen]
  decide

end Pdtb.Asm
