/-
What dispatching one line after another leads to. A `Session` is a bot
that has begun and been handed some lines; between them the rest of the
program may do to memory what it likes, as long as it leaves alone what
the bot keeps there (`own`).

`dispatchLine_cases` is all there is to say about one dispatch, and what
holds in every session follows from it. The framer dispatches a line
from the middle of a packet: it has its registers back afterwards
(`dispatchLine_returns`).
-/
import Pdtb.Proofs.Init

namespace Pdtb.Asm

open Lib Irc

variable {img : Image} {m₀ m m' : Mem 16 Byte} {inp : List Byte}
  {ls : List (List Byte)} {s t : Bot} {st : BotState} {msg : Msg}

-- ==================================================== one dispatch

/-- A dispatch, by what the line and `botState` are. -/
inductive Dispatch (img : Image) (inp : List Byte) (s : Bot) :
    Option Bot → Prop
  /-- there is no parse: nothing is answered and nothing changes -/
  | reject {t : Bot} : parse 512 inp = none → t.cx = 0 → Returned s t →
      Set.EqOn t.mem s.mem (scratch img)ᶜ → Dispatch img inp s (some t)
  /-- there is one, and a handler answers it -/
  | accept {st : BotState} {msg : Msg} {t : Bot} :
      s.mem.word img.botState = handler img st →
      parse 512 inp = some msg → Dispatched img st msg s t →
      Dispatch img inp s (some t)
  /-- there is one, and `botState` is no handler's address -/
  | astray {msg : Msg} : (∀ st, s.mem.word img.botState ≠ handler img st) →
      parse 512 inp = some msg → Dispatch img inp s none

theorem callBotState_none
    (h : ∀ st, s.mem.word img.botState ≠ handler img st) :
    callBotState img s = none := by
  have hstart : s.mem.word img.botState ≠ img.startState := h .start
  have hidle : s.mem.word img.botState ≠ img.idleState := h .idle
  simp only [callBotState]
  rw [if_neg hstart, if_neg hidle]

/-- A line there is a parse of, and nothing to answer it. -/
theorem dispatchLine_astray (h : AtLine img inp s)
    (hparse : parse 512 inp = some msg)
    (hstate : ∀ st, s.mem.word img.botState ≠ handler img st) :
    dispatchLine img s = none := by
  have hlog : Logged img s (logIncoming img s) :=
    logLine_logged .incomingTag h.log_disjoint
  obtain ⟨hcf, -, hsaved⟩ := doParse_spec h.given
  rw [hparse] at hcf
  have hmem := hlog.mem
  obtain ⟨a, ha⟩ : ∃ a, a = logIncoming img s := ⟨_, rfl⟩
  rw [← ha] at hcf hsaved hmem
  obtain ⟨b, hb⟩ : ∃ b, b = doParse img a := ⟨_, rfl⟩
  rw [← hb] at hcf hsaved
  have hbmem : Set.EqOn b.mem s.mem (scratch img)ᶜ := by
    intro x hx
    rw [scratch, Set.mem_compl_iff, Set.mem_union, not_or] at hx
    exact (hsaved.outside hx.1).trans (hmem hx.2)
  have hword : b.mem.word img.botState = s.mem.word img.botState :=
    Mem.word_congr (hbmem.mono (botState_subset.trans out_subset))
  have hbuild : buildBuffer img b = none := by
    simp only [buildBuffer, Cpu.push]
    rw [callBotState_none, Option.map_none]
    simp only [hword]
    exact hstate
  simp only [dispatchLine, ← ha, ← hb, hcf, hbuild, Option.isNone_some,
    Bool.false_eq_true, ↓reduceIte, Option.map_none]

theorem dispatchLine_cases (h : AtLine img inp s)
    (hloaded : Loaded img s.mem) (hzero : s.mem img.parseBufferLen = 0) :
    Dispatch img inp s (dispatchLine img s) := by
  cases hparse : parse 512 inp with
  | none =>
      obtain ⟨t, ht, hcx, hret, hmem⟩ := dispatchLine_reject h hparse
      rw [ht]
      exact .reject hparse hcx hret hmem
  | some msg =>
      by_cases hstate : ∃ st, s.mem.word img.botState = handler img st
      · obtain ⟨st, hst⟩ := hstate
        obtain ⟨t, ht, hd⟩ :=
          dispatchLine_accept h ⟨hloaded, hst, hzero⟩ hparse
        rw [ht]
        exact .accept hst hparse hd
      · rw [not_exists] at hstate
        rw [dispatchLine_astray h hparse hstate]
        exact .astray hstate hparse

/-- No line that is dispatched has a longer parameter. -/
theorem AtLine.target_le (h : AtLine img inp s)
    (hparse : parse 512 inp = some msg) : msg.target.length ≤ 510 := by
  have := msg.length_target
  have := parse_length hparse
  have := h.short
  omega

-- ==================================================== sessions

/-- What the bot has in memory and reads again. -/
def own (img : Image) : Set Word :=
  img.constData ∪ img.parseData ∪ img.outData ∪ img.nullData

/-- The memory `m` of a bot that was loaded as `m₀`, has begun and has
been handed the lines `ls`, each of them under the condition `C` on it
and the memory it found. -/
inductive Session (img : Image) (C : Mem 16 Byte → List Byte → Prop)
    (m₀ : Mem 16 Byte) : List (List Byte) → Mem 16 Byte → Prop
  | init {s : Bot} : Fresh img m₀ → s.mem = m₀ →
      (dispatchInit img s).ax = 0 →
      Session img C m₀ [] (dispatchInit img s).mem
  | line {ls : List (List Byte)} {m : Mem 16 Byte} {inp : List Byte}
      {s t : Bot} : Session img C m₀ ls m → Set.EqOn s.mem m (own img) →
      AtLine img inp s → C s.mem inp → dispatchLine img s = some t →
      Session img C m₀ (ls ++ [inp]) t.mem

/-- What is so in every session. -/
structure Sane (img : Image) (m₀ m : Mem 16 Byte) : Prop where
  loaded : Loaded img m
  zero : m img.parseBufferLen = 0
  null : Set.EqOn m m₀ img.nullData

theorem Sane.alive (h : Sane img m₀ m)
    (hstate : m.word img.botState = handler img st) : Alive img st m :=
  ⟨h.loaded, hstate, h.zero⟩

theorem const_subset_own : img.constData ⊆ own img := fun _ hx =>
  Or.inl (Or.inl (Or.inl hx))

theorem parse_subset_own : img.parseData ⊆ own img := fun _ hx =>
  Or.inl (Or.inl (Or.inr hx))

theorem out_subset_own : img.outData ⊆ own img := fun _ hx =>
  Or.inl (Or.inr hx)

theorem botState_subset_own : region img.botState 2 ⊆ own img :=
  botState_subset_outData.trans out_subset_own

theorem null_subset_own : img.nullData ⊆ own img := fun _ hx => Or.inr hx

theorem parseBufferLen_mem_parse : img.parseBufferLen ∈ img.parseData :=
  region_subset (a := img.parseAt) (i := 512) (n := 2) (k := parseSize)
    (by decide) (base_mem_region (by omega))

theorem Sane.congr (h : Sane img m₀ m) (hm : Set.EqOn m' m (own img)) :
    Sane img m₀ m' := by
  refine ⟨?_, ?_, ?_⟩
  · exact h.loaded.congr (hm.mono const_subset_own)
  · exact (hm (parse_subset_own parseBufferLen_mem_parse)).trans h.zero
  · exact (hm.mono null_subset_own).trans h.null

/-- A dispatch keeps what is outside the scratch data and the reply. -/
theorem Dispatched.outside (h : Dispatched img st msg s t)
    (hlen : msg.target.length ≤ 510) :
    Set.EqOn t.mem s.mem (scratch img ∪ img.outReach)ᶜ := by
  intro x hx
  rw [Set.mem_compl_iff, Set.mem_union, not_or] at hx
  exact (h.mem hx.1).trans (replied_eqOn (act_length_le _ _ _ hlen) _ _ hx.2)

/-- A dispatch that returns keeps what is outside the scratch data and
the reply. -/
theorem Dispatch.outside (h : Dispatch img inp s (some t))
    (hline : AtLine img inp s) :
    Set.EqOn t.mem s.mem (scratch img ∪ img.outReach)ᶜ := by
  cases h with
  | reject _ _ _ hmem =>
      exact hmem.mono (Set.compl_subset_compl.mpr Set.subset_union_left)
  | accept _ hparse hd => exact hd.outside (hline.target_le hparse)

theorem subset_outside {A : Set Word} (hs : A ⊆ (scratch img)ᶜ)
    (ho : Disjoint A img.outReach) : A ⊆ (scratch img ∪ img.outReach)ᶜ := by
  intro x hx
  rw [Set.mem_compl_iff, Set.mem_union, not_or]
  exact ⟨hs hx, Set.disjoint_left.mp ho hx⟩

/-- Of what is kept, nothing the bot relies on is missing. -/
theorem Sane.dispatch (h : Sane img m₀ s.mem)
    (hd : Dispatch img inp s (some t)) (hline : AtLine img inp s) :
    Sane img m₀ t.mem := by
  have hm := hd.outside hline
  refine ⟨?_, ?_, ?_⟩
  · exact h.loaded.congr
      (hm.mono (subset_outside const_subset img.const_disjoint_out))
  · refine (hm ?_).trans h.zero
    rw [Set.mem_compl_iff, Set.mem_union, not_or]
    exact ⟨parseBufferLen_mem, Set.disjoint_left.mp img.parse_disjoint_out
      parseBufferLen_mem_parse⟩
  · exact (hm.mono (subset_outside null_subset
      img.null_disjoint_out)).trans h.null

theorem Begun.sane {cs : List Byte} (h : Begun img cs s t)
    (hfresh : Fresh img s.mem) : Sane img s.mem t.mem := by
  obtain ⟨halive, -⟩ := h.alive hfresh
  refine ⟨halive.loaded, halive.zero, fun x hx => h.mem ?_⟩
  intro hor
  rcases hor with hx' | hx'
  · exact Set.disjoint_left.mp img.null_disjoint_out hx
      (img.outData_subset_outReach hx')
  · exact Set.disjoint_left.mp img.null_disjoint_log hx hx'

/-- A bot that has begun had credentials. -/
theorem begun_of_ax (h : (dispatchInit img s).ax = 0) :
    ∃ cs, credentials s.dev = some cs
      ∧ Begun img cs s (dispatchInit img s) := by
  cases hcs : credentials s.dev with
  | none => exact absurd h (dispatchInit_none img hcs).1
  | some cs => exact ⟨cs, rfl, dispatchInit_some img hcs⟩

variable {C : Mem 16 Byte → List Byte → Prop}

theorem Session.sane (h : Session img C m₀ ls m) : Sane img m₀ m := by
  induction h with
  | init hfresh hs hax =>
      subst hs
      obtain ⟨cs, -, hbegun⟩ := begun_of_ax hax
      exact hbegun.sane hfresh
  | line _ hs hline _ hdispatch ih =>
      have hsane := ih.congr hs
      have hd := dispatchLine_cases hline hsane.loaded hsane.zero
      rw [hdispatch] at hd
      exact hsane.dispatch hd hline

/-- The next dispatch of a session, by its cases. -/
theorem Session.next (h : Session img C m₀ ls m)
    (hs : Set.EqOn s.mem m (own img)) (hline : AtLine img inp s) :
    Dispatch img inp s (dispatchLine img s) :=
  have hsane := h.sane.congr hs
  dispatchLine_cases hline hsane.loaded hsane.zero

variable (ls) in
/-- The last line of a session. -/
theorem Session.last (h : Session img C m₀ (ls ++ [inp]) m) :
    ∃ m' s t, Session img C m₀ ls m' ∧ Set.EqOn s.mem m' (own img)
      ∧ AtLine img inp s ∧ dispatchLine img s = some t ∧ t.mem = m := by
  generalize hall : ls ++ [inp] = all at h
  cases h with
  | init =>
      exact absurd hall (List.append_ne_nil_of_right_ne_nil _
        (List.cons_ne_nil _ _))
  | @line ls' m' inp' s t hsession hs hline hC hdispatch =>
      obtain ⟨rfl, hinp⟩ := List.append_inj' hall rfl
      rw [List.singleton_inj] at hinp
      subst hinp
      exact ⟨m', s, t, hsession, hs, hline, hdispatch, rfl⟩

-- ==================================================== from line to line

theorem line_disjoint_own : Disjoint img.lineData (own img) := by
  have hconst := img.line_disjoint (p := (img.constAt, constSize))
    (by simp) img.const_fits
  have hfits : img.outAt.toNat + outSize ≤ 65536 :=
    Nat.le_trans (Nat.add_le_add_left (by decide) _) img.out_fits
  have hout := img.line_disjoint (p := (img.outAt, outSize)) (by simp)
    hfits
  have hnull := img.line_disjoint (p := (0, nullSize)) (by simp)
    (by decide)
  simp only [own, Set.disjoint_union_right]
  exact ⟨⟨⟨hconst, img.line_disjoint_parse⟩, hout⟩, hnull⟩

/-- A line put in `lineBuffer` is there to be dispatched. -/
theorem atLine_withLine (s : Bot) (hpos : 0 < inp.length)
    (hshort : inp.length ≤ 512) : AtLine img inp (withLine img s inp) where
  si := rfl
  cx := by
    rw [withLine, BitVec.toNat_ofNat]
    omega
  pos := hpos
  short := hshort
  input := Mem.read_write _ _ (by omega)

theorem withLine_own (s : Bot) (hshort : inp.length ≤ 512) :
    Set.EqOn (withLine img s inp).mem s.mem (own img) := fun _ hx =>
  Mem.write_of_notMem fun hx' =>
    Set.disjoint_left.mp line_disjoint_own (region_mono hshort hx') hx

/-- A reply that leaves `botState` alone, and the state after it. -/
theorem Dispatched.state (h : Dispatched img st msg s t)
    (hstate : s.mem.word img.botState = handler img st)
    (hlen : (act img s.mem st msg).1.length ≤ 514) :
    t.mem.word img.botState = handler img (act img s.mem st msg).2 := by
  have hsent : (sent img (act img s.mem st msg).1).length ≤ 514 := by
    rw [sent, List.length_take]
    omega
  have hwrite : (s.mem.write img.outBuffer
      (sent img (act img s.mem st msg).1)).word img.botState
        = handler img st := by
    rw [← hstate]
    refine Mem.word_congr fun x hx => Mem.write_of_notMem ?_
    exact Set.disjoint_right.mp (outBuffer_disjoint_botState hsent) hx
  rw [Mem.word_congr (h.mem.mono (botState_subset.trans out_subset)),
    replied]
  split
  · next hsame => rw [hwrite, hsame]
  · rw [Mem.word_setWord]

-- ==================================================== a bot to start with

/-- A bot as it is loaded, with an empty file of credentials. -/
def boot (img : Image) : Bot := { (default : Bot) with
  mem := Mem.write (fun _ => 0) img.constAt Text.allBytes
  dev := { (default : Dos) with
    authEnv := 1
    authOpen := .ok 5
    authRead := .ok [] } }

theorem boot_mem (img : Image) : (boot img).mem
    = Mem.write (fun _ => 0) img.constAt Text.allBytes := by
  rw [boot]

theorem boot_fresh (img : Image) : Fresh img (boot img).mem := by
  have hlen : Text.allBytes.length = constSize := Text.length_allBytes
  have hsize : constSize ≤ 2 ^ 16 := by decide
  rw [boot_mem]
  refine ⟨?_, fun x hx => ?_⟩
  · rw [Loaded]
    generalize Text.allBytes = texts at hlen
    rw [← hlen] at hsize ⊢
    exact Mem.read_write _ _ hsize
  · generalize Text.allBytes = texts at hlen
    refine Mem.write_of_notMem fun hx' => ?_
    rw [hlen] at hx'
    exact Set.disjoint_left.mp img.const_disjoint_parse hx' hx

theorem boot_begun (img : Image) :
    Begun img [] (boot img) (dispatchInit img (boot img)) :=
  dispatchInit_some img rfl

/-- It begins, and waits for a 004 with nothing parsed. -/
theorem boot_start (img : Image) (C : Mem 16 Byte → List Byte → Prop) :
    ∃ m, Session img C (boot img).mem [] m
      ∧ m.word img.botState = handler img .start
      ∧ ∀ x ∈ img.parseData, m x = 0 := by
  obtain ⟨halive, hzero⟩ := (boot_begun img).alive (boot_fresh img)
  exact ⟨_, .init (boot_fresh img) rfl (boot_begun img).ax, halive.state,
    hzero⟩

variable (inp) in
/-- The bot handed another line finds what it left. -/
theorem Session.handed (hm : Session img C m₀ ls m)
    (hstate : m.word img.botState = handler img st)
    (hpos : 0 < inp.length) (hshort : inp.length ≤ 512) :
    ∃ s, Set.EqOn s.mem m (own img) ∧ AtLine img inp s
      ∧ Alive img st s.mem := by
  obtain ⟨s, hs⟩ : ∃ s, s = withLine img { boot img with mem := m } inp :=
    ⟨_, rfl⟩
  have hown : Set.EqOn s.mem m (own img) :=
    hs ▸ withLine_own { boot img with mem := m } hshort
  have hword : s.mem.word img.botState = handler img st := by
    rw [Mem.word_congr (hown.mono botState_subset_own), hstate]
  exact ⟨s, hown, hs ▸ atLine_withLine _ hpos hshort,
    (hm.sane.congr hown).alive hword⟩

/-- `PING :x` -/
def pingLine : List Byte := ascii "PING :x" ++ crlf

theorem pingLine_parse :
    parse 512 pingLine = some ⟨[], [], ascii "PING", [ascii "x"]⟩ := by
  decide +kernel

/-- A message that starts the bot. -/
def startLine : List Byte := ascii "004" ++ crlf

/-- The bot started and handed a 004 is idle. -/
theorem boot_idle (img : Image) (hC : ∀ m : Mem 16 Byte,
      m.word img.botState = img.startState → C m startLine) :
    ∃ m, Session img C (boot img).mem [startLine] m
      ∧ m.word img.botState = handler img .idle := by
  obtain ⟨a, hsession, hstart, -⟩ := boot_start img C
  obtain ⟨s, hown, hline, halive⟩ :=
    hsession.handed startLine hstart (by decide) (by decide)
  have hparse : parse 512 startLine = some ⟨[], [], ascii "004", [[]]⟩ := by
    decide +kernel
  obtain ⟨t, ht, hd⟩ := dispatchLine_accept hline halive hparse
  have hact : act img s.mem .start ⟨[], [], ascii "004", [[]]⟩
      = (Text.startCmd.bytes, .idle) := by
    rw [act, if_pos (starts_of_cmd (by rfl))]
  refine ⟨t.mem, .line hsession hown hline (hC _ halive.state) ht, ?_⟩
  rw [hd.state halive.state (by rw [hact, length_startCmd]; omega), hact]

variable (img) in
/-- The bot made idle and handed another line. -/
theorem boot_handed (inp : List Byte) (hC : ∀ m inp, C m inp)
    (hpos : 0 < inp.length) (hshort : inp.length ≤ 512) :
    ∃ m s, Session img C (boot img).mem [startLine] m
      ∧ Set.EqOn s.mem m (own img) ∧ AtLine img inp s
      ∧ Alive img .idle s.mem := by
  obtain ⟨m, hsession, hidle⟩ := boot_idle img fun m _ => hC m startLine
  obtain ⟨s, hown, hline, halive⟩ := hsession.handed inp hidle hpos hshort
  exact ⟨m, s, hsession, hown, hline, halive⟩

-- ==================================================== the framer's registers

/-- A dispatch that returns gives back the registers. -/
theorem Dispatch.returned (h : Dispatch img inp s (some t)) :
    Returned s t := by
  cases h with
  | reject _ _ hret _ => exact hret
  | accept _ _ hd => exact hd.returned

/-- With a handler in `botState` a dispatch returns. -/
theorem Dispatch.some_of_handler {r : Option Bot} (h : Dispatch img inp s r)
    (hstate : s.mem.word img.botState = handler img st) :
    ∃ t, r = some t := by
  cases h with
  | @reject t _ _ _ _ => exact ⟨t, rfl⟩
  | @accept _ _ t _ _ _ => exact ⟨t, rfl⟩
  | astray hastray _ => exact absurd hstate (hastray st)

theorem handler_cases (w : Word)
    (h : w = img.startState ∨ w = img.idleState) :
    ∃ st, w = handler img st := by
  cases h with
  | inl hstart => exact ⟨.start, hstart⟩
  | inr hidle => exact ⟨.idle, hidle⟩

/-- Whatever the line is and whatever comes of it, the framer finds the
bytes left of the packet, its place in the packet and its stack frame as
they were. -/
theorem dispatchLine_returns (h : Session img C m₀ ls m)
    (hs : Set.EqOn s.mem m (own img)) (hline : AtLine img inp s)
    (hstate : s.mem.word img.botState = img.startState
      ∨ s.mem.word img.botState = img.idleState) :
    ∃ t, dispatchLine img s = some t
      ∧ t.bx = s.bx ∧ t.di = s.di ∧ t.bp = s.bp
      ∧ t.sp = s.sp ∧ t.stack = s.stack := by
  have hd := h.next hs hline
  obtain ⟨st, hst⟩ := handler_cases _ hstate
  obtain ⟨t, ht⟩ := hd.some_of_handler hst
  rw [ht] at hd
  have hret := hd.returned
  have hsp : t.sp = s.sp := by rw [Cpu.sp, Cpu.sp, hret.stack]
  exact ⟨t, ht, hret.bx, hret.di, hret.bp, hsp, hret.stack⟩

/-- An idle bot answers `PING :x` and is where it was. -/
theorem dispatchLine_returns_ping :
    ∃ s t, AtLine default pingLine s ∧ dispatchLine default s = some t
      ∧ t.bx = s.bx ∧ t.di = s.di ∧ t.bp = s.bp ∧ t.sp = s.sp := by
  obtain ⟨m, s, hsession, hown, hline, halive⟩ :=
    boot_handed default pingLine (C := fun _ _ => True)
      (fun _ _ => trivial) (by decide) (by decide)
  obtain ⟨t, ht, hbx, hdi, hbp, hsp, -⟩ :=
    dispatchLine_returns hsession hown hline (Or.inr halive.state)
  exact ⟨s, t, hline, ht, hbx, hdi, hbp, hsp⟩

end Pdtb.Asm
