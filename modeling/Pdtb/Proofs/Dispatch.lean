/-
One dispatch, from the line to the reply. `dispatchLine` logs, parses,
calls the handler and logs again; the two theorems at the end say what
it returns and what of memory it changed, for a line there is no parse
of and for one there is.

`Alive` is the invariant between dispatches: the texts are in place,
`botState` holds a handler's address, and `parseBufferLen` is still 0.
-/
import Pdtb.Irc.Grammar
import Pdtb.Proofs.Handler

namespace Pdtb.Asm

open Lib Irc

variable {img : Image} {msg : Msg} {m₀ m m' : Mem 16 Byte}
  {inp : List Byte} {s : Bot} {st : BotState}

-- ==================================================== logging

/-- Logging changes `dx`, the flags, `logBuffer` and DOS. -/
structure Logged (img : Image) (s t : Bot) : Prop where
  eq : ∃ dx bs dev, t = { s with
    dx := dx, cf := false, mem := s.mem.write img.logBuffer bs, dev := dev }
  mem : Set.EqOn t.mem s.mem img.logDataᶜ

theorem logged_write (img : Image) (s : Bot) {bs : List Byte}
    (hlen : bs.length ≤ 512) (dx : Word) (dev : Dos) :
    Logged img s { s with
      dx := dx, cf := false, mem := s.mem.write img.logBuffer bs
      dev := dev } := by
  refine ⟨⟨dx, bs, dev, rfl⟩, fun x hx => ?_⟩
  refine Mem.write_of_notMem fun hx' => hx (img.logBuffer_subset ?_)
  exact region_mono hlen hx'

theorem logged_length (s : Bot) : (logged s).length ≤ 512 := by
  rw [logged, List.length_take]
  exact Nat.min_le_left _ _

theorem tag_disjoint (img : Image) (t : Text) :
    Disjoint (region (img.text t) (BitVec.ofNat 16 t.bytes.length).toNat)
      (region img.logBuffer 512) := by
  rw [text_length]
  exact img.const_disjoint_log.mono (text_subset img t)
    img.logBuffer_subset

/-- `logIncoming` and `logOutgoing`. -/
theorem logLine_logged (tag : Text)
    (hline : Disjoint (region s.si (s.cx - 1).toNat)
      (region img.logBuffer 512)) :
    Logged img s (logLine img tag s) := by
  obtain ⟨a, ha⟩ : ∃ a : Bot, a = { s with
    ax := img.text tag
    bx := BitVec.ofNat 16 tag.bytes.length
    cx := s.cx - 1
    stack := s.bx :: s.ax :: s.cx :: s.stack } := ⟨_, rfl⟩
  have hlog := logGeneral_eq img a (by rw [ha]; exact tag_disjoint img tag)
    (by rw [ha]; exact hline)
  have hstack : a.stack = s.bx :: s.ax :: s.cx :: s.stack := by rw [ha]
  have hout := logged_write img s (logged_length a)
    (mkWord (a.dev.clock (a.dev.now + 1)).month
      (a.dev.clock (a.dev.now + 1)).day)
    { a.dev with
      now := a.dev.now + 2
      written := a.dev.written ++ [(a.mem.word img.logHandle, logged a),
        (1, logged a)] }
  simp only [logLine, Cpu.push, ← ha, hlog, Cpu.pop, Cpu.top, hstack,
    List.headD_cons, List.tail_cons]
  rw [ha] at hout ⊢
  exact hout

variable (img s) in
/-- A message of the bot's own. -/
theorem logLogic_logged (t : Text) :
    Logged img (sayText img t s) (logLogic img (sayText img t s)) := by
  obtain ⟨u, hu⟩ : ∃ u : Bot, u = sayText img t s := ⟨_, rfl⟩
  obtain ⟨a, ha⟩ : ∃ a : Bot, a = { u with
    ax := img.text .logicTag
    bx := BitVec.ofNat 16 Text.logicTag.bytes.length
    stack := u.bx :: u.ax :: u.stack } := ⟨_, rfl⟩
  have hlog := logGeneral_eq img a
    (by rw [ha]; exact tag_disjoint img .logicTag)
    (by rw [ha, hu]; exact tag_disjoint img t)
  have hstack : a.stack = u.bx :: u.ax :: u.stack := by rw [ha]
  have hout := logged_write img u (logged_length a)
    (mkWord (a.dev.clock (a.dev.now + 1)).month
      (a.dev.clock (a.dev.now + 1)).day)
    { a.dev with
      now := a.dev.now + 2
      written := a.dev.written ++ [(a.mem.word img.logHandle, logged a),
        (1, logged a)] }
  rw [← hu]
  simp only [logLogic, Cpu.push, ← ha, hlog, Cpu.pop, Cpu.top, hstack,
    List.headD_cons, List.tail_cons]
  rw [ha] at hout ⊢
  exact hout

-- ==================================================== the reply

/-- The part of a reply there is room for. -/
def sent (img : Image) (reply : List Byte) : List Byte :=
  reply.take img.outBufferLen.toNat

/-- The room the handlers are given: an address. -/
theorem room_eq (img : Image) :
    img.outBufferLen.toNat = img.outAt.toNat + 512 := by
  have hfits := img.out_fits
  unfold outSpill at hfits
  rw [Image.outBufferLen, BitVec.toNat_add]
  have : (512 : Word).toNat = 512 := rfl
  omega

/-- It is more than the buffer has, whatever the layout. -/
theorem room_gt (img : Image) : 518 ≤ img.outBufferLen.toNat := by
  have hnull : (0 : Word).toNat + 6 ≤ img.outAt.toNat
      ∨ img.outAt.toNat + 533 ≤ (0 : Word).toNat :=
    img.apart_of 0 4 (by decide)
  have hzero : (0 : Word).toNat = 0 := rfl
  rw [room_eq]
  omega

variable (img) in
/-- Short of the room, a reply is written whole. -/
theorem sent_eq {reply : List Byte} (h : reply.length ≤ 518) :
    sent img reply = reply :=
  List.take_of_length_le (Nat.le_trans h (room_gt img))

/-- Memory after the handler: the reply, and the new state if there is
one. -/
def replied (img : Image) (m : Mem 16 Byte) (reply : List Byte)
    (st st' : BotState) : Mem 16 Byte :=
  let m := m.write img.outBuffer (sent img reply)
  if st' = st then m else m.setWord img.botState (handler img st')

theorem buildBuffer_spec (hparsed : Parsed img msg m₀ s.mem)
    (hloaded : Loaded img s.mem) (hcalm : Calm img m₀ s.mem)
    (hstate : s.mem.word img.botState = handler img st)
    (hne : 0 < msg.params.length) (hlen : msg.target.length ≤ 510) :
    buildBuffer img s = some { s with
      si := img.outBuffer
      cx := BitVec.ofNat 16 (sent img (act img m₀ st msg).1).length
      mem := replied img s.mem (act img m₀ st msg).1 st
        (act img m₀ st msg).2 } := by
  obtain ⟨b, hb⟩ : ∃ b : Bot, b = { s with
    di := img.outBuffer
    cx := img.outBufferLen
    stack := s.di :: s.bx :: s.bp :: s.ax :: s.stack } := ⟨_, rfl⟩
  have hready : Ready img msg m₀ b := by
    rw [hb]
    exact ⟨rfl, hloaded, hparsed⟩
  have hbstate : b.mem.word img.botState = handler img st := by
    rw [hb]
    exact hstate
  have hbcx : b.cx = img.outBufferLen := by rw [hb]
  have hstack : b.stack = s.di :: s.bx :: s.bp :: s.ax :: s.stack := by
    rw [hb]
  obtain ⟨t, hcall, ax, bx, si, ht⟩ := callBotState_spec hready
    (by rw [hb]; exact hcalm) hbstate hne hlen
  obtain ⟨reply, hreply⟩ : ∃ r, r = (act img m₀ st msg).1 := ⟨_, rfl⟩
  rw [← hreply] at ht ⊢
  have hcount : img.outBufferLen - (b.emit reply).cx
      = BitVec.ofNat 16 (sent img reply).length := by
    have h := emitted_count b reply
    rw [hbcx] at h
    apply BitVec.eq_of_toNat_eq
    rw [h, BitVec.toNat_ofNat, Nat.mod_eq_of_lt]
    · rfl
    · rw [sent, List.length_take]
      have := img.outBufferLen.isLt
      omega
  have hmem : (b.emit reply).mem
      = s.mem.write img.outBuffer (sent img reply) := by
    rw [Cpu.emit_mem, hbcx, sent, hb]
  simp only [buildBuffer, Cpu.push, ← hb, hcall, Option.map_some, Cpu.pop,
    Cpu.top]
  rw [ht]
  simp only [Cpu.emit_stack, hstack, List.headD_cons, List.tail_cons,
    hcount, hmem, replied, Cpu.emit_dx, Cpu.emit_cf, Cpu.emit_zf,
    Cpu.emit_dev]
  rw [hb]

-- ==================================================== between dispatches

/-- What a dispatch relies on and leaves behind. -/
structure Alive (img : Image) (st : BotState) (m : Mem 16 Byte) : Prop where
  loaded : Loaded img m
  state : m.word img.botState = handler img st
  zero : m img.parseBufferLen = 0

/-- A line in `lineBuffer`, as it is dispatched. -/
structure AtLine (img : Image) (inp : List Byte) (s : Bot) : Prop where
  si : s.si = img.lineBuffer
  cx : s.cx.toNat = inp.length
  pos : 0 < inp.length
  short : inp.length ≤ 512
  input : s.mem.read img.lineBuffer inp.length = inp

/-- The registers a dispatch gives back. -/
structure Returned (s t : Bot) : Prop where
  ax : t.ax = s.ax
  bx : t.bx = s.bx
  di : t.di = s.di
  bp : t.bp = s.bp
  stack : t.stack = s.stack

/-- What a dispatch may scribble on: the parser's data and the log
record. -/
def scratch (img : Image) : Set Word := img.parseStores ∪ img.logData

theorem Logged.returned {s t : Bot} (h : Logged img s t) :
    Returned s t ∧ t.si = s.si ∧ t.cx = s.cx := by
  obtain ⟨⟨dx, bs, dev, rfl⟩, -⟩ := h
  exact ⟨⟨rfl, rfl, rfl, rfl, rfl⟩, rfl, rfl⟩

theorem Returned.trans {s t u : Bot} (h : Returned s t)
    (h' : Returned t u) : Returned s u :=
  ⟨h'.ax.trans h.ax, h'.bx.trans h.bx, h'.di.trans h.di,
    h'.bp.trans h.bp, h'.stack.trans h.stack⟩

theorem AtLine.log_disjoint (h : AtLine img inp s) :
    Disjoint (region s.si (s.cx - 1).toNat) (region img.logBuffer 512) := by
  have hcx := h.cx
  have hshort := h.short
  have hpred : (s.cx - 1).toNat ≤ 512 := by
    have := h.pos
    bv_omega
  rw [h.si]
  exact img.line_disjoint_log.mono (region_mono hpred)
    img.logBuffer_subset

/-- The incoming line logged and parsed: it is still there when the
parser gets it. -/
theorem AtLine.given (h : AtLine img inp s) :
    Given img inp (logIncoming img s) := by
  have hlog : Logged img s (logIncoming img s) :=
    logLine_logged .incomingTag h.log_disjoint
  obtain ⟨-, hsi, hcx⟩ := hlog.returned
  have hshort := h.short
  have hsub : region img.lineBuffer inp.length ⊆ img.lineData :=
    region_mono hshort
  refine ⟨?_, ?_, ?_⟩
  · rw [hcx]
    exact h.cx
  · rw [hsi, h.si]
    refine (Mem.read_congr (by omega) fun x hx => ?_).trans h.input
    exact hlog.mem (Set.disjoint_left.mp img.line_disjoint_log (hsub hx))
  · rw [hsi, h.si]
    exact img.line_disjoint_parse.mono_left hsub

/-- A line there is no parse of: no reply, and nothing but the scratch
data changed. -/
theorem dispatchLine_reject (h : AtLine img inp s)
    (hparse : parse 512 inp = none) :
    ∃ t, dispatchLine img s = some t ∧ t.cx = 0 ∧ Returned s t
      ∧ Set.EqOn t.mem s.mem (scratch img)ᶜ := by
  have hlog : Logged img s (logIncoming img s) :=
    logLine_logged .incomingTag h.log_disjoint
  obtain ⟨hcf, -, hsaved⟩ := doParse_spec h.given
  rw [hparse] at hcf
  have hret := hlog.returned.1
  have hmem := hlog.mem
  obtain ⟨a, ha⟩ : ∃ a, a = logIncoming img s := ⟨_, rfl⟩
  rw [← ha] at hcf hsaved hret hmem
  obtain ⟨b, hb⟩ : ∃ b, b = doParse img a := ⟨_, rfl⟩
  rw [← hb] at hcf hsaved
  have hlast := logLogic_logged img b .badParseMessage
  obtain ⟨c, hc⟩ : ∃ c, c = logLogic img (sayText img .badParseMessage b) :=
    ⟨_, rfl⟩
  rw [← hc] at hlast
  have hcret := hlast.returned.1
  refine ⟨{ c with cx := 0 }, ?_, rfl, ?_, ?_⟩
  · simp only [dispatchLine, ← ha, ← hb, ← hc, hcf, Option.isNone_none,
      ↓reduceIte]
  · refine ⟨?_, ?_, ?_, ?_, ?_⟩
    · exact hcret.ax.trans (hsaved.ax.trans hret.ax)
    · exact hcret.bx.trans (hsaved.bx.trans hret.bx)
    · exact hcret.di.trans (hsaved.di.trans hret.di)
    · exact hcret.bp.trans (hsaved.bp.trans hret.bp)
    · exact hcret.stack.trans (hsaved.stack.trans hret.stack)
  · intro x hx
    rw [scratch, Set.mem_compl_iff, Set.mem_union, not_or] at hx
    exact (hlast.mem hx.2).trans ((hsaved.outside hx.1).trans (hmem hx.2))

-- ==================================================== what stays put

theorem subset_scratch_compl {A : Set Word}
    (hp : Disjoint A img.parseData) (hl : Disjoint A img.logData) :
    A ⊆ (scratch img)ᶜ := by
  intro x hx hs
  rcases hs with hs | hs
  · exact Set.disjoint_left.mp hp hx hs.1
  · exact Set.disjoint_left.mp hl hx hs

theorem const_subset : img.constData ⊆ (scratch img)ᶜ :=
  subset_scratch_compl img.const_disjoint_parse img.const_disjoint_log

theorem out_subset : img.outReach ⊆ (scratch img)ᶜ :=
  subset_scratch_compl img.parse_disjoint_out.symm
    img.log_disjoint_out.symm

theorem null_subset : img.nullData ⊆ (scratch img)ᶜ :=
  subset_scratch_compl img.null_disjoint_parse img.null_disjoint_log

theorem botState_subset :
    region img.botState 2 ⊆ img.outReach :=
  region_subset (a := img.outAt) (i := 514) (n := 2) (k := outSpill)
    (by decide)

theorem parseBufferLen_mem : img.parseBufferLen ∈ (scratch img)ᶜ := by
  have hself : img.parseBufferLen ∈ region img.parseBufferLen 2 :=
    base_mem_region (by omega)
  have hdata : img.parseBufferLen ∈ img.parseData :=
    region_subset (a := img.parseAt) (i := 512) (n := 2) (k := parseSize)
      (by decide) hself
  intro h
  rcases h with hs | hs
  · exact hs.2 hself
  · exact Set.disjoint_left.mp img.parse_disjoint_log hdata hs

/-- The invariant does not depend on the scratch data. -/
theorem Alive.congr (h : Alive img st m)
    (hm : Set.EqOn m' m (scratch img)ᶜ) : Alive img st m' := by
  refine ⟨h.loaded.congr (hm.mono const_subset), ?_, ?_⟩
  · rw [← h.state]
    exact Mem.word_congr (hm.mono (botState_subset.trans out_subset))
  · rw [← h.zero]
    exact hm parseBufferLen_mem

theorem null_congr (hm : Set.EqOn m' m (scratch img)ᶜ) :
    m'.read 0 greeting.length = m.read 0 greeting.length :=
  Mem.read_congr (by decide) (hm.mono null_subset)

/-- A parsed message over memory that has the same in `parseBuffer`. -/
theorem Parsed.rebase {m₀' : Mem 16 Byte} (h : Parsed img msg m₀ m)
    (hm : Set.EqOn m₀' m₀ img.parseData) : Parsed img msg m₀' m :=
  { h with
    stale := fun i hi hi' => (h.stale i hi hi').trans (hm
      (img.buffer_subset (n := 1) (by omega)
        (base_mem_region (by omega)))).symm }

-- ==================================================== the reply in memory

theorem replied_congr {A : Set Word} (hm : Set.EqOn m' m A)
    (reply : List Byte) (st st' : BotState) :
    Set.EqOn (replied img m' reply st st') (replied img m reply st st')
      A := by
  intro x hx
  unfold replied
  split
  · exact Mem.write_congr _ _ (hm hx)
  · exact Mem.write_congr _ _ (Mem.write_congr _ _ (hm hx))

/-- A reply stays inside `outReach`. -/
theorem replied_eqOn {reply : List Byte} (hlen : reply.length ≤ outSpill)
    (st st' : BotState) :
    Set.EqOn (replied img m reply st st') m img.outReachᶜ := by
  intro x hx
  have hwrite : m.write img.outBuffer (sent img reply) x = m x := by
    refine Mem.write_of_notMem fun hx' => hx (region_mono ?_ hx')
    rw [sent, List.length_take]
    omega
  unfold replied
  split
  · exact hwrite
  · refine (Mem.setWord_eqOn _ _ _ fun hx' => ?_).trans hwrite
    exact hx (botState_subset hx')

variable (img) in
/-- A change of state goes with the start text. -/
theorem act_cases (m : Mem 16 Byte) (st : BotState) (msg : Msg) :
    (act img m st msg).2 = st
      ∨ st = .start ∧ act img m st msg = (Text.startCmd.bytes, .idle) := by
  cases st with
  | start =>
      by_cases h : Starts img m msg
      · exact Or.inr ⟨rfl, if_pos h⟩
      · rw [act, if_neg h]
        exact Or.inl rfl
  | idle =>
      rw [act]
      split
      · exact Or.inl rfl
      · split
        · exact Or.inl rfl
        · exact Or.inl rfl

variable (img) in
/-- No reply to a line is longer than `outReach`. -/
theorem act_length_le (m : Mem 16 Byte) (st : BotState) {msg : Msg}
    (h : msg.target.length ≤ 510) :
    (act img m st msg).1.length ≤ outSpill := by
  have hpong := length_pong msg.target
  have hhello := length_hello msg.target
  have hstart := length_startCmd
  unfold outSpill
  cases st with
  | start =>
      rw [act]
      split
      · rw [hstart]
        omega
      · simp
  | idle =>
      rw [act]
      split
      · simp only
        omega
      · split
        · simp only
          omega
        · simp

/-- The reply is what stands in `outBuffer`. -/
theorem replied_read (m₀ : Mem 16 Byte) (st : BotState) (msg : Msg) :
    (replied img m (act img m₀ st msg).1 st
        (act img m₀ st msg).2).read img.outBuffer
      (sent img (act img m₀ st msg).1).length
      = sent img (act img m₀ st msg).1 := by
  have hback : ∀ reply : List Byte,
      (m.write img.outBuffer (sent img reply)).read img.outBuffer
        (sent img reply).length = sent img reply := by
    intro reply
    refine Mem.read_write _ _ ?_
    have := img.outBufferLen.isLt
    rw [sent, List.length_take]
    omega
  rcases act_cases img m₀ st msg with hsame | ⟨rfl, hstart⟩
  · rw [replied, hsame, if_pos rfl]
    exact hback _
  · rw [hstart, replied, if_neg (by decide)]
    refine (Mem.read_write_disjoint ?_ ?_).trans (hback _)
    · have := img.outBufferLen.isLt
      rw [sent, List.length_take]
      omega
    · have hlen : (sent img Text.startCmd.bytes).length ≤ 80 := by
        rw [sent, List.length_take, length_startCmd]
        exact Nat.min_le_right _ _
      have hd := region_disjoint (a := img.outAt) (i := 0) (n := 80)
        (j := 514) (k := 2) (by omega) (by omega)
      rw [BitVec.add_zero] at hd
      exact hd.mono_left (region_mono hlen)

-- ==================================================== an accepted line

/-- What `dispatchLine` answers a line with message `msg`: the reply, as
far as there was room for it, and the memory it leaves. -/
structure Dispatched (img : Image) (st : BotState) (msg : Msg) (s t : Bot) :
    Prop where
  cx : t.cx.toNat = (sent img (act img s.mem st msg).1).length
  si : t.si = img.outBuffer
  mem : Set.EqOn t.mem (replied img s.mem (act img s.mem st msg).1 st
    (act img s.mem st msg).2) (scratch img)ᶜ
  parsed : Parsed img msg s.mem t.mem
  returned : Returned s t

theorem sent_length_lt (reply : List Byte) :
    (sent img reply).length < 2 ^ 16 := by
  have := img.outBufferLen.isLt
  rw [sent, List.length_take]
  omega

/-- The log of the reply leaves the reply. -/
theorem logOutgoing_logged {reply : List Byte} (hsi : s.si = img.outBuffer)
    (hcx : s.cx.toNat = reply.length) (hpos : 0 < reply.length)
    (hlen : reply.length ≤ outSpill) :
    Logged img s (logOutgoing img s) := by
  refine logLine_logged .outgoingTag ?_
  have hpred : (s.cx - 1).toNat ≤ outSpill := by
    bv_omega
  rw [hsi]
  exact img.log_disjoint_out.symm.mono (region_mono hpred)
    img.logBuffer_subset

/-- An accepted line once it is logged and parsed: up to there only
scratch data changes. -/
theorem AtLine.accepted (h : AtLine img inp s)
    (halive : Alive img st s.mem) (hparse : parse 512 inp = some msg)
    {b : Bot} (hb : b = doParse img (logIncoming img s)) :
    b.cf = false ∧ Parsed img msg s.mem b.mem ∧ Alive img st b.mem
      ∧ Calm img s.mem b.mem ∧ Returned s b
      ∧ Set.EqOn b.mem s.mem (scratch img)ᶜ := by
  have hlog : Logged img s (logIncoming img s) :=
    logLine_logged .incomingTag h.log_disjoint
  obtain ⟨hcf, hmsg, hsaved⟩ := doParse_spec h.given
  have hparsed := hmsg msg hparse
  rw [hparse] at hcf
  have hret := hlog.returned.1
  have hmem := hlog.mem
  rw [← hb] at hcf hsaved hparsed
  have hbmem : Set.EqOn b.mem s.mem (scratch img)ᶜ := by
    intro x hx
    rw [scratch, Set.mem_compl_iff, Set.mem_union, not_or] at hx
    exact (hsaved.outside hx.1).trans (hmem hx.2)
  have hblive := halive.congr hbmem
  refine ⟨hcf, ?_, hblive, ⟨hblive.zero, null_congr hbmem⟩, ?_, hbmem⟩
  · exact hparsed.rebase fun x hx =>
      (hmem (Set.disjoint_left.mp img.parse_disjoint_log hx)).symm
  · exact hret.trans ⟨hsaved.ax, hsaved.bx, hsaved.di, hsaved.bp,
      hsaved.stack⟩

/-- A line there is a parse of is answered by the handler. -/
theorem dispatchLine_accept (h : AtLine img inp s)
    (halive : Alive img st s.mem) (hparse : parse 512 inp = some msg) :
    ∃ t, dispatchLine img s = some t ∧ Dispatched img st msg s t := by
  obtain ⟨b, hb⟩ : ∃ b, b = doParse img (logIncoming img s) := ⟨_, rfl⟩
  obtain ⟨hcf, hbparsed, hblive, hcalm, hbret, hbmem⟩ :=
    h.accepted halive hparse hb
  have hlen : msg.target.length ≤ 510 := by
    have := msg.length_target
    have := parse_length hparse
    have := h.short
    omega
  have hbuild := buildBuffer_spec hbparsed hblive.loaded hcalm
    hblive.state (parse_params_pos hparse) hlen
  have hspill := act_length_le img s.mem st hlen
  obtain ⟨r, hr⟩ : ∃ r, r = act img s.mem st msg := ⟨_, rfl⟩
  obtain ⟨c, hc⟩ : ∃ c : Bot, c = { b with
    si := img.outBuffer
    cx := BitVec.ofNat 16 (sent img r.1).length
    mem := replied img b.mem r.1 st r.2 } := ⟨_, rfl⟩
  rw [← hr, ← hc] at hbuild
  rw [← hr] at hspill
  have hccx : c.cx.toNat = (sent img r.1).length := by
    rw [hc, BitVec.toNat_ofNat]
    exact Nat.mod_eq_of_lt (sent_length_lt r.1)
  have hcmem : Set.EqOn c.mem (replied img s.mem r.1 st r.2)
      (scratch img)ᶜ := by
    rw [hc]
    exact replied_congr hbmem _ _ _
  have hcparsed : Parsed img msg s.mem c.mem := by
    rw [hc]
    refine hbparsed.congr fun x hx => replied_eqOn hspill st r.2 ?_
    exact Set.disjoint_left.mp img.parse_disjoint_out hx
  have hcret : Returned s c := by
    rw [hc]
    exact ⟨hbret.ax, hbret.bx, hbret.di, hbret.bp, hbret.stack⟩
  have hstart : dispatchLine img s
      = some (if c.cx = 0 then { c with cx := 0 } else logOutgoing img c) := by
    simp only [dispatchLine, ← hb, hcf, hbuild, Bool.false_eq_true,
      ↓reduceIte, Option.map_some]
  by_cases hzero : c.cx = 0
  · refine ⟨c, ?_, ?_⟩
    · rw [hstart, if_pos hzero, ← hzero]
    · subst hr
      exact ⟨hccx, by rw [hc], hcmem, hcparsed, hcret⟩
  · have hpos : 0 < (sent img r.1).length := by
      rw [← hccx]
      exact Nat.pos_of_ne_zero fun h0 => hzero (BitVec.eq_of_toNat_eq h0)
    have hsentlen : (sent img r.1).length ≤ outSpill := by
      rw [sent, List.length_take]
      omega
    have hout : Logged img c (logOutgoing img c) :=
      logOutgoing_logged (by rw [hc]) hccx hpos hsentlen
    obtain ⟨hdret, hdsi, hdcx⟩ := hout.returned
    refine ⟨logOutgoing img c, ?_, ?_⟩
    · rw [hstart, if_neg hzero]
    · subst hr
      refine ⟨by rw [hdcx]; exact hccx, by rw [hdsi, hc], ?_, ?_,
        hcret.trans hdret⟩
      · intro x hx
        have hxlog : x ∉ img.logData := fun hl => hx (Or.inr hl)
        exact (hout.mem hxlog).trans (hcmem hx)
      · refine hcparsed.congr fun x hx => hout.mem ?_
        exact Set.disjoint_left.mp img.parse_disjoint_log hx

/-- The reply is what the caller finds at `si`, `cx`. -/
theorem Dispatched.reply {t : Bot} (h : Dispatched img st msg s t)
    (hlen : (act img s.mem st msg).1.length ≤ outSpill) :
    t.mem.read t.si t.cx.toNat = sent img (act img s.mem st msg).1 := by
  rw [h.si, h.cx]
  refine (Mem.read_congr (Nat.le_of_lt (sent_length_lt _))
    (h.mem.mono ?_)).trans (replied_read s.mem st msg)
  refine fun x hx => out_subset (region_mono ?_ hx)
  rw [sent, List.length_take]
  omega

end Pdtb.Asm
