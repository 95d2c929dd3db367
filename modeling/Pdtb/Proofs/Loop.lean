/-
The packet loop, step by step. `At` says of every label of `asmRun` what
is so when a run stands there: which bytes of the stream wait in
`lineBuffer`, which wait in the packet, that the bot behind `dispatchLine`
is in session, and that what is still to come makes up, with the lines
dispatched so far, what a forgetful framer makes of the whole stream
(`whole`). Each label has its lemma, and `at_steps` puts them together.

Nothing is assumed of the answers of the C side but where their memory
lies (`World.Apart`): a send may fail at any time, and a reply may be too
long for `outBuffer`.
-/
import Pdtb.Lib.Framer
import Pdtb.Asm.State
import Pdtb.Proofs.Session

namespace Pdtb.Asm

open Lib Irc

variable {img : Image} {w : World} {C : Mem 16 Byte → List Byte → Prop}
  {s₀ s t : Bot} {r : Run} {held cur : List Byte} {p : Word}

-- ==================================================== whose memory

/-- All memory the bot uses. -/
def ours (img : Image) : Set Word :=
  own img ∪ img.outReach ∪ img.logData ∪ img.lineData

theorem own_subset_ours : own img ⊆ ours img := fun _ hx =>
  Or.inl (Or.inl (Or.inl hx))

theorem out_subset_ours : img.outReach ⊆ ours img := fun _ hx =>
  Or.inl (Or.inl (Or.inr hx))

theorem log_subset_ours : img.logData ⊆ ours img := fun _ hx =>
  Or.inl (Or.inr hx)

theorem line_subset_ours : img.lineData ⊆ ours img := fun _ hx => Or.inr hx

theorem const_subset_ours : img.constData ⊆ ours img :=
  const_subset_own.trans own_subset_ours

/-- What a dispatch changes is the bot's. -/
theorem changes_subset_ours : scratch img ∪ img.outReach ⊆ ours img := by
  intro x h
  rcases h with (hx | hx) | hx
  · exact own_subset_ours (parse_subset_own hx.1)
  · exact log_subset_ours hx
  · exact out_subset_ours hx

/-- Packets come to memory of their own, and so do replies: no packet is
empty or has the length that means quitting. -/
structure World.Apart (img : Image) (w : World) : Prop where
  pos : ∀ q ∈ w.packets, q.bytes ≠ []
  length : ∀ q ∈ w.packets, q.bytes.length < 65535
  data : ∀ q ∈ w.packets,
    Disjoint (region q.data q.bytes.length) (ours img)
  buffer : ∀ k, (w.answers k).buffer ≠ 0 →
    Disjoint (region (w.answers k).buffer outSpill) (ours img)
  buffer_data : ∀ k, (w.answers k).buffer ≠ 0 → ∀ q ∈ w.packets,
    Disjoint (region (w.answers k).buffer outSpill)
      (region q.data q.bytes.length)

-- ==================================================== the send

/-- What a send keeps of the processor and of memory. -/
structure Posted (img : Image) (w : World) (s t : Bot) : Prop where
  bx : t.bx = s.bx
  di : t.di = s.di
  stack : t.stack = s.stack
  ours : Set.EqOn t.mem s.mem (ours img)
  data : ∀ q ∈ w.packets,
    Set.EqOn t.mem s.mem (region q.data q.bytes.length)

/-- A send to a buffer, in closed form. -/
theorem sendPacket_eq {ans : Answer} (hnull : ans.buffer ≠ 0)
    (hd : Disjoint (region s.si s.cx.toNat)
      (region ans.buffer s.cx.toNat)) :
    sendPacket ans s = { s with
      ax := ans.rc
      dx := ans.dx
      mem := s.mem.write ans.buffer (s.mem.read s.si s.cx.toNat)
      si := s.si + BitVec.ofNat 16 s.cx.toNat
      cx := s.cx - BitVec.ofNat 16 s.cx.toNat } := by
  obtain ⟨b, hb⟩ : ∃ b : Bot, b = { s with
    ax := ans.buffer
    dx := s.cx
    di := ans.buffer
    stack := s.di :: s.stack } := ⟨_, rfl⟩
  have hrep : b.repMovsb = { b with
      mem := b.mem.write b.di (b.mem.read b.si b.cx.toNat)
      si := b.si + BitVec.ofNat 16 b.cx.toNat
      di := b.di + BitVec.ofNat 16 b.cx.toNat
      cx := b.cx - BitVec.ofNat 16 b.cx.toNat } := by
    refine Cpu.movsbRounds_eq (Nat.le_of_lt b.cx.isLt) ?_
    rw [hb]
    exact hd
  rw [sendPacket]
  simp only
  rw [if_neg hnull]
  simp only [Cpu.push, Cpu.pop, Cpu.top, ← hb, hrep]
  rw [hb]
  rfl

/-- The buffer of a send is apart from what is sent. -/
theorem World.Apart.source (hw : w.Apart img) {k : Nat}
    (hnull : (w.answers k).buffer ≠ 0) (hcx : s.cx.toNat ≤ outSpill)
    (hsrc : region s.si s.cx.toNat ⊆ Asm.ours img) :
    Disjoint (region s.si s.cx.toNat)
      (region (w.answers k).buffer s.cx.toNat) :=
  ((hw.buffer k hnull).mono (region_mono hcx) hsrc).symm

theorem sendPacket_posted (hw : w.Apart img) (k : Nat)
    (hcx : s.cx.toNat ≤ outSpill)
    (hsrc : region s.si s.cx.toNat ⊆ Asm.ours img) :
    Posted img w s (sendPacket (w.answers k) s) := by
  by_cases hnull : (w.answers k).buffer = 0
  · rw [sendPacket]
    simp only
    rw [if_pos hnull]
    exact ⟨rfl, rfl, rfl, fun _ _ => rfl, fun _ _ _ _ => rfl⟩
  · have hmem : ∀ A : Set Word,
        Disjoint (region (w.answers k).buffer outSpill) A →
        Set.EqOn (s.mem.write (w.answers k).buffer
          (s.mem.read s.si s.cx.toNat)) s.mem A := by
      intro A hA x hx
      refine Mem.write_of_notMem fun hx' => ?_
      rw [Mem.length_read] at hx'
      exact Set.disjoint_left.mp hA (region_mono hcx hx') hx
    rw [sendPacket_eq hnull (hw.source hnull hcx hsrc)]
    exact ⟨rfl, rfl, rfl, hmem _ (hw.buffer k hnull),
      fun q hq => hmem _ (hw.buffer_data k hnull q hq)⟩

/-- A run after a send that went well. -/
theorem Run.sendPacket_ok (next : Label)
    (ht : t = Asm.sendPacket (w.answers r.sends) r.cpu) (hax : t.ax = 0) :
    r.sendPacket w next = { r with
      label := next
      cpu := t
      sends := r.sends + 1
      events := r.events
        ++ [.send (r.cpu.mem.read r.cpu.si r.cpu.cx.toNat) t.ax] } := by
  have hax' : ¬ t.ax ≠ 0 := not_not.mpr hax
  rw [Run.sendPacket, ← ht, if_neg hax']

/-- And after one that did not. -/
theorem Run.sendPacket_failed (next : Label)
    (ht : t = Asm.sendPacket (w.answers r.sends) r.cpu) (hax : t.ax ≠ 0) :
    r.sendPacket w next = { r with
      label := .stateEnd
      cpu := t
      sends := r.sends + 1
      events := r.events
        ++ [.send (r.cpu.mem.read r.cpu.si r.cpu.cx.toNat) t.ax] } := by
  rw [Run.sendPacket, ← ht, if_pos hax]

-- ==================================================== where a run stands

/-- The lines that reached `dispatchLine`. -/
def Event.line? : Event → Option (List Byte)
  | .line bytes => some bytes
  | .send _ _ => none

def Run.lines (r : Run) : List (List Byte) := r.events.filterMap Event.line?

/-- What stands in `lineBuffer`, `dx` being the room behind it. -/
def Run.waiting (img : Image) (r : Run) : List Byte :=
  r.cpu.mem.read img.lineBuffer (512 - r.cpu.dx.toNat)

/-- `held` stands in `lineBuffer`, and `di` and `dx` are what is free. -/
structure InLine (img : Image) (held : List Byte) (s : Bot) : Prop where
  room : s.dx.toNat + held.length = 512
  dest : s.di = img.lineBuffer + BitVec.ofNat 16 held.length
  read : s.mem.read img.lineBuffer held.length = held

/-- `cur` is what is left of a packet: the `bx` bytes at `p`. -/
structure InPacket (w : World) (cur : List Byte) (p : Word) (s : Bot) :
    Prop where
  count : s.bx.toNat = cur.length
  read : s.mem.read p cur.length = cur
  within : ∃ q ∈ w.packets,
    region p cur.length ⊆ region q.data q.bytes.length

/-- What `asmRun` has on the stack for its caller. -/
def saved (s₀ : Bot) : List Word :=
  s₀.si :: s₀.di :: s₀.dx :: s₀.cx :: s₀.bx :: s₀.stack

/-- The processor once that is there. -/
def entered (s₀ : Bot) : Bot := { s₀ with stack := saved s₀ }

/-- The bot is in session, with the lines dispatched so far. -/
structure Live (img : Image) (w : World)
    (C : Mem 16 Byte → List Byte → Prop) (s₀ : Bot) (r : Run) : Prop where
  session : ∃ m, Session img C s₀.mem r.lines m
    ∧ Set.EqOn r.cpu.mem m (own img)
  packets : ∀ q ∈ r.packets, q ∈ w.packets
  stack : r.cpu.stack = saved s₀

/-- What the framer makes of packets, from a mode. -/
def feedPackets (m : Mode Byte) (ps : List Packet) : Framed Byte :=
  feedPieces lf 512 m (ps.map (·.bytes))

/-- What it makes of the rest of a packet and the packets behind it. -/
def feedRest (m : Mode Byte) (cur : List Byte) (ps : List Packet) :
    Framed Byte :=
  (feed lf 512 m cur).andThen fun m => feedPackets m.forget ps

/-- What it makes of the stream. -/
def whole (w : World) : Framed Byte := feedPackets (.filling []) w.packets

/-- The bytes the packets bring. -/
def World.stream (w : World) : List Byte :=
  (w.packets.map (·.bytes)).flatten

/-- What is taken of the stream ends in `held`, which has no LF; `cur` and
the packets `ps` are left of it. -/
structure Taken (w : World) (held cur : List Byte) (ps : List Packet) :
    Prop where
  word : lf ∉ held
  split : ∃ bs, bs ++ cur ++ (ps.map (·.bytes)).flatten = w.stream
    ∧ held <:+ bs

/-- The lines so far and what is still to come are the whole. -/
def Rest (w : World) (r : Run) (F : Framed Byte) : Prop :=
  whole w = (F.1, r.lines ++ F.2)

/-- The lines dispatched are the first of the whole, and a session's. -/
structure Past (img : Image) (w : World)
    (C : Mem 16 Byte → List Byte → Prop) (s₀ : Bot) (r : Run) : Prop where
  lines : r.lines <+: (whole w).2
  session : r.lines = [] ∨ ∃ m, Session img C s₀.mem r.lines m

/-- What is so at each label. -/
def At (img : Image) (w : World) (C : Mem 16 Byte → List Byte → Prop)
    (s₀ : Bot) (r : Run) : Prop :=
  match r.label with
  | .asmRun => r = w.start s₀
  | .stateStart => r = { w.start s₀ with
      label := .stateStart, cpu := entered s₀ }
  | .stateGetPacket => Live img w C s₀ r ∧ ∃ held,
      InLine img held r.cpu ∧ Rest w r (feedPackets (.filling held) r.packets)
        ∧ Taken w held [] r.packets
  | .stateAppendLine => Live img w C s₀ r ∧ ∃ held cur,
      InLine img held r.cpu ∧ InPacket w cur r.cpu.si r.cpu
        ∧ Rest w r (feedRest (.filling held) cur r.packets)
        ∧ Taken w held cur r.packets
  | .copyLoop => Live img w C s₀ r ∧ ∃ held cur,
      InLine img held r.cpu ∧ InPacket w cur r.cpu.si r.cpu
        ∧ Rest w r (feedRest (.filling held) cur r.packets)
        ∧ Taken w held cur r.packets
        ∧ cur ≠ [] ∧ held.length ≠ 512
  | .stateSkipLine => Live img w C s₀ r ∧ ∃ held cur,
      InLine img held r.cpu ∧ InPacket w cur r.cpu.si r.cpu
        ∧ Rest w r (feedRest (.filling held) cur r.packets)
        ∧ Taken w held cur r.packets
        ∧ cur ≠ [] ∧ held.length = 512
  | .stateDispatch => Live img w C s₀ r ∧ ∃ held cur,
      InLine img held r.cpu ∧ InPacket w cur r.cpu.si r.cpu
        ∧ Rest w r (Framed.andThen (.filling [], [held]) fun m =>
          feedRest m cur r.packets)
        ∧ Taken w [] cur r.packets
        ∧ held ≠ []
  | .finish => Live img w C s₀ r ∧ ∃ cur,
      InPacket w cur r.cpu.di r.cpu
        ∧ Rest w r (feedRest (.filling []) cur r.packets)
        ∧ Taken w [] cur r.packets
  | .stateQuit => Live img w C s₀ r ∧ w.quit = true ∧ r.packets = []
      ∧ (whole w).2 = r.lines
  | .stateDisconnect => r.cpu.stack = saved s₀ ∧ Past img w C s₀ r
  | .stateEnd => r.cpu.stack = saved s₀ ∧ Past img w C s₀ r
  | .returned => r.cpu.stack = s₀.stack ∧ Past img w C s₀ r
      ∧ (r.cpu.bx = s₀.bx ∧ r.cpu.cx = s₀.cx ∧ r.cpu.dx = s₀.dx
        ∧ r.cpu.di = s₀.di ∧ r.cpu.si = s₀.si)
  | .astray => r.lines <+: (whole w).2

-- ==================================================== what carries over

theorem InLine.congr {held : List Byte} (h : InLine img held s)
    (hdx : t.dx = s.dx) (hdi : t.di = s.di)
    (hm : Set.EqOn t.mem s.mem img.lineData) : InLine img held t := by
  have hroom := h.room
  refine ⟨by rw [hdx]; exact hroom, by rw [hdi]; exact h.dest, ?_⟩
  refine (Mem.read_congr (by omega) (hm.mono (region_mono ?_))).trans h.read
  unfold lineSize
  omega

theorem InPacket.congr (h : InPacket w cur p s) (hbx : t.bx = s.bx)
    (hm : ∀ q ∈ w.packets,
      Set.EqOn t.mem s.mem (region q.data q.bytes.length)) :
    InPacket w cur p t := by
  obtain ⟨q, hq, hsub⟩ := h.within
  have hlen : cur.length < 2 ^ 16 := by
    rw [← h.count]
    exact s.bx.isLt
  refine ⟨by rw [hbx]; exact h.count, ?_, q, hq, hsub⟩
  exact (Mem.read_congr (Nat.le_of_lt hlen) ((hm q hq).mono hsub)).trans
    h.read

/-- What changes only the bot's memory leaves the packets. -/
theorem World.Apart.keeps (hw : w.Apart img) {m m' : Mem 16 Byte}
    (hm : Set.EqOn m' m (ours img)ᶜ) :
    ∀ q ∈ w.packets, Set.EqOn m' m (region q.data q.bytes.length) :=
  fun q hq _ hx => hm (Set.disjoint_left.mp (hw.data q hq) hx)

theorem Live.congr {r' : Run} (h : Live img w C s₀ r)
    (hevents : r'.events = r.events) (hpackets : r'.packets = r.packets)
    (hstack : r'.cpu.stack = r.cpu.stack)
    (hm : Set.EqOn r'.cpu.mem r.cpu.mem (own img)) :
    Live img w C s₀ r' := by
  obtain ⟨m, hsession, hown⟩ := h.session
  refine ⟨⟨m, ?_, hm.trans hown⟩, ?_, by rw [hstack]; exact h.stack⟩
  · rw [Run.lines, hevents]
    exact hsession
  · rw [hpackets]
    exact h.packets

theorem Rest.lines_prefix {F : Framed Byte} (h : Rest w r F) :
    r.lines <+: (whole w).2 := by
  rw [Rest] at h
  rw [h]
  exact List.prefix_append _ _

theorem taken_start (w : World) : Taken w [] [] w.packets :=
  ⟨List.not_mem_nil, [], rfl, List.suffix_rfl⟩

/-- The next packet. -/
theorem Taken.packet {held : List Byte} {q : Packet} {ps : List Packet}
    (h : Taken w held [] (q :: ps)) : Taken w held q.bytes ps := by
  obtain ⟨hword, bs, hsplit, hend⟩ := h
  refine ⟨hword, bs, ?_, hend⟩
  rw [List.append_nil] at hsplit
  rw [← hsplit, List.map_cons, List.flatten_cons, List.append_assoc]

/-- A byte of the line. -/
theorem Taken.copy {held cur : List Byte} {b : Byte} {ps : List Packet}
    (h : Taken w held (b :: cur) ps) (hb : b ≠ lf) :
    Taken w (held ++ [b]) cur ps := by
  obtain ⟨hword, bs, hsplit, hend⟩ := h
  refine ⟨?_, bs ++ [b], ?_, ?_⟩
  · rw [List.mem_append, List.mem_singleton, not_or]
    exact ⟨hword, Ne.symm hb⟩
  · rw [← hsplit, List.append_assoc bs, List.singleton_append]
  · exact List.suffix_append_self_iff.mpr hend

/-- The rest of the packet behind a line. -/
theorem Taken.drop {held cur : List Byte} {ps : List Packet}
    (h : Taken w held cur ps) (k : Nat) : Taken w [] (cur.drop k) ps := by
  obtain ⟨-, bs, hsplit, -⟩ := h
  refine ⟨List.not_mem_nil, bs ++ cur.take k, ?_, List.nil_suffix⟩
  rw [← hsplit, List.append_assoc bs, List.take_append_drop]

theorem Past.congr {r' : Run} (h : Past img w C s₀ r)
    (hevents : r'.events = r.events) : Past img w C s₀ r' := by
  have hlines : r'.lines = r.lines := by rw [Run.lines, hevents, Run.lines]
  exact ⟨hlines ▸ h.lines, hlines ▸ h.session⟩

theorem feedRest_cons (m : Mode Byte) (b : Byte) (bs : List Byte)
    (ps : List Packet) :
    feedRest m (b :: bs) ps
      = (m.next lf 512 b).andThen fun m => feedRest m bs ps := by
  rw [feedRest, feed, Framed.andThen_assoc]
  rfl

theorem afterFirst_eq_drop (x : Byte) (bs : List Byte) :
    Cpu.afterFirst x bs
      = bs.drop (bs.length - (Cpu.afterFirst x bs).length) := by
  induction bs with
  | nil => rfl
  | cons b bs ih =>
      have hle := Cpu.afterFirst_length_le x bs
      unfold Cpu.afterFirst
      split
      · rw [List.length_cons, Nat.add_sub_cancel_left, List.drop_succ_cons,
          List.drop_zero]
      · rw [List.length_cons, Nat.succ_sub hle, List.drop_succ_cons]
        exact ih

/-- Skipping through a packet: where LF is found, or at the packet's end,
`repne scasb` leaves the framer at a fresh line. -/
theorem feedRest_skipping (cur : List Byte) (ps : List Packet) :
    feedRest .skipping cur ps
      = feedRest (.filling []) (Cpu.afterFirst lf cur) ps := by
  induction cur with
  | nil => rfl
  | cons b cur ih =>
      rw [feedRest_cons, Mode.next, Framed.andThen_nil]
      unfold Cpu.afterFirst
      split
      · rfl
      · exact ih

/-- A line that is full when there is more of it. -/
theorem feedRest_full {held : List Byte} (hfull : held.length = 512)
    (hcur : cur ≠ []) (ps : List Packet) :
    feedRest (.filling held) cur ps
      = Framed.andThen (.filling [], [held]) fun m =>
        feedRest m (Cpu.afterFirst lf cur) ps := by
  cases cur with
  | nil => exact absurd rfl hcur
  | cons b cur =>
      rw [feedRest_cons, Mode.next, if_pos hfull]
      unfold Cpu.afterFirst
      split
      · rfl
      · simp only [Framed.andThen]
        rw [feedRest_skipping]

-- ==================================================== the steps

section

variable (img w)

theorem step_stateGetPacket (hlabel : r.label = .stateGetPacket) :
    step img w r = r.getPacket w := by
  simp only [step, hlabel]

theorem step_stateAppendLine (hlabel : r.label = .stateAppendLine) :
    step img w r = { r with
      label := appendLine r.cpu
      cpu := { r.cpu with ax := 0 } } := by
  simp only [step, hlabel]

theorem step_copyLoop (hlabel : r.label = .copyLoop) :
    step img w r = { r with
      label := if (copyByte r.cpu).al = lf then .stateDispatch
        else .stateAppendLine
      cpu := copyByte r.cpu } := by
  simp only [step, hlabel]

theorem step_stateSkipLine (hlabel : r.label = .stateSkipLine) :
    step img w r = { r with
      label := .stateDispatch, cpu := skipLine r.cpu } := by
  simp only [step, hlabel]

theorem step_finish (hlabel : r.label = .finish) :
    step img w r = { r with
      label := .stateAppendLine
      cpu := freshLine img { r.cpu with di := r.cpu.si, si := r.cpu.di } }
    := by
  simp only [step, hlabel]

variable {w} in
/-- The goodbye is sent, and nobody looks whether it was. -/
theorem step_stateQuit {a b : Bot} (hlabel : r.label = .stateQuit)
    (ha : a = dispatchExit img r.cpu)
    (hb : b = sendPacket (w.answers r.sends) a) :
    step img w r = { r with
      label := .stateDisconnect
      cpu := b
      sends := r.sends + 1
      events := r.events ++ [.send (a.mem.read a.si a.cx.toNat) b.ax] } := by
  simp only [step, hlabel, Run.sendPacket, ← ha, ← hb]

theorem step_stateDisconnect (hlabel : r.label = .stateDisconnect) :
    step img w r = { r with
      label := .stateEnd, cpu := { r.cpu with ax := 5 } } := by
  simp only [step, hlabel]

theorem step_returned (hlabel : r.label = .returned) : step img w r = r := by
  simp only [step, hlabel]

theorem step_astray (hlabel : r.label = .astray) : step img w r = r := by
  simp only [step, hlabel]

end

variable (img w s₀) in
theorem step_asmRun : step img w (w.start s₀)
    = { w.start s₀ with label := .stateStart, cpu := entered s₀ } := by
  simp only [step, World.start, Cpu.push, entered, saved]

theorem at_asmRun (hlabel : r.label = .asmRun) (h : At img w C s₀ r) :
    At img w C s₀ (step img w r) := by
  simp only [At, hlabel] at h
  rw [h, step_asmRun]
  rfl

-- ------------------------------------------------ stateStart

/-- Without credentials the run ends. -/
theorem step_stateStart_none (hcs : credentials s₀.dev = none) :
    step img w { w.start s₀ with label := .stateStart, cpu := entered s₀ }
      = { w.start s₀ with
          label := .stateEnd, cpu := dispatchInit img (entered s₀) } := by
  have hax := (dispatchInit_none img (s := entered s₀) hcs).1
  simp only [step, hax, ne_eq, not_false_eq_true, ↓reduceIte]

/-- With credentials they are sent. -/
theorem step_stateStart_some {cs : List Byte}
    (hcs : credentials s₀.dev = some cs)
    (ht : t = sendPacket (w.answers 0) (dispatchInit img (entered s₀))) :
    step img w { w.start s₀ with label := .stateStart, cpu := entered s₀ }
      = { w.start s₀ with
          label := if t.ax = 0 then .stateGetPacket else .stateEnd
          cpu := if t.ax = 0 then freshLine img t else t
          sends := 1
          events := [.send cs t.ax] } := by
  have hbegun := dispatchInit_some img (s := entered s₀) hcs
  obtain ⟨a, ha⟩ : ∃ a, a = dispatchInit img (entered s₀) := ⟨_, rfl⟩
  rw [← ha] at hbegun ht
  have hread : a.mem.read a.si a.cx.toNat = cs := by
    rw [hbegun.si, hbegun.cx, hbegun.read]
  by_cases hax : t.ax = 0
  · have hsend := Run.sendPacket_ok (w := w)
      (r := { w.start s₀ with label := .stateStart, cpu := a })
      .stateGetPacket ht hax
    simp only [step, ← ha, hbegun.ax, ne_eq, not_true_eq_false,
      ↓reduceIte, hsend, reduceCtorEq, hax, hread]
    rfl
  · have hsend := Run.sendPacket_failed (w := w)
      (r := { w.start s₀ with label := .stateStart, cpu := a })
      .stateGetPacket ht hax
    simp only [step, ← ha, hbegun.ax, ne_eq, not_true_eq_false,
      ↓reduceIte, hsend, hax, hread]
    rfl

/-- The login leaves the bot in session. -/
theorem login_posted (hw : w.Apart img) {cs : List Byte}
    (hbegun : Begun img cs (entered s₀) s)
    (ht : t = sendPacket (w.answers 0) s) :
    Posted img w s t ∧ t.stack = saved s₀ := by
  have hcx : s.cx.toNat ≤ 512 := by
    rw [hbegun.cx]
    exact hbegun.short
  have hsrc : region s.si s.cx.toNat ⊆ ours img := by
    rw [hbegun.si]
    exact (outBuffer_subset hcx).trans
      (out_subset_own.trans own_subset_ours)
  have hposted := sendPacket_posted hw 0
    (Nat.le_trans hcx (by decide)) hsrc
  rw [← ht] at hposted
  exact ⟨hposted, hposted.stack.trans hbegun.stack⟩

theorem at_stateStart (hw : w.Apart img) (hfresh : Fresh img s₀.mem)
    (hlabel : r.label = .stateStart) (h : At img w C s₀ r) :
    At img w C s₀ (step img w r) := by
  simp only [At, hlabel] at h
  cases hcs : credentials s₀.dev with
  | none =>
      have hstack := (dispatchInit_none img (s := entered s₀)
        hcs).2.1
      rw [h, step_stateStart_none hcs]
      exact ⟨hstack, List.nil_prefix, Or.inl rfl⟩
  | some cs =>
      have hbegun := dispatchInit_some img (s := entered s₀) hcs
      obtain ⟨a, ha⟩ : ∃ a, a = dispatchInit img (entered s₀) := ⟨_, rfl⟩
      obtain ⟨b, hb⟩ : ∃ b, b = sendPacket (w.answers 0) a := ⟨_, rfl⟩
      rw [h, step_stateStart_some hcs (ha ▸ hb)]
      rw [← ha] at hbegun
      obtain ⟨hposted, hstack⟩ := login_posted hw hbegun hb
      by_cases hax : b.ax = 0
      · rw [if_pos hax, if_pos hax]
        have hinit : Session img C s₀.mem [] a.mem := by
          rw [ha]
          refine .init hfresh rfl ?_
          rw [← ha]
          exact hbegun.ax
        exact ⟨⟨⟨a.mem, hinit, hposted.ours.mono own_subset_ours⟩,
            fun q hq => hq, hstack⟩,
          [], ⟨rfl, (BitVec.add_zero _).symm, rfl⟩, rfl, taken_start w⟩
      · rw [if_neg hax, if_neg hax]
        exact ⟨hstack, List.nil_prefix, Or.inl rfl⟩

-- ------------------------------------------------ receiving

theorem at_stateGetPacket (hw : w.Apart img)
    (hlabel : r.label = .stateGetPacket) (h : At img w C s₀ r) :
    At img w C s₀ (step img w r) := by
  simp only [At, hlabel] at h
  obtain ⟨hlive, held, hline, hrest, htaken⟩ := h
  rw [step_stateGetPacket img w hlabel]
  cases hpackets : r.packets with
  | nil =>
      rw [hpackets, feedPackets] at hrest
      have hall : (whole w).2 = r.lines := by
        rw [hrest]
        exact List.append_nil _
      cases hquit : w.quit with
      | false =>
          simp only [Run.getPacket, hpackets, hquit, At]
          obtain ⟨m, hsession, -⟩ := hlive.session
          exact ⟨hlive.stack, hall ▸ List.prefix_rfl,
            Or.inr ⟨m, hsession⟩⟩
      | true =>
          simp only [Run.getPacket, hpackets, hquit, At]
          refine ⟨hlive.congr rfl hpackets.symm rfl fun _ _ => rfl, trivial,
            trivial, hall⟩
  | cons q ps =>
      have hq : q ∈ w.packets := by
        refine hlive.packets q ?_
        rw [hpackets]
        exact List.mem_cons_self ..
      have hlen := hw.length q hq
      have hcount : (BitVec.ofNat 16 q.bytes.length).toNat
          = q.bytes.length := by
        rw [BitVec.toNat_ofNat]
        omega
      have hm : Set.EqOn (r.cpu.mem.write q.data q.bytes) r.cpu.mem
          (ours img) := fun x hx =>
        Mem.write_of_notMem (Set.disjoint_right.mp (hw.data q hq) hx)
      simp only [Run.getPacket, hpackets, At]
      refine ⟨⟨?_, ?_, hlive.stack⟩, held, q.bytes, ?_, ?_, ?_, ?_⟩
      · obtain ⟨m, hsession, hown⟩ := hlive.session
        exact ⟨m, hsession, (hm.mono own_subset_ours).trans hown⟩
      · intro q' hq'
        refine hlive.packets q' ?_
        rw [hpackets]
        exact List.mem_cons_of_mem _ hq'
      · exact hline.congr rfl rfl (hm.mono line_subset_ours)
      · exact ⟨hcount, Mem.read_write _ _ (by omega), q, hq, subset_rfl⟩
      · rw [hpackets] at hrest
        exact hrest
      · rw [hpackets] at htaken
        exact htaken.packet

theorem at_stateAppendLine (hlabel : r.label = .stateAppendLine)
    (h : At img w C s₀ r) : At img w C s₀ (step img w r) := by
  simp only [At, hlabel] at h
  obtain ⟨hlive, held, cur, hline, hpacket, hrest, htaken⟩ := h
  have hlive' : ∀ l, Live img w C s₀ { r with
      label := l, cpu := { r.cpu with ax := 0 } } := fun _ =>
    hlive.congr rfl rfl rfl fun _ _ => rfl
  have hline' : InLine img held { r.cpu with ax := 0 } :=
    hline.congr rfl rfl fun _ _ => rfl
  have hpacket' : InPacket w cur r.cpu.si { r.cpu with ax := 0 } :=
    hpacket.congr rfl fun _ _ _ _ => rfl
  have hcount := hpacket.count
  have hroom := hline.room
  rw [step_stateAppendLine img w hlabel, appendLine]
  by_cases hbx : r.cpu.bx = 0
  · have hcur : cur = [] := by
      refine List.eq_nil_of_length_eq_zero ?_
      rw [← hcount, hbx]
      rfl
    rw [if_pos hbx]
    rw [hcur] at hrest htaken
    exact ⟨hlive' _, held, hline', hrest, htaken⟩
  · have hcur : cur ≠ [] := by
      intro hcur
      rw [hcur] at hcount
      exact hbx (BitVec.eq_of_toNat_eq hcount)
    rw [if_neg hbx]
    by_cases hdx : r.cpu.dx = 0
    · have hfull : held.length = 512 := by
        rw [hdx] at hroom
        have : (0 : Word).toNat = 0 := rfl
        omega
      rw [if_pos hdx]
      exact ⟨hlive' _, held, cur, hline', hpacket', hrest, htaken, hcur,
        hfull⟩
    · have hfree : held.length ≠ 512 := by
        intro hfull
        refine hdx (BitVec.eq_of_toNat_eq ?_)
        have : (0 : Word).toNat = 0 := rfl
        omega
      rw [if_neg hdx]
      exact ⟨hlive' _, held, cur, hline', hpacket', hrest, htaken, hcur,
        hfree⟩

/-- `.copyLoop` moves a byte and counts it twice. -/
theorem copyByte_eq (s : Bot) : copyByte s = { s with
    ax := mkWord s.ah (s.mem s.si)
    si := s.si + 1
    bx := s.bx - 1
    mem := Function.update s.mem s.di (s.mem s.si)
    di := s.di + 1
    dx := s.dx - 1 } := by
  simp only [copyByte, Cpu.lodsb, Cpu.stosb, Cpu.setAl, Cpu.al,
    loByte_mkWord]

/-- The byte is added to the line. -/
theorem InLine.copyByte {held : List Byte} (h : InLine img held s)
    (hfree : held.length ≠ 512) :
    InLine img (held ++ [s.mem s.si]) (copyByte s)
      ∧ Set.EqOn (copyByte s).mem s.mem img.lineDataᶜ := by
  have hroom := h.room
  have hlen : held.length < 512 := by omega
  have hdest : s.di ∉ region img.lineBuffer held.length := by
    rw [h.dest, mem_region, off_add (by omega)]
    omega
  rw [copyByte_eq]
  refine ⟨⟨?_, ?_, ?_⟩, ?_⟩
  · rw [List.length_append, List.length_singleton]
    have : (1 : Word).toNat = 1 := rfl
    rw [BitVec.toNat_sub]
    omega
  · rw [List.length_append, List.length_singleton, h.dest,
      BitVec.ofNat_add, BitVec.add_assoc]
    rfl
  · rw [List.length_append, List.length_singleton, Mem.read_add]
    congr 1
    · refine (Mem.read_congr (by omega) fun x hx => ?_).trans h.read
      refine Function.update_of_ne (fun hx' => hdest ?_) _ _
      rw [← hx']
      exact hx
    · simp only [Mem.read, ← h.dest, Function.update_self]
  · intro x hx
    refine Function.update_of_ne (fun hx' => hx ?_) _ _
    rw [hx', h.dest]
    exact region_subset (a := img.lineAt) (i := held.length) (n := 1)
      (k := lineSize) (by unfold lineSize; omega)
      (base_mem_region (by omega))

/-- And taken from the packet. -/
theorem InPacket.next {b : Byte} {bs : List Byte}
    (h : InPacket w (b :: bs) s.si s)
    (hm : ∀ q ∈ w.packets, Set.EqOn (copyByte s).mem s.mem
      (region q.data q.bytes.length)) :
    s.mem s.si = b ∧ InPacket w bs (copyByte s).si (copyByte s) := by
  obtain ⟨q, hq, hsub⟩ := h.within
  have hcount := h.count
  have hread := h.read
  rw [List.length_cons] at hcount hread hsub
  simp only [Mem.read, List.cons.injEq] at hread
  have hlt := s.bx.isLt
  have hrest : region (s.si + 1) bs.length ⊆ region q.data q.bytes.length :=
    (region_succ_subset s.si bs.length).trans hsub
  refine ⟨hread.1, ?_, ?_, q, hq, ?_⟩
  · have : (1 : Word).toNat = 1 := rfl
    rw [copyByte_eq, BitVec.toNat_sub]
    omega
  · have hsi : (copyByte s).si = s.si + 1 := by rw [copyByte_eq]
    rw [hsi, Mem.read_congr (by omega) ((hm q hq).mono hrest)]
    exact hread.2
  · rw [copyByte_eq]
    exact hrest

theorem line_disjoint_ours_compl {x : Word} (h : x ∈ (ours img)ᶜ) :
    x ∈ img.lineDataᶜ := fun hx => h (line_subset_ours hx)

theorem at_copyLoop (hw : w.Apart img) (hlabel : r.label = .copyLoop)
    (h : At img w C s₀ r) : At img w C s₀ (step img w r) := by
  simp only [At, hlabel] at h
  obtain ⟨hlive, held, cur, hline, hpacket, hrest, htaken, hcur, hfree⟩ := h
  obtain ⟨hline', hm⟩ := hline.copyByte hfree
  obtain ⟨b, bs, rfl⟩ := List.exists_cons_of_ne_nil hcur
  obtain ⟨hb, hpacket'⟩ := hpacket.next
    (hw.keeps fun x hx => hm (line_disjoint_ours_compl hx))
  have hal : (copyByte r.cpu).al = b := by
    rw [copyByte_eq, Cpu.al, loByte_mkWord, hb]
  have hlive' : ∀ l, Live img w C s₀ { r with
      label := l, cpu := copyByte r.cpu } := by
    refine fun _ => hlive.congr rfl rfl ?_ ?_
    · rw [copyByte_eq]
    · exact fun x hx => hm (Set.disjoint_right.mp line_disjoint_own hx)
  rw [hb] at hline'
  rw [feedRest_cons, Mode.next, if_neg hfree] at hrest
  rw [step_copyLoop img w hlabel, hal]
  by_cases hlf : b = lf
  · rw [if_pos hlf] at hrest ⊢
    exact ⟨hlive' _, _, bs, hline', hpacket', hrest, htaken.drop 1,
      by simp⟩
  · rw [if_neg hlf] at hrest ⊢
    exact ⟨hlive' _, _, bs, hline', hpacket', hrest, htaken.copy hlf⟩

/-- `repne scasb` looks for LF in the rest of the packet. -/
theorem skipLine_eq (h : InPacket w cur s.si s) :
    ∃ z, skipLine s = { s with
      ax := mkWord s.ah lf
      bx := s.bx - BitVec.ofNat 16
        (cur.length - (Cpu.afterFirst lf cur).length)
      cx := s.bx - BitVec.ofNat 16
        (cur.length - (Cpu.afterFirst lf cur).length)
      si := s.si + BitVec.ofNat 16
        (cur.length - (Cpu.afterFirst lf cur).length)
      zf := z } := by
  obtain ⟨a, ha⟩ : ∃ a : Bot, a = { s with
    ax := mkWord s.ah lf, cx := s.bx, di := s.si, si := s.di } := ⟨_, rfl⟩
  have hcx : a.cx.toNat = cur.length := by
    rw [ha]
    exact h.count
  have hal : a.al = lf := by
    rw [ha, Cpu.al, loByte_mkWord]
  have hread : a.mem.read a.di cur.length = cur := by
    rw [ha]
    exact h.read
  obtain ⟨z, hz⟩ := Cpu.scasbRounds_eq hread
  have hscan := Cpu.repneScasb.eq_1 a
  rw [hcx, hz, hal] at hscan
  refine ⟨z, ?_⟩
  simp only [skipLine, Cpu.setAl]
  rw [show Cpu.ah { s with cx := s.bx } = s.ah from rfl, ← ha, hscan, ha]

theorem at_stateSkipLine (hlabel : r.label = .stateSkipLine)
    (h : At img w C s₀ r) : At img w C s₀ (step img w r) := by
  simp only [At, hlabel] at h
  obtain ⟨hlive, held, cur, hline, hpacket, hrest, htaken, hcur, hfull⟩ := h
  obtain ⟨k, hk⟩ : ∃ k, k = cur.length - (Cpu.afterFirst lf cur).length :=
    ⟨_, rfl⟩
  have hle := Cpu.afterFirst_length_le lf cur
  have hdrop : Cpu.afterFirst lf cur = cur.drop k :=
    hk ▸ afterFirst_eq_drop lf cur
  have hcount := hpacket.count
  have hlt := r.cpu.bx.isLt
  obtain ⟨z, hskip⟩ := skipLine_eq hpacket
  rw [← hk] at hskip
  have hlen : (cur.drop k).length = cur.length - k := List.length_drop ..
  rw [feedRest_full hfull hcur, hdrop] at hrest
  rw [step_stateSkipLine img w hlabel, hskip]
  refine ⟨hlive.congr rfl rfl rfl fun _ _ => rfl, held, cur.drop k,
    hline.congr rfl rfl fun _ _ => rfl, ⟨?_, ?_, ?_⟩, hrest,
    htaken.drop k, ?_⟩
  · rw [hlen, BitVec.toNat_sub, BitVec.toNat_ofNat, hcount]
    omega
  · have hread := hpacket.read
    rw [hlen, ← Mem.drop_read, hread]
  · obtain ⟨q, hq, hsub⟩ := hpacket.within
    refine ⟨q, hq, (region_subset ?_).trans hsub⟩
    omega
  · intro hnil
    rw [hnil] at hfull
    cases hfull

theorem at_finish (hlabel : r.label = .finish) (h : At img w C s₀ r) :
    At img w C s₀ (step img w r) := by
  simp only [At, hlabel] at h
  obtain ⟨hlive, cur, hpacket, hrest, htaken⟩ := h
  obtain ⟨s, hs⟩ : ∃ s : Bot, s
    = freshLine img { r.cpu with di := r.cpu.si, si := r.cpu.di } :=
    ⟨_, rfl⟩
  rw [step_finish img w hlabel, ← hs]
  refine ⟨hlive.congr rfl rfl (by rw [hs]; rfl) (by rw [hs]; exact
    fun _ _ => rfl), [], cur, ?_, ?_, hrest, htaken⟩
  · rw [hs]
    exact ⟨rfl, (BitVec.add_zero _).symm, rfl⟩
  · rw [hs]
    exact hpacket.congr rfl fun _ _ _ _ => rfl

/-- The goodbye is sent from the bot's own memory. -/
theorem dispatchExit_posted (hw : w.Apart img) (hloaded : Loaded img s.mem)
    (k : Nat) :
    Posted img w (dispatchExit img s)
      (sendPacket (w.answers k) (dispatchExit img s)) := by
  have hexit := dispatchExit_spec hloaded
  apply sendPacket_posted hw k
  · rw [hexit.cx]
    decide +kernel
  · rw [hexit.si, hexit.cx]
    exact (text_subset img .quitMessage).trans const_subset_ours

theorem at_stateQuit (hw : w.Apart img) (hlabel : r.label = .stateQuit)
    (h : At img w C s₀ r) : At img w C s₀ (step img w r) := by
  simp only [At, hlabel] at h
  obtain ⟨hlive, -, -, hall⟩ := h
  obtain ⟨m, hsession, hown⟩ := hlive.session
  have hloaded := (hsession.sane.congr hown).loaded
  have hexit := dispatchExit_spec hloaded
  have hposted := dispatchExit_posted hw hloaded r.sends
  obtain ⟨a, ha⟩ : ∃ a, a = dispatchExit img r.cpu := ⟨_, rfl⟩
  rw [← ha] at hexit hposted
  obtain ⟨b, hb⟩ : ∃ b, b = sendPacket (w.answers r.sends) a := ⟨_, rfl⟩
  rw [← hb] at hposted
  have hlines : (r.events
      ++ [Event.send (a.mem.read a.si a.cx.toNat) b.ax]).filterMap
        Event.line? = r.lines := by
    rw [List.filterMap_append]
    exact List.append_nil _
  rw [step_stateQuit img hlabel ha hb]
  refine ⟨hposted.stack.trans (hexit.stack.trans hlive.stack), ?_, ?_⟩
  · have hsame : r.lines <+: (whole w).2 := hall ▸ List.prefix_rfl
    rw [Run.lines, hlines]
    exact hsame
  · rw [Run.lines, hlines]
    exact Or.inr ⟨m, hsession⟩

theorem at_stateDisconnect (hlabel : r.label = .stateDisconnect)
    (h : At img w C s₀ r) : At img w C s₀ (step img w r) := by
  simp only [At, hlabel] at h
  rw [step_stateDisconnect img w hlabel]
  exact ⟨h.1, h.2.congr rfl⟩

theorem at_stateEnd (hlabel : r.label = .stateEnd)
    (h : At img w C s₀ r) : At img w C s₀ (step img w r) := by
  simp only [At, hlabel] at h
  obtain ⟨hstack, hpast⟩ := h
  simp only [step, hlabel, Cpu.pop, Cpu.top, hstack, saved,
    List.headD_cons, List.tail_cons, At]
  exact ⟨trivial, hpast.congr rfl, trivial, trivial, trivial, trivial,
    trivial⟩

-- ------------------------------------------------ stateDispatch

/-- The arguments of the dispatch. -/
def dispatchArgs (img : Image) (s : Bot) : Bot :=
  { s with di := s.si, si := img.lineBuffer, cx := lineBufferLen - s.dx }

section

variable (img : Image) (s : Bot)

@[simp] theorem dispatchArgs_bx : (dispatchArgs img s).bx = s.bx := by
  rw [dispatchArgs]

@[simp] theorem dispatchArgs_cx :
    (dispatchArgs img s).cx = lineBufferLen - s.dx := by
  rw [dispatchArgs]

@[simp] theorem dispatchArgs_si :
    (dispatchArgs img s).si = img.lineBuffer := by
  rw [dispatchArgs]

@[simp] theorem dispatchArgs_di : (dispatchArgs img s).di = s.si := by
  rw [dispatchArgs]

@[simp] theorem dispatchArgs_mem : (dispatchArgs img s).mem = s.mem := by
  rw [dispatchArgs]

@[simp] theorem dispatchArgs_stack :
    (dispatchArgs img s).stack = s.stack := by
  rw [dispatchArgs]

end

theorem InLine.waiting {held : List Byte} (h : InLine img held r.cpu) :
    r.waiting img = held := by
  have hroom := h.room
  rw [Run.waiting, show 512 - r.cpu.dx.toNat = held.length by omega, h.read]

theorem InLine.atLine {held : List Byte} (h : InLine img held s)
    (hne : held ≠ []) : AtLine img held (dispatchArgs img s) := by
  have hroom := h.room
  have hlt := s.dx.isLt
  refine ⟨dispatchArgs_si img s, ?_, List.length_pos_iff.mpr hne,
    by omega, ?_⟩
  · have hmax : lineBufferLen.toNat = 512 := rfl
    rw [dispatchArgs_cx, BitVec.toNat_sub, hmax]
    omega
  · rw [dispatchArgs_mem]
    exact h.read

/-- The line as `dispatchLine` is given it. -/
theorem InLine.args {held : List Byte} (h : InLine img held s)
    (hne : held ≠ []) :
    s.mem.read img.lineBuffer (lineBufferLen - s.dx).toNat = held
      ∧ { s with
          si := img.lineBuffer
          di := s.si
          cx := lineBufferLen - s.dx } = dispatchArgs img s := by
  refine ⟨?_, by rw [dispatchArgs]⟩
  rw [← dispatchArgs_cx img, (h.atLine hne).cx]
  exact h.read

/-- A run after a dispatch that returned `t`. -/
def Run.dispatched (w : World) (held : List Byte) (t : Bot) (r : Run) :
    Run :=
  if t.cx = 0 then { r with
    label := .finish, cpu := t, events := r.events ++ [.line held] }
  else Run.sendPacket w .finish { r with
    cpu := t, events := r.events ++ [.line held] }

theorem step_stateDispatch_none (hlabel : r.label = .stateDispatch)
    {held : List Byte} (h : InLine img held r.cpu) (hne : held ≠ [])
    (hans : dispatchLine img (dispatchArgs img r.cpu) = none) :
    step img w r = { r with
      label := .astray
      cpu := dispatchArgs img r.cpu
      events := r.events ++ [.line held] } := by
  obtain ⟨hread, hargs⟩ := h.args hne
  simp only [step, hlabel, hread, hargs, hans]

theorem step_stateDispatch_some (hlabel : r.label = .stateDispatch)
    {held : List Byte} (h : InLine img held r.cpu) (hne : held ≠ [])
    (hans : dispatchLine img (dispatchArgs img r.cpu) = some t) :
    step img w r = r.dispatched w held t := by
  obtain ⟨hread, hargs⟩ := h.args hne
  simp only [step, hlabel, hread, hargs, hans, Run.dispatched]

/-- The line is dispatched in a session. -/
theorem Live.dispatch (hlive : Live img w C s₀ r) {held : List Byte}
    (hline : InLine img held r.cpu) (hne : held ≠ []) :
    Dispatch img held (dispatchArgs img r.cpu)
      (dispatchLine img (dispatchArgs img r.cpu)) := by
  obtain ⟨m, hsession, hown⟩ := hlive.session
  rw [← dispatchArgs_mem img r.cpu] at hown
  exact hsession.next hown (hline.atLine hne)

/-- What is so of a run once its line is dispatched. -/
theorem live_dispatched (hw : w.Apart img)
    (hlive : Live img w C s₀ r) {held : List Byte}
    (hline : InLine img held r.cpu) (hne : held ≠ [])
    (hpacket : InPacket w cur r.cpu.si r.cpu)
    (hC : C r.cpu.mem held)
    (ht : dispatchLine img (dispatchArgs img r.cpu) = some t) (l : Label) :
    Live img w C s₀ { r with
        label := l, cpu := t, events := r.events ++ [.line held] }
      ∧ InPacket w cur t.di t := by
  obtain ⟨m, hsession, hown⟩ := hlive.session
  have hatline := hline.atLine hne
  rw [← dispatchArgs_mem img r.cpu] at hown hC
  have hnext : Session img C s₀.mem (r.lines ++ [held]) t.mem :=
    .line hsession hown hatline hC ht
  have hd := hsession.next hown hatline
  rw [ht] at hd
  have hm := hd.outside hatline
  rw [dispatchArgs_mem] at hm
  have hret := hd.returned
  refine ⟨⟨⟨t.mem, ?_, fun _ _ => rfl⟩, hlive.packets, ?_⟩, ?_⟩
  · rw [Run.lines, List.filterMap_append]
    exact hnext
  · rw [hret.stack, dispatchArgs_stack, hlive.stack]
  · rw [hret.di, dispatchArgs_di]
    refine hpacket.congr (by rw [hret.bx, dispatchArgs_bx]) (hw.keeps ?_)
    exact hm.mono (Set.compl_subset_compl.mpr changes_subset_ours)

/-- What a dispatch returns to be sent is in the bot's memory. -/
theorem Dispatch.source (h : Dispatch img held s (some t))
    (hline : AtLine img held s) (hcx : t.cx ≠ 0) :
    t.cx.toNat ≤ outSpill ∧ region t.si t.cx.toNat ⊆ ours img := by
  cases h with
  | reject _ hzero _ _ => exact absurd hzero hcx
  | accept _ hparse hd =>
      have hlen : t.cx.toNat ≤ outSpill := by
        rw [hd.cx, sent, List.length_take]
        exact (Nat.min_le_right _ _).trans
          (act_length_le _ _ _ (hline.target_le hparse))
      refine ⟨hlen, ?_⟩
      rw [hd.si]
      exact (region_mono hlen).trans out_subset_ours

theorem Dispatch.posted (h : Dispatch img held s (some t))
    (hw : w.Apart img) (hline : AtLine img held s) (hcx : t.cx ≠ 0)
    (k : Nat) : Posted img w t (sendPacket (w.answers k) t) := by
  obtain ⟨hlen, hsrc⟩ := h.source hline hcx
  exact sendPacket_posted hw k hlen hsrc

theorem at_stateDispatch (hw : w.Apart img)
    (hC : C r.cpu.mem (r.waiting img))
    (hlabel : r.label = .stateDispatch) (h : At img w C s₀ r) :
    At img w C s₀ (step img w r) := by
  simp only [At, hlabel] at h
  obtain ⟨hlive, held, cur, hline, hpacket, hrest, htaken, hne⟩ := h
  rw [hline.waiting] at hC
  have hatline := hline.atLine hne
  have hlines : (r.events ++ [Event.line held]).filterMap Event.line?
      = r.lines ++ [held] := by
    rw [List.filterMap_append]
    rfl
  have hwhole : whole w = ((feedRest (.filling []) cur r.packets).1,
      r.lines ++ [held] ++ (feedRest (.filling []) cur r.packets).2) := by
    rw [hrest, List.append_assoc]
    rfl
  have hd := hlive.dispatch hline hne
  cases hans : dispatchLine img (dispatchArgs img r.cpu) with
  | none =>
      rw [step_stateDispatch_none hlabel hline hne hans]
      change Run.lines _ <+: _
      rw [Run.lines, hlines, hwhole]
      exact List.prefix_append _ _
  | some t =>
      rw [hans] at hd
      obtain ⟨hlive', hpacket'⟩ :=
        live_dispatched hw hlive hline hne hpacket hC hans .finish
      rw [step_stateDispatch_some hlabel hline hne hans, Run.dispatched]
      by_cases hcx : t.cx = 0
      · rw [if_pos hcx]
        refine ⟨hlive', cur, hpacket', ?_, htaken⟩
        rw [Rest, Run.lines, hlines]
        exact hwhole
      · rw [if_neg hcx]
        have hposted := hd.posted hw hatline hcx r.sends
        obtain ⟨u, hu⟩ : ∃ u, u = sendPacket (w.answers r.sends) t :=
          ⟨_, rfl⟩
        rw [← hu] at hposted
        have hlines' : ∀ e : Event, e.line? = none →
            (r.events ++ [Event.line held] ++ [e]).filterMap Event.line?
              = r.lines ++ [held] := by
          intro e he
          rw [List.filterMap_append, hlines]
          simp [he]
        by_cases hax : u.ax = 0
        · rw [Run.sendPacket_ok _ hu hax]
          refine ⟨⟨?_, hlive.packets, ?_⟩, cur, ?_, ?_, htaken⟩
          · obtain ⟨m', hsession', hown'⟩ := hlive'.session
            refine ⟨m', ?_, ?_⟩
            · rw [Run.lines, hlines] at hsession'
              rw [Run.lines, hlines' _ rfl]
              exact hsession'
            · exact (hposted.ours.mono own_subset_ours).trans hown'
          · exact hposted.stack.trans hlive'.stack
          · have hp := hpacket'.congr hposted.bx hposted.data
            rw [← hposted.di] at hp
            exact hp
          · rw [Rest, Run.lines, hlines' _ rfl]
            exact hwhole
        · rw [Run.sendPacket_failed _ hu hax]
          obtain ⟨m', hsession', -⟩ := hlive'.session
          rw [Run.lines, hlines] at hsession'
          refine ⟨hposted.stack.trans hlive'.stack, ?_, ?_⟩
          · rw [Run.lines, hlines' _ rfl, hwhole]
            exact List.prefix_append _ _
          · rw [Run.lines, hlines' _ rfl]
            exact Or.inr ⟨m', hsession'⟩

-- ------------------------------------------------ all labels

/-- Every step leads from what is so at one label to what is so at the
next. -/
theorem at_step (hw : w.Apart img) (hfresh : Fresh img s₀.mem)
    (hC : r.label = .stateDispatch → C r.cpu.mem (r.waiting img))
    (h : At img w C s₀ r) : At img w C s₀ (step img w r) := by
  cases hlabel : r.label with
  | asmRun => exact at_asmRun hlabel h
  | stateStart => exact at_stateStart hw hfresh hlabel h
  | stateGetPacket => exact at_stateGetPacket hw hlabel h
  | stateAppendLine => exact at_stateAppendLine hlabel h
  | copyLoop => exact at_copyLoop hw hlabel h
  | stateSkipLine => exact at_stateSkipLine hlabel h
  | stateDispatch => exact at_stateDispatch hw (hC hlabel) hlabel h
  | finish => exact at_finish hlabel h
  | stateQuit => exact at_stateQuit hw hlabel h
  | stateDisconnect => exact at_stateDisconnect hlabel h
  | stateEnd => exact at_stateEnd hlabel h
  | returned =>
      rw [step_returned img w hlabel]
      exact h
  | astray =>
      rw [step_astray img w hlabel]
      exact h

theorem steps_succ (n : Nat) (r : Run) :
    steps img w (n + 1) r = step img w (steps img w n r) :=
  Function.iterate_succ_apply' _ _ _

/-- Whatever it is that lines are dispatched under, a run stands where
`At` says. -/
theorem at_run (hw : w.Apart img) (hfresh : Fresh img s₀.mem)
    (hC : ∀ n, (steps img w n r).label = .stateDispatch →
      C (steps img w n r).cpu.mem ((steps img w n r).waiting img))
    (h : At img w C s₀ r) (n : Nat) : At img w C s₀ (steps img w n r) := by
  induction n with
  | zero => exact h
  | succ n ih =>
      rw [steps_succ]
      exact at_step hw hfresh (hC n) ih

theorem at_steps (hw : w.Apart img) (hfresh : Fresh img s₀.mem)
    (hC : ∀ n, (steps img w n (w.start s₀)).label = .stateDispatch →
      C (steps img w n (w.start s₀)).cpu.mem
        ((steps img w n (w.start s₀)).waiting img)) (n : Nat) :
    At img w C s₀ (steps img w n (w.start s₀)) :=
  at_run hw hfresh hC rfl n

end Pdtb.Asm
