/-
What `asmRun` makes of the stream. With sends that go well and replies
that do not reach `botState`, a run works off its packets: `work` goes
down at every step, until the last packet is used up. The lines it has
dispatched by then are what a forgetful framer makes of the packets, and
the line it has begun is in `lineBuffer`.

For streams without overlong lines this is the stream's lines, whatever
the packets (`asmRun_lines`). With overlong lines it is what it should be
exactly when no packet ends inside the part that does not fit: `repne
scasb` also ends at the end of the packet, and the code goes on to
dispatch and to a fresh line either way (`asmRun_framed_iff`).
-/
import Pdtb.Proofs.Commands
import Pdtb.Proofs.Loop

namespace Pdtb.Asm

open Lib Irc

variable {img : Image} {w : World} {C : Mem 16 Byte → List Byte → Prop}
  {s₀ s t : Bot} {r : Run} {cur : List Byte} {cs : List Byte}

-- ==================================================== the work left

/-- Where going down at every step leads. -/
theorem exists_iterate {σ : Type} {f : σ → σ} {I P : σ → Prop}
    (μ : σ → Nat) (hstep : ∀ s, I s → ¬ P s → I (f s) ∧ μ (f s) < μ s)
    {s : σ} (h : I s) : ∃ n, P (f^[n] s) := by
  generalize hn : μ s = n
  induction n using Nat.strong_induction_on generalizing s with
  | _ n ih =>
      by_cases hP : P s
      · exact ⟨0, hP⟩
      · obtain ⟨hI, hlt⟩ := hstep s h hP
        obtain ⟨k, hk⟩ := ih _ (hn ▸ hlt) hI rfl
        exact ⟨k + 1, hk⟩

/-- Every send goes well. -/
def World.Delivers (w : World) : Prop :=
  ∀ k, (w.answers k).buffer ≠ 0 ∧ (w.answers k).rc = 0

theorem World.Delivers.ax (h : w.Delivers) (k : Nat) (s : Bot) :
    (sendPacket (w.answers k) s).ax = 0 := by
  obtain ⟨hbuffer, hrc⟩ := h k
  simp only [sendPacket, hbuffer, ↓reduceIte, hrc]

/-- The labels before the end of the stream. -/
def Label.going : Label → Bool
  | .stateQuit | .stateDisconnect | .stateEnd | .returned | .astray => false
  | _ => true

/-- The stream is used up. -/
def Run.Drained (r : Run) : Prop :=
  r.label = .stateGetPacket ∧ r.packets = []

/-- How far a label is from the next byte. -/
def Label.rank : Label → Nat
  | .asmRun => 9
  | .stateStart => 8
  | .stateDispatch => 8
  | .finish => 7
  | .stateAppendLine => 6
  | .stateGetPacket => 5
  | .copyLoop => 5
  | .stateSkipLine => 5
  | _ => 0

/-- The bytes of the packet at hand. -/
def Run.inHand (r : Run) : Nat :=
  match r.label with
  | .asmRun | .stateStart | .stateGetPacket => 0
  | _ => r.cpu.bx.toNat

/-- The work left. -/
def Run.work (r : Run) : Nat :=
  8 * (r.inHand + (r.packets.map fun q => q.bytes.length + 1).sum)
    + r.label.rank

/-- A step on the way: the run goes on, with less work left. -/
def Nearer (r r' : Run) : Prop := r'.label.going = true ∧ r'.work < r.work

theorem nearer_stateStart (hok : w.Delivers)
    (hcs : credentials s₀.dev = some cs) (hlabel : r.label = .stateStart)
    (h : At img w C s₀ r) : Nearer r (step img w r) := by
  simp only [At, hlabel] at h
  have hax := hok.ax 0 (dispatchInit img (entered s₀))
  rw [h, step_stateStart_some hcs rfl, if_pos hax, if_pos hax]
  refine ⟨rfl, ?_⟩
  simp only [Run.work, Run.inHand, Label.rank]
  omega

theorem nearer_stateGetPacket (hw : w.Apart img)
    (hlabel : r.label = .stateGetPacket) (h : At img w C s₀ r)
    (hdrained : ¬ r.Drained) : Nearer r (step img w r) := by
  simp only [At, hlabel] at h
  cases hpackets : r.packets with
  | nil => exact absurd ⟨hlabel, hpackets⟩ hdrained
  | cons q ps =>
      have hq : q ∈ w.packets := by
        refine h.1.packets q ?_
        rw [hpackets]
        exact List.mem_cons_self ..
      have hlen := hw.length q hq
      have hcount : (BitVec.ofNat 16 q.bytes.length).toNat
          = q.bytes.length := by
        rw [BitVec.toNat_ofNat]
        omega
      simp only [Nearer, step, hlabel, Run.getPacket, hpackets, Run.work,
        Run.inHand, Label.rank, Label.going, hcount, List.map_cons,
        List.sum_cons, true_and]
      omega

theorem nearer_stateAppendLine (hlabel : r.label = .stateAppendLine) :
    Nearer r (step img w r) := by
  rw [step_stateAppendLine img w hlabel, appendLine]
  by_cases hbx : r.cpu.bx = 0
  · rw [if_pos hbx]
    simp only [Nearer, Run.work, Run.inHand, hlabel, Label.rank,
      Label.going, true_and]
    omega
  · rw [if_neg hbx]
    split
    · simp only [Nearer, Run.work, Run.inHand, hlabel, Label.rank,
        Label.going, true_and]
      omega
    · simp only [Nearer, Run.work, Run.inHand, hlabel, Label.rank,
        Label.going, true_and]
      omega

theorem nearer_copyLoop (hlabel : r.label = .copyLoop)
    (h : At img w C s₀ r) : Nearer r (step img w r) := by
  simp only [At, hlabel] at h
  obtain ⟨-, held, cur, -, hpacket, -, -, hcur, -⟩ := h
  have hpos := List.length_pos_iff.mpr hcur
  have hcount := hpacket.count
  have hbx : (copyByte r.cpu).bx.toNat + 1 = r.cpu.bx.toNat := by
    have hone : (1 : Word).toNat = 1 := rfl
    have hlt := r.cpu.bx.isLt
    rw [copyByte_eq, BitVec.toNat_sub]
    omega
  simp only [step, hlabel]
  split
  · simp only [Nearer, Run.work, Run.inHand, hlabel, Label.rank,
      Label.going, true_and]
    omega
  · simp only [Nearer, Run.work, Run.inHand, hlabel, Label.rank,
      Label.going, true_and]
    omega

/-- Skipping goes past LF or to the end of the packet. -/
theorem afterFirst_length_lt {x : Byte} {bs : List Byte} (h : bs ≠ []) :
    (Cpu.afterFirst x bs).length < bs.length := by
  cases bs with
  | nil => exact absurd rfl h
  | cons b bs =>
      have hle := Cpu.afterFirst_length_le x bs
      unfold Cpu.afterFirst
      split
      · simp
      · rw [List.length_cons]
        omega

theorem nearer_stateSkipLine (hlabel : r.label = .stateSkipLine)
    (h : At img w C s₀ r) : Nearer r (step img w r) := by
  simp only [At, hlabel] at h
  obtain ⟨-, held, cur, -, hpacket, -, -, hcur, -⟩ := h
  have hless := afterFirst_length_lt (x := lf) hcur
  have hcount := hpacket.count
  obtain ⟨z, hskip⟩ := skipLine_eq hpacket
  have hbx : (skipLine r.cpu).bx.toNat < r.cpu.bx.toNat := by
    have hlt := r.cpu.bx.isLt
    rw [hskip, BitVec.toNat_sub, BitVec.toNat_ofNat]
    omega
  simp only [Nearer, step, hlabel, Run.work, Run.inHand, Label.rank,
    Label.going, true_and]
  omega

/-- A bot whose replies keep off `botState` answers or rejects. -/
theorem dispatch_returns (hlive : Live img w (Short img 514) s₀ r)
    {held : List Byte} (hline : InLine img held r.cpu) (hne : held ≠ []) :
    ∃ t, dispatchLine img (dispatchArgs img r.cpu) = some t
      ∧ t.bx = r.cpu.bx := by
  obtain ⟨m, hsession, hown⟩ := hlive.session
  obtain ⟨st, hst⟩ := hsession.handler fun _ _ h => h
  rw [← dispatchArgs_mem img r.cpu] at hown
  have hstate := (Mem.word_congr (hown.mono botState_subset_own)).trans hst
  have hd := hlive.dispatch hline hne
  obtain ⟨t, ht⟩ := hd.some_of_handler hstate
  rw [ht] at hd
  exact ⟨t, ht, hd.returned.bx.trans (dispatchArgs_bx img r.cpu)⟩

theorem sendPacket_bx (a : Answer) (s : Bot) : (sendPacket a s).bx = s.bx := by
  have hrep : ∀ (n : Nat) (s : Bot), (Cpu.movsbRounds n s).bx = s.bx := by
    intro n
    induction n with
    | zero => exact fun _ => rfl
    | succ n ih => exact fun s => (ih _).trans rfl
  simp only [sendPacket]
  split
  · rfl
  · exact hrep _ _

theorem nearer_stateDispatch (hok : w.Delivers)
    (hlabel : r.label = .stateDispatch)
    (h : At img w (Short img 514) s₀ r) : Nearer r (step img w r) := by
  simp only [At, hlabel] at h
  obtain ⟨hlive, held, cur, hline, hpacket, hrest, -, hne⟩ := h
  obtain ⟨t, hans, hbx⟩ := dispatch_returns hlive hline hne
  rw [step_stateDispatch_some hlabel hline hne hans, Run.dispatched]
  split
  · simp only [Nearer, Run.work, Run.inHand, hlabel, Label.rank,
      Label.going, hbx, true_and]
    omega
  · obtain ⟨u, hu⟩ : ∃ u, u = sendPacket (w.answers r.sends) t := ⟨_, rfl⟩
    have hubx : u.bx = r.cpu.bx := by
      rw [hu, sendPacket_bx, hbx]
    rw [Run.sendPacket_ok _ hu (hu ▸ hok.ax _ _)]
    simp only [Nearer, Run.work, Run.inHand, hlabel, Label.rank,
      Label.going, hubx, true_and]
    omega

theorem nearer_finish (hlabel : r.label = .finish) :
    Nearer r (step img w r) := by
  have hbx : (freshLine img { r.cpu with
      di := r.cpu.si, si := r.cpu.di }).bx = r.cpu.bx := rfl
  simp only [Nearer, step, hlabel, Run.work, Run.inHand, Label.rank,
    Label.going, hbx, true_and]
  omega

/-- Until the stream is used up, every step brings that nearer. -/
theorem nearer_step (hw : w.Apart img) (hok : w.Delivers)
    (hcs : credentials s₀.dev = some cs) (h : At img w (Short img 514) s₀ r)
    (hgoing : r.label.going = true) (hdrained : ¬ r.Drained) :
    Nearer r (step img w r) := by
  cases hlabel : r.label with
  | asmRun =>
      simp only [Nearer, step, hlabel, Run.work, Run.inHand, Label.rank,
        Label.going, true_and]
      omega
  | stateStart => exact nearer_stateStart hok hcs hlabel h
  | stateGetPacket => exact nearer_stateGetPacket hw hlabel h hdrained
  | stateAppendLine => exact nearer_stateAppendLine hlabel
  | copyLoop => exact nearer_copyLoop hlabel h
  | stateSkipLine => exact nearer_stateSkipLine hlabel h
  | stateDispatch => exact nearer_stateDispatch hok hlabel h
  | finish => exact nearer_finish hlabel
  | stateQuit => rw [hlabel] at hgoing; cases hgoing
  | stateDisconnect => rw [hlabel] at hgoing; cases hgoing
  | stateEnd => rw [hlabel] at hgoing; cases hgoing
  | returned => rw [hlabel] at hgoing; cases hgoing
  | astray => rw [hlabel] at hgoing; cases hgoing

-- ==================================================== the end of the stream

/-- No reply of the run is longer than `N` bytes. -/
def ShortReplies (img : Image) (w : World) (N : Nat) (s₀ : Bot) : Prop :=
  ∀ n, (steps img w n (w.start s₀)).label = .stateDispatch →
    Short img N (steps img w n (w.start s₀)).cpu.mem
      ((steps img w n (w.start s₀)).waiting img)

/-- The run comes to the end of the stream. -/
theorem asmRun_drains (hw : w.Apart img) (hok : w.Delivers)
    (hfresh : Fresh img s₀.mem) (hcs : credentials s₀.dev = some cs)
    (hshort : ShortReplies img w 514 s₀) :
    ∃ n, (steps img w n (w.start s₀)).Drained := by
  refine exists_iterate (f := step img w) Run.work
    (I := fun r => (∃ n, r = steps img w n (w.start s₀))
      ∧ r.label.going = true) ?_ ⟨⟨0, rfl⟩, rfl⟩
  intro r h hdrained
  obtain ⟨⟨n, rfl⟩, hgoing⟩ := h
  have hat := at_steps hw hfresh hshort n
  obtain ⟨hgo, hless⟩ := nearer_step hw hok hcs hat hgoing hdrained
  exact ⟨⟨⟨n + 1, (steps_succ n _).symm⟩, hgo⟩, hless⟩

/-- What a run has done when the stream is used up: the lines it
dispatched and the line in `lineBuffer` are the whole. -/
theorem At.drained (h : At img w C s₀ r) (hdrained : r.Drained) :
    r.lines = (whole w).2 ∧ r.waiting img = (whole w).1.held := by
  obtain ⟨hlabel, hpackets⟩ := hdrained
  simp only [At, hlabel] at h
  obtain ⟨-, held, hline, hrest, -⟩ := h
  rw [hpackets] at hrest
  rw [hrest, hline.waiting]
  exact ⟨(List.append_nil _).symm, rfl⟩

variable (img) in
/-- From there it returns, and dispatches nothing more. -/
theorem drained_returns (hdrained : r.Drained) :
    ∃ n, (steps img w n r).label = .returned
      ∧ (steps img w n r).lines = r.lines := by
  obtain ⟨hlabel, hpackets⟩ := hdrained
  have hrest : ∀ r' : Run, r'.label = .stateDisconnect →
      (steps img w 2 r').label = .returned
        ∧ (steps img w 2 r').lines = r'.lines := by
    intro r' hlabel'
    have htwo : steps img w 2 r' = step img w (step img w r') := rfl
    rw [htwo]
    simp only [step, hlabel', Run.lines, and_self]
  have hget := step_stateGetPacket img w hlabel
  cases hquit : w.quit with
  | false =>
      obtain ⟨hret, hlines⟩ := hrest (step img w r) (by
        simp only [hget, Run.getPacket, hpackets, hquit,
          Bool.false_eq_true, ↓reduceIte])
      refine ⟨3, hret, hlines.trans ?_⟩
      simp only [hget, Run.getPacket, hpackets, Run.lines]
  | true =>
      have hone : (step img w r).label = .stateQuit := by
        simp only [hget, Run.getPacket, hpackets, hquit, ↓reduceIte]
      obtain ⟨hret, hlines⟩ := hrest (step img w (step img w r)) (by
        rw [step]
        simp only [hone])
      refine ⟨4, hret, hlines.trans ?_⟩
      have htwo : (step img w (step img w r)).lines
          = (step img w r).lines := by
        rw [step]
        simp only [hone, Run.sendPacket, Run.lines, List.filterMap_append,
          List.filterMap_cons, Event.line?, List.filterMap_nil,
          List.append_nil]
      rw [htwo]
      simp only [hget, Run.getPacket, hpackets, Run.lines]

-- ==================================================== a world to run in

/-- A world that brings these packets, all to one place, and takes every
send. -/
def demo (packets : List (List Byte)) : World where
  packets := packets.map fun bytes => ⟨0x4000, bytes⟩
  quit := false
  answers := fun _ => ⟨0x8000, 0, 0⟩

theorem ours_default_lt {x : Word} (h : x ∈ ours default) :
    x.toNat < 0x1000 := by
  have hlt : ∀ (a : Word) (n : Nat), a.toNat + n ≤ 0x1000 →
      x ∈ region a n → x.toNat < 0x1000 := by
    intro a n hfits hx
    have := ((mem_region_iff (by omega)).mp hx).2
    omega
  rcases h with (((((h | h) | h) | h) | h) | h) | h
  · exact hlt _ _ (by decide) h
  · exact hlt _ _ (by decide) h
  · exact hlt _ _ (by decide) h
  · exact hlt _ _ (by decide) h
  · exact hlt _ _ (by decide) h
  · exact hlt _ _ (by decide) h
  · exact hlt _ _ (by decide) h

/-- Packets at `0x4000` and buffers behind `0x8000` are out of the way. -/
theorem apart_default {w : World}
    (hpackets : ∀ q ∈ w.packets, q.data = 0x4000
      ∧ q.bytes ≠ [] ∧ q.bytes.length ≤ 0x1000)
    (hbuffers : ∀ k, 0x8000 ≤ (w.answers k).buffer.toNat
      ∧ (w.answers k).buffer.toNat + outSpill ≤ 65536) :
    w.Apart default := by
  have hfar : ∀ (a : Word) (n : Nat), 0x1000 ≤ a.toNat →
      a.toNat + n ≤ 65536 → Disjoint (region a n) (ours default) := by
    intro a n ha hfits
    refine Set.disjoint_left.mpr fun x hx hx' => ?_
    have hlow := ((mem_region_iff hfits).mp hx).1
    have hhigh := ours_default_lt hx'
    omega
  have hdata : (0x4000 : Word).toNat = 0x4000 := rfl
  refine ⟨fun q hq => (hpackets q hq).2.1, fun q hq => ?_,
    fun q hq => ?_, fun k _ => ?_, fun k _ q hq => ?_⟩
  · have := (hpackets q hq).2.2
    omega
  · obtain ⟨hq, -, hlen⟩ := hpackets q hq
    rw [hq]
    apply hfar
    · decide
    · omega
  · obtain ⟨hlow, hhigh⟩ := hbuffers k
    apply hfar
    · omega
    · exact hhigh
  · obtain ⟨hq, -, hlen⟩ := hpackets q hq
    obtain ⟨hlow, hhigh⟩ := hbuffers k
    rw [hq]
    refine Apart.disjoint (p := ((w.answers k).buffer, outSpill))
      (q := (0x4000, q.bytes.length)) hhigh ?_ (Or.inr ?_)
    · simp only [hdata]
      omega
    · simp only [hdata]
      omega

theorem demo_apart {packets : List (List Byte)}
    (h : ∀ c ∈ packets, c ≠ [] ∧ c.length ≤ 0x1000) :
    (demo packets).Apart default := by
  apply apart_default
  · intro q hq
    obtain ⟨c, hc, rfl⟩ := List.mem_map.mp hq
    exact ⟨rfl, h c hc⟩
  · intro k
    have hbuffer : ((demo packets).answers k).buffer = 0x8000 := rfl
    rw [hbuffer]
    exact ⟨by decide, by decide⟩

theorem demo_delivers (packets : List (List Byte)) :
    (demo packets).Delivers := by
  intro k
  have hbuffer : ((demo packets).answers k).buffer = 0x8000 := rfl
  rw [hbuffer]
  exact ⟨by decide, rfl⟩

/-- Short lines have short replies. -/
theorem short_of_length {m : Mem 16 Byte} {inp : List Byte} {N : Nat}
    (h : inp.length + 21 ≤ N) : Short img N m inp := by
  intro _ msg hparse
  have hparsed := parse_length hparse
  have htarget := msg.length_target
  exact ⟨fun _ => by omega, fun _ _ => by omega⟩

/-- The line a run dispatches is among those of the whole. -/
theorem At.waiting_mem (hlabel : r.label = .stateDispatch)
    (h : At img w C s₀ r) : r.waiting img ∈ (whole w).2 := by
  simp only [At, hlabel] at h
  obtain ⟨-, held, cur, hline, -, hrest, -⟩ := h
  rw [hline.waiting, hrest]
  apply List.mem_append_right
  exact List.mem_append_left _ (List.mem_singleton_self held)

theorem shortReplies_of_length {N : Nat} (hw : w.Apart img)
    (hfresh : Fresh img s₀.mem) (h : ∀ l ∈ (whole w).2, l.length + 21 ≤ N) :
    ShortReplies img w N s₀ := by
  intro n hlabel
  have hat := at_steps (C := fun _ _ => True) hw hfresh
    (fun _ _ => trivial) n
  exact short_of_length (h _ (hat.waiting_mem hlabel))

variable (img) in
/-- Two steps log in. -/
theorem second_step (hok : w.Delivers) (hcs : credentials s₀.dev = some cs) :
    (steps img w 2 (w.start s₀)).label = .stateGetPacket
      ∧ (steps img w 2 (w.start s₀)).packets = w.packets
      ∧ (steps img w 2 (w.start s₀)).sends = 1 := by
  have hax := hok.ax 0 (dispatchInit img (entered s₀))
  have hone : steps img w 1 (w.start s₀)
      = { w.start s₀ with label := .stateStart, cpu := entered s₀ } := by
    rw [steps_succ]
    exact step_asmRun img w s₀
  rw [steps_succ, hone, step_stateStart_some hcs rfl, if_pos hax]
  exact ⟨rfl, rfl, rfl⟩

variable (img) in
/-- A third one receives the first packet. -/
theorem third_step {q : Packet} {ps : List Packet} (hok : w.Delivers)
    (hcs : credentials s₀.dev = some cs) (hpackets : w.packets = q :: ps) :
    (steps img w 3 (w.start s₀)).label = .stateAppendLine
      ∧ (steps img w 3 (w.start s₀)).packets = ps
      ∧ (steps img w 3 (w.start s₀)).cpu.bx
        = BitVec.ofNat 16 q.bytes.length := by
  obtain ⟨hlabel, hq, -⟩ := second_step img hok hcs
  rw [hpackets] at hq
  rw [steps_succ]
  simp only [step, hlabel, hq, Run.getPacket, and_self]

-- ==================================================== a reply too long

/-- A line that is owed an answer was given it. -/
theorem Session.owed {m₀ m : Mem 16 Byte} {inp : List Byte} {msg : Msg}
    (ls : List (List Byte)) (st : BotState)
    (h : Session img C m₀ (ls ++ [inp]) m)
    (hparse : parse 512 inp = some msg)
    (hstate : ∀ m', Session img C m₀ ls m' →
      m'.word img.botState = Asm.handler img st)
    (hdue : (answer st msg).1 ≠ []) :
    ∃ s t, t.mem = m ∧ Dispatched img st msg s t
      ∧ act img s.mem st msg = answer st msg
      ∧ s.mem.word img.botState = Asm.handler img st := by
  obtain ⟨m', s, t, hsession, hs, hline, hans, hm⟩ := Session.last ls h
  have hst : s.mem.word img.botState = Asm.handler img st := by
    rw [← hstate m' hsession]
    exact Mem.word_congr (hs.mono botState_subset_own)
  have hd := hsession.next hs hline
  rw [hans] at hd
  cases hd with
  | reject hnone =>
      rw [hnone] at hparse
      cases hparse
  | accept hst' hparse' hd =>
      cases handler_inj (hst.symm.trans hst')
      rw [hparse] at hparse'
      cases hparse'
      exact ⟨s, t, hm, hd, act_answer s.mem hdue, hst⟩

theorem startLine_parse :
    parse 512 startLine = some ⟨[], [], ascii "004", [[]]⟩ := by
  decide +kernel

theorem session_start {m₀ m : Mem 16 Byte} (h : Session img C m₀ [] m) :
    m.word img.botState = handler img .start := by
  generalize hall : ([] : List (List Byte)) = all at h
  cases h with
  | init _ _ hax =>
      obtain ⟨cs, -, hbegun⟩ := begun_of_ax hax
      exact hbegun.state
  | line =>
      exact absurd hall.symm (List.append_ne_nil_of_right_ne_nil _
        (List.cons_ne_nil _ _))

theorem session_idle {m₀ m : Mem 16 Byte}
    (h : Session img C m₀ [startLine] m) :
    m.word img.botState = handler img .idle := by
  obtain ⟨s, t, rfl, hd, hact, hst⟩ := Session.owed [] .start h
    startLine_parse (fun _ => session_start) (by decide)
  rw [hd.state hst, hact]
  · rfl
  · rw [hact]
    decide +kernel

/-- A greeting of 512 bytes: the answer has 518. -/
def longHello : List Byte :=
  ascii "PRIVMSG " ++ List.replicate 495 0x78 ++ ascii " >HELLO" ++ crlf

theorem longHello_parse : parse 512 longHello = some
    ⟨[], [], ascii "PRIVMSG", [List.replicate 495 0x78, ascii ">HELLO"]⟩ := by
  decide +kernel

/-- Its answer ends in what is taken for a handler's address. -/
theorem session_astray {m₀ m : Mem 16 Byte}
    (h : Session default C m₀ [startLine, longHello] m) (st : BotState) :
    m.word (Image.botState default) ≠ handler default st := by
  obtain ⟨s, t, rfl, hd, hact, hst⟩ := Session.owed [startLine] .idle h
    longHello_parse (fun _ => session_idle) (by decide)
  obtain ⟨reply, hreply⟩ : ∃ reply, reply = (answer .idle ⟨[], [],
    ascii "PRIVMSG", [List.replicate 495 0x78, ascii ">HELLO"]⟩).1 :=
    ⟨_, rfl⟩
  have hlen : reply.length = 518 := by
    rw [hreply]
    decide +kernel
  have hend : (reply.drop 514).take 2 = [0x52, 0x45] := by
    rw [hreply]
    decide +kernel
  have hread := hd.reply (by rw [hact, ← hreply, hlen]; decide)
  rw [hd.cx, hact, ← hreply, sent_eq default (by omega), hd.si, hlen]
    at hread
  have hword : t.mem.read (Image.botState default) 2 = [0x52, 0x45] := by
    rw [← hend, ← hread, Mem.drop_read, Mem.take_read]
    rfl
  rw [(read_two _ _).mpr hword]
  cases st <;> decide

/-- No session goes on behind it with a line that parses. -/
theorem no_session {m₀ m : Mem 16 Byte} :
    ¬ Session default C m₀ [startLine, longHello, pingLine] m := by
  intro h
  obtain ⟨m', s, t, hsession, hs, hline, hans, -⟩ :=
    Session.last [startLine, longHello] h
  have hd := hsession.next hs hline
  rw [hans] at hd
  cases hd with
  | reject hnone =>
      rw [pingLine_parse] at hnone
      cases hnone
  | accept hst =>
      refine session_astray hsession _ (Eq.trans ?_ hst)
      exact (Mem.word_congr (hs.mono botState_subset_own)).symm

-- ==================================================== the lines

/-- No packet but the last ends inside what does not fit of a line: at
its end at most 512 bytes wait for their LF. -/
def World.Fits (w : World) : Prop :=
  ∀ ps₁ ps₂, w.packets.map (·.bytes) = ps₁ ++ ps₂ → ps₂ ≠ [] →
    (cut lf ps₁.flatten).2.length ≤ 512

/-- What the stream's lines come to: 512 bytes of each at most, and 512
of a tail that is longer. -/
def World.framed (w : World) : List (List Byte) :=
  (cut lf w.stream).1.map (List.take 512)
    ++ overflow 512 (cut lf w.stream).2

/-- The packets make no difference exactly when they fit. -/
theorem whole_iff (hw : w.Apart img) :
    ((whole w).2 = w.framed
        ∧ (whole w).1.held = (Mode.after 512 (cut lf w.stream).2).held)
      ↔ w.Fits := by
  have hpos : ∀ c ∈ w.packets.map (·.bytes), c ≠ [] := by
    intro c hc
    obtain ⟨q, hq, rfl⟩ := List.mem_map.mp hc
    exact hw.pos q hq
  have hiff := feedPieces_eq_iff lf (show 0 < 512 by decide) hpos
  rw [feed_cut] at hiff
  exact hiff

/-- Of the lines of the whole, a run has dispatched the first. -/
theorem At.lines_prefix (h : At img w C s₀ r) :
    r.lines <+: (whole w).2 := by
  cases hlabel : r.label with
  | asmRun =>
      simp only [At, hlabel] at h
      rw [h]
      exact List.nil_prefix
  | stateStart =>
      simp only [At, hlabel] at h
      rw [h]
      exact List.nil_prefix
  | stateGetPacket =>
      simp only [At, hlabel] at h
      obtain ⟨-, held, -, hrest, -⟩ := h
      exact hrest.lines_prefix
  | stateAppendLine =>
      simp only [At, hlabel] at h
      obtain ⟨-, held, cur, -, -, hrest, -⟩ := h
      exact hrest.lines_prefix
  | copyLoop =>
      simp only [At, hlabel] at h
      obtain ⟨-, held, cur, -, -, hrest, -⟩ := h
      exact hrest.lines_prefix
  | stateSkipLine =>
      simp only [At, hlabel] at h
      obtain ⟨-, held, cur, -, -, hrest, -⟩ := h
      exact hrest.lines_prefix
  | stateDispatch =>
      simp only [At, hlabel] at h
      obtain ⟨-, held, cur, -, -, hrest, -⟩ := h
      exact hrest.lines_prefix
  | finish =>
      simp only [At, hlabel] at h
      obtain ⟨-, cur, -, hrest, -⟩ := h
      exact hrest.lines_prefix
  | stateQuit =>
      simp only [At, hlabel] at h
      obtain ⟨-, -, -, hall⟩ := h
      exact hall ▸ List.prefix_rfl
  | stateDisconnect =>
      simp only [At, hlabel] at h
      exact h.2.lines
  | stateEnd =>
      simp only [At, hlabel] at h
      exact h.2.lines
  | returned =>
      simp only [At, hlabel] at h
      exact h.2.1.lines
  | astray =>
      simp only [At, hlabel] at h
      exact h

variable (cs) in
/-- A run's lines, as long as packets fit: the stream's, as far as it
has come, and all of them when the sends go well. They are all the
stream's with the sends going well exactly when packets fit. -/
theorem asmRun_framed_iff (hw : w.Apart img) (hfresh : Fresh img s₀.mem)
    (hshort : ShortReplies img w 514 s₀) :
    (w.Fits → ∀ n, (steps img w n (w.start s₀)).lines <+: w.framed)
      ∧ (w.Delivers → credentials s₀.dev = some cs →
        ((∃ n, (steps img w n (w.start s₀)).Drained
            ∧ (steps img w n (w.start s₀)).lines = w.framed
            ∧ (steps img w n (w.start s₀)).waiting img
              = (Mode.after 512 (cut lf w.stream).2).held)
          ↔ w.Fits)) := by
  have hat := at_steps hw hfresh hshort
  have hwhole := whole_iff hw
  constructor
  · intro hfits n
    rw [← (hwhole.mpr hfits).1]
    exact At.lines_prefix (hat n)
  · intro hok hcs
    rw [← hwhole]
    constructor
    · intro h
      obtain ⟨n, hdrained, hlines, hwaiting⟩ := h
      obtain ⟨hlines', hwaiting'⟩ := (hat n).drained hdrained
      exact ⟨hlines'.symm.trans hlines, hwaiting'.symm.trans hwaiting⟩
    · intro h
      obtain ⟨hlines, hheld⟩ := h
      obtain ⟨n, hdrained⟩ := asmRun_drains hw hok hfresh hcs hshort
      obtain ⟨hlines', hwaiting'⟩ := (hat n).drained hdrained
      exact ⟨n, hdrained, hlines'.trans hlines, hwaiting'.trans hheld⟩

/-- A line of 514 bytes that a packet ends in behind the 513th. -/
def cutShort : List (List Byte) := [List.replicate 513 0x61, [0x62, lf]]

theorem asmRun_not_framed :
    ¬ ∀ (w : World) (s₀ : Bot) (cs : List Byte), w.Apart default →
      Fresh default s₀.mem → w.Delivers → credentials s₀.dev = some cs →
      ∃ n, (steps default w n (w.start s₀)).Drained
        ∧ (steps default w n (w.start s₀)).lines = w.framed := by
  intro hall
  have hw : (demo cutShort).Apart default :=
    demo_apart (by decide +kernel)
  obtain ⟨n, hdrained, hlines⟩ := hall (demo cutShort) (boot default) []
    hw (boot_fresh default) (demo_delivers _) rfl
  have hat := at_steps (C := fun _ _ => True) hw (boot_fresh default)
    (fun _ _ => trivial) n
  have hlines' := (hat.drained hdrained).1
  have htwo : (whole (demo cutShort)).2.length = 2 := by decide +kernel
  have hone : (demo cutShort).framed.length = 1 := by decide +kernel
  rw [← hlines', hlines, hone] at htwo
  exact absurd htwo (by decide)

/-- `PING :x` in two packets comes to one line. -/
theorem asmRun_framed_ping :
    ∃ n, (steps default (demo [ascii "PING", ascii " :x" ++ crlf]) n
        ((demo [ascii "PING", ascii " :x" ++ crlf]).start
          (boot default))).lines = [pingLine] := by
  obtain ⟨w, hdef⟩ : ∃ w, w = demo [ascii "PING", ascii " :x" ++ crlf] :=
    ⟨_, rfl⟩
  rw [← hdef]
  have hw : w.Apart default := by
    rw [hdef]
    exact demo_apart (by decide)
  have hok : w.Delivers := by
    rw [hdef]
    exact demo_delivers _
  have hshort : ShortReplies default w 514 (boot default) := by
    apply shortReplies_of_length hw (boot_fresh default)
    rw [hdef]
    decide +kernel
  obtain ⟨-, hiff⟩ := asmRun_framed_iff [] hw (boot_fresh default) hshort
  have hfits : w.Fits := by
    rw [← whole_iff hw, hdef]
    decide +kernel
  obtain ⟨n, -, hlines, -⟩ := (hiff hok rfl).mpr hfits
  refine ⟨n, hlines.trans ?_⟩
  rw [hdef]
  decide +kernel

/-- A stream of lines that fit comes to its lines, whatever the packets:
the run has dispatched them, and only them, when it returns. -/
theorem asmRun_lines {ls : List (List Byte)} {tail : List Byte}
    (hw : w.Apart img) (hok : w.Delivers) (hfresh : Fresh img s₀.mem)
    (hcs : credentials s₀.dev = some cs)
    (hstream : Lines lf w.stream ls tail)
    (hls : ∀ l ∈ ls, l.length ≤ 512) (htail : tail.length ≤ 512)
    (hshort : ShortReplies img w 514 s₀) :
    ∃ n, (steps img w n (w.start s₀)).label = .returned
      ∧ (steps img w n (w.start s₀)).lines = ls := by
  have hcut := cut_eq hstream
  have hfits : w.Fits := by
    intro ps₁ ps₂ hsplit _
    have hsplit' : w.stream = ps₁.flatten ++ ps₂.flatten := by
      rw [World.stream, hsplit, List.flatten_append]
    rw [hsplit'] at hcut
    refine cut_begun_le ps₂.flatten ?_ ?_
    · rw [hcut]
      exact hls
    · rw [hcut]
      exact htail
  have hframed : w.framed = ls := by
    have hoverflow : overflow 512 tail = [] := if_neg (by omega)
    have hmap : ls.map (List.take 512) = ls := by
      rw [List.map_congr_left fun l hl => List.take_of_length_le (hls l hl)]
      exact List.map_id ls
    rw [World.framed, hcut, hoverflow, hmap, List.append_nil]
  obtain ⟨n, hdrained⟩ := asmRun_drains hw hok hfresh hcs hshort
  have hlines := ((at_steps hw hfresh hshort n).drained hdrained).1
  rw [((whole_iff hw).mpr hfits).1, hframed] at hlines
  obtain ⟨k, hreturned, hlines'⟩ := drained_returns img hdrained
  refine ⟨k + n, ?_, ?_⟩
  · rw [steps, Function.iterate_add_apply]
    exact hreturned
  · rw [steps, Function.iterate_add_apply]
    exact hlines'.trans hlines

/-- A joining bot, greeted from a long channel name, and pinged twice. -/
def greeted : List (List Byte) := [startLine, longHello, pingLine, pingLine]

theorem asmRun_not_lines :
    ¬ ∀ (w : World) (s₀ : Bot) (cs : List Byte) (ls : List (List Byte))
        (tail : List Byte),
      w.Apart default → w.Delivers → Fresh default s₀.mem →
      credentials s₀.dev = some cs → Lines lf w.stream ls tail →
      (∀ l ∈ ls, l.length ≤ 512) → tail.length ≤ 512 →
      ∃ n, (steps default w n (w.start s₀)).label = .returned
        ∧ (steps default w n (w.start s₀)).lines = ls := by
  intro hall
  have hw : (demo greeted).Apart default := demo_apart (by decide +kernel)
  have hcut : cut lf (demo greeted).stream = (greeted, []) := by
    decide +kernel
  have hlines := cut_lines lf (demo greeted).stream
  rw [hcut] at hlines
  obtain ⟨n, hreturned, hls⟩ := hall (demo greeted) (boot default) []
    greeted [] hw (demo_delivers _) (boot_fresh default) rfl hlines
    (by decide +kernel) (Nat.zero_le _)
  have hat := at_steps (C := fun _ _ => True) hw (boot_fresh default)
    (fun _ _ => trivial) n
  simp only [At, hreturned] at hat
  obtain ⟨-, ⟨-, hsession⟩, -⟩ := hat
  rw [hls] at hsession
  rcases hsession with hnil | ⟨m, hsession⟩
  · cases hnil
  · obtain ⟨m', -, -, hbefore, -⟩ :=
      Session.last [startLine, longHello, pingLine] hsession
    exact no_session hbefore

/-- `PING :x` and the start of another line, in one packet. -/
theorem asmRun_lines_ping :
    ∃ n, (steps default (demo [pingLine ++ ascii "PI"]) n
        ((demo [pingLine ++ ascii "PI"]).start (boot default))).label
          = .returned
      ∧ (steps default (demo [pingLine ++ ascii "PI"]) n
        ((demo [pingLine ++ ascii "PI"]).start (boot default))).lines
          = [pingLine] := by
  have hw : (demo [pingLine ++ ascii "PI"]).Apart default :=
    demo_apart (by decide)
  have hcut : cut lf (demo [pingLine ++ ascii "PI"]).stream
      = ([pingLine], ascii "PI") := by
    decide +kernel
  have hstream := cut_lines lf (demo [pingLine ++ ascii "PI"]).stream
  rw [hcut] at hstream
  exact asmRun_lines hw (demo_delivers _) (boot_fresh default)
    (show credentials (boot default).dev = some [] from rfl) hstream
    (by decide) (by decide)
    (shortReplies_of_length hw (boot_fresh default) (by decide +kernel))

end Pdtb.Asm
