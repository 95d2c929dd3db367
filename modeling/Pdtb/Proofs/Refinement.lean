/-
The socket with its sequence numbers, on any segments whatsoever, does to
its queues what `Stack` does on some arrivals. Which segments are the good
ones, how many packets one acknowledges, how many the window lets through:
`Stack` leaves it open, and the numbers decide it.

So whatever is proved of the calls of the program (`Globals.calls`) holds
of a program on this socket, until it closes it.
-/
import Pdtb.Proofs.Link
import Pdtb.Proofs.Refusal

namespace Pdtb.Net

open Lib Asm

variable {h : Host} {s : Socket} {n : Globals} {p : Peer}

-- ==================================================== one end

/-- What happens to a program that does not close its socket. The segments
may be anything. -/
inductive Input where
  | send (bytes : List Byte)
  | receive
  | drivePackets (overdue : Socket.Overdue) (probe : Bool)
  | segment (seg : TcpSegment) (data : Word)

namespace Peer

variable (h) in
def input (p : Peer) : Input → Peer
  | .send bytes => p.step h (.send bytes)
  | .receive => p.step h .receive
  | .drivePackets overdue probe => p.step h (.drivePackets overdue probe)
  | .segment seg data => { p with toSocket := p.process h seg data }

end Peer

/-- A socket that was made and is not to be closed. -/
def TcpState.held (st : TcpState) : Bool :=
  st = .established || st = .closeWait || st = .closed

theorem TcpState.held_cases {st : TcpState} (hheld : st.held = true) :
    st = .established ∨ st = .closeWait ∨ st = .closed := by
  unfold TcpState.held at hheld
  simp only [Bool.or_eq_true, decide_eq_true_iff, or_assoc] at hheld
  exact hheld

-- ==================================================== a segment

namespace Socket

/-- The packets that are removed are some of the first. -/
theorem removeLoop_stack (target : BitVec 32) (k : Nat) :
    ∀ s : Socket, ∃ acked, (s.removeLoop h target k).toStack
      = s.toStack.removeSentPackets h acked := by
  induction k with
  | zero => exact fun _ => ⟨0, rfl⟩
  | succ k ih =>
      intro s
      unfold removeLoop
      split
      · exact ⟨0, rfl⟩
      · next p hpeek =>
          obtain ⟨ps, hsent⟩ := Ring.toList_of_peek hpeek
          split
          · exact ⟨0, rfl⟩
          · next hnull =>
              split
              · obtain ⟨acked, hrest⟩ := ih (s.removeSent h p)
                refine ⟨acked + 1, hrest.trans ?_⟩
                have hfirst : s.sent.dequeue = (some p, s.sent.dequeue.2) :=
                  Prod.ext (Ring.dequeue_cons hsent).1 rfl
                rw [Stack.removeSentPackets, hfirst]
                simp only
                rw [if_neg hnull]
                rfl
              · exact ⟨0, rfl⟩

theorem processAck_stack (tcp : TcpHeader) :
    ∃ acked, (s.processAck h tcp).toStack
      = s.toStack.removeSentPackets h acked := by
  unfold processAck
  simp only
  split
  · obtain ⟨acked, hstack⟩ :=
      removeLoop_stack (h := h) tcp.acknum s.sent.entries s
    refine ⟨acked, ?_⟩
    split <;> exact hstack
  · refine ⟨0, ?_⟩
    split <;> rfl

theorem removeSentPackets_state (k : Nat) (st : Stack) :
    (st.removeSentPackets h k).state = st.state := by
  induction k generalizing st with
  | zero => rfl
  | succ k ih =>
      unfold Stack.removeSentPackets
      split
      · rfl
      · split
        · rfl
        · rw [ih]
          unfold Stack.returnXmitBuf
          split <;> rfl

theorem receiveData_state (packet : Packet) :
    (s.receiveData packet).2.state = s.state := by
  unfold receiveData Stack.processPacketData
  simp only
  split <;> rfl

/-- What is sent without FIN leaves the queues and the state. -/
theorem account_stack (k : Nat) {bits : CodeBits} (hfin : bits.fin = false) :
    (s.account k bits).toStack = s.toStack := by
  unfold account
  rw [hfin]
  rfl

/-- The switch, where `Stack` has it. -/
theorem processStates_stack (hheld : s.state.held = true) (seg : TcpSegment)
    (current gen : Bool) :
    ((s.processStates h seg current gen).2.generate h
      (s.processStates h seg current gen).1).toStack
      = s.toStack.processState h seg.tcp.codeBits.fin gen := by
  unfold processStates Stack.processState generate
  rcases TcpState.held_cases hheld with hst | hst | hst
  · rw [hst]
    cases seg.tcp.codeBits.fin <;> cases gen <;> rfl
  · rw [hst]
    cases seg.tcp.codeBits.fin <;> cases gen <;> rfl
  · rw [hst]
    cases seg.tcp.codeBits.fin <;> cases gen <;> rfl

/-- A good segment is one that `Stack` knows. -/
theorem processGood_stack (hheld : s.state.held = true) (seg : TcpSegment)
    (data : Word) :
    ∃ acked, (s.processGood h seg data).toStack = s.toStack.process2 h
      ⟨acked, ⟨data, seg.data⟩, seg.tcp.codeBits.fin⟩ := by
  obtain ⟨acked, hacked⟩ := s.countGood.processAck_stack (h := h) seg.tcp
  have hheld' : (s.countGood.processAck h seg.tcp).state.held = true := by
    rw [hacked, removeSentPackets_state]
    exact hheld
  refine ⟨acked, ?_⟩
  have hstack : s.toStack.removeSentPackets h acked
      = (s.countGood.processAck h seg.tcp).toStack := hacked.symm
  unfold processGood Stack.process2
  simp only
  rw [hstack]
  generalize s.countGood.processAck h seg.tcp = s₂ at hheld' ⊢
  split
  · exact processStates_stack hheld' seg _ false
  · have hheld'' : (s₂.receiveData ⟨data, seg.data⟩).2.state.held = true := by
      rw [receiveData_state]
      exact hheld'
    by_cases hdead : (s₂.receiveData ⟨data, seg.data⟩).1 = true
    · have hdead' : (s₂.toStack.processPacketData ⟨data, seg.data⟩).1 = true :=
        hdead
      rw [if_pos hdead, if_pos hdead']
      rfl
    · have hdead' : ¬ (s₂.toStack.processPacketData ⟨data, seg.data⟩).1
          = true := hdead
      rw [if_neg hdead, if_neg hdead']
      exact processStates_stack hheld'' seg _ _

theorem sendPureAck_stack (forceProbe : Bool) :
    (s.sendPureAck h forceProbe).toStack = s.toStack := by
  unfold sendPureAck
  split
  · rfl
  · next hstate =>
      refine account_stack 0 ?_
      unfold codeBits
      rw [not_not.mp hstate]
      rfl

theorem sendResetPacket_stack (seg : TcpSegment) :
    (s.sendResetPacket seg).toStack = s.toStack := by
  unfold sendResetPacket
  split <;> rfl

/-- Whatever segment comes, `Stack` has an arrival for it. -/
theorem process_stack (hheld : s.state.held = true) (seg : TcpSegment)
    (data : Word) :
    ∃ a, (s.process h seg data).toStack
      = s.toStack.packetProcessSingle h a := by
  unfold process process2
  split
  · next hclosed =>
      refine ⟨.nothing, ?_⟩
      rw [Stack.packetProcessSingle, if_pos hclosed]
      exact sendResetPacket_stack seg
  · next hopen =>
      have hnothing : s.toStack.packetProcessSingle h .nothing = s.toStack := by
        rw [Stack.packetProcessSingle, if_neg hopen]
      split
      · next hsyn =>
          rw [hsyn] at hheld
          cases hheld
      · split
        · split
          · exact ⟨.reset, by rw [Stack.packetProcessSingle, if_neg hopen]; rfl⟩
          · exact ⟨.nothing, hnothing.symm⟩
        · split
          · obtain ⟨acked, hstack⟩ := processGood_stack (h := h) hheld seg data
            refine ⟨.segment ⟨acked, ⟨data, seg.data⟩,
              seg.tcp.codeBits.fin⟩, ?_⟩
            rw [hstack, Stack.packetProcessSingle, if_neg hopen]
          · exact ⟨.nothing, (sendPureAck_stack false).trans hnothing.symm⟩

theorem sendPureAck_flags (forceProbe : Bool) :
    (s.sendPureAck h forceProbe).wasAckOnly = s.wasAckOnly := by
  unfold sendPureAck
  split <;> rfl

theorem sendResetPacket_flags (seg : TcpSegment) :
    (s.sendResetPacket seg).wasAckOnly = s.wasAckOnly := by
  unfold sendResetPacket
  split <;> rfl

theorem Marked.of_stack {s' : Socket} (hmarked : s.Marked)
    (hstack : s'.toStack = s.toStack) (hflags : s'.wasAckOnly = s.wasAckOnly) :
    s'.Marked := by
  unfold Marked
  rw [hstack, hflags]
  exact hmarked

theorem Marked.enqueueConnectPacket (hmarked : s.Marked) :
    (s.enqueueConnectPacket h).Marked := by
  refine Marked.enqueue (s := s.setLen h.connectPacket 0) (fun b hb hflag => ?_)
    (Function.update_self ..)
  show Function.update s.dataLen h.connectPacket 0 b = 0
  by_cases heq : b = h.connectPacket
  · rw [heq, Function.update_self]
  · rw [Function.update_of_ne heq]
    exact hmarked b hb hflag

theorem Marked.generate (hmarked : s.Marked) (gen : Bool) :
    (s.generate h gen).Marked := by
  unfold Socket.generate
  split
  · exact hmarked.enqueueConnectPacket
  · exact hmarked

theorem Marked.destroy (s : Socket) : (s.destroy h).Marked := by
  obtain ⟨out, sent, inc, xs, heq, hout, -⟩ := Stack.destroy_eq h s.toStack
  intro b hb
  have hmem : b ∈ (s.toStack.destroy h).outgoing.toList := hb
  rw [heq] at hmem
  have hnil : out.toList = [] := hout
  have hin : b ∈ out.toList := hmem
  rw [hnil] at hin
  cases hin

theorem Marked.removeLoop (target : BitVec 32) (k : Nat) :
    ∀ s : Socket, s.Marked → (s.removeLoop h target k).Marked := by
  induction k with
  | zero => exact fun _ hmarked => hmarked
  | succ k ih =>
      intro s hmarked
      unfold Socket.removeLoop
      split
      · exact hmarked
      · split
        · exact hmarked
        · split
          · refine ih _ ?_
            unfold Socket.removeSent
            obtain ⟨xs, hxs⟩ := Stack.returnXmitBuf_eq h _
              { s.toStack with sent := s.sent.dequeue.2 }
            rw [hxs]
            exact hmarked
          · exact hmarked

theorem Marked.processAck (hmarked : s.Marked) (tcp : TcpHeader) :
    (s.processAck h tcp).Marked := by
  unfold Socket.processAck
  simp only
  split
  · split <;> exact Marked.removeLoop _ _ s hmarked
  · split <;> exact hmarked

theorem Marked.processStates (hmarked : s.Marked) (hheld : s.state.held = true)
    (seg : TcpSegment) (current gen : Bool) :
    (s.processStates h seg current gen).2.Marked := by
  unfold Socket.processStates
  rcases TcpState.held_cases hheld with hst | hst | hst <;> rw [hst] <;>
    simp only
  · split <;> exact hmarked
  · exact hmarked
  · exact hmarked

theorem Marked.receiveData (hmarked : s.Marked) (packet : Packet) :
    (s.receiveData packet).2.Marked := by
  unfold Socket.receiveData Stack.processPacketData
  simp only
  split <;> exact hmarked

theorem Marked.process (hmarked : s.Marked) (hheld : s.state.held = true)
    (seg : TcpSegment) (data : Word) : (s.process h seg data).Marked := by
  unfold Socket.process process2
  split
  · exact hmarked.of_stack (sendResetPacket_stack seg)
      (sendResetPacket_flags seg)
  · split
    · next hsyn =>
        rw [hsyn] at hheld
        cases hheld
    · split
      · split
        · exact .destroy s
        · exact hmarked
      · split
        · have hacked : (s.countGood.processAck h seg.tcp).Marked :=
            Marked.processAck (s := s.countGood) hmarked seg.tcp
          have hheld' : (s.countGood.processAck h seg.tcp).state.held
              = true := by
            obtain ⟨acked, hstack⟩ :=
              s.countGood.processAck_stack (h := h) seg.tcp
            rw [hstack, removeSentPackets_state]
            exact hheld
          unfold processGood
          simp only
          split
          · exact (hacked.processStates hheld' seg _ _).generate _
          · split
            · exact hacked.receiveData _
            · exact ((hacked.receiveData _).processStates
                ((receiveData_state _).symm ▸ hheld') seg _ _).generate _
        · exact hmarked.of_stack (sendPureAck_stack false)
            (sendPureAck_flags false)

-- ==================================================== drivePackets

/-- The first packet is in `sent` afterwards if it has data, as it is in
`Stack`. -/
theorem sendPending_stack (hheld : s.state.held = true) {p : Word}
    {ps : List Word} (hout : s.outgoing.toList = p :: ps)
    (hack : s.wasAckOnly p = true → s.dataLen p = 0) :
    (s.sendPending h p).toStack = s.toStack.sendPending h := by
  have hfirst : s.outgoing.dequeue = (some p, s.outgoing.dequeue.2) :=
    Prod.ext (Ring.dequeue_cons hout).1 rfl
  have hbits : (s.codeBits (s.dataLen p) false).fin = false
      ∧ (s.dataLen p = 0 → s.codeBits (s.dataLen p) false = .ackOnly) := by
    unfold codeBits
    rcases TcpState.held_cases hheld with hst | hst | hst <;> rw [hst]
    · refine ⟨rfl, fun hlen => ?_⟩
      rw [hlen]
      rfl
    · exact ⟨rfl, fun _ => rfl⟩
    · exact ⟨rfl, fun _ => rfl⟩
  have hstack : (s.sendPacket h p).toStack = s.toStack :=
    account_stack (s.dataLen p) hbits.1
  have hflag : (s.sendPacket h p).wasAckOnly p = true ↔ s.dataLen p = 0 := by
    unfold sendPacket emit
    simp only
    split
    · next hempty => exact iff_of_true (Function.update_self ..) hempty.1
    · next hfull =>
        refine iff_of_false (fun hno => ?_)
          fun hlen => hfull ⟨hlen, hbits.2 hlen⟩
        exact hfull ⟨hack hno, hbits.2 (hack hno)⟩
  unfold Stack.sendPending
  rw [hfirst]
  simp only
  rcases s.sendPending_cases (h := h) p with ⟨hset, heq⟩ | ⟨hclear, heq⟩
  · rw [heq, hstack, if_pos (hflag.mp hset)]
  · have hdata : ¬ s.dataLen p = 0 := by
      rw [← hflag, hclear]
      exact Bool.false_ne_true
    rw [heq, if_neg hdata]
    exact congrArg (fun st : Stack => { st with
      outgoing := s.outgoing.dequeue.2, sent := (s.sent.enqueue p).2 }) hstack

theorem sendPending_marked (hmarked : s.Marked) {p : Word} {ps : List Word}
    (hout : s.outgoing.toList = p :: ps) : (s.sendPending h p).Marked := by
  have hq := (Ring.dequeue_cons hout).2
  have hflag : ∀ b ∈ s.outgoing.dequeue.2.toList,
      (s.sendPacket h p).wasAckOnly b = true → s.dataLen b = 0 := by
    intro b hb hset
    rw [hq] at hb
    exact hmarked.flag (hout ▸ List.mem_cons_of_mem p hb) hset
  rcases s.sendPending_cases (h := h) p with ⟨-, heq⟩ | ⟨-, heq⟩
  · obtain ⟨xs, hxs⟩ := Stack.returnXmitBuf_eq h p
      { (s.sendPacket h p).toStack with outgoing := s.outgoing.dequeue.2 }
    rw [heq, hxs]
    exact hflag
  · rw [heq]
    exact hflag

theorem sendPending_state (hheld : s.state.held = true) {p : Word}
    {ps : List Word} (hout : s.outgoing.toList = p :: ps)
    (hmarked : s.Marked) : (s.sendPending h p).state = s.state := by
  rw [sendPending_stack hheld hout (hmarked p (hout ▸ List.mem_cons_self))]
  have hfirst : s.outgoing.dequeue = (some p, s.outgoing.dequeue.2) :=
    Prod.ext (Ring.dequeue_cons hout).1 rfl
  unfold Stack.sendPending
  rw [hfirst]
  simp only
  split
  · unfold Stack.returnXmitBuf
    split <;> rfl
  · rfl

/-- The window lets some packets through, or the probe goes first. -/
theorem sendLoop_stack (probe : Bool) (k : Nat) :
    ∀ s : Socket, s.state.held = true → s.Marked →
      ∃ ready, (s.sendLoop h probe k).toStack
          = s.toStack.drivePackets2 h ready
        ∧ (s.sendLoop h probe k).state = s.state
        ∧ (s.sendLoop h probe k).Marked := by
  induction k with
  | zero => exact fun _ _ hmarked => ⟨0, rfl, rfl, hmarked⟩
  | succ k ih =>
      intro s hheld hmarked
      unfold sendLoop
      split
      · next hready =>
          split
          · exact ⟨0, rfl, rfl, hmarked⟩
          · next p hpeek =>
              obtain ⟨ps, hout⟩ := Ring.toList_of_peek hpeek
              split
              · split
                · have hstack := s.sendPureAck_stack (h := h) true
                  refine ⟨0, hstack, congrArg Stack.state hstack, ?_⟩
                  exact hmarked.of_stack hstack (sendPureAck_flags true)
                · exact ⟨0, rfl, rfl, hmarked⟩
              · have hstate := sendPending_state (h := h) hheld hout hmarked
                obtain ⟨ready, hstack, hst, hm⟩ := ih (s.sendPending h p)
                  (hstate ▸ hheld) (sendPending_marked hmarked hout)
                refine ⟨ready + 1, ?_, hst.trans hstate, hm⟩
                rw [hstack, sendPending_stack hheld hout
                  (hmarked p (hout ▸ List.mem_cons_self)),
                  Stack.drivePackets2, if_pos hready]
      · exact ⟨0, rfl, rfl, hmarked⟩

end Socket

-- ==================================================== the program

/-- A turn in which nothing is read from the keyboard. -/
def Turn.of (arrival : Arrival) (giveUp : Bool) (ready : Nat) : Turn where
  arrival := arrival
  ready := ready
  giveUp := giveUp
  altX := false
  dx := 0

theorem serve_arrival (a : Arrival) (st : Stack) :
    st.serve h (.of a false 0) = st.packetProcessSingle h a := by
  unfold Stack.serve Stack.drivePackets
  exact if_neg fun hno => Bool.false_ne_true hno.2

theorem serve_driving (giveUp : Bool) (ready : Nat) (st : Stack) :
    st.serve h (.of .nothing giveUp ready)
      = st.drivePackets h giveUp ready := by
  have hsame : st.packetProcessSingle h .nothing = st := by
    unfold Stack.packetProcessSingle
    split <;> rfl
  exact congrArg (Stack.drivePackets h giveUp ready) hsame

theorem enqueue_state (buf : Word) (st : Stack) :
    (st.enqueue h buf).2.state = st.state := by
  obtain ⟨q, xs, heq, -⟩ := Stack.enqueue_eq h buf st
  rw [heq]

theorem processState_held {st : Stack} (hheld : st.state.held = true)
    (fin gen : Bool) : (st.processState h fin gen).state.held = true := by
  unfold Stack.processState
  simp only
  split
  · rw [enqueue_state]
    show (if _ then { st with state := .closeWait } else st).state.held = true
    split
    · rfl
    · exact hheld
  · split
    · rfl
    · exact hheld

theorem process2_held {st : Stack} (hheld : st.state.held = true)
    (seg : Segment) : (st.process2 h seg).state.held = true := by
  have hremoved : (st.removeSentPackets h seg.acked).state.held = true := by
    rw [Socket.removeSentPackets_state]
    exact hheld
  unfold Stack.process2
  simp only
  split
  · exact processState_held hremoved _ _
  · have hdata : ((st.removeSentPackets h seg.acked).processPacketData
        seg.packet).2.state.held = true := by
      unfold Stack.processPacketData
      split <;> exact hremoved
    split
    · exact hdata
    · exact processState_held hdata _ _

theorem packetProcessSingle_held {st : Stack} (hheld : st.state.held = true)
    (a : Arrival) : (st.packetProcessSingle h a).state.held = true := by
  unfold Stack.packetProcessSingle
  split
  · exact hheld
  · cases a with
    | nothing => exact hheld
    | segment seg => exact process2_held hheld seg
    | reset =>
        obtain ⟨out, sent, inc, xs, heq, -⟩ := Stack.destroy_eq h st
        simp only
        rw [heq]
        rfl

variable (h) in
/-- The globals and the queues are those of a program on this socket. -/
structure Refines (n : Globals) (p : Peer) : Prop where
  stack : n.stack = p.toStack
  sendBuffer : n.sendBuffer = p.sendBuffer
  kept : Kept h n
  held : p.state.held = true
  marked : p.Marked

/-- While the stack is served, the program keeps its buffer. -/
theorem Refines.serve (hr : Refines h n p) {s : Socket} {t : Turn}
    (hstack : s.toStack = p.toStack.serve h t) (hheld : s.state.held = true)
    (hmarked : s.Marked) :
    Refines h (n.calls h [.serve t]) { p with toSocket := s } where
  stack := (congrArg (Stack.serve h t) hr.stack).trans hstack.symm
  sendBuffer := hr.sendBuffer
  kept := hr.kept.keeps (keeps_serve h t n.stack) rfl
  held := hheld
  marked := hmarked

theorem Refines.segment (hr : Refines h n p) (seg : TcpSegment) (data : Word) :
    ∃ cs, Refines h (n.calls h cs) (p.input h (.segment seg data)) := by
  obtain ⟨a, hstack⟩ := Socket.process_stack (h := h) hr.held seg data
  refine ⟨[.serve (.of a false 0)], hr.serve ?_ ?_
    (hr.marked.process hr.held seg data)⟩
  · rw [hstack, serve_arrival]
  · rw [hstack]
    exact packetProcessSingle_held hr.held a

theorem Refines.drivePackets (hr : Refines h n p) (overdue : Socket.Overdue)
    (probe : Bool) :
    ∃ cs, Refines h (n.calls h cs)
      (p.input h (.drivePackets overdue probe)) := by
  show ∃ cs, Refines h (n.calls h cs)
    { p with toSocket := p.toSocket.drivePackets h overdue probe }
  unfold Socket.drivePackets
  split
  · next q hpeek =>
      obtain ⟨ps, hsent⟩ := Ring.toList_of_peek hpeek
      have hsome : p.sent.entries ≠ 0 := by
        rw [← Ring.length_toList, hsent]
        exact Nat.succ_ne_zero _
      refine ⟨[.serve (.of .nothing true 0)], hr.serve ?_ rfl
        (.destroy p.toSocket)⟩
      rw [serve_driving, Stack.drivePackets, if_pos ⟨hsome, rfl⟩]
      rfl
  · exact ⟨[], hr.stack, hr.sendBuffer, hr.kept, hr.held, hr.marked⟩
  · obtain ⟨ready, hstack, hstate, hmarked⟩ := Socket.sendLoop_stack (h := h)
      probe p.outgoing.entries p.toSocket hr.held hr.marked
    refine ⟨[.serve (.of .nothing false ready)],
      hr.serve ?_ (hstate ▸ hr.held) hmarked⟩
    rw [serve_driving, hstack, Stack.drivePackets,
      if_neg fun hno => Bool.false_ne_true hno.2]

theorem Refines.receive (hr : Refines h n p) :
    ∃ cs, Refines h (n.calls h cs) (p.input h .receive) := by
  have hsame : n.stack.incoming = p.incoming := by rw [hr.stack]
  have hkeep : Keeps h n.stack
      { n.stack with incoming := n.stack.incoming.dequeue.2 } :=
    ⟨fun hc => ⟨hc.free, hc.outgoing, hc.sent⟩, fun _ _ => rfl⟩
  have hstack : ({ n.stack with
      incoming := n.stack.incoming.dequeue.2 } : Stack)
      = { p.toStack with incoming := p.incoming.dequeue.2 } := by
    rw [hr.stack]
  cases hin : n.stack.incoming.toList with
  | nil =>
      rw [Ring.dequeue_nil hin] at hstack
      exact ⟨[], hstack, hr.sendBuffer, hr.kept, hr.held, hr.marked⟩
  | cons packet rest =>
      have hfirst : n.stack.incoming.dequeue
          = (some packet, n.stack.incoming.dequeue.2) :=
        Prod.ext (Ring.dequeue_cons hin).1 rfl
      have hgot : n.calls h [.receive (.of .nothing false 0)] = { n with
          stack := { n.stack with incoming := n.stack.incoming.dequeue.2 }
          handed := n.handed ++ [packet] } := by
        show (n.recvNewPacket h _).2 = _
        unfold Globals.recvNewPacket
        rw [hfirst]
      refine ⟨[.receive (.of .nothing false 0)], ?_⟩
      rw [hgot]
      exact ⟨hstack, hr.sendBuffer, hr.kept.keeps hkeep rfl, hr.held, hr.marked⟩

/-- `sendPacket`, when nothing comes meanwhile, takes the steps of
`Peer.send`. -/
theorem Refines.send (hr : Refines h n p) (bytes : List Byte) :
    ∃ cs, Refines h (n.calls h cs) (p.input h (.send bytes)) := by
  show ∃ cs, Refines h (n.calls h cs) (p.send h bytes)
  unfold Peer.send
  split
  · exact ⟨[], hr⟩
  · next hok =>
      simp only [not_or, not_lt] at hok
      obtain ⟨hne, hshort, -⟩ := hok
      have hown := hr.kept.owned (hr.sendBuffer ▸ hne)
      have hfits := h.fits _ hown.pool
      have hnat : (BitVec.ofNat 16 bytes.length).toNat = bytes.length := by
        rw [BitVec.toNat_ofNat, Nat.mod_eq_of_lt (by omega)]
      have hlen : (BitVec.ofNat 16 bytes.length).toInt ≤ h.mss := by
        rw [BitVec.toInt_eq_toNat_cond]
        split <;> omega
      have hbuffer := (currentSendBuffer_ne_zero_iff hr.kept _).mpr hlen
      rw [currentSendBuffer_eq hlen] at hbuffer
      have hquiet : ∀ st : Stack,
          st.serve h (.of .nothing false 0) = st := by
        intro st
        rw [serve_driving]
        exact if_neg fun hno => Bool.false_ne_true hno.2
      obtain ⟨a, ha, hnext, -⟩ :=
        sendNewBuffer_spec (.of .nothing false 0) n hlen
      have hkept := (sendPacket_next (t := .of .nothing false 0) hr.kept hown
        hlen).1
      refine ⟨[.send (.of .nothing false 0) (BitVec.ofNat 16 bytes.length)], ?_⟩
      have hcalls : n.calls h
          [.send (.of .nothing false 0) (BitVec.ofNat 16 bytes.length)]
          = { n with
            stack := a.2.getXmitBuf.2
            sendBuffer := a.2.getXmitBuf.1 } := by
        show (n.sendPacket h _ _).2 = _
        rw [sendPacket_short hlen hbuffer]
        rw [hquiet, ite_self] at hnext
        exact hnext
      rw [hnat, hr.stack, hr.sendBuffer] at ha
      have hfree : p.sendBuffer ∉ p.outgoing.toList := by
        rw [← hr.stack, ← hr.sendBuffer]
        exact hown.outgoing
      have hmarked := hr.marked.fill bytes hfree
      obtain ⟨q, xs, heq, -⟩ := Stack.enqueue_eq h p.sendBuffer
        (p.fill p.sendBuffer bytes).toStack
      obtain ⟨ys, hys⟩ := Stack.getXmitBuf_eq
        ((p.fill p.sendBuffer bytes).toStack.enqueue h p.sendBuffer).2
      rw [hcalls]
      refine ⟨?_, ?_, hcalls ▸ hkept, ?_, fun c hc hflag => ?_⟩
      · show a.2.getXmitBuf.2 = _
        rw [ha]
        rfl
      · show a.2.getXmitBuf.1 = _
        rw [ha]
        rfl
      · show ((p.fill p.sendBuffer bytes).toStack.enqueue h
          p.sendBuffer).2.getXmitBuf.2.state.held = true
        rw [hys, heq]
        exact hr.held
      · have hout : c ∈ ((p.fill p.sendBuffer bytes).toStack.enqueue h
            p.sendBuffer).2.getXmitBuf.2.outgoing.toList := hc
        show ((p.fill p.sendBuffer bytes).toStack.enqueue h
          p.sendBuffer).2.getXmitBuf.2.dataLen c = 0
        rw [hys] at hout ⊢
        have hlen := enqueue_ackOnly hmarked hout hflag hfree
        rw [heq]
        exact hlen

/-- Each input is some calls. -/
theorem Refines.input (hr : Refines h n p) (i : Input) :
    ∃ cs, Refines h (n.calls h cs) (p.input h i) := by
  cases i with
  | send bytes => exact hr.send bytes
  | receive => exact hr.receive
  | drivePackets overdue probe => exact hr.drivePackets overdue probe
  | segment seg data => exact hr.segment seg data

end Pdtb.Net
