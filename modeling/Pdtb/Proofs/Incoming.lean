/-
What is received is handed over. What the stack has accepted is what
`recvNewPacket` has returned and, behind it, what waits on `incoming`
(`Handing`). The loop looks at `incoming` first and at the socket last,
and processes a packet in between: if that one brings data and finds or
leaves the socket closed by the server (`Parting`), 0 is returned with the
data still waiting, and nothing else loses any.
-/
import Pdtb.Proofs.Wire

namespace Pdtb.Net

open Lib Asm

variable {h : Host} {img : Image} {t : Turn} {n : Globals} {s : Sys}
  {st st' : Stack} {turns : Nat → Turn}

-- ==================================================== what stays

/-- The side of the socket that receives. -/
structure SameInbound (st st' : Stack) : Prop where
  state : st'.state = st.state
  incoming : st'.incoming = st.incoming
  accepted : st'.accepted = st.accepted

namespace SameInbound

theorem refl (st : Stack) : SameInbound st st := ⟨rfl, rfl, rfl⟩

theorem trans {st'' : Stack} (h₁ : SameInbound st st')
    (h₂ : SameInbound st' st'') : SameInbound st st'' :=
  ⟨h₂.state.trans h₁.state, h₂.incoming.trans h₁.incoming,
    h₂.accepted.trans h₁.accepted⟩

end SameInbound

variable (h) in
theorem returnXmitBuf_inbound (b : Word) (st : Stack) :
    SameInbound st (st.returnXmitBuf h b) := by
  unfold Stack.returnXmitBuf
  split
  · exact ⟨rfl, rfl, rfl⟩
  · exact .refl st

theorem setDataLen_inbound (b : Word) (len : Nat) (st : Stack) :
    SameInbound st (st.setDataLen b len) := ⟨rfl, rfl, rfl⟩

theorem getXmitBuf_inbound (st : Stack) :
    SameInbound st st.getXmitBuf.2 := by
  unfold Stack.getXmitBuf
  split
  · exact .refl st
  · exact ⟨rfl, rfl, rfl⟩

variable (h) in
theorem piggyback_inbound (st : Stack) :
    SameInbound st (st.piggyback h) := by
  unfold Stack.piggyback
  split
  · split
    · exact .refl st
    · next first q _ =>
        split
        · have htaken : SameInbound st { st with outgoing := q } :=
            ⟨rfl, rfl, rfl⟩
          exact htaken.trans (returnXmitBuf_inbound h first _)
        · exact .refl st
  · exact .refl st

variable (h) in
theorem enqueue_inbound (buf : Word) (st : Stack) :
    SameInbound st (st.enqueue h buf).2 := by
  unfold Stack.enqueue
  split
  · exact .refl st
  · split
    · exact .refl st
    · exact (piggyback_inbound h st).trans ⟨rfl, rfl, rfl⟩

variable (h) in
theorem removeSentPackets_inbound (k : Nat) (st : Stack) :
    SameInbound st (st.removeSentPackets h k) := by
  induction k generalizing st with
  | zero => exact .refl st
  | succ k ih =>
      unfold Stack.removeSentPackets
      split
      · exact .refl st
      · next p q _ =>
          split
          · exact .refl st
          · have htaken : SameInbound st { st with sent := q } :=
              ⟨rfl, rfl, rfl⟩
            exact htaken.trans ((returnXmitBuf_inbound h p _).trans (ih _))

variable (h) in
theorem sendPending_inbound (st : Stack) :
    SameInbound st (st.sendPending h) := by
  unfold Stack.sendPending
  split
  · exact .refl st
  · next p q _ =>
      split
      · have htaken : SameInbound st { st with outgoing := q } :=
          ⟨rfl, rfl, rfl⟩
        exact htaken.trans (returnXmitBuf_inbound h p _)
      · exact ⟨rfl, rfl, rfl⟩

variable (h) in
theorem drivePackets2_inbound (k : Nat) (st : Stack) :
    SameInbound st (st.drivePackets2 h k) := by
  induction k generalizing st with
  | zero => exact .refl st
  | succ k ih =>
      unfold Stack.drivePackets2
      split
      · exact (sendPending_inbound h st).trans (ih _)
      · exact .refl st

-- ==================================================== what is received

/-- The state after the switch of `process2`. -/
def TcpState.seeing (fin : Bool) (state : TcpState) : TcpState :=
  if state = .established && fin then .closeWait else state

variable (h) in
theorem processState_inbound (fin generatePkt : Bool) (st : Stack) :
    SameInbound { st with state := st.state.seeing fin }
      (st.processState h fin generatePkt) := by
  unfold Stack.processState TcpState.seeing
  simp only
  cases hcloses : (decide (st.state = .established) && fin)
  · simp only [Bool.false_eq_true, ↓reduceIte, Bool.or_false]
    split
    · exact (setDataLen_inbound _ _ _).trans (enqueue_inbound h _ _)
    · exact .refl st
  · simp only [↓reduceIte, Bool.or_true]
    exact (setDataLen_inbound _ _ _).trans (enqueue_inbound h _ _)

theorem processPacketData_room (hroom : st.incoming.hasRoom = true)
    (p : Packet) : st.processPacketData p = (false, { st with
      incoming := (st.incoming.enqueue p).2
      accepted := st.accepted ++ [p] }) := by
  rw [Stack.processPacketData, if_pos hroom]

theorem processPacketData_full (hroom : st.incoming.hasRoom = false)
    (p : Packet) : st.processPacketData p = (true, st) := by
  rw [Stack.processPacketData, hroom, if_neg Bool.false_ne_true]

/-- A segment without data. -/
theorem process2_empty {seg : Segment} (hempty : seg.packet.bytes = []) :
    SameInbound { st with state := st.state.seeing seg.fin }
      (st.process2 h seg) := by
  have hremove := removeSentPackets_inbound h seg.acked st
  unfold Stack.process2
  simp only
  rw [if_pos hempty]
  generalize st.removeSentPackets h seg.acked = a at hremove ⊢
  refine SameInbound.trans ?_ (processState_inbound h seg.fin false a)
  exact ⟨by rw [hremove.state], hremove.incoming, hremove.accepted⟩

/-- A segment with data, for which there is room. -/
theorem process2_data {seg : Segment} (hdata : seg.packet.bytes ≠ [])
    (hroom : st.incoming.hasRoom = true) :
    SameInbound { st with
        state := st.state.seeing seg.fin
        incoming := (st.incoming.enqueue seg.packet).2
        accepted := st.accepted ++ [seg.packet] }
      (st.process2 h seg) := by
  have hremove := removeSentPackets_inbound h seg.acked st
  unfold Stack.process2
  simp only
  rw [if_neg hdata]
  generalize st.removeSentPackets h seg.acked = a at hremove ⊢
  rw [← hremove.incoming] at hroom
  rw [processPacketData_room hroom]
  simp only [Bool.false_eq_true, ↓reduceIte]
  refine SameInbound.trans ?_ (processState_inbound h seg.fin _ _)
  exact ⟨by rw [hremove.state], by rw [hremove.incoming],
    by rw [hremove.accepted]⟩

/-- A segment with data, for which there is none. -/
theorem process2_full {seg : Segment} (hdata : seg.packet.bytes ≠ [])
    (hroom : st.incoming.hasRoom = false) :
    SameInbound st (st.process2 h seg) := by
  have hremove := removeSentPackets_inbound h seg.acked st
  unfold Stack.process2
  simp only
  rw [if_neg hdata]
  generalize st.removeSentPackets h seg.acked = a at hremove ⊢
  rw [← hremove.incoming] at hroom
  rw [processPacketData_full hroom]
  simp only [↓reduceIte]
  exact hremove

-- ==================================================== a turn

/-- No reset arrives, and no packet is given up. -/
structure Turn.Peaceful (t : Turn) : Prop where
  arrival : t.arrival ≠ .reset
  giveUp : t.giveUp = false

/-- The connection is complete, and what was accepted was handed over or
waits. -/
structure Handing (n : Globals) : Prop where
  complete : n.stack.state.isConnectComplete = true
  order : n.handed ++ n.stack.incoming.toList = n.stack.accepted

theorem isConnectComplete_iff {state : TcpState} :
    state.isConnectComplete = true
      ↔ state = .established ∨ state = .closeWait := by
  rw [TcpState.isConnectComplete, Bool.or_eq_true, decide_eq_true_iff,
    decide_eq_true_iff]

theorem isConnectComplete_seeing (fin : Bool) {state : TcpState}
    (h : state.isConnectComplete = true) :
    (state.seeing fin).isConnectComplete = true := by
  unfold TcpState.seeing
  split
  · rfl
  · exact h

/-- The queues that send are driven, and nothing is received. -/
theorem drivePackets_inbound (ht : t.Peaceful) (st : Stack) :
    SameInbound st (st.drivePackets h t.giveUp t.ready) := by
  unfold Stack.drivePackets
  rw [if_neg (by rw [ht.giveUp]; exact fun hand => by cases hand.2)]
  exact drivePackets2_inbound h t.ready st

theorem packetProcessSingle_open {a : Arrival}
    (hopen : st.state.isConnectComplete = true) :
    st.packetProcessSingle h a = match a with
      | .nothing => st
      | .segment seg => st.process2 h seg
      | .reset => st.destroy h := by
  have hne : ¬ (st.state = .closed ∨ st.state = .timeWait) := by
    rcases isConnectComplete_iff.mp hopen with hst | hst
    · rw [hst]
      decide
    · rw [hst]
      decide
  cases a with
  | nothing => exact if_neg hne
  | segment seg => exact if_neg hne
  | reset => exact if_neg hne

/-- What a turn without a segment leaves. -/
theorem serve_nothing (ht : t.Peaceful)
    (hopen : st.state.isConnectComplete = true)
    (harrival : t.arrival = .nothing) :
    SameInbound st (st.serve h t) := by
  unfold Stack.serve
  rw [packetProcessSingle_open hopen, harrival]
  exact drivePackets_inbound ht st

/-- What a turn with a segment leaves. -/
theorem serve_segment {seg : Segment} (ht : t.Peaceful)
    (hopen : st.state.isConnectComplete = true)
    (harrival : t.arrival = .segment seg)
    (hprocess : SameInbound st' (st.process2 h seg)) :
    SameInbound st' (st.serve h t) := by
  unfold Stack.serve
  rw [packetProcessSingle_open hopen, harrival]
  exact hprocess.trans (drivePackets_inbound ht _)

theorem Handing.congr {n' : Globals} (hn : Handing n)
    (hst : SameInbound n.stack n'.stack) (hhanded : n'.handed = n.handed) :
    Handing n' where
  complete := by
    rw [hst.state]
    exact hn.complete
  order := by
    rw [hst.incoming, hst.accepted, hhanded]
    exact hn.order

/-- A turn keeps the order. -/
theorem Handing.serve (hn : Handing n) (ht : t.Peaceful) :
    Handing { n with stack := n.stack.serve h t } := by
  cases harrival : t.arrival with
  | nothing => exact hn.congr (serve_nothing ht hn.complete harrival) rfl
  | reset => exact absurd harrival ht.arrival
  | segment seg =>
      have hserve : ∀ st', SameInbound st' (n.stack.process2 h seg) →
          SameInbound st' (n.stack.serve h t) :=
        fun st' => serve_segment ht hn.complete harrival
      by_cases hempty : seg.packet.bytes = []
      · refine Handing.congr (n := { n with stack := { n.stack with
            state := n.stack.state.seeing seg.fin } }) ⟨?_, hn.order⟩
          (hserve _ (process2_empty hempty)) rfl
        exact isConnectComplete_seeing seg.fin hn.complete
      · cases hroom : n.stack.incoming.hasRoom
        · exact hn.congr (hserve _ (process2_full hempty hroom)) rfl
        · refine Handing.congr (n := { n with stack := { n.stack with
              state := n.stack.state.seeing seg.fin
              incoming := (n.stack.incoming.enqueue seg.packet).2
              accepted := n.stack.accepted ++ [seg.packet] } }) ⟨?_, ?_⟩
            (hserve _ (process2_data hempty hroom)) rfl
          · exact isConnectComplete_seeing seg.fin hn.complete
          · simp only
            rw [Ring.toList_enqueue hroom, ← List.append_assoc, hn.order]

/-- So does `recvNewPacket`. -/
theorem Handing.recvNewPacket (hn : Handing n) (ht : t.Peaceful) :
    Handing (n.recvNewPacket h t).2 := by
  cases hin : n.stack.incoming.toList with
  | nil =>
      rw [(recvNewPacket_empty hin).1]
      exact hn.serve ht
  | cons p ps =>
      obtain ⟨q, hq, hgot⟩ := recvNewPacket_packet (h := h) (t := t) hin
      have horder := hn.order
      rw [hgot]
      refine ⟨hn.complete, ?_⟩
      simp only
      rw [hq, ← horder, hin, List.append_assoc, List.singleton_append]

/-- And `sendNewBuffer`. -/
theorem Handing.sendNewBuffer (hn : Handing n) (ht : t.Peaceful)
    (buffer len : Word) :
    Handing (n.sendNewBuffer h t buffer len).2 := by
  unfold Globals.sendNewBuffer
  split
  · exact hn
  · simp only
    obtain ⟨a, ha⟩ : ∃ a, a = ((n.stack.setDataLen
      (buffer - sizeofTcpBuffer) len.toNat).enqueue h
        (buffer - sizeofTcpBuffer)) := ⟨_, rfl⟩
    have hsame : SameInbound n.stack a.2 := by
      rw [ha]
      exact (setDataLen_inbound _ _ _).trans (enqueue_inbound h _ _)
    rw [← ha]
    have hnext : Handing { n with
        stack := a.2.getXmitBuf.2, sendBuffer := a.2.getXmitBuf.1 } :=
      hn.congr (hsame.trans (getXmitBuf_inbound a.2)) rfl
    split
    · exact hnext.serve ht
    · split
      · exact hnext
      · split
        · exact hnext
        · exact hnext

theorem Handing.sendPacket (hn : Handing n) (ht : t.Peaceful)
    (len : Word) : Handing (n.sendPacket h t len).2 := by
  unfold Globals.sendPacket
  simp only
  split
  · exact hn
  · exact hn.sendNewBuffer ht _ _

theorem Handing.step (hs : Handing s.net) (ht : t.Peaceful) :
    Handing (s.step h img t).net := by
  unfold Sys.step
  split
  · exact hs.recvNewPacket ht
  · split
    · exact hs
    · exact hs.sendPacket ht _

-- ==================================================== the runs

theorem Handing.main (hst : Connected h st) (s₀ : Bot) :
    Handing (Sys.main st s₀).net := by
  refine Handing.congr (n := ⟨st, 0, []⟩) ⟨hst.complete, ?_⟩
    (getXmitBuf_inbound st) rfl
  exact hst.accepted.symm

variable (img) in
/-- In a run without resets and time-outs what was accepted was handed
over or waits. -/
theorem handing_steps (hst : Connected h st) (s₀ : Bot)
    (hpeace : ∀ k, (turns k).Peaceful) (k : Nat) :
    Handing (Sys.steps h img turns k (Sys.main st s₀)).net := by
  induction k with
  | zero => exact .main hst s₀
  | succ k ih => exact ih.step (hpeace k)

/-- `asmRun` waits in `recvNewPacket`, with nothing there for it. -/
def Sys.Waits (s : Sys) : Prop :=
  s.run.label = .stateGetPacket ∧ s.net.stack.incoming.toList = []

variable (h) in
/-- `recvNewPacket` returns 0. -/
def Sys.Closes (t : Turn) (s : Sys) : Prop :=
  s.run.label = .stateGetPacket ∧ (s.net.recvNewPacket h t).1 = .closed

/-- A segment with data that closes the socket or finds it closed. -/
def Parting (a : Arrival) (state : TcpState) : Prop :=
  ∃ seg, a = .segment seg ∧ seg.packet.bytes ≠ []
    ∧ (seg.fin = true ∨ state.isRemoteClosed = true)

theorem isRemoteClosed_seeing (fin : Bool) {state : TcpState}
    (h : state.isConnectComplete = true) :
    (state.seeing fin).isRemoteClosed = true
      ↔ fin = true ∨ state.isRemoteClosed = true := by
  rcases isConnectComplete_iff.mp h with hst | hst
  · rw [hst]
    cases fin
    · decide
    · decide
  · rw [hst]
    cases fin
    · decide
    · decide

/-- 0 is returned over a packet when it has just come in with the end of
the connection, or behind it. -/
theorem closed_over_packet_iff (hn : Handing n) (ht : t.Peaceful) :
    (n.recvNewPacket h t).1 = .closed
        ∧ (n.recvNewPacket h t).2.stack.incoming.toList ≠ []
      ↔ n.stack.incoming.toList = []
        ∧ Parting t.arrival n.stack.state := by
  cases hin : n.stack.incoming.toList with
  | cons p ps =>
      obtain ⟨q, -, hgot⟩ := recvNewPacket_packet (h := h) (t := t) hin
      rw [hgot]
      simp
  | nil =>
      obtain ⟨hnext, hclosed, -⟩ :=
        recvNewPacket_empty (h := h) (t := t) hin
      rw [hnext, hclosed]
      simp only [true_and]
      cases harrival : t.arrival with
      | nothing =>
          have hserve := serve_nothing (h := h) ht hn.complete harrival
          rw [hserve.incoming, hin]
          refine iff_of_false (fun hand => hand.2 rfl) ?_
          intro hgiven
          obtain ⟨seg, hseg, -⟩ := hgiven
          cases hseg
      | reset => exact absurd harrival ht.arrival
      | segment seg =>
          by_cases hempty : seg.packet.bytes = []
          · have hserve := serve_segment ht hn.complete harrival
              (process2_empty (h := h) hempty)
            rw [hserve.incoming, hin]
            refine iff_of_false (fun hand => hand.2 rfl) ?_
            intro hgiven
            obtain ⟨seg', hseg, hdata, -⟩ := hgiven
            cases hseg
            exact hdata hempty
          · have hroom : n.stack.incoming.hasRoom = true := by
              rw [Ring.hasRoom_iff, hin]
              decide
            have hserve := serve_segment ht hn.complete harrival
              (process2_data (h := h) hempty hroom)
            have hone : (n.stack.serve h t).incoming.toList
                = [seg.packet] := by
              rw [hserve.incoming, Ring.toList_enqueue hroom, hin,
                List.nil_append]
            rw [hone, hserve.state, isRemoteClosed_seeing _ hn.complete]
            refine ⟨fun hand => ⟨seg, rfl, hempty, hand.1⟩, ?_⟩
            intro hgiven
            obtain ⟨seg', hseg, -, hend⟩ := hgiven
            cases hseg
            exact ⟨hend, List.cons_ne_nil _ _⟩

/-- In a run without resets and time-outs, 0 is returned only when all
that was accepted was handed over, in order, if and only if no segment
with data that comes while `asmRun` waits in `recvNewPacket` closes the
connection or finds it closed. -/
theorem recvNewPacket_drained_iff (hst : Connected h st) (s₀ : Bot)
    (hpeace : ∀ k, (turns k).Peaceful) :
    (∀ k, (Sys.steps h img turns k (Sys.main st s₀)).Closes h (turns k) →
        (Sys.steps h img turns (k + 1)
          (Sys.main st s₀)).net.stack.incoming.toList = []
        ∧ (Sys.steps h img turns (k + 1) (Sys.main st s₀)).net.handed
          = (Sys.steps h img turns (k + 1)
            (Sys.main st s₀)).net.stack.accepted)
      ↔ ∀ k, (Sys.steps h img turns k (Sys.main st s₀)).Waits →
        ¬ Parting (turns k).arrival
          (Sys.steps h img turns k (Sys.main st s₀)).net.stack.state := by
  have hhanding := handing_steps img hst s₀ hpeace
  constructor
  · intro hdrained k hand hparting
    obtain ⟨hlabel, hin⟩ := hand
    obtain ⟨hclosed, hleft⟩ := (closed_over_packet_iff (h := h) (hhanding k)
      (hpeace k)).mpr ⟨hin, hparting⟩
    have hempty := (hdrained k ⟨hlabel, hclosed⟩).1
    rw [Sys.steps, step_received h img _ hlabel] at hempty
    exact hleft hempty
  · intro hcond k hand
    obtain ⟨hlabel, hclosed⟩ := hand
    have hempty : (Sys.steps h img turns (k + 1)
        (Sys.main st s₀)).net.stack.incoming.toList = [] := by
      rw [Sys.steps, step_received h img _ hlabel]
      by_contra hleft
      obtain ⟨hin, hparting⟩ := (closed_over_packet_iff (hhanding k)
        (hpeace k)).mp ⟨hclosed, hleft⟩
      exact hcond k ⟨hlabel, hin⟩ hparting
    have horder := (hhanding (k + 1)).order
    rw [hempty, List.append_nil] at horder
    exact ⟨hempty, horder⟩

end Pdtb.Net
