/-
Who has a transmit buffer. Each buffer of the pool is in at most one
place: free, in one of the queues of the socket, or in `sendBuffer`
(`Kept`); whatever the network does, the stack only moves them
(`Keeps`).

`sendNewBuffer` takes the next buffer as soon as it has given one away,
and there may be none. `currentSendBuffer` does not look: what it returns
for a null `sendBuffer` is not null. So a reply is copied to a buffer of
the bot's own if and only if each send but the last has found another one
free.
-/
import Pdtb.Proofs.Wire

namespace Pdtb.Net

open Lib Asm

variable {h : Host} {img : Image} {t : Turn} {n : Globals} {s : Sys}
  {st st' : Stack} {turns : Nat → Turn} {b : Word}

-- ==================================================== the places

/-- In how many places of the stack a buffer is. -/
def Stack.places (st : Stack) (b : Word) : Nat :=
  st.xmitBuffers.count b + st.outgoing.toList.count b
    + st.sent.toList.count b

/-- And in how many of the program. -/
def Globals.places (n : Globals) (b : Word) : Nat :=
  n.stack.places b + if n.sendBuffer = b then 1 else 0

variable (h) in
/-- The free buffers are of the pool, and what is queued is of the pool or
the packet the socket has for acknowledgements. -/
structure Clean (st : Stack) : Prop where
  free : ∀ b ∈ st.xmitBuffers, b ∈ h.pool
  outgoing : ∀ b ∈ st.outgoing.toList, b ∈ h.pool ∨ b = h.connectPacket
  sent : ∀ b ∈ st.sent.toList, b ∈ h.pool ∨ b = h.connectPacket

variable (h) in
/-- The stack moves buffers, and loses none and makes none. -/
structure Keeps (st st' : Stack) : Prop where
  clean : Clean h st → Clean h st'
  places : ∀ b ∈ h.pool, st'.places b = st.places b

namespace Keeps

theorem refl (st : Stack) : Keeps h st st := ⟨id, fun _ _ => rfl⟩

theorem trans {st'' : Stack} (h₁ : Keeps h st st') (h₂ : Keeps h st' st'') :
    Keeps h st st'' :=
  ⟨fun hc => h₂.clean (h₁.clean hc),
    fun b hb => (h₂.places b hb).trans (h₁.places b hb)⟩

end Keeps

/-- A buffer of the pool goes back where it came from, and no other
does. -/
theorem returnXmitBuf_places {tmp : Word} (hb : b ∈ h.pool) :
    (st.returnXmitBuf h tmp).places b
      = st.places b + if tmp = b then 1 else 0 := by
  unfold Stack.returnXmitBuf
  split
  · simp only [Stack.places, List.count_cons, beq_iff_eq]
    omega
  · next hpool =>
      have hne : tmp ≠ b := by
        intro heq
        subst heq
        exact hpool (h.pooled _ hb)
      rw [if_neg hne, Nat.add_zero]

theorem returnXmitBuf_clean {tmp : Word}
    (htmp : tmp ∈ h.pool ∨ tmp = h.connectPacket) (hc : Clean h st) :
    Clean h (st.returnXmitBuf h tmp) := by
  unfold Stack.returnXmitBuf
  split
  · next hpool =>
      have hmem : tmp ∈ h.pool := by
        rcases htmp with hmem | rfl
        · exact hmem
        · rw [h.unpooled] at hpool
          cases hpool
      refine ⟨?_, hc.outgoing, hc.sent⟩
      intro b hb
      rcases List.mem_cons.mp hb with rfl | hb
      · exact hmem
      · exact hc.free b hb
  · exact hc

/-- What is taken from `sent` is given back. -/
theorem keeps_fromSent {p : Word} {ps : List Word}
    {q : RingBuffer Word} (hsent : st.sent.toList = p :: ps)
    (hq : q.toList = ps) :
    Keeps h st ({ st with sent := q }.returnXmitBuf h p) where
  clean hc := by
    refine returnXmitBuf_clean (hc.sent p ?_) ⟨hc.free, hc.outgoing, ?_⟩
    · rw [hsent]
      exact List.mem_cons_self
    · intro b hb
      refine hc.sent b ?_
      rw [hsent, ← hq]
      exact List.mem_cons_of_mem _ hb
  places b hb := by
    rw [returnXmitBuf_places hb]
    simp only [Stack.places, hsent, hq, List.count_cons, beq_iff_eq]
    omega

/-- And what is taken from `outgoing`. -/
theorem keeps_fromOutgoing {p : Word} {ps : List Word}
    {q : RingBuffer Word} (hout : st.outgoing.toList = p :: ps)
    (hq : q.toList = ps) :
    Keeps h st ({ st with outgoing := q }.returnXmitBuf h p) where
  clean hc := by
    refine returnXmitBuf_clean (hc.outgoing p ?_) ⟨hc.free, ?_, hc.sent⟩
    · rw [hout]
      exact List.mem_cons_self
    · intro b hb
      refine hc.outgoing b ?_
      rw [hout, ← hq]
      exact List.mem_cons_of_mem _ hb
  places b hb := by
    rw [returnXmitBuf_places hb]
    simp only [Stack.places, hout, hq, List.count_cons, beq_iff_eq]
    omega

-- ==================================================== the stack

variable (h) in
theorem keeps_piggyback (st : Stack) : Keeps h st (st.piggyback h) := by
  unfold Stack.piggyback
  split
  · split
    · exact .refl st
    · next first q hd =>
        split
        · exact keeps_fromOutgoing (Ring.toList_of_dequeue hd) rfl
        · exact .refl st
  · exact .refl st

variable (h) in
theorem keeps_setDataLen (buf : Word) (len : Nat) (st : Stack) :
    Keeps h st (st.setDataLen buf len) :=
  ⟨fun hc => ⟨hc.free, hc.outgoing, hc.sent⟩, fun _ _ => rfl⟩

variable (h) in
theorem keeps_removeSentPackets (k : Nat) (st : Stack) :
    Keeps h st (st.removeSentPackets h k) := by
  induction k generalizing st with
  | zero => exact .refl st
  | succ k ih =>
      unfold Stack.removeSentPackets
      split
      · exact .refl st
      · next p q hd =>
          split
          · exact .refl st
          · exact (keeps_fromSent (Ring.toList_of_dequeue hd) rfl).trans (ih _)

variable (h) in
theorem keeps_clearSent (k : Nat) (st : Stack) :
    Keeps h st (st.clearSent h k) := by
  induction k generalizing st with
  | zero => exact .refl st
  | succ k ih =>
      unfold Stack.clearSent
      split
      · exact .refl st
      · next p q hd =>
          exact (keeps_fromSent (Ring.toList_of_dequeue hd) rfl).trans (ih _)

variable (h) in
theorem keeps_clearOutgoing (k : Nat) (st : Stack) :
    Keeps h st (st.clearOutgoing h k) := by
  induction k generalizing st with
  | zero => exact .refl st
  | succ k ih =>
      unfold Stack.clearOutgoing
      split
      · exact .refl st
      · next p q hd =>
          exact (keeps_fromOutgoing (Ring.toList_of_dequeue hd) rfl).trans (ih _)

variable (h) in
theorem keeps_destroy (st : Stack) : Keeps h st (st.destroy h) := by
  unfold Stack.destroy Stack.clearQueues
  simp only
  have hout := keeps_clearOutgoing h st.outgoing.entries st
  generalize st.clearOutgoing h st.outgoing.entries = a at hout ⊢
  have hsent := keeps_clearSent h a.sent.entries a
  generalize a.clearSent h a.sent.entries = c at hsent ⊢
  exact (hout.trans hsent).trans
    ⟨fun hc => ⟨hc.free, hc.outgoing, hc.sent⟩, fun _ _ => rfl⟩

variable (h) in
/-- `enqueue` refuses a buffer or puts it last. -/
theorem enqueue_cases (buf : Word) (st : Stack) :
    ((st.enqueue h buf).1 ≠ 0
        ∧ ((st.enqueue h buf).2 = st
          ∨ (st.enqueue h buf).2 = st.piggyback h))
      ∨ ((st.enqueue h buf).1 = 0
        ∧ ∃ q : RingBuffer Word,
          q.toList = (st.piggyback h).outgoing.toList ++ [buf]
          ∧ (st.enqueue h buf).2 = { st.piggyback h with outgoing := q }) := by
  have hbad : tcpRcBad ≠ 0 := by decide
  have hmuch : tcpRcTooMuchData ≠ 0 := by decide
  unfold Stack.enqueue
  split
  · exact Or.inl ⟨hbad, Or.inl rfl⟩
  · split
    · exact Or.inl ⟨hmuch, Or.inl rfl⟩
    · simp only
      generalize st.piggyback h = a
      cases hroom : a.outgoing.hasRoom
      · rw [Ring.enqueue_full hroom]
        exact Or.inl ⟨hbad, Or.inr rfl⟩
      · exact Or.inr ⟨Ring.enqueue_room hroom buf, _,
          Ring.toList_enqueue hroom buf, rfl⟩

/-- A refused buffer is in no place of the stack. -/
theorem keeps_refused {buf : Word} (hrc : (st.enqueue h buf).1 ≠ 0) :
    Keeps h st (st.enqueue h buf).2 := by
  rcases enqueue_cases h buf st with ⟨-, heq | heq⟩ | ⟨hzero, -⟩
  · rw [heq]
    exact .refl st
  · rw [heq]
    exact keeps_piggyback h st
  · exact absurd hzero hrc

/-- Another one is in one place more. -/
theorem enqueue_places {buf : Word} (hrc : (st.enqueue h buf).1 = 0)
    (hb : b ∈ h.pool) :
    (st.enqueue h buf).2.places b
      = st.places b + if buf = b then 1 else 0 := by
  rcases enqueue_cases h buf st with ⟨hne, -⟩ | ⟨-, q, hq, heq⟩
  · exact absurd hrc hne
  · have hkeep := (keeps_piggyback h st).places b hb
    rw [heq]
    simp only [Stack.places, hq, List.count_append, List.count_singleton,
      beq_iff_eq] at hkeep ⊢
    omega

theorem enqueue_clean {buf : Word}
    (hbuf : buf ∈ h.pool ∨ buf = h.connectPacket) (hc : Clean h st) :
    Clean h (st.enqueue h buf).2 := by
  have hpig := (keeps_piggyback h st).clean hc
  rcases enqueue_cases h buf st with ⟨hne, -⟩ | ⟨-, q, hq, heq⟩
  · exact (keeps_refused hne).clean hc
  · rw [heq]
    refine ⟨hpig.free, ?_, hpig.sent⟩
    intro b hb
    rw [hq] at hb
    rcases List.mem_append.mp hb with hb | hb
    · exact hpig.outgoing b hb
    · cases List.mem_singleton.mp hb
      exact hbuf

variable (h) in
/-- The socket's own packet is none of the pool. -/
theorem keeps_enqueue_connectPacket (st : Stack) :
    Keeps h st (st.enqueue h h.connectPacket).2 where
  clean hc := enqueue_clean (Or.inr rfl) hc
  places b hb := by
    have hne : h.connectPacket ≠ b := by
      intro heq
      subst heq
      exact h.apart hb
    by_cases hrc : (st.enqueue h h.connectPacket).1 = 0
    · rw [enqueue_places hrc hb, if_neg hne, Nat.add_zero]
    · exact (keeps_refused hrc).places b hb

variable (h) in
theorem keeps_processState (fin generatePkt : Bool) (st : Stack) :
    Keeps h st (st.processState h fin generatePkt) := by
  unfold Stack.processState
  simp only
  obtain ⟨a, ha⟩ : ∃ a : Stack,
      a = if (decide (st.state = .established) && fin) = true
        then { st with state := .closeWait } else st := ⟨_, rfl⟩
  have hkeep : Keeps h st a := by
    rw [ha]
    split
    · exact ⟨fun hc => ⟨hc.free, hc.outgoing, hc.sent⟩, fun _ _ => rfl⟩
    · exact .refl st
  rw [← ha]
  split
  · exact (hkeep.trans (keeps_setDataLen h _ _ a)).trans
      (keeps_enqueue_connectPacket h _)
  · exact hkeep

variable (h) in
theorem keeps_process2 (seg : Segment) (st : Stack) :
    Keeps h st (st.process2 h seg) := by
  have hremove := keeps_removeSentPackets h seg.acked st
  unfold Stack.process2
  simp only
  generalize st.removeSentPackets h seg.acked = a at hremove ⊢
  split
  · exact hremove.trans (keeps_processState h _ _ a)
  · have hdata : Keeps h a (a.processPacketData seg.packet).2 := by
      unfold Stack.processPacketData
      split
      · exact ⟨fun hc => ⟨hc.free, hc.outgoing, hc.sent⟩, fun _ _ => rfl⟩
      · exact .refl a
    generalize a.processPacketData seg.packet = d at hdata ⊢
    split
    · exact hremove.trans hdata
    · exact (hremove.trans hdata).trans (keeps_processState h _ _ d.2)

variable (h) in
theorem keeps_packetProcessSingle (a : Arrival) (st : Stack) :
    Keeps h st (st.packetProcessSingle h a) := by
  unfold Stack.packetProcessSingle
  split
  · exact .refl st
  · cases a with
    | nothing => exact .refl st
    | segment seg => exact keeps_process2 h seg st
    | reset => exact keeps_destroy h st

variable (h) in
theorem keeps_sendPending (hroom : st.sent.hasRoom = true) :
    Keeps h st (st.sendPending h) := by
  unfold Stack.sendPending
  split
  · exact .refl st
  · next p q hd =>
      have hout := Ring.toList_of_dequeue hd
      split
      · exact keeps_fromOutgoing hout rfl
      · have hsent := Ring.toList_enqueue hroom p
        refine ⟨fun hc => ⟨hc.free, ?_, ?_⟩, ?_⟩
        · intro b hb
          refine hc.outgoing b ?_
          rw [hout]
          exact List.mem_cons_of_mem _ hb
        · intro b hb
          simp only [hsent] at hb
          rcases List.mem_append.mp hb with hb | hb
          · exact hc.sent b hb
          · cases List.mem_singleton.mp hb
            refine hc.outgoing p ?_
            rw [hout]
            exact List.mem_cons_self
        · intro b _
          simp only [Stack.places, hout, hsent, List.count_append,
            List.count_cons, List.count_nil, beq_iff_eq]
          omega

variable (h) in
theorem keeps_drivePackets2 (k : Nat) (st : Stack) :
    Keeps h st (st.drivePackets2 h k) := by
  induction k generalizing st with
  | zero => exact .refl st
  | succ k ih =>
      unfold Stack.drivePackets2
      split
      · next hgo => exact (keeps_sendPending h hgo.2).trans (ih _)
      · exact .refl st

variable (h) in
/-- Whatever the network does, the stack keeps its buffers. -/
theorem keeps_serve (t : Turn) (st : Stack) : Keeps h st (st.serve h t) := by
  unfold Stack.serve Stack.drivePackets
  have hprocess := keeps_packetProcessSingle h t.arrival st
  generalize st.packetProcessSingle h t.arrival = a at hprocess ⊢
  split
  · exact hprocess.trans (keeps_destroy h a)
  · exact hprocess.trans (keeps_drivePackets2 h t.ready a)

-- ==================================================== the next buffer

variable (st) in
/-- What is handed out was free, unless nothing was. -/
theorem getXmitBuf_places (hb : b ∈ h.pool) :
    st.getXmitBuf.2.places b + (if st.getXmitBuf.1 = b then 1 else 0)
      = st.places b := by
  unfold Stack.getXmitBuf
  split
  · have hne : (0 : Word) ≠ b := by
      intro heq
      subst heq
      exact h.nonnull hb
    rw [if_neg hne, Nat.add_zero]
  · next c cs hfree =>
      simp only [Stack.places, hfree, List.count_cons, beq_iff_eq]
      omega

theorem getXmitBuf_clean (hc : Clean h st) : Clean h st.getXmitBuf.2 := by
  unfold Stack.getXmitBuf
  split
  · exact hc
  · next c cs hfree =>
      refine ⟨fun b hb => hc.free b ?_, hc.outgoing, hc.sent⟩
      rw [hfree]
      exact List.mem_cons_of_mem _ hb

theorem getXmitBuf_mem (hc : Clean h st) (hne : st.xmitBuffers ≠ []) :
    st.getXmitBuf.1 ∈ h.pool := by
  unfold Stack.getXmitBuf
  split
  · next hfree => exact absurd hfree hne
  · next c cs hfree =>
      refine hc.free c ?_
      rw [hfree]
      exact List.mem_cons_self

theorem getXmitBuf_nil (hnil : st.xmitBuffers = []) :
    st.getXmitBuf.1 = 0 := by
  rw [Stack.getXmitBuf, hnil]

-- ==================================================== sendBuffer

variable (h) in
/-- `sendBuffer` was handed out and is in no queue of the socket. -/
structure Owned (n : Globals) : Prop where
  nonnull : n.sendBuffer ≠ 0
  pool : n.sendBuffer ∈ h.pool
  free : n.sendBuffer ∉ n.stack.xmitBuffers
  outgoing : n.sendBuffer ∉ n.stack.outgoing.toList
  sent : n.sendBuffer ∉ n.stack.sent.toList

variable (h) in
/-- Each buffer is in at most one place, and `sendBuffer` is one or
null. -/
structure Kept (n : Globals) : Prop where
  clean : Clean h n.stack
  once : ∀ b ∈ h.pool, n.places b ≤ 1
  held : n.sendBuffer ∈ h.pool ∨ n.sendBuffer = 0

theorem Kept.owned (hk : Kept h n) (hne : n.sendBuffer ≠ 0) :
    Owned h n := by
  have hpool : n.sendBuffer ∈ h.pool := hk.held.resolve_right hne
  have hone := hk.once _ hpool
  rw [Globals.places, if_pos rfl, Stack.places] at hone
  refine ⟨hne, hpool, ?_, ?_, ?_⟩
  · intro hmem
    have := List.count_pos_iff.mpr hmem
    omega
  · intro hmem
    have := List.count_pos_iff.mpr hmem
    omega
  · intro hmem
    have := List.count_pos_iff.mpr hmem
    omega

/-- The stack may do what it does. -/
theorem Kept.keeps {n' : Globals} (hk : Kept h n)
    (hst : Keeps h n.stack n'.stack)
    (hbuf : n'.sendBuffer = n.sendBuffer) : Kept h n' where
  clean := hst.clean hk.clean
  once b hb := by
    rw [Globals.places, hst.places b hb, hbuf]
    exact hk.once b hb
  held := by
    rw [hbuf]
    exact hk.held

theorem Kept.recvNewPacket (hk : Kept h n) :
    Kept h (n.recvNewPacket h t).2 := by
  cases hin : n.stack.incoming.toList with
  | nil =>
      rw [(recvNewPacket_empty hin).1]
      exact hk.keeps (keeps_serve h t n.stack) rfl
  | cons p ps =>
      obtain ⟨q, -, hgot⟩ := recvNewPacket_packet (h := h) (t := t) hin
      rw [hgot]
      exact hk.keeps ⟨fun hc => ⟨hc.free, hc.outgoing, hc.sent⟩,
        fun _ _ => rfl⟩ rfl

theorem currentSendBuffer_eq {len : Word} (hlen : len.toInt ≤ h.mss) :
    n.currentSendBuffer h len = n.sendBuffer + sizeofTcpBuffer := by
  rw [Globals.currentSendBuffer, if_neg (not_lt.mpr hlen)]

/-- What `currentSendBuffer` returns is null for what is too long, and
never because of `sendBuffer`. -/
theorem currentSendBuffer_ne_zero_iff (hk : Kept h n) (len : Word) :
    n.currentSendBuffer h len ≠ 0 ↔ len.toInt ≤ h.mss := by
  unfold Globals.currentSendBuffer
  split
  · next hlong => exact iff_of_false (fun hne => hne rfl) (by omega)
  · next hlong =>
      refine iff_of_true ?_ (by omega)
      rcases hk.held with hpool | hnull
      · have hfits := h.fits _ hpool
        unfold sizeofTcpBuffer at hfits ⊢
        bv_omega
      · rw [hnull]
        decide

variable (t n) in
/-- The buffer that `sendNewBuffer` enqueues is `sendBuffer`. -/
theorem sendNewBuffer_spec {len : Word} (hlen : len.toInt ≤ h.mss) :
    ∃ a, a = (n.stack.setDataLen n.sendBuffer len.toNat).enqueue h
        n.sendBuffer
      ∧ (n.sendNewBuffer h t (n.sendBuffer + sizeofTcpBuffer) len).2
        = { n with
          stack := if a.1 = 0 then a.2.getXmitBuf.2.serve h t
            else a.2.getXmitBuf.2
          sendBuffer := a.2.getXmitBuf.1 }
      ∧ ((n.sendNewBuffer h t (n.sendBuffer + sizeofTcpBuffer) len).1 = 0
        ↔ a.1 = 0) := by
  have hback : n.sendBuffer + sizeofTcpBuffer - sizeofTcpBuffer
      = n.sendBuffer := BitVec.add_sub_cancel _ _
  unfold Globals.sendNewBuffer
  rw [if_neg (not_lt.mpr hlen)]
  simp only
  rw [hback]
  refine ⟨_, rfl, ?_⟩
  generalize (n.stack.setDataLen n.sendBuffer len.toNat).enqueue h
    n.sendBuffer = a
  by_cases hrc : a.1 = 0
  · have hgood : a.1 = tcpRcGood := hrc
    rw [if_pos hgood, if_pos hrc]
    exact ⟨rfl, iff_of_true rfl hrc⟩
  · have hgood : ¬ a.1 = tcpRcGood := hrc
    rw [if_neg hgood, if_neg hrc]
    split
    · exact ⟨rfl, iff_of_false (by simp) hrc⟩
    · split
      · exact ⟨rfl, iff_of_false (by simp) hrc⟩
      · exact ⟨rfl, iff_of_false (by simp) hrc⟩

variable (h) in
/-- The free buffers when `sendNewBuffer` takes the next one. -/
def spare (n : Globals) : List Word := (n.stack.piggyback h).xmitBuffers

theorem piggyback_setDataLen {buf : Word} (len : Nat)
    (hbuf : buf ∉ st.outgoing.toList) :
    ((st.setDataLen buf len).piggyback h).xmitBuffers
      = (st.piggyback h).xmitBuffers := by
  unfold Stack.piggyback Stack.setDataLen
  simp only
  split
  · split
    · rfl
    · next first q hd =>
        have hne : first ≠ buf := by
          intro heq
          subst heq
          rw [Ring.toList_of_dequeue hd] at hbuf
          exact hbuf List.mem_cons_self
        rw [Function.update_of_ne hne]
        split
        · unfold Stack.returnXmitBuf
          split
          · rfl
          · rfl
        · rfl
  · rfl

/-- What is not too long is sent from the buffer the program has. -/
theorem sendPacket_short {len : Word} (hlen : len.toInt ≤ h.mss)
    (hbuffer : n.sendBuffer + sizeofTcpBuffer ≠ 0) :
    n.sendPacket h t len
      = (⟨n.sendBuffer + sizeofTcpBuffer,
          (n.sendNewBuffer h t (n.sendBuffer + sizeofTcpBuffer) len).1, t.dx⟩,
        (n.sendNewBuffer h t (n.sendBuffer + sizeofTcpBuffer) len).2) := by
  rw [Globals.sendPacket, currentSendBuffer_eq hlen, if_neg hbuffer]

/-- What a send does with the buffers: `sendBuffer` is enqueued and the
next one is taken, or the send fails. -/
theorem sendPacket_next (hk : Kept h n) (hown : Owned h n) {len : Word}
    (hlen : len.toInt ≤ h.mss) :
    Kept h (n.sendPacket h t len).2
      ∧ (result (n.sendPacket h t len).1 = 0 →
        (spare h n = [] → (n.sendPacket h t len).2.sendBuffer = 0)
        ∧ (spare h n ≠ [] →
          (n.sendPacket h t len).2.sendBuffer ≠ 0)) := by
  have hbuffer := (currentSendBuffer_ne_zero_iff hk len).mpr hlen
  rw [currentSendBuffer_eq hlen] at hbuffer
  obtain ⟨a, ha, hnext, hrc⟩ := sendNewBuffer_spec t n hlen
  rw [sendPacket_short hlen hbuffer]
  unfold result
  simp only
  rw [if_neg hbuffer, hnext, hrc]
  have hset := keeps_setDataLen h n.sendBuffer len.toNat n.stack
  have hclean : Clean h a.2 := by
    rw [ha]
    exact enqueue_clean (Or.inl hown.pool) (hset.clean hk.clean)
  have hplaces : ∀ b ∈ h.pool, a.2.places b
      ≤ n.stack.places b + if n.sendBuffer = b then 1 else 0 := by
    intro b hb
    rw [ha, ← hset.places b hb]
    by_cases hzero : ((n.stack.setDataLen n.sendBuffer
        len.toNat).enqueue h n.sendBuffer).1 = 0
    · exact Nat.le_of_eq (enqueue_places hzero hb)
    · rw [(keeps_refused hzero).places b hb]
      exact Nat.le_add_right _ _
  have hstack : Keeps h a.2.getXmitBuf.2
      (if a.1 = 0 then a.2.getXmitBuf.2.serve h t
        else a.2.getXmitBuf.2) := by
    split
    · exact keeps_serve h t _
    · exact .refl _
  refine ⟨⟨?_, ?_, ?_⟩, ?_⟩
  · exact hstack.clean (getXmitBuf_clean hclean)
  · intro b hb
    have hone := hk.once b hb
    have htake := getXmitBuf_places a.2 hb
    have hle := hplaces b hb
    rw [Globals.places] at hone ⊢
    simp only
    rw [hstack.places b hb]
    omega
  · by_cases hfree : a.2.xmitBuffers = []
    · exact Or.inr (getXmitBuf_nil hfree)
    · exact Or.inl (getXmitBuf_mem hclean hfree)
  · intro hzero
    have hspare : a.2.xmitBuffers = spare h n := by
      rw [ha] at hzero ⊢
      rcases enqueue_cases h n.sendBuffer
        (n.stack.setDataLen n.sendBuffer len.toNat)
        with ⟨hne, -⟩ | ⟨-, q, -, heq⟩
      · exact absurd hzero hne
      · rw [heq]
        exact piggyback_setDataLen len.toNat hown.outgoing
    rw [← hspare]
    simp only
    refine ⟨getXmitBuf_nil, fun hfree hnull => ?_⟩
    have hmem := getXmitBuf_mem hclean hfree
    rw [hnull] at hmem
    exact h.nonnull hmem

-- ==================================================== the runs

variable (h img) in
/-- The program is about to send what is not too long. -/
def Sys.Sends (s : Sys) : Prop :=
  ∃ len, sending img s.run = some len ∧ len.toInt ≤ h.mss

variable (h img) in
/-- `currentSendBuffer` is about to return a buffer to copy to. -/
def Sys.Lends (s : Sys) : Prop :=
  ∃ len, sending img s.run = some len
    ∧ s.net.currentSendBuffer h len ≠ 0

theorem Kept.lends_iff (hk : Kept h s.net) :
    s.Lends h img ↔ s.Sends h img := by
  refine exists_congr fun len => and_congr_right fun _ => ?_
  exact currentSendBuffer_ne_zero_iff hk len

/-- What is too long is not sent. -/
theorem sendPacket_long {len : Word} (hlen : ¬ len.toInt ≤ h.mss) :
    n.sendPacket h t len = (⟨0, 0, t.dx⟩, n) := by
  have hzero : n.currentSendBuffer h len = 0 := by
    rw [Globals.currentSendBuffer, if_pos (not_le.mp hlen)]
  rw [Globals.sendPacket, hzero, if_pos rfl]

/-- Without a send `sendBuffer` stays. -/
theorem Kept.step_silent (hk : Kept h s.net) (hs : ¬ s.Sends h img) :
    Kept h (s.step h img t).net
      ∧ (s.step h img t).net.sendBuffer = s.net.sendBuffer := by
  by_cases hlabel : s.run.label = .stateGetPacket
  · rw [step_received h img _ hlabel]
    refine ⟨hk.recvNewPacket, ?_⟩
    cases hin : s.net.stack.incoming.toList with
    | nil => rw [(recvNewPacket_empty hin).1]
    | cons p ps =>
        obtain ⟨q, -, hgot⟩ := recvNewPacket_packet (h := h) (t := t) hin
        rw [hgot]
  · cases hsend : sending img s.run with
    | none =>
        rw [step_unasked (asked false) hlabel hsend]
        exact ⟨hk, rfl⟩
    | some len =>
        have hlen : ¬ len.toInt ≤ h.mss := fun hlen => hs ⟨len, hsend, hlen⟩
        rw [step_sent hsend, sendPacket_long hlen]
        exact ⟨hk, rfl⟩

/-- With one it changes, and if it is the last there is no other. -/
theorem Kept.step_sends (hk : Kept h s.net) (hs : s.Sends h img)
    (hne : s.net.sendBuffer ≠ 0) :
    Kept h (s.step h img t).net
      ∧ (¬ Ended (s.step h img t).run.label →
        (spare h s.net = [] → (s.step h img t).net.sendBuffer = 0)
        ∧ (spare h s.net ≠ [] →
          (s.step h img t).net.sendBuffer ≠ 0)) := by
  obtain ⟨len, hsend, hlen⟩ := hs
  obtain ⟨hkept, hnext⟩ := sendPacket_next (t := t) hk (hk.owned hne) hlen
  rw [step_sent hsend]
  refine ⟨hkept, fun hgoing => hnext ?_⟩
  by_contra hfail
  exact hgoing (ended_of_failed hsend hfail)

theorem ended_step (he : Ended s.run.label) :
    Ended (s.step h img t).run.label := by
  rw [step_unasked (asked false) he.label he.sending]
  exact he.step

/-- After `connect` every buffer is free. -/
theorem Connected.places (hst : Connected h st) (hb : b ∈ h.pool) :
    st.places b = 1 := by
  have hqueued : ∀ l : List Word, (∀ c ∈ l, c = h.connectPacket) →
      l.count b = 0 := by
    intro l hl
    apply List.count_eq_zero.mpr
    intro hmem
    rw [hl b hmem] at hb
    exact h.apart hb
  have hone := List.nodup_iff_count.mp h.nodup b
  have hpos := List.count_pos_iff.mpr hb
  rw [Stack.places, hqueued _ hst.outgoing, hqueued _ hst.sent, hst.pool]
  omega

/-- `main` begins with a buffer. -/
theorem Kept.main (hst : Connected h st) (s₀ : Bot) :
    Kept h (Sys.main st s₀).net
      ∧ (Sys.main st s₀).net.sendBuffer ≠ 0 := by
  have hclean : Clean h st := by
    refine ⟨?_, fun b hb => Or.inr (hst.outgoing b hb),
      fun b hb => Or.inr (hst.sent b hb)⟩
    intro b hb
    rw [← hst.pool]
    exact hb
  have hne : st.xmitBuffers ≠ [] := by
    intro hnil
    have hcount := h.count
    rw [← hst.pool, hnil] at hcount
    cases hcount
  have hmem := getXmitBuf_mem hclean hne
  refine ⟨⟨getXmitBuf_clean hclean, ?_, Or.inl hmem⟩, ?_⟩
  · intro b hb
    have htake := getXmitBuf_places st hb
    rw [Globals.places]
    exact (htake.trans (hst.places hb)).le
  · intro hnull
    refine h.nonnull ?_
    have heq : st.getXmitBuf.1 = 0 := hnull
    rw [← heq]
    exact hmem

section

variable {S : Nat → Sys}

/-- A run that has come to its end sends no more. -/
theorem going_of_sends (hS : ∀ k, S (k + 1) = (S k).step h img (turns k))
    {j k : Nat} (hjk : j ≤ k) (hs : (S k).Sends h img) :
    ¬ Ended (S j).run.label := by
  intro he
  have hended : Ended (S k).run.label := by
    clear hs
    induction k, hjk using Nat.le_induction with
    | base => exact he
    | succ k _ ih =>
        rw [hS]
        exact ended_step ih
  obtain ⟨len, hsend, -⟩ := hs
  rw [hended.sending] at hsend
  cases hsend

/-- Where each send finds another buffer free, `sendBuffer` is null only
when nothing is sent any more. -/
theorem kept_of_spare (hS : ∀ k, S (k + 1) = (S k).step h img (turns k))
    (hkept : Kept h (S 0).net) (hne : (S 0).net.sendBuffer ≠ 0)
    (hspare : ∀ j k, j < k → (S j).Sends h img → (S k).Sends h img →
      spare h (S j).net ≠ []) (k : Nat) :
    Kept h (S k).net ∧ ((S k).Sends h img →
      (S k).net.sendBuffer ≠ 0) := by
  suffices hall : Kept h (S k).net ∧ ((S k).net.sendBuffer = 0 →
      ∀ j, k ≤ j → ¬ (S j).Sends h img) from
    ⟨hall.1, fun hs hnull => hall.2 hnull k (Nat.le_refl k) hs⟩
  induction k with
  | zero => exact ⟨hkept, fun hnull => absurd hnull hne⟩
  | succ k ih =>
      obtain ⟨hk, hlast⟩ := ih
      by_cases hs : (S k).Sends h img
      · have hnonnull : (S k).net.sendBuffer ≠ 0 :=
          fun hnull => hlast hnull k (Nat.le_refl k) hs
        obtain ⟨hk', hnext⟩ := hk.step_sends (t := turns k) hs hnonnull
        rw [← hS] at hk' hnext
        refine ⟨hk', fun hnull j hj hsj => ?_⟩
        have hgoing := going_of_sends hS hj hsj
        exact (hnext hgoing).2 (hspare k j hj hs hsj) hnull
      · obtain ⟨hk', hsame⟩ := hk.step_silent (t := turns k) hs
        rw [← hS] at hk' hsame
        refine ⟨hk', fun hnull j hj => ?_⟩
        rw [hsame] at hnull
        exact hlast hnull j (Nat.le_of_succ_le hj)

/-- Where the buffer is always the bot's own, each place is kept. -/
theorem kept_of_owned (hS : ∀ k, S (k + 1) = (S k).step h img (turns k))
    (hkept : Kept h (S 0).net)
    (howned : ∀ k, (S k).Lends h img → Owned h (S k).net) (k : Nat) :
    Kept h (S k).net := by
  induction k with
  | zero => exact hkept
  | succ k ih =>
      rw [hS]
      by_cases hs : (S k).Sends h img
      · have hown := howned k (ih.lends_iff.mpr hs)
        exact (ih.step_sends hs hown.nonnull).1
      · exact (ih.step_silent hs).1

/-- A send that finds none is the last. -/
theorem spare_of_owned (hS : ∀ k, S (k + 1) = (S k).step h img (turns k))
    (hkept : Kept h (S 0).net)
    (howned : ∀ k, (S k).Lends h img → Owned h (S k).net) {j k : Nat}
    (hjk : j < k) (hsj : (S j).Sends h img) (hsk : (S k).Sends h img) :
    spare h (S j).net ≠ [] := by
  intro hnone
  have hk := kept_of_owned hS hkept howned
  have hnonnull : ∀ i, (S i).Sends h img → (S i).net.sendBuffer ≠ 0 :=
    fun i hs => (howned i ((hk i).lends_iff.mpr hs)).nonnull
  have hnull : (S k).net.sendBuffer = 0 := by
    have hafter := ((hk j).step_sends (t := turns j) hsj (hnonnull j hsj)).2
    rw [← hS] at hafter
    have hfirst := (hafter (going_of_sends hS hjk hsk)).1 hnone
    -- and from there on, for a send would find it null
    clear hsk
    induction k, hjk using Nat.le_induction with
    | base => exact hfirst
    | succ i _ ih =>
        by_cases hsi : (S i).Sends h img
        · exact absurd ih (hnonnull i hsi)
        · have hsame := ((hk i).step_silent (t := turns i) hsi).2
          rw [← hS] at hsame
          rw [hsame]
          exact ih
  exact hnonnull k hsk hnull

end

/-- In every run, `currentSendBuffer` returns a buffer of the bot's own
whenever it returns one, if and only if each send but the last finds
another buffer free. -/
theorem sendBuffer_owned_iff (hst : Connected h st) (s₀ : Bot)
    (turns : Nat → Turn) :
    (∀ k, (Sys.steps h img turns k (Sys.main st s₀)).Lends h img →
        Owned h (Sys.steps h img turns k (Sys.main st s₀)).net)
      ↔ ∀ j k, j < k →
        (Sys.steps h img turns j (Sys.main st s₀)).Sends h img →
        (Sys.steps h img turns k (Sys.main st s₀)).Sends h img →
        spare h (Sys.steps h img turns j (Sys.main st s₀)).net ≠ [] := by
  obtain ⟨hkept, hne⟩ := Kept.main hst s₀
  have hS : ∀ k, Sys.steps h img turns (k + 1) (Sys.main st s₀)
      = (Sys.steps h img turns k (Sys.main st s₀)).step h img (turns k) :=
    fun _ => rfl
  constructor
  · intro howned j k hjk hsj hsk
    exact spare_of_owned (S := fun k => Sys.steps h img turns k _) hS hkept
      howned hjk hsj hsk
  · intro hspare k hlends
    obtain ⟨hk, hnonnull⟩ := kept_of_spare
      (S := fun k => Sys.steps h img turns k _) hS hkept hne hspare k
    exact hk.owned (hnonnull (hk.lends_iff.mp hlends))

end Pdtb.Net
