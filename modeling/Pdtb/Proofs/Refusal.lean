/-
What becomes of a buffer that the socket refuses. `sendNewBuffer` takes
the next buffer before it looks at what `enqueue` returned, and it never
calls `returnXmitBuf`: a refused buffer is in no place any more.

Everything else keeps the buffers, whatever the network does in between.
So along any calls each buffer of the pool is in exactly one place
(`Conserved`) if and only if no buffer of the pool is given to a socket
that does not take it (`Stack.Takes`).
-/
import Pdtb.Proofs.Exhaust

namespace Pdtb.Net

open Lib Asm

variable {h : Host} {img : Image} {t : Turn} {n : Globals} {st : Stack}
  {b len : Word}

-- ==================================================== what the socket takes

/-- The socket takes a segment of this length from the bot. -/
structure Stack.Takes (st : Stack) (len : Nat) : Prop where
  state : st.state ≠ .closed ∧ st.state ≠ .listen ∧ st.state ≠ .closing
    ∧ st.state ≠ .timeWait
  length : len ≤ st.maxEnqueueSize
  room : st.outgoing.hasRoom = true

variable (h st) in
/-- An acknowledgement is dropped from a queue that has room anyway. -/
theorem piggyback_hasRoom :
    (st.piggyback h).outgoing.hasRoom = st.outgoing.hasRoom := by
  unfold Stack.piggyback
  split
  · next hone =>
      split
      · rfl
      · next first q hd =>
          split
          · have hlist := Ring.toList_of_dequeue hd
            have hlen : q.toList.length = 0 := by
              have hentries := hone.1
              rw [← Ring.length_toList, hlist, List.length_cons] at hentries
              omega
            have hafter : q.hasRoom = true := by
              rw [Ring.hasRoom_iff, hlen]
              decide
            have hbefore : st.outgoing.hasRoom = true := by
              rw [Ring.hasRoom_iff, hlist, List.length_cons, hlen]
              decide
            rw [hbefore, Stack.returnXmitBuf]
            split
            · exact hafter
            · exact hafter
          · rfl
  · rfl

/-- `enqueue` is good for what the socket takes, and for nothing else. -/
theorem enqueue_good_iff {buf : Word} (hbuf : buf ≠ h.connectPacket) :
    (st.enqueue h buf).1 = 0 ↔ st.Takes (st.dataLen buf) := by
  have hbad : tcpRcBad ≠ 0 := by decide
  have hmuch : tcpRcTooMuchData ≠ 0 := by decide
  unfold Stack.enqueue
  split
  · next hstate =>
      apply iff_of_false hbad
      intro htakes
      obtain ⟨hclosed, hlisten, hclosing, hwait⟩ := htakes.state
      rcases hstate with hst | hst | hst | hst
      · exact hclosed hst
      · exact hlisten hst
      · exact hclosing hst
      · exact hwait hst.1
  · next hstate =>
      split
      · next hlong =>
          apply iff_of_false hmuch
          intro htakes
          exact absurd htakes.length (not_le.mpr hlong)
      · next hshort =>
          have hroom := piggyback_hasRoom h st
          simp only
          cases hfull : (st.piggyback h).outgoing.hasRoom
          · rw [Ring.enqueue_full hfull]
            apply iff_of_false hbad
            intro htakes
            have hgone := htakes.room
            rw [← hroom, hfull] at hgone
            cases hgone
          · apply iff_of_true (Ring.enqueue_room hfull buf)
            refine ⟨⟨?_, ?_, ?_, ?_⟩, not_lt.mp hshort, hroom ▸ hfull⟩
            · exact fun hst => hstate (Or.inl hst)
            · exact fun hst => hstate (Or.inr (Or.inl hst))
            · exact fun hst => hstate (Or.inr (Or.inr (Or.inl hst)))
            · exact fun hst =>
                hstate (Or.inr (Or.inr (Or.inr ⟨hst, hbuf⟩)))

-- ==================================================== calls

/-- What may happen next, from the outside. -/
inductive Call
  /-- `sendPacket` is called -/
  | send (t : Turn) (len : Word)
  /-- `recvNewPacket` is called, for one round of its loop -/
  | receive (t : Turn)
  /-- packets are processed, and sent -/
  | serve (t : Turn)

variable (h) in
def Globals.call (n : Globals) : Call → Globals
  | .send t len => (n.sendPacket h t len).2
  | .receive t => (n.recvNewPacket h t).2
  | .serve t => { n with stack := n.stack.serve h t }

variable (h) in
/-- One call after another. -/
def Globals.calls (n : Globals) (cs : List Call) : Globals :=
  cs.foldl (fun n c => n.call h c) n

/-- The globals when `main` calls `asmRun`. -/
def Globals.main (st : Stack) : Globals where
  stack := st.getXmitBuf.2
  sendBuffer := st.getXmitBuf.1
  handed := []

variable (h img) in
/-- Whatever the program does, it makes such calls. -/
theorem steps_calls (turns : Nat → Turn) (s : Sys) (k : Nat) :
    ∃ cs, (Sys.steps h img turns k s).net = s.net.calls h cs := by
  induction k with
  | zero => exact ⟨[], rfl⟩
  | succ k ih =>
      obtain ⟨cs, hcs⟩ := ih
      have happend : ∀ c, ((Sys.steps h img turns k s).net).call h c
          = s.net.calls h (cs ++ [c]) := by
        intro c
        rw [Globals.calls, List.foldl_append, hcs]
        rfl
      rw [Sys.steps]
      by_cases hlabel : (Sys.steps h img turns k s).run.label
          = .stateGetPacket
      · rw [step_received h img _ hlabel]
        exact ⟨_, happend (.receive (turns k))⟩
      · cases hsend : sending img (Sys.steps h img turns k s).run with
        | none =>
            rw [step_unasked (asked false) hlabel hsend]
            exact ⟨cs, hcs⟩
        | some len =>
            rw [step_sent hsend]
            exact ⟨_, happend (.send (turns k) len)⟩

-- ==================================================== places kept and lost

variable (h) in
/-- Every buffer of the pool is in exactly one place. -/
def Conserved (n : Globals) : Prop := ∀ b ∈ h.pool, n.places b = 1

variable (h) in
/-- If `sendBuffer` is given to the socket for a segment of this length,
the socket takes it. -/
def Accepts (n : Globals) (len : Word) : Prop :=
  len.toInt ≤ h.mss → n.sendBuffer ∈ h.pool → n.stack.Takes len.toNat

/-- `recvNewPacket` moves no buffer, but for what the network does. -/
theorem keeps_receive (hb : b ∈ h.pool) :
    (n.recvNewPacket h t).2.places b = n.places b := by
  cases hin : n.stack.incoming.toList with
  | nil =>
      rw [(recvNewPacket_empty hin).1, Globals.places,
        (keeps_serve h t n.stack).places b hb]
      rfl
  | cons p ps =>
      obtain ⟨q, -, hgot⟩ := recvNewPacket_packet (h := h) (t := t) hin
      rw [hgot]
      rfl

variable (t) in
/-- What a send does to the places is what `enqueue` does. -/
theorem sendNewBuffer_places (hlen : len.toInt ≤ h.mss) (hb : b ∈ h.pool) :
    (n.sendNewBuffer h t (n.sendBuffer + sizeofTcpBuffer) len).2.places b
      = ((n.stack.setDataLen n.sendBuffer len.toNat).enqueue h
        n.sendBuffer).2.places b := by
  obtain ⟨a, ha, hnext, -⟩ := sendNewBuffer_spec t n hlen
  have htake := getXmitBuf_places a.2 hb
  have hserve : (if a.1 = 0 then a.2.getXmitBuf.2.serve h t
      else a.2.getXmitBuf.2).places b = a.2.getXmitBuf.2.places b := by
    split
    · exact (keeps_serve h t _).places b hb
    · rfl
  rw [hnext, ← ha, Globals.places]
  simp only
  rw [hserve]
  exact htake

theorem held_good_iff (hheld : n.sendBuffer ∈ h.pool) :
    ((n.stack.setDataLen n.sendBuffer len.toNat).enqueue h
        n.sendBuffer).1 = 0 ↔ n.stack.Takes len.toNat := by
  have hne : n.sendBuffer ≠ h.connectPacket := by
    intro heq
    rw [heq] at hheld
    exact h.apart hheld
  have hdata : (n.stack.setDataLen n.sendBuffer len.toNat).dataLen
      n.sendBuffer = len.toNat := Function.update_self _ _ _
  rw [enqueue_good_iff hne, hdata]
  constructor
  · intro htakes
    exact ⟨htakes.state, htakes.length, htakes.room⟩
  · intro htakes
    exact ⟨htakes.state, htakes.length, htakes.room⟩

variable (t) in
/-- A buffer that is taken, or is not the one sent, is kept. -/
theorem sendNewBuffer_kept (hlen : len.toInt ≤ h.mss) (hb : b ∈ h.pool)
    (htakes : n.sendBuffer = b → n.stack.Takes len.toNat) :
    (n.sendNewBuffer h t (n.sendBuffer + sizeofTcpBuffer) len).2.places b
      = n.places b := by
  have hset := (keeps_setDataLen h n.sendBuffer len.toNat n.stack).places b hb
  rw [sendNewBuffer_places t hlen hb, Globals.places]
  by_cases hrc : ((n.stack.setDataLen n.sendBuffer len.toNat).enqueue h
      n.sendBuffer).1 = 0
  · rw [enqueue_places hrc hb, hset]
  · have hother : ¬ n.sendBuffer = b := by
      intro heq
      subst heq
      exact hrc ((held_good_iff hb).mpr (htakes rfl))
    rw [(keeps_refused hrc).places b hb, hset, if_neg hother, Nat.add_zero]

variable (t) in
/-- One that is refused is in a place less than it was. -/
theorem sendNewBuffer_lost (hlen : len.toInt ≤ h.mss)
    (hheld : n.sendBuffer ∈ h.pool)
    (hrefused : ¬ n.stack.Takes len.toNat) :
    (n.sendNewBuffer h t (n.sendBuffer + sizeofTcpBuffer) len).2.places
        n.sendBuffer + 1
      = n.places n.sendBuffer := by
  have hset := (keeps_setDataLen h n.sendBuffer len.toNat n.stack).places _
    hheld
  have hrc := mt (held_good_iff hheld).mp hrefused
  rw [sendNewBuffer_places t hlen hheld, (keeps_refused hrc).places _ hheld,
    hset, Globals.places, if_pos rfl]

variable (t len) in
/-- A `sendPacket` keeps every buffer in its one place exactly if the
socket takes what it is given; what is too long is not sent. -/
theorem sendPacket_conserved_iff (hn : Conserved h n) :
    Conserved h (n.sendPacket h t len).2 ↔ Accepts h n len := by
  by_cases hlen : len.toInt ≤ h.mss
  · have hsum : n.sendBuffer + sizeofTcpBuffer = 0 →
        n.sendBuffer ∉ h.pool := by
      intro hzero hmem
      have hfits := h.fits _ hmem
      unfold sizeofTcpBuffer at hzero hfits
      bv_omega
    by_cases hzero : n.sendBuffer + sizeofTcpBuffer = 0
    · rw [Globals.sendPacket, currentSendBuffer_eq hlen, if_pos hzero]
      apply iff_of_true hn
      intro _ hmem
      exact absurd hmem (hsum hzero)
    · rw [sendPacket_short hlen hzero]
      constructor
      · intro hafter _ hmem
        by_contra hrefused
        have hlost := sendNewBuffer_lost t hlen hmem hrefused
        rw [hafter _ hmem, hn _ hmem] at hlost
        cases hlost
      · intro haccepts b hb
        rw [sendNewBuffer_kept t hlen hb, hn b hb]
        intro heq
        subst heq
        exact haccepts hlen hb
  · rw [sendPacket_long hlen]
    exact iff_of_true hn fun hshort => absurd hshort hlen

/-- A call keeps them so exactly if what it sends, if it sends, is
taken. -/
theorem call_conserved_iff (hn : Conserved h n) (c : Call) :
    Conserved h (n.call h c)
      ↔ ∀ t len, c = .send t len → Accepts h n len := by
  cases c with
  | send t len =>
      have hsend := sendPacket_conserved_iff t len hn
      refine hsend.trans ⟨?_, fun hall => hall t len rfl⟩
      intro haccepts t' len' heq
      cases heq
      exact haccepts
  | receive t =>
      apply iff_of_true
      · intro b hb
        exact (keeps_receive hb).trans (hn b hb)
      · intro _ _ heq
        cases heq
  | serve t =>
      apply iff_of_true
      · intro b hb
        rw [Globals.call, Globals.places, (keeps_serve h t n.stack).places b hb]
        exact hn b hb
      · intro _ _ heq
        cases heq

theorem calls_take_succ (n : Globals) {cs : List Call} {k : Nat} {c : Call}
    (hc : cs[k]? = some c) :
    n.calls h (cs.take (k + 1)) = (n.calls h (cs.take k)).call h c := by
  rw [Globals.calls, List.take_add_one, hc, List.foldl_append]
  rfl

/-- Along any calls the buffers are conserved if and only if each buffer
that is given to the socket is taken. -/
theorem conserved_iff_accepts (hst : Connected h st) (cs : List Call) :
    (∀ k, Conserved h ((Globals.main st).calls h (cs.take k)))
      ↔ ∀ k t len, cs[k]? = some (.send t len) →
        Accepts h ((Globals.main st).calls h (cs.take k)) len := by
  constructor
  · intro hall k t len hc
    have hnext := hall (k + 1)
    rw [calls_take_succ _ hc] at hnext
    exact (call_conserved_iff (hall k) _).mp hnext t len rfl
  · intro hall k
    induction k with
    | zero =>
        intro b hb
        exact (getXmitBuf_places st hb).trans (hst.places hb)
    | succ k ih =>
        cases hc : cs[k]? with
        | none =>
            have hlen := List.getElem?_eq_none_iff.mp hc
            rw [List.take_of_length_le (by omega)]
            rw [List.take_of_length_le hlen] at ih
            exact ih
        | some c =>
            rw [calls_take_succ _ hc]
            apply (call_conserved_iff ih c).mpr
            intro t len heq
            rw [heq] at hc
            exact hall k t len hc

/-- A first send is taken. -/
theorem conserved_first :
    Connected demoHost demoStack
      ∧ ∀ k, Conserved demoHost ((Globals.main demoStack).calls demoHost
        (List.take k [.send (driven .nothing) 6, .receive (driven .nothing)]))
    := by
  refine ⟨demoStack_connected,
    (conserved_iff_accepts demoStack_connected _).mpr ?_⟩
  intro k t len hc
  match k, hc with
  | 0, hc =>
      cases hc
      intro _ _
      exact ⟨by decide, by decide, rfl⟩
  | 1, hc => cases hc

-- ==================================================== a reset

/-- A turn in which the connection is reset. -/
def resetting : Turn := ⟨.reset, 0, false, false, 0⟩

theorem serve_resetting (hst : st.state = .established) :
    (st.serve h resetting).state = .closed := by
  have hprocess : st.packetProcessSingle h .reset = st.destroy h := by
    rw [Stack.packetProcessSingle, hst, if_neg (by decide)]
  have hdrive : st.serve h resetting = st.destroy h := by
    show (st.packetProcessSingle h .reset).drivePackets h false 0 = _
    rw [hprocess, Stack.drivePackets,
      if_neg (fun hand => absurd hand.2 Bool.false_ne_true)]
    rfl
  rw [hdrive]
  rfl

/-- The second buffer, after a reset. -/
theorem reset_sent :
    ((Globals.main demoStack).sendPacket demoHost resetting 6).2.stack.state
        = .closed
      ∧ ((Globals.main demoStack).sendPacket demoHost resetting 6).2.sendBuffer
        = 0x9000 := by
  have hlen : (6 : Word).toInt ≤ demoHost.mss := toInt_le_of_short (by decide)
  obtain ⟨q, -, hnext⟩ := sendPacket_rest (n := Globals.main demoStack)
    resetting rfl rfl hlen (by decide) (by decide)
  rw [hnext]
  exact ⟨serve_resetting rfl, rfl⟩

/-- A buffer that is sent after the reset is lost. -/
theorem not_conserved :
    ¬ ∀ (h : Host) (st : Stack) (cs : List Call), Connected h st →
      ∀ k, Conserved h ((Globals.main st).calls h (cs.take k)) := by
  intro hall
  have hconserved := hall demoHost demoStack
    [.send resetting 6, .send (driven .nothing) 6] demoStack_connected
  obtain ⟨hstate, hheld⟩ := reset_sent
  have haccepts := (call_conserved_iff (hconserved 1)
    (.send (driven .nothing) 6)).mp (hconserved 2) _ _ rfl
  have htakes := haccepts (toInt_le_of_short (by decide)) (by
    show ((Globals.main demoStack).sendPacket demoHost resetting
      6).2.sendBuffer ∈ demoPool
    rw [hheld]
    decide)
  exact htakes.state.1 hstate

end Pdtb.Net
