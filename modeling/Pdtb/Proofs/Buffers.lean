/-
Every buffer is in one place.

`places` are all the places there are: the free stack, the driver's hands,
the ring, the calls of `Buffer_free` to come, the fragments that wait, the
free big packets, the socket's queue and the bot's packet. Each step moves
buffers from one to another, so that together they are always what
`malloc` gave. From this follows what the arrays rely on: the stack never
overflows, and the ring is never filled up to where it would look empty
(`InPlace.card_driver`). That a big packet has room for what is copied into
it is not for the buffers to say: it takes fragments whose lengths are no
such lies that a sum with them wraps (`BufferEvent.Honest`).

The rest is order: what is taken from the ring is what came, in the order
in which it came.
-/
import Pdtb.Net.Buffers
import Pdtb.Proofs.Fragments
import Pdtb.Lib.Slots
import Mathlib.Tactic.Abel

namespace Pdtb.Net

open Lib Reassembly

variable {a : Arena}

-- ==================================================== the places

/-- What is in the ring, the oldest packet first. -/
def PacketRing.queued (s : PacketRing) : List Frame :=
  listed packetRbSize s.ring s.first s.next

/-- What the driver and the ring have. -/
def PacketRing.has (s : PacketRing) : Multiset Word :=
  (s.fs : Multiset Word) + s.packetBeingCopied.toList
    + s.queued.map Frame.buffer

/-- What the reassembly has. -/
def Reassembly.keeps (s : Reassembly) : Multiset Word :=
  s.held + s.bigPacketFreeList

/-- What the levels above the driver have. -/
def Holders.has (s : Holders) : Multiset Word :=
  s.ip.keeps + s.incoming.toList.map Frame.buffer
    + (s.recvPacket.map Frame.buffer).toList + s.pending

/-- All places. -/
def Buffers.places (s : Buffers) : Multiset Word :=
  s.toPacketRing.has + s.toHolders.has

/-- The header of a fragment does not claim nearly 64K. -/
def IpHeader.Honest (h : IpHeader) : Prop := h.isFragment = true → h.Short

instance (h : IpHeader) : Decidable h.Honest :=
  inferInstanceAs (Decidable (_ → _))

/-- Nor does that of one which arrives. -/
def BufferEvent.Honest : BufferEvent → Prop
  | .arrival _ raw => (IpHeader.ofRaw raw).Honest
  | _ => True

instance : (ev : BufferEvent) → Decidable ev.Honest
  | .arrival _ raw => inferInstanceAs (Decidable (IpHeader.ofRaw raw).Honest)
  | .request _ | .process _ _ | .checkOverdue _ | .free | .receive
  | .giveUp => .isTrue trivial

/-- The ring is in order. -/
structure PacketRing.Fine (a : Arena) (s : PacketRing) : Prop where
  first : s.first < packetRbSize
  next : s.next < packetRbSize
  plain : ∀ b ∈ s.has, b ∉ a.bigs
  order : s.processed ++ s.queued = s.arrived
  honest : ∀ f ∈ s.queued, f.ip.Honest

/-- So are the levels above. -/
structure Holders.Fine (a : Arena) (s : Holders) : Prop where
  tidy : Tidy Frame.Short s.ip
  within : s.ip.overrun = false
  logged : s.ip.freed = []
  bigs : s.ip.bigPacketFreeList ⊆ a.bigs

/-- And no buffer is lost. -/
structure InPlace (a : Arena) (s : Buffers) : Prop where
  places : s.places = (a.buffers ++ a.bigs : List Word)
  ring : s.toPacketRing.Fine a
  above : s.toHolders.Fine a

/-- What two lists have that is not of the second is no more than the
first. -/
theorem card_le_of_plain {M : Multiset Word} {xs : List Word} (ys : List Word)
    (hle : M ≤ (xs ++ ys : List Word)) (hplain : ∀ b ∈ M, b ∉ ys) :
    M.card ≤ xs.length := by
  have hfilter : M.filter (· ∉ ys) = M := Multiset.filter_eq_self.mpr hplain
  have hys : (ys : Multiset Word).filter (· ∉ ys) = 0 :=
    Multiset.filter_eq_nil.mpr fun b hb hno => hno (Multiset.mem_coe.mp hb)
  have hxs : ((xs ++ ys : List Word) : Multiset Word).filter (· ∉ ys)
      = (xs : Multiset Word).filter (· ∉ ys) := by
    rw [← Multiset.coe_add, Multiset.filter_add, hys, add_zero]
  calc M.card = (M.filter (· ∉ ys)).card := by rw [hfilter]
    _ ≤ (((xs ++ ys : List Word) : Multiset Word).filter (· ∉ ys)).card :=
        Multiset.card_le_card (Multiset.filter_le_filter _ hle)
    _ = ((xs : Multiset Word).filter (· ∉ ys)).card := by rw [hxs]
    _ ≤ (xs : Multiset Word).card :=
        Multiset.card_le_card (Multiset.filter_le _ _)
    _ = xs.length := rfl

/-- The driver and the ring have at most all buffers. -/
theorem InPlace.card_driver {s : Buffers} (h : InPlace a s) :
    s.fs.length + s.packetBeingCopied.toList.length + s.queued.length
      ≤ packetBuffers := by
  have hle : s.toPacketRing.has.card ≤ a.buffers.length := by
    refine card_le_of_plain a.bigs ?_ h.ring.plain
    rw [← h.places]
    exact Multiset.le_add_right _ _
  rw [a.count] at hle
  unfold PacketRing.has at hle
  simp only [Multiset.card_add, Multiset.coe_card, List.length_map] at hle
  exact hle

-- ==================================================== the driver's steps

namespace PacketRing

theorem advance_eq {i : Nat} (hi : i < packetRbSize) :
    advance i = (i + 1) % packetRbSize := by
  unfold advance
  split
  · next heq => rw [heq, Nat.mod_self]
  · rw [Nat.mod_eq_of_lt (by omega)]

theorem advance_lt {i : Nat} (hi : i < packetRbSize) :
    advance i < packetRbSize := by
  rw [advance_eq hi]
  exact Nat.mod_lt _ (by decide)

/-- A buffer goes from the stack to the driver. -/
theorem request_has (len : Nat) (s : PacketRing) :
    (s.request len).has = s.has := by
  unfold request
  split
  · rfl
  · next hask =>
      have hidle : s.packetBeingCopied = none := by
        by_contra hne
        exact hask (.inl hne)
      cases hfs : s.fs with
      | nil => rfl
      | cons b fs =>
          unfold has
          rw [hfs, hidle, ← Multiset.cons_coe, ← Multiset.singleton_add]
          show (fs : Multiset Word) + {b} + (s.queued.map Frame.buffer
            : Multiset Word) = {b} + fs + 0 + _
          rw [add_zero, add_comm (fs : Multiset Word)]

theorem request_fine {s : PacketRing} (h : s.Fine a) (len : Nat) :
    (s.request len).Fine a := by
  have hplain := h.plain
  rw [← request_has len] at hplain
  obtain ⟨fs, copied, heq⟩ : ∃ fs copied, s.request len
      = { s with fs := fs, packetBeingCopied := copied } := by
    unfold request
    split
    · exact ⟨s.fs, s.packetBeingCopied, rfl⟩
    · cases hfs : s.fs with
      | nil => exact ⟨s.fs, s.packetBeingCopied, rfl⟩
      | cons b fs => exact ⟨fs, some b, rfl⟩
  rw [heq] at hplain ⊢
  exact ⟨h.first, h.next, hplain, h.order, h.honest⟩

/-- A packet goes from the driver into the ring, last. -/
theorem arrival_queued {s : PacketRing} {b : Word} {eh : List Byte}
    {raw : Nat → Byte} (h : s.Fine a) (hcopy : s.packetBeingCopied = some b)
    (hroom : s.queued.length + 1 < packetRbSize) :
    (s.arrival eh raw).queued = s.queued ++ [⟨b, eh, raw⟩] := by
  unfold queued at hroom
  rw [length_listed] at hroom
  unfold arrival queued
  rw [hcopy]
  show listed packetRbSize (Function.update s.ring s.next ⟨b, eh, raw⟩)
    s.first (advance s.next) = _
  rw [advance_eq h.next]
  exact listed_push h.first h.next hroom

theorem arrival_has {s : PacketRing} {b : Word} {eh : List Byte}
    {raw : Nat → Byte} (h : s.Fine a) (hcopy : s.packetBeingCopied = some b)
    (hroom : s.queued.length + 1 < packetRbSize) :
    (s.arrival eh raw).has = s.has := by
  unfold has
  rw [arrival_queued h hcopy hroom, List.map_append, ← Multiset.coe_add,
    hcopy]
  unfold arrival
  rw [hcopy]
  show (s.fs : Multiset Word) + 0 + (_ + {b}) = s.fs + {b} + _
  abel

theorem arrival_fine {s : PacketRing} {b : Word} {eh : List Byte}
    {raw : Nat → Byte} (h : s.Fine a) (hcopy : s.packetBeingCopied = some b)
    (hroom : s.queued.length + 1 < packetRbSize)
    (hraw : (IpHeader.ofRaw raw).Honest) : (s.arrival eh raw).Fine a := by
  have hplain := h.plain
  rw [← arrival_has h hcopy hroom] at hplain
  refine ⟨?_, ?_, hplain, ?_, fun f hf => ?_⟩
  · unfold arrival
    rw [hcopy]
    exact h.first
  · unfold arrival
    rw [hcopy]
    exact advance_lt h.next
  · rw [arrival_queued h hcopy hroom]
    unfold arrival
    rw [hcopy]
    show s.processed ++ (s.queued ++ _) = s.arrived ++ _
    rw [← List.append_assoc, h.order]
  · rw [arrival_queued h hcopy hroom] at hf
    rcases List.mem_append.mp hf with hold | hnew
    · exact h.honest f hold
    · rw [List.mem_singleton.mp hnew]
      exact hraw

/-- The oldest packet is taken. -/
theorem take_queued {s : PacketRing} (h : s.Fine a) (hne : s.first ≠ s.next) :
    s.queued = s.ring s.first :: s.take.queued := by
  unfold queued take
  rw [advance_eq h.first]
  exact listed_pop h.first h.next hne

theorem take_has {s : PacketRing} (h : s.Fine a) (hne : s.first ≠ s.next) :
    s.has = s.take.has + {(s.ring s.first).buffer} := by
  unfold has
  rw [take_queued h hne, List.map_cons, ← Multiset.cons_coe,
    ← Multiset.singleton_add]
  show (s.fs : Multiset Word) + s.packetBeingCopied.toList + ({_} + _)
    = s.fs + s.packetBeingCopied.toList + _ + {_}
  abel

theorem take_fine {s : PacketRing} (h : s.Fine a) (hne : s.first ≠ s.next) :
    s.take.Fine a := by
  refine ⟨advance_lt h.first, h.next, fun b hb => h.plain b ?_, ?_,
    fun f hf => h.honest f ?_⟩
  · rw [take_has h hne]
    exact Multiset.mem_add.mpr (.inl hb)
  · have horder := h.order
    rw [take_queued h hne] at horder
    show s.processed ++ [s.ring s.first] ++ s.take.queued = s.arrived
    rw [List.append_assoc]
    exact horder
  · rw [take_queued h hne]
    exact List.mem_cons_of_mem _ hf

end PacketRing

-- ==================================================== the levels above

/-- What the reassembly has, and what it has freed. -/
def Reassembly.has (s : Reassembly) : Multiset Word :=
  s.accounted + s.bigPacketFreeList

/-- What a fragment's buffer becomes: it is held or freed, or what is given
for it is. -/
theorem Stepped.has {now : BitVec 32} {f : Frame} {s s' : Reassembly}
    {out : Option Frame} {came : Frame → Prop} (h : Tidy came s)
    (hstep : Stepped now f s out s') :
    s'.has + (out.map Frame.buffer).toList = s.has + {f.buffer} := by
  have hnone : (((none : Option Frame).map Frame.buffer).toList
    : Multiset Word) = 0 := rfl
  have hput : ∀ s' : Reassembly, s'.accounted = s.accounted + {f.buffer} →
      s'.bigPacketFreeList = s.bigPacketFreeList →
      s'.has + 0 = s.has + {f.buffer} := by
    intro s' haccounted hfree
    unfold Reassembly.has
    rw [haccounted, hfree, add_zero, add_right_comm]
  cases hstep with
  | refused => exact hput _ (accounted_bufferFree _ _) rfl
  | started i hidle _ => exact hput _ (accounted_begun ((h i).idle hidle)) rfl
  | tooBig i _ =>
      refine hput _ ?_ rfl
      rw [accounted_kill, accounted_bufferFree]
  | again i _ =>
      refine hput _ ?_ rfl
      rw [accounted_bufferFree, accounted_noted]
  | overlaps i _ =>
      refine hput _ ?_ rfl
      rw [accounted_kill, accounted_bufferFree, accounted_noted]
  | put i pos _ _ hpos _ => exact hput _ (accounted_joined hpos) rfl
  | filled i pos _ hpos =>
      refine hput _ ?_ rfl
      rw [accounted_kill, accounted_joined hpos]
  | completed i pos _ _ hpos _ =>
      have haccounted := (accounted_makeBigPacket i (s.joined i pos f)).trans
        (accounted_joined hpos)
      cases hfree : s.bigPacketFreeList with
      | nil =>
          have hjoined : (s.joined i pos f).bigPacketFreeList = [] := hfree
          have hbig : (s.joined i pos f).makeBigPacket i
              = (none, (s.joined i pos f).killFragmentControl i) := by
            unfold makeBigPacket
            rw [hjoined]
          rw [hbig] at haccounted ⊢
          exact hput _ haccounted rfl
      | cons bp rest =>
          have hjoined : (s.joined i pos f).bigPacketFreeList = bp :: rest :=
            hfree
          have hout : (((s.joined i pos f).makeBigPacket i).1.map
              Frame.buffer).toList = [bp] := by
            unfold makeBigPacket
            rw [hjoined]
            rfl
          have hrest : ((s.joined i pos f).makeBigPacket i).2.bigPacketFreeList
              = rest := by
            unfold makeBigPacket
            rw [hjoined]
            rfl
          unfold Reassembly.has
          rw [hout, hrest, haccounted, hfree, ← Multiset.cons_coe,
            ← Multiset.singleton_add]
          show _ + {f.buffer} + (rest : Multiset Word) + {bp}
            = _ + ({bp} + rest) + {f.buffer}
          abel

/-- Only the front of the free big packets is taken. -/
theorem Stepped.free_subset {now : BitVec 32} {f : Frame} {s s' : Reassembly}
    {out : Option Frame} (hstep : Stepped now f s out s') :
    s'.bigPacketFreeList ⊆ s.bigPacketFreeList := by
  cases hstep with
  | completed i pos _ _ _ _ =>
      unfold makeBigPacket
      split
      · exact fun _ h => h
      · next bp rest hfree =>
          have hjoined : s.bigPacketFreeList = bp :: rest := hfree
          rw [hjoined]
          exact List.subset_cons_self bp rest
  | _ => exact fun _ h => h

/-- What is overdue is freed. -/
theorem has_purge (now : BitVec 32) (xs : List (Fin ipMaxFragPackets)) :
    ∀ s : Reassembly, (xs.foldl (purge now) s).has = s.has := by
  induction xs with
  | nil => exact fun _ => rfl
  | cons i xs ih =>
      intro s
      refine (ih _).trans ?_
      unfold purge
      split
      · unfold Reassembly.has
        rw [accounted_kill]
        rfl
      · rfl

theorem free_purge (now : BitVec 32) (xs : List (Fin ipMaxFragPackets)) :
    ∀ s : Reassembly,
      (xs.foldl (purge now) s).bigPacketFreeList = s.bigPacketFreeList := by
  induction xs with
  | nil => exact fun _ => rfl
  | cons i xs ih =>
      intro s
      refine (ih _).trans ?_
      unfold purge
      split <;> rfl

namespace Holders

variable {s : Holders} {f : Frame}

theorem discard_has (b : Word) (s : Holders) :
    (s.discard b).has = s.has + {b} := by
  unfold has discard
  rw [← Multiset.coe_add, ← add_assoc]
  rfl

theorem discard_fine (h : s.Fine a) (b : Word) : (s.discard b).Fine a :=
  ⟨h.tidy, h.within, h.logged, h.bigs⟩

theorem clearIncoming_has (s : Holders) : s.clearIncoming.has = s.has := by
  have hnil : s.clearIncoming.incoming.toList = [] := by
    unfold clearIncoming
    rw [Ring.toList_iterate_dequeue, ← Ring.length_toList, List.drop_length]
  unfold has
  rw [hnil]
  unfold clearIncoming
  rw [← Multiset.coe_add]
  show _ + 0 + _ + (_ + _) = _
  abel

theorem clearIncoming_fine (h : s.Fine a) : s.clearIncoming.Fine a :=
  ⟨h.tidy, h.within, h.logged, h.bigs⟩

theorem enqueue_has (hroom : s.incoming.hasRoom = true) :
    ({ s with incoming := (s.incoming.enqueue f).2 } : Holders).has
      = s.has + {f.buffer} := by
  unfold has
  rw [Ring.toList_enqueue hroom, List.map_append, ← Multiset.coe_add]
  show _ + (_ + {f.buffer}) + _ + _ = _
  abel

/-- A packet for a socket is queued or to be freed. -/
theorem tcpProcess_has (verdict : Verdict) (f : Frame) (s : Holders) :
    (s.tcpProcess verdict f).has = s.has + {f.buffer} := by
  unfold tcpProcess
  cases verdict with
  | keep =>
      simp only
      split
      · next hroom => exact enqueue_has hroom
      · exact discard_has _ _
  | drop => exact discard_has _ _
  | reset =>
      simp only
      rw [discard_has, clearIncoming_has]

theorem tcpProcess_fine (h : s.Fine a) (verdict : Verdict) (f : Frame) :
    (s.tcpProcess verdict f).Fine a := by
  unfold tcpProcess
  cases verdict with
  | keep =>
      simp only
      split
      · exact ⟨h.tidy, h.within, h.logged, h.bigs⟩
      · exact discard_fine h _
  | drop => exact discard_fine h _
  | reset => exact discard_fine (clearIncoming_fine h) _

theorem route_has (verdict : Verdict) (f : Frame) (s : Holders) :
    (s.route verdict f).has = s.has + {f.buffer} := by
  unfold route
  split
  · exact tcpProcess_has _ _ _
  · exact discard_has _ _

theorem route_fine (h : s.Fine a) (verdict : Verdict) (f : Frame) :
    (s.route verdict f).Fine a := by
  unfold route
  split
  · exact tcpProcess_fine h _ _
  · exact discard_fine h _

/-- What the table has freed is to be freed. -/
theorem setIp_has {ip : Reassembly} {M N : Multiset Word} (h : s.Fine a)
    (hip : ip.has + M = s.ip.has + N) : (s.setIp ip).has + M = s.has + N := by
  have hlogged : s.ip.has = s.ip.keeps := by
    unfold Reassembly.has accounted keeps
    rw [h.logged]
    show 0 + s.ip.held + _ = _
    rw [zero_add]
  have hset : (s.setIp ip).has + M = ip.has + M
      + s.incoming.toList.map Frame.buffer
      + (s.recvPacket.map Frame.buffer).toList + s.pending := by
    unfold has setIp keeps Reassembly.has accounted
    rw [← Multiset.coe_add]
    show ip.held + _ + _ + _ + _ + _ = _
    abel
  rw [hset, hip, hlogged]
  unfold has
  abel

theorem setIp_fine {ip : Reassembly} (h : Tidy Frame.Short ip)
    (hwithin : ip.overrun = false) (hbigs : ip.bigPacketFreeList ⊆ a.bigs)
    (s : Holders) : (s.setIp ip).Fine a := ⟨h, hwithin, rfl, hbigs⟩

theorem ipProcess_has (h : s.Fine a) (now : BitVec 32) (verdict : Verdict)
    (f : Frame) : (s.ipProcess now verdict f).has = s.has + {f.buffer} := by
  unfold ipProcess
  split
  · exact discard_has _ _
  · split
    · have hstep := (processFragment_stepped now f s.ip).has h.tidy
      cases hout : s.ip.processFragment now f with
      | mk out ip =>
          rw [hout] at hstep
          have hset := setIp_has h hstep
          cases out with
          | none =>
              have hzero : (((none : Option Frame).map Frame.buffer).toList
                : Multiset Word) = 0 := rfl
              rw [hzero, add_zero] at hset
              exact hset
          | some big =>
              show ((s.setIp ip).route verdict big).has = _
              rw [route_has]
              exact hset
    · exact route_has _ _ _

theorem ipProcess_fine (h : s.Fine a) (now : BitVec 32) (verdict : Verdict)
    (hf : f.ip.Honest) : (s.ipProcess now verdict f).Fine a := by
  unfold ipProcess
  split
  · exact discard_fine h _
  · split
    · next hfrag =>
      have hshort : f.Short := hf hfrag
      have hstep := processFragment_stepped now f s.ip
      cases hout : s.ip.processFragment now f with
      | mk out ip =>
          rw [hout] at hstep
          have hfine := setIp_fine (hstep.tidy h.tidy hshort)
            (hstep.within h.tidy hshort (fun _ hg => hg) h.within)
            (List.Subset.trans hstep.free_subset h.bigs) s
          cases out with
          | none => exact hfine
          | some big => exact route_fine hfine verdict big
    · exact route_fine h _ _

/-- Wherever a packet goes, its buffer is somewhere. -/
theorem handle_has (h : s.Fine a) (now : BitVec 32) (verdict : Verdict)
    (f : Frame) : (s.handle now verdict f).has = s.has + {f.buffer} := by
  unfold handle
  split
  · exact ipProcess_has h _ _ _
  · exact discard_has _ _

theorem handle_fine (h : s.Fine a) (now : BitVec 32) (verdict : Verdict)
    (hf : f.ip.Honest) : (s.handle now verdict f).Fine a := by
  unfold handle
  split
  · exact ipProcess_fine h _ _ hf
  · exact discard_fine h _

theorem overdue_has (h : s.Fine a) (now : BitVec 32) :
    (s.setIp (s.ip.fragsCheckOverdue now)).has = s.has := by
  have hip : (s.ip.fragsCheckOverdue now).has = s.ip.has := by
    unfold fragsCheckOverdue
    split
    · exact has_purge now _ _
    · rfl
  have hset := setIp_has (M := 0) (N := 0) h (by rw [hip])
  rw [add_zero, add_zero] at hset
  exact hset

theorem overdue_fine (h : s.Fine a) (now : BitVec 32) :
    (s.setIp (s.ip.fragsCheckOverdue now)).Fine a := by
  have hwithin := (within_fragsCheckOverdue now s.ip).trans h.within
  unfold fragsCheckOverdue at hwithin ⊢
  split
  · next hsome =>
      rw [if_pos hsome] at hwithin
      refine setIp_fine (tidy_purge _ _ h.tidy) hwithin ?_ s
      exact (free_purge now _ s.ip).symm ▸ h.bigs
  · exact setIp_fine h.tidy h.within h.bigs s

theorem receive_has (s : Holders) : s.receive.has = s.has := by
  unfold has receive
  cases hq : s.incoming.toList with
  | nil =>
      rw [Ring.dequeue_nil hq, hq, ← Multiset.coe_add]
      show _ + 0 + 0 + (_ + _) = _ + 0 + _ + _
      abel
  | cons x xs =>
      obtain ⟨hx, hxs⟩ := Ring.dequeue_cons hq
      rw [hx, hxs, List.map_cons, ← Multiset.cons_coe,
        ← Multiset.singleton_add, ← Multiset.coe_add]
      show _ + _ + {x.buffer} + (_ + _) = _ + ({x.buffer} + _) + _ + _
      abel

theorem receive_fine (h : s.Fine a) : s.receive.Fine a :=
  ⟨h.tidy, h.within, h.logged, h.bigs⟩

end Holders

-- ==================================================== steps and runs

/-- A step that leaves the ring alone. -/
theorem InPlace.above_eq {s : Buffers} {t : Holders} (h : InPlace a s)
    (hhas : t.has = s.toHolders.has) (hfine : t.Fine a) :
    InPlace a { s with toHolders := t } where
  places := by
    have hplaces := h.places
    unfold Buffers.places at hplaces ⊢
    rw [hhas]
    exact hplaces
  ring := h.ring
  above := hfine

/-- A step of the driver. -/
theorem InPlace.ring_eq {s : Buffers} {t : PacketRing}
    (h : InPlace a s) (hhas : t.has = s.toPacketRing.has)
    (hfine : t.Fine a) : InPlace a { s with toPacketRing := t } where
  places := by
    have hplaces := h.places
    unfold Buffers.places at hplaces ⊢
    rw [hhas]
    exact hplaces
  ring := hfine
  above := h.above

theorem InPlace.arrival {s : Buffers} (h : InPlace a s) (eh : List Byte)
    {raw : Nat → Byte} (hraw : (IpHeader.ofRaw raw).Honest) :
    InPlace a { s with toPacketRing := s.toPacketRing.arrival eh raw } := by
  cases hcopy : s.packetBeingCopied with
  | none =>
      have hsame : s.toPacketRing.arrival eh raw = s.toPacketRing := by
        unfold PacketRing.arrival
        rw [hcopy]
      rw [hsame]
      exact h
  | some b =>
      have hcard := h.card_driver
      rw [hcopy] at hcard
      have hroom : s.queued.length + 1 < packetRbSize := by
        have hten : packetBuffers = 10 := rfl
        have heleven : packetRbSize = 11 := rfl
        have hone : (some b).toList.length = 1 := rfl
        omega
      exact h.ring_eq (PacketRing.arrival_has h.ring hcopy hroom)
        (PacketRing.arrival_fine h.ring hcopy hroom hraw)

theorem InPlace.processInternal {s : Buffers} (h : InPlace a s)
    (hne : s.first ≠ s.next) (now : BitVec 32) (verdict : Verdict) :
    InPlace a (s.processInternal now verdict) where
  places := by
    have hplaces := h.places
    unfold Buffers.places Buffers.processInternal at *
    rw [PacketRing.take_has h.ring hne] at hplaces
    rw [Holders.handle_has h.above, ← hplaces]
    abel
  ring := PacketRing.take_fine h.ring hne
  above := by
    refine Holders.handle_fine h.above _ _ (h.ring.honest _ ?_)
    rw [PacketRing.take_queued h.ring hne]
    exact List.mem_cons_self

/-- A buffer goes back to where it is from. -/
theorem InPlace.bufferFree {s : Buffers} (h : InPlace a s) :
    InPlace a (s.bufferFree a) := by
  unfold Buffers.bufferFree
  cases hpending : s.pending with
  | nil => exact h
  | cons b pending =>
      have hplaces := h.places
      unfold Buffers.places Holders.has at hplaces
      rw [hpending, ← Multiset.cons_coe, ← Multiset.singleton_add] at hplaces
      simp only
      split
      · next hbig =>
        refine ⟨?_, h.ring, h.above.tidy, h.above.within, h.above.logged,
          List.cons_subset.mpr ⟨hbig, h.above.bigs⟩⟩
        rw [← hplaces]
        unfold Buffers.places Holders.has Reassembly.keeps returnBigPacket
        rw [← Multiset.cons_coe, ← Multiset.singleton_add]
        show _ + (s.ip.held + _ + _ + _ + _) = _
        abel
      · next hbig =>
          have hhas : ({ s.toPacketRing with fs := b :: s.fs }
              : PacketRing).has = s.toPacketRing.has + {b} := by
            unfold PacketRing.has
            rw [← Multiset.cons_coe, ← Multiset.singleton_add]
            show {b} + _ + _ + _ = _
            abel
          refine ⟨?_, ⟨h.ring.first, h.ring.next, ?_, h.ring.order,
            h.ring.honest⟩, h.above.tidy, h.above.within, h.above.logged,
            h.above.bigs⟩
          · rw [← hplaces]
            unfold Buffers.places
            rw [hhas]
            unfold Holders.has
            abel
          · rw [hhas]
            intro c hc
            rcases Multiset.mem_add.mp hc with hold | hnew
            · exact h.ring.plain c hold
            · rw [Multiset.mem_singleton.mp hnew]
              exact hbig

/-- No step loses a buffer. -/
theorem InPlace.step {s : Buffers} (h : InPlace a s) {ev : BufferEvent}
    (hev : ev.Honest) : InPlace a (s.step a ev) := by
  cases ev with
  | request len =>
      exact h.ring_eq (PacketRing.request_has _ _)
        (PacketRing.request_fine h.ring _)
  | arrival eh raw => exact h.arrival eh hev
  | process now verdict =>
      unfold Buffers.step
      simp only
      split
      · next hready => exact h.processInternal hready.2 now verdict
      · exact h
  | checkOverdue now =>
      unfold Buffers.step
      simp only
      split
      · exact h.above_eq (Holders.overdue_has h.above now)
          (Holders.overdue_fine h.above now)
      · exact h
  | free => exact h.bufferFree
  | receive =>
      unfold Buffers.step
      simp only
      split
      · exact h.above_eq (Holders.receive_has _) (Holders.receive_fine h.above)
      · exact h
  | giveUp =>
      unfold Buffers.step
      simp only
      split
      · exact h.above_eq (Holders.clearIncoming_has _)
          (Holders.clearIncoming_fine h.above)
      · exact h

theorem inPlace_init (ring : Nat → Frame) (content : Word → Nat → Byte) :
    InPlace a (.init a ring content) := by
  have hqueued : (Buffers.init a ring content).queued = [] := by
    rw [← List.length_eq_zero_iff]
    exact length_listed.trans (Nat.mod_self packetRbSize)
  have hring : (Buffers.init a ring content).toPacketRing.has = a.buffers := by
    unfold PacketRing.has
    rw [hqueued]
    show (a.buffers : Multiset Word) + 0 + 0 = _
    rw [add_zero, add_zero]
  have habove : (Buffers.init a ring content).toHolders.has = a.bigs := by
    have hheld : (Reassembly.init a.bigs content).held = 0 :=
      Finset.sum_eq_zero fun _ _ => rfl
    show (Reassembly.init a.bigs content).held + (a.bigs : Multiset Word)
      + 0 + 0 + 0 = _
    rw [hheld]
    simp
  refine ⟨?_, ⟨Nat.zero_lt_succ 10, Nat.zero_lt_succ 10, ?_, ?_, ?_⟩,
    tidy_init _ a.bigs content, rfl, rfl, fun _ h => h⟩
  · unfold Buffers.places
    rw [hring, habove, Multiset.coe_add]
  · rw [hring]
    intro b hb hbig
    exact (List.nodup_append.mp a.nodup).2.2 b hb b hbig rfl
  · rw [hqueued]
    rfl
  · rw [hqueued]
    exact fun f hf => nomatch hf

theorem inPlace_run (ring : Nat → Frame) (content : Word → Nat → Byte)
    (evs : List BufferEvent) (hhonest : ∀ ev ∈ evs, ev.Honest) :
    InPlace a ((Buffers.init a ring content).run a evs) := by
  induction evs using List.reverseRecOn with
  | nil => exact inPlace_init ring content
  | append_singleton evs ev ih =>
      unfold Buffers.run at ih ⊢
      rw [List.foldl_append]
      have hev : ev.Honest := hhonest ev
        (List.mem_append_right _ (List.mem_singleton_self ev))
      exact (ih fun e he => hhonest e (List.mem_append_left _ he)).step hev

/-- There is room for all big packets that are free. -/
theorem InPlace.card_bigs {s : Buffers} (h : InPlace a s) :
    s.ip.bigPacketFreeList.length ≤ ipMaxFragPackets := by
  rw [← a.bigCount]
  refine card_le_of_plain (M := s.ip.bigPacketFreeList) a.buffers ?_ ?_
  · rw [← Multiset.coe_add, add_comm, Multiset.coe_add, ← h.places]
    unfold Buffers.places Holders.has Reassembly.keeps
    rw [add_comm s.ip.held]
    simp only [add_assoc]
    exact (Multiset.le_add_right _ _).trans (Multiset.le_add_left _ _)
  · intro b hb hbuffer
    exact (List.nodup_append.mp a.nodup).2.2 b hbuffer b (h.above.bigs hb) rfl

/-- However the driver and the program alternate, each buffer is always in
exactly one place, no array is written behind its end (not the stacks of
free buffers and big packets, the ring, the lists of fragments or a big
packet), and packets are processed once each, in the order in which they
came. -/
theorem buffers_conserved (a : Arena) (ring : Nat → Frame)
    (content : Word → Nat → Byte) (evs : List BufferEvent)
    (hhonest : ∀ ev ∈ evs, ev.Honest) :
    let s := (Buffers.init a ring content).run a evs
    s.places = (a.buffers ++ a.bigs : List Word) ∧ s.places.Nodup
      ∧ s.fs.length ≤ packetBuffers
      ∧ s.ip.bigPacketFreeList.length ≤ ipMaxFragPackets
      ∧ s.first < packetRbSize ∧ s.next < packetRbSize
      ∧ s.queued.length ≤ packetBuffers
      ∧ (∀ i, (s.ip.fragControl i).frags.length < ipMaxFragsPerPacket)
      ∧ s.ip.overrun = false
      ∧ s.processed ++ s.queued = s.arrived := by
  intro s
  have h : InPlace a s := inPlace_run ring content evs hhonest
  have hcard := h.card_driver
  refine ⟨h.places, ?_, by omega, h.card_bigs, h.ring.first, h.ring.next,
    by omega, fun i => (h.above.tidy i).few, h.above.within, h.ring.order⟩
  rw [h.places]
  exact Multiset.coe_nodup.mpr a.nodup

/-- Buffers and big packets, numbered through. -/
def numbered : Arena where
  buffers := (List.range 10).map (BitVec.ofNat 16)
  bigs := (List.range 4).map fun i => BitVec.ofNat 16 (10 + i)
  count := by decide
  bigCount := by decide
  nodup := by decide

/-- Two fragments arrive and are processed. -/
def fragmentsArrive : List BufferEvent :=
  let eh : List Byte := [0, 0, 0, 0, 0, 0, 0, 0, 0, 0, 0, 0, 8, 0]
  [.request 42, .arrival eh (twoPieces.frame 1).raw, .request 42,
    .process 0 .keep, .arrival eh (twoPieces.frame 0).raw, .process 5 .keep]

/-- Then the packet that they were, which is not for TCP, is to be freed, as
they are. -/
theorem buffers_conserved_fragments :
    let s := (Buffers.init numbered (fun _ => default) fun _ _ => 0).run
      numbered fragmentsArrive
    s.pending = [1, 0, 10] ∧ s.processed.length = 2 ∧ s.places.Nodup
      ∧ s.ip.overrun = false := by
  intro s
  have hhonest : ∀ ev ∈ fragmentsArrive, ev.Honest := by decide +kernel
  obtain ⟨-, hnodup, -, -, -, -, -, -, hwithin, -⟩ := buffers_conserved numbered
    (fun _ => default) (fun _ _ => 0) fragmentsArrive hhonest
  exact ⟨by decide +kernel, by decide +kernel, hnodup, hwithin⟩

end Pdtb.Net
