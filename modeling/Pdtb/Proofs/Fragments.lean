/-
What the reassembly does with any fragments at all, honest or not.

`Stepped` lists everything `processFragment` can do, once; each invariant
below is a case analysis of it. `Tidy` is about the table: what a control
structure holds came in under its key, and there is always room for one
more. `processFragment_holds` is about the buffers: one that comes in is
held or freed, never both and never twice.

A big packet is put together from fragments that follow on each other, so
each of its bytes is one that some fragment had for that place
(`reassembly_sound`). Lengths are taken from the headers. A header that
claims nearly 64K wraps the sum that is compared with the size of a big
packet, and more is copied than it has room for; none does that fits in a
frame (`Frame.Short`). Where all are so, a packet that was cut gets through
as well (`reassembly_delivers`).
-/
import Pdtb.Proofs.Reassembly
import Mathlib.Algebra.Order.Group.Multiset
import Mathlib.Data.Fintype.BigOperators

namespace Pdtb.Net

open Lib Reassembly

-- ================================================== one step

namespace Reassembly

/-- The control structure has noted that the fragment came. -/
def noted (i : Fin ipMaxFragPackets) (f : Frame) (s : Reassembly) :
    Reassembly :=
  s.setFragControl i ((s.fragControl i).noteLast f.ip.isLastFragment)

/-- And it has put it in its list. -/
def joined (i : Fin ipMaxFragPackets) (pos : Nat) (f : Frame)
    (s : Reassembly) : Reassembly :=
  (s.noted i f).setFragControl i
    { (s.fragControl i).noteLast f.ip.isLastFragment with
      frags := (s.fragControl i).frags.insertIdx pos f.fragment }

/-- A control structure taken for a packet not seen before. -/
def begun (i : Fin ipMaxFragPackets) (now : BitVec 32) (f : Frame)
    (s : Reassembly) : Reassembly :=
  { s with fragsInReassembly := s.fragsInReassembly + 1 }.setFragControl i
    { inUse := true
      lastFragRcvd := f.ip.isLastFragment
      srcAddr := f.ip.ipSrc
      ident := f.ip.ident
      startTime := now
      frags := [f.fragment] }

end Reassembly

/-- The fragment ends within a big packet, or so the sum says. -/
def Frame.Fits (f : Frame) : Prop :=
  ¬ ipBigPacketSize < f.ip.fragmentOffset + f.ip.payloadLen

/-- All that `processFragment` can do. -/
inductive Stepped (now : BitVec 32) (f : Frame) (s : Reassembly) :
    Option Frame → Reassembly → Prop where
  | refused : Stepped now f s none (s.bufferFree f.buffer)
  | started (i : Fin ipMaxFragPackets)
      (hidle : (s.fragControl i).inUse = false) (hfits : f.Fits) :
      Stepped now f s none (s.begun i now f)
  | tooBig (i : Fin ipMaxFragPackets)
      (howns : (s.fragControl i).owns f.ip.ipSrc f.ip.ident = true) :
      Stepped now f s none ((s.bufferFree f.buffer).killFragmentControl i)
  | again (i : Fin ipMaxFragPackets)
      (howns : (s.fragControl i).owns f.ip.ipSrc f.ip.ident = true) :
      Stepped now f s none ((s.noted i f).bufferFree f.buffer)
  | overlaps (i : Fin ipMaxFragPackets)
      (howns : (s.fragControl i).owns f.ip.ipSrc f.ip.ident = true) :
      Stepped now f s none
        (((s.noted i f).bufferFree f.buffer).killFragmentControl i)
  | put (i : Fin ipMaxFragPackets) (pos : Nat)
      (howns : (s.fragControl i).owns f.ip.ipSrc f.ip.ident = true)
      (hfits : f.Fits) (hpos : pos ≤ (s.fragControl i).frags.length)
      (hroom : (s.fragControl i).frags.length + 1 ≠ ipMaxFragsPerPacket) :
      Stepped now f s none (s.joined i pos f)
  | filled (i : Fin ipMaxFragPackets) (pos : Nat)
      (howns : (s.fragControl i).owns f.ip.ipSrc f.ip.ident = true)
      (hpos : pos ≤ (s.fragControl i).frags.length) :
      Stepped now f s none ((s.joined i pos f).killFragmentControl i)
  | completed (i : Fin ipMaxFragPackets) (pos : Nat)
      (howns : (s.fragControl i).owns f.ip.ipSrc f.ip.ident = true)
      (hfits : f.Fits) (hpos : pos ≤ (s.fragControl i).frags.length)
      (hcomplete : complete 0
        ((s.fragControl i).frags.insertIdx pos f.fragment) = true) :
      Stepped now f s ((s.joined i pos f).makeBigPacket i).1
        ((s.joined i pos f).makeBigPacket i).2

theorem insertFragment_stepped (now : BitVec 32) {f : Frame}
    {s : Reassembly} {i : Fin ipMaxFragPackets} {pos : Nat}
    (howns : (s.fragControl i).owns f.ip.ipSrc f.ip.ident = true)
    (hfits : f.Fits) (hpos : pos ≤ (s.fragControl i).frags.length) :
    Stepped now f s ((s.noted i f).insertFragment i pos f.fragment).1
      ((s.noted i f).insertFragment i pos f.fragment).2 := by
  have hfrags : ((s.noted i f).fragControl i).frags
      = (s.fragControl i).frags := by
    unfold noted
    rw [setFragControl_self]
    rfl
  have hjoined : (s.noted i f).setFragControl i
      { (s.noted i f).fragControl i with
        frags := ((s.noted i f).fragControl i).frags.insertIdx pos
          f.fragment } = s.joined i pos f := by
    unfold joined noted
    rw [setFragControl_self]
    rfl
  unfold insertFragment
  simp only [hjoined]
  split
  · next hdone =>
      rw [Bool.and_eq_true, hfrags] at hdone
      exact .completed i pos howns hfits hpos hdone.2
  · rw [hfrags, List.length_insertIdx_of_le_length hpos]
    split
    · exact .filled i pos howns hpos
    · next hroom => exact .put i pos howns hfits hpos hroom

theorem processFragment_stepped (now : BitVec 32) (f : Frame)
    (s : Reassembly) :
    Stepped now f s (s.processFragment now f).1
      (s.processFragment now f).2 := by
  unfold processFragment
  cases hfind : s.findFragControl f.ip.ipSrc f.ip.ident with
  | none =>
      show Stepped now f s none (s.startReassembly now f)
      unfold startReassembly
      cases hopen : s.findOpenFragControl with
      | none => exact .refused
      | some i =>
          simp only
          split
          · exact .refused
          · next hfits =>
              exact .started i (by simpa using List.find?_some hopen) hfits
  | some i =>
      have howns := findFragControl_owns hfind
      show Stepped now f s (s.continueReassembly i f).1
        (s.continueReassembly i f).2
      unfold continueReassembly
      simp only
      split
      · exact .tooBig i howns
      · next hfits =>
          have hle : ((s.fragControl i).noteLast
              f.ip.isLastFragment).frags.findIdx
              (fun g => decide (f.ip.fragmentOffset ≤ g.offset))
              ≤ (s.fragControl i).frags.length := List.findIdx_le_length
          split
          · exact insertFragment_stepped now howns hfits hle
          · split
            · exact .again i howns
            · split
              · exact .overlaps i howns
              · exact insertFragment_stepped now howns hfits hle

-- ================================================== buffers

namespace Reassembly

/-- The buffers of the fragments that wait. -/
def held (s : Reassembly) : Multiset Word :=
  ∑ i, (buffers (s.fragControl i).frags : Multiset Word)

/-- A sum over the table when one entry is written. -/
theorem sum_setFragControl {M : Type} [AddCommMonoid M]
    (g : IpFragControl → M) (i : Fin ipMaxFragPackets) (fc : IpFragControl)
    (s : Reassembly) :
    (∑ j, g ((s.setFragControl i fc).fragControl j)) + g (s.fragControl i)
      = (∑ j, g (s.fragControl j)) + g fc := by
  have hupdate : ∀ j, g ((s.setFragControl i fc).fragControl j)
      = Function.update (fun j => g (s.fragControl j)) i (g fc) j := by
    intro j
    by_cases heq : j = i
    · rw [heq, setFragControl_self, Function.update_self]
    · rw [Function.update_of_ne heq]
      exact congrArg g (Function.update_of_ne heq _ _)
  have hsplit := Finset.add_sum_erase Finset.univ
    (fun j => g (s.fragControl j)) (Finset.mem_univ i)
  rw [Finset.sum_congr rfl fun j _ => hupdate j,
    Finset.sum_update_of_mem (Finset.mem_univ i), ← hsplit,
    Finset.sdiff_singleton_eq_erase]
  exact add_right_comm _ _ _ |>.trans (by rw [add_comm (g fc), add_assoc,
    add_comm (g fc), ← add_assoc])

theorem held_setFragControl (i : Fin ipMaxFragPackets) (fc : IpFragControl)
    (s : Reassembly) :
    (s.setFragControl i fc).held + buffers (s.fragControl i).frags
      = s.held + buffers fc.frags :=
  sum_setFragControl (fun fc => (buffers fc.frags : Multiset Word)) i fc s

/-- What is held or has been freed, together. -/
def accounted (s : Reassembly) : Multiset Word := s.freed + s.held

theorem accounted_bufferFree (packet : Word) (s : Reassembly) :
    (s.bufferFree packet).accounted = s.accounted + {packet} := by
  show ((s.freed ++ [packet] : List Word) : Multiset Word) + s.held
    = s.freed + s.held + {packet}
  rw [← Multiset.coe_add, add_right_comm]
  rfl

/-- What was held by a control structure that is killed is freed. -/
theorem accounted_kill (i : Fin ipMaxFragPackets) (s : Reassembly) :
    (s.killFragmentControl i).accounted = s.accounted := by
  have hheld : (s.killFragmentControl i).held
      + buffers (s.fragControl i).frags = s.held := by
    have h := held_setFragControl i { s.fragControl i with
      inUse := false, frags := [] } s
    have hnil : ((buffers [] : List Word) : Multiset Word) = 0 := rfl
    rw [hnil, add_zero] at h
    exact h
  show ((s.freed ++ buffers (s.fragControl i).frags : List Word)
    : Multiset Word) + (s.killFragmentControl i).held = s.freed + s.held
  rw [← Multiset.coe_add, add_assoc, ← hheld,
    add_comm (buffers (s.fragControl i).frags : Multiset Word)]

theorem accounted_noted (i : Fin ipMaxFragPackets) (f : Frame)
    (s : Reassembly) : (s.noted i f).accounted = s.accounted := by
  have h := held_setFragControl i
    ((s.fragControl i).noteLast f.ip.isLastFragment) s
  show (s.freed : Multiset Word) + (s.noted i f).held = s.freed + s.held
  exact congrArg _ (add_right_cancel h)

theorem buffers_insertIdx {gs : List Fragment} {pos : Nat} {f : Frame}
    (hpos : pos ≤ gs.length) :
    (buffers (gs.insertIdx pos f.fragment) : Multiset Word)
      = buffers gs + {f.buffer} := by
  have hperm := List.perm_insertIdx f.fragment gs hpos
  rw [buffers, Multiset.coe_eq_coe.mpr (hperm.map _), List.map_cons,
    ← Multiset.cons_coe, ← Multiset.singleton_add, add_comm]
  rfl

theorem accounted_joined {i : Fin ipMaxFragPackets} {pos : Nat} {f : Frame}
    {s : Reassembly} (hpos : pos ≤ (s.fragControl i).frags.length) :
    (s.joined i pos f).accounted = s.accounted + {f.buffer} := by
  have h := held_setFragControl i { (s.fragControl i).noteLast
    f.ip.isLastFragment with
      frags := (s.fragControl i).frags.insertIdx pos f.fragment } (s.noted i f)
  have hfrags : ((s.noted i f).fragControl i).frags
      = (s.fragControl i).frags := by
    unfold noted
    rw [setFragControl_self]
    rfl
  rw [hfrags, buffers_insertIdx hpos, ← add_assoc, add_right_comm] at h
  have hheld := add_right_cancel h
  show (s.freed : Multiset Word) + (s.joined i pos f).held = _
  have hnoted := accounted_noted i f s
  unfold accounted at hnoted ⊢
  rw [← hnoted, add_assoc]
  exact congrArg _ hheld

theorem accounted_begun {i : Fin ipMaxFragPackets} {now : BitVec 32}
    {f : Frame} {s : Reassembly} (hidle : (s.fragControl i).frags = []) :
    (s.begun i now f).accounted = s.accounted + {f.buffer} := by
  have h := held_setFragControl i ⟨true, f.ip.isLastFragment, f.ip.ipSrc,
    f.ip.ident, now, [f.fragment]⟩ s
  have hnil : ((buffers [] : List Word) : Multiset Word) = 0 := rfl
  rw [hidle, hnil, add_zero] at h
  show (s.freed : Multiset Word) + (s.begun i now f).held
    = s.freed + s.held + {f.buffer}
  rw [add_assoc]
  exact congrArg _ h

theorem accounted_makeBigPacket (i : Fin ipMaxFragPackets)
    (s : Reassembly) : (s.makeBigPacket i).2.accounted = s.accounted := by
  unfold makeBigPacket
  cases s.bigPacketFreeList with
  | nil => exact accounted_kill i s
  | cons bp rest => exact accounted_kill i _

end Reassembly

-- ================================================== the table

/-- What a control structure has for its key. -/
structure Entry (arrived : Frame → Prop) (fc : IpFragControl)
    (g : Fragment) : Prop where
  own : g = g.packet.fragment
  arrived : arrived g.packet
  src : g.packet.ip.ipSrc = fc.srcAddr
  ident : g.packet.ip.ident = fc.ident
  fits : g.packet.Fits

/-- A control structure in order: idle ones are empty, the others hold
something and have a place left. -/
structure Orderly (arrived : Frame → Prop) (fc : IpFragControl) : Prop where
  idle : fc.inUse = false → fc.frags = []
  busy : fc.inUse = true → fc.frags ≠ []
  few : fc.frags.length < ipMaxFragsPerPacket
  entry : ∀ g ∈ fc.frags, Entry arrived fc g

/-- All of them are. -/
def Tidy (arrived : Frame → Prop) (s : Reassembly) : Prop :=
  ∀ i, Orderly arrived (s.fragControl i)

variable {arrived : Frame → Prop} {s : Reassembly}

theorem Orderly.killed (fc : IpFragControl) :
    Orderly arrived { fc with inUse := false, frags := [] } where
  idle _ := rfl
  busy h := nomatch h
  few := Nat.zero_lt_succ 9
  entry _ h := nomatch h

theorem Orderly.noteLast {fc : IpFragControl} (h : Orderly arrived fc)
    (last : Bool) : Orderly arrived (fc.noteLast last) where
  idle := h.idle
  busy := h.busy
  few := h.few
  entry g hg :=
    have he := h.entry g hg
    ⟨he.own, he.arrived, he.src, he.ident, he.fits⟩

theorem Orderly.mono {arrived' : Frame → Prop} {fc : IpFragControl}
    (h : Orderly arrived fc) (himp : ∀ f, arrived f → arrived' f) :
    Orderly arrived' fc where
  idle := h.idle
  busy := h.busy
  few := h.few
  entry g hg :=
    have he := h.entry g hg
    ⟨he.own, himp _ he.arrived, he.src, he.ident, he.fits⟩

theorem Tidy.set {i : Fin ipMaxFragPackets} {fc : IpFragControl}
    (h : Tidy arrived s) (hfc : Orderly arrived fc) :
    Tidy arrived (s.setFragControl i fc) := by
  intro j
  by_cases heq : j = i
  · rw [heq, setFragControl_self]
    exact hfc
  · have hkeep : (s.setFragControl i fc).fragControl j = s.fragControl j :=
      Function.update_of_ne heq _ _
    rw [hkeep]
    exact h j

/-- A control structure that is killed is in order whatever it was. -/
theorem tidy_kill {i : Fin ipMaxFragPackets}
    (h : ∀ j, j ≠ i → Orderly arrived (s.fragControl j)) :
    Tidy arrived (s.killFragmentControl i) := by
  intro j
  by_cases heq : j = i
  · have hkilled : (s.killFragmentControl i).fragControl j
        = { s.fragControl i with inUse := false, frags := [] } := by
      rw [heq]
      exact setFragControl_self _ _ _
    rw [hkilled]
    exact .killed _
  · have hkeep : (s.killFragmentControl i).fragControl j = s.fragControl j :=
      Function.update_of_ne heq _ _
    rw [hkeep]
    exact h j heq

theorem tidy_makeBigPacket {i : Fin ipMaxFragPackets}
    (h : ∀ j, j ≠ i → Orderly arrived (s.fragControl j)) :
    Tidy arrived (s.makeBigPacket i).2 := by
  unfold makeBigPacket
  cases s.bigPacketFreeList with
  | nil => exact tidy_kill h
  | cons bp rest => exact tidy_kill h

/-- Only one control structure is written. -/
theorem others_joined {i j : Fin ipMaxFragPackets} {pos : Nat} {f : Frame}
    (hne : j ≠ i) : (s.joined i pos f).fragControl j = s.fragControl j := by
  unfold joined noted setFragControl
  simp [Function.update_of_ne hne]

@[simp] theorem frags_joined (i : Fin ipMaxFragPackets) (pos : Nat)
    (f : Frame) (s : Reassembly) : ((s.joined i pos f).fragControl i).frags
      = (s.fragControl i).frags.insertIdx pos f.fragment := by
  unfold joined
  rw [setFragControl_self]

/-- The fragments of one key, the new one among them. -/
theorem entries_joined {i : Fin ipMaxFragPackets} {pos : Nat} {f : Frame}
    (h : Tidy arrived s) (hf : arrived f)
    (howns : (s.fragControl i).owns f.ip.ipSrc f.ip.ident = true)
    (hfits : f.Fits) (hpos : pos ≤ (s.fragControl i).frags.length) :
    ∀ g ∈ (s.fragControl i).frags.insertIdx pos f.fragment,
      Entry arrived (s.fragControl i) g := by
  intro g hg
  obtain ⟨_, hsrc, hident⟩ := owns_iff.mp howns
  rcases (List.mem_insertIdx hpos).mp hg with heq | hmem
  · rw [heq]
    exact ⟨rfl, hf, hsrc.symm, hident.symm, hfits⟩
  · exact (h i).entry g hmem

/-- A step keeps the table in order. -/
theorem Stepped.tidy {now : BitVec 32} {f : Frame} {out : Option Frame}
    {s' : Reassembly} (h : Tidy arrived s) (hf : arrived f)
    (hstep : Stepped now f s out s') : Tidy arrived s' := by
  cases hstep with
  | refused => exact h
  | started i _ hfits =>
      refine Tidy.set (s := { s with
        fragsInReassembly := s.fragsInReassembly + 1 }) h ?_
      constructor
      · exact fun hno => nomatch hno
      · exact fun _ hnil => nomatch hnil
      · exact Nat.succ_lt_succ (Nat.zero_lt_succ 8)
      · intro g hg
        rw [List.mem_singleton.mp hg]
        exact ⟨rfl, hf, rfl, rfl, hfits⟩
  | tooBig i _ => exact tidy_kill fun j _ => h j
  | again i _ => exact Tidy.set h ((h i).noteLast _)
  | overlaps i _ =>
      have hnoted : Tidy arrived (s.noted i f) := h.set ((h i).noteLast _)
      exact tidy_kill fun j _ => hnoted j
  | put i pos howns hfits hpos hroom =>
      have hnoted : Tidy arrived (s.noted i f) := h.set ((h i).noteLast _)
      refine hnoted.set ?_
      obtain ⟨huse, _⟩ := owns_iff.mp howns
      have hfew := (h i).few
      refine ⟨?_, ?_, ?_, ?_⟩
      · intro hno
        have huse' : (s.fragControl i).inUse = false := hno
        rw [huse] at huse'
        cases huse'
      · intro _ hnil
        have hlen := congrArg List.length hnil
        rw [List.length_insertIdx_of_le_length hpos] at hlen
        cases hlen
      · show ((s.fragControl i).frags.insertIdx pos f.fragment).length < _
        rw [List.length_insertIdx_of_le_length hpos]
        omega
      · intro g hg
        have he := entries_joined h hf howns hfits hpos g hg
        exact ⟨he.own, he.arrived, he.src, he.ident, he.fits⟩
  | filled i pos _ _ =>
      refine tidy_kill fun j hne => ?_
      rw [others_joined hne]
      exact h j
  | completed i pos _ _ _ _ =>
      refine tidy_makeBigPacket fun j hne => ?_
      rw [others_joined hne]
      exact h j

-- ================================================== whole runs

/-- A fragment has come. -/
def Came (evs : List IpEvent) (f : Frame) : Prop :=
  ∃ now, IpEvent.fragment now f ∈ evs

theorem Came.append {evs : List IpEvent} {f : Frame} (h : Came evs f)
    (e : IpEvent) : Came (evs ++ [e]) f := by
  obtain ⟨now, hmem⟩ := h
  exact ⟨now, List.mem_append_left _ hmem⟩

theorem tidy_purge {now : BitVec 32} (xs : List (Fin ipMaxFragPackets)) :
    ∀ s : Reassembly, Tidy arrived s →
      Tidy arrived (xs.foldl (purge now) s) := by
  induction xs with
  | nil => exact fun _ h => h
  | cons i xs ih =>
      intro s h
      refine ih _ ?_
      unfold purge
      split
      · exact tidy_kill fun j _ => h j
      · exact h

theorem tidy_init (arrived : Frame → Prop) (bigs : List Word)
    (content : Word → Nat → Byte) : Tidy arrived (init bigs content) := by
  intro i
  constructor
  · exact fun _ => rfl
  · exact fun h => nomatch h
  · exact Nat.zero_lt_succ 9
  · exact fun _ h => nomatch h

theorem Tidy.handle {e : IpEvent} (h : Tidy arrived s)
    (he : ∀ f, Came [e] f → arrived f) : Tidy arrived (s.handle e).2 := by
  cases e with
  | fragment now f =>
      exact (processFragment_stepped now f s).tidy h
        (he f ⟨now, List.mem_singleton_self _⟩)
  | checkOverdue now =>
      show Tidy arrived (s.fragsCheckOverdue now)
      unfold fragsCheckOverdue
      split
      · exact tidy_purge _ _ h
      · exact h
  | returned bp => exact h

theorem Came.head {e : IpEvent} {evs : List IpEvent} {f : Frame}
    (h : Came [e] f) : Came (e :: evs) f := by
  obtain ⟨now, hmem⟩ := h
  exact ⟨now, List.mem_singleton.mp hmem ▸ List.mem_cons_self⟩

theorem Came.tail {e : IpEvent} {evs : List IpEvent} {f : Frame}
    (h : Came evs f) : Came (e :: evs) f := by
  obtain ⟨now, hmem⟩ := h
  exact ⟨now, List.mem_cons_of_mem e hmem⟩

theorem Tidy.run {evs : List IpEvent} (h : Tidy arrived s)
    (hall : ∀ f, Came evs f → arrived f) : Tidy arrived (s.run evs) := by
  induction evs generalizing s with
  | nil => exact h
  | cons e evs ih =>
      exact ih (h.handle fun f hf => hall f hf.head) fun f hf => hall f hf.tail

-- ================================================== the bytes passed on

/-- A header that leaves the sum with an offset below 64K. -/
def IpHeader.Short (h : IpHeader) : Prop :=
  h.payloadLen.toNat + ipBigPacketSize.toNat < 2 ^ 16

def Frame.Short (f : Frame) : Prop := f.ip.Short

instance (h : IpHeader) : Decidable h.Short :=
  inferInstanceAs (Decidable (_ < _))

instance (f : Frame) : Decidable f.Short :=
  inferInstanceAs (Decidable f.ip.Short)

theorem length_payload (f : Frame) (n : Nat) : (f.payload n).length = n := by
  simp [Frame.payload]

theorem length_gathered_cons (g : Fragment) (gs : List Fragment) :
    (gathered (g :: gs)).length = g.length.toNat + (gathered gs).length := by
  have hcons : gathered (g :: gs)
      = g.packet.payload g.length.toNat ++ gathered gs := List.flatMap_cons
  rw [hcons, List.length_append, length_payload]

/-- Fragments that follow on each other stay within a big packet, if no
sum with their lengths wraps. -/
theorem gathered_le {gs : List Fragment} :
    ∀ start : Word, complete start gs = true →
      start.toNat ≤ ipBigPacketSize.toNat →
      (∀ g ∈ gs, g = g.packet.fragment ∧ g.packet.Fits ∧ g.packet.Short) →
      start.toNat + (gathered gs).length ≤ ipBigPacketSize.toNat := by
  induction gs with
  | nil => exact fun _ _ hstart _ => hstart
  | cons g gs ih =>
      intro start hcomplete hstart hall
      obtain ⟨hown, hfits, hshort⟩ := hall g List.mem_cons_self
      rw [complete, Bool.and_eq_true, decide_eq_true_iff] at hcomplete
      obtain ⟨hoffset, hrest⟩ := hcomplete
      have hsize : ipBigPacketSize.toNat = 2048 := rfl
      have hoff : g.packet.ip.fragmentOffset = start := by
        rw [hoffset, hown]
        rfl
      have hlen : g.packet.ip.payloadLen = g.length := by
        rw [hown]
        rfl
      unfold Frame.Short IpHeader.Short at hshort
      unfold Frame.Fits at hfits
      rw [hlen] at hshort
      have hnext : (start + g.length).toNat = start.toNat + g.length.toNat := by
        rw [BitVec.toNat_add, Nat.mod_eq_of_lt (by omega)]
      rw [hoff, hlen, BitVec.lt_def, hnext] at hfits
      have hle := ih (start + g.length) hrest (by rw [hnext]; omega)
        fun g' hg' => hall g' (List.mem_cons_of_mem _ hg')
      rw [length_gathered_cons]
      omega

/-- What is passed on is a big packet: what it is made of, and whether it
had room for that. -/
theorem makeBigPacket_cases (i : Fin ipMaxFragPackets) (s : Reassembly) :
    s.makeBigPacket i = (none, s.killFragmentControl i)
      ∨ ∃ F, (s.makeBigPacket i).1 = some F
        ∧ F.ip = bigHeader (gatheredLen (s.fragControl i).frags)
          ((s.fragControl i).frags.map Fragment.packet).headI.ip
        ∧ (∀ k (hk : k < (gathered (s.fragControl i).frags).length),
          F.raw (20 + k) = (gathered (s.fragControl i).frags)[k])
        ∧ (s.makeBigPacket i).2.overrun = (s.overrun || decide
          (ipBigPacketSize.toNat
            < (gathered (s.fragControl i).frags).length)) := by
  unfold makeBigPacket
  cases s.bigPacketFreeList with
  | nil => exact .inl rfl
  | cons bp rest =>
      refine .inr ⟨_, rfl, IpHeader.ofRaw_copied _ _ _, fun k hk => ?_, rfl⟩
      have hlen := IpHeader.length_bytes (bigHeader
        (gatheredLen (s.fragControl i).frags)
        ((s.fragControl i).frags.map Fragment.packet).headI.ip)
      show copied _ _ (20 + k) = _
      rw [copied_getElem (by rw [List.length_append]; omega),
        List.getElem_append_right (by omega)]
      simp only [hlen, Nat.add_sub_cancel_left]

/-- The fragments that are complete stay within a big packet, if none has
such a length that the sum wraps. -/
theorem completed_le {i : Fin ipMaxFragPackets} {pos : Nat} {f : Frame}
    (h : Tidy arrived s) (hf : arrived f) (hshort : ∀ g, arrived g → g.Short)
    (howns : (s.fragControl i).owns f.ip.ipSrc f.ip.ident = true)
    (hfits : f.Fits) (hpos : pos ≤ (s.fragControl i).frags.length)
    (hcomplete : complete 0
      ((s.fragControl i).frags.insertIdx pos f.fragment) = true) :
    (gathered ((s.fragControl i).frags.insertIdx pos f.fragment)).length
      ≤ ipBigPacketSize.toNat := by
  have hentry := entries_joined h hf howns hfits hpos
  refine (Nat.le_add_left _ _).trans
    (gathered_le 0 hcomplete (Nat.zero_le _) fun g hg => ?_)
  have he := hentry g hg
  exact ⟨he.own, he.fits, hshort _ he.arrived⟩

/-- So nothing is written behind it. -/
theorem Stepped.within {now : BitVec 32} {f : Frame} {out : Option Frame}
    {s' : Reassembly} (h : Tidy arrived s) (hf : arrived f)
    (hshort : ∀ g, arrived g → g.Short) (hstep : Stepped now f s out s')
    (hwithin : s.overrun = false) : s'.overrun = false := by
  cases hstep with
  | completed i pos howns hfits hpos hcomplete =>
      have hle := completed_le h hf hshort howns hfits hpos hcomplete
      rcases makeBigPacket_cases i (s.joined i pos f) with heq
        | ⟨F, -, -, -, hover⟩
      · rw [heq]
        exact hwithin
      · rw [frags_joined, decide_eq_false (Nat.not_lt.mpr hle),
          Bool.or_false] at hover
        exact hover.trans hwithin
  | _ => exact hwithin

theorem within_purge {now : BitVec 32} (xs : List (Fin ipMaxFragPackets)) :
    ∀ s : Reassembly, (xs.foldl (purge now) s).overrun = s.overrun := by
  induction xs with
  | nil => exact fun _ => rfl
  | cons i xs ih =>
      intro s
      refine (ih _).trans ?_
      unfold purge
      split
      · rfl
      · rfl

theorem within_fragsCheckOverdue (now : BitVec 32) (s : Reassembly) :
    (s.fragsCheckOverdue now).overrun = s.overrun := by
  unfold fragsCheckOverdue
  split
  · exact within_purge _ s
  · rfl

theorem within_run {evs : List IpEvent} (h : Tidy arrived s)
    (hall : ∀ f, Came evs f → arrived f) (hshort : ∀ g, arrived g → g.Short)
    (hwithin : s.overrun = false) : (s.run evs).overrun = false := by
  induction evs generalizing s with
  | nil => exact hwithin
  | cons e evs ih =>
      refine ih (h.handle fun f hf => hall f hf.head)
        (fun f hf => hall f hf.tail) ?_
      cases e with
      | fragment now f =>
          exact (processFragment_stepped now f s).within h
            (hall f ⟨now, List.mem_cons_self⟩) hshort hwithin
      | checkOverdue now => exact (within_fragsCheckOverdue now s).trans hwithin
      | returned bp => exact hwithin

/-- A packet made of what came: its key, its size, and where each of its
bytes is from. -/
structure Sound (arrived : Frame → Prop) (f F : Frame) : Prop where
  src : F.ip.ipSrc = f.ip.ipSrc
  ident : F.ip.ident = f.ip.ident
  isFragment : F.ip.isFragment = false
  fits : F.ip.payloadLen.toNat ≤ ipBigPacketSize.toNat
  byte : ∀ i < F.ip.payloadLen.toNat, ∃ g, arrived g
    ∧ g.ip.ipSrc = f.ip.ipSrc ∧ g.ip.ident = f.ip.ident
    ∧ ∃ j < g.ip.payloadLen.toNat, i = g.ip.fragmentOffset.toNat + j
      ∧ F.raw (F.ip.getIpHlen.toNat + i)
        = g.raw (g.ip.getIpHlen.toNat + j)

/-- No big packet is written past its end. -/
theorem within_processFragment {evs : List IpEvent} {now : BitVec 32}
    {f : Frame} (bigs : List Word) (content : Word → Nat → Byte)
    (hshort : ∀ g, Came (evs ++ [.fragment now f]) g → g.Short) :
    (((init bigs content).run evs).processFragment now f).2.overrun
      = false := by
  have hall : ∀ g, Came evs g → Came (evs ++ [.fragment now f]) g :=
    fun g hg => hg.append _
  have htidy : Tidy (Came (evs ++ [.fragment now f]))
      ((init bigs content).run evs) := (tidy_init _ bigs content).run hall
  refine (processFragment_stepped now f _).within htidy ?_ hshort ?_
  · exact ⟨now, List.mem_append_right _ (List.mem_singleton_self _)⟩
  · exact within_run (tidy_init _ bigs content) hall hshort rfl

/-- A packet of ten bytes that is cut in two. -/
def twoPieces : Datagram where
  src := #v[10, 0, 0, 1]
  dest := #v[10, 0, 0, 2]
  ident := 0x0700
  protocol := 17
  pieces := [[1, 2, 3, 4, 5, 6, 7, 8], [9, 10]]
  nonempty := by decide
  several := by decide
  few := by decide
  fits := by decide

/-- The first of them, and the last. -/
def twoPieces.frame (k : Nat) : Frame where
  buffer := BitVec.ofNat 16 k
  eh := []
  raw i := ((if k = 0 then
      [0x45, 0, 0, 28, 0, 7, 0x20, 0, 64, 17, 0x46, 0xC8, 10, 0, 0, 1, 10, 0,
        0, 2]
    else
      [0x45, 0, 0, 22, 0, 7, 0, 1, 64, 17, 0x66, 0xCD, 10, 0, 0, 1, 10, 0,
        0, 2])
    ++ twoPieces.piece k : List Byte).getD i 0

theorem twoPieces.isPiece {k : Nat} (hk : k < 2) :
    twoPieces.IsPiece k (twoPieces.frame k) := by
  rcases Nat.le_one_iff_eq_zero_or_eq_one.mp (Nat.le_of_lt_succ hk) with
    rfl | rfl
  · constructor <;> decide
  · constructor <;> decide

theorem twoPieces.short {g : Frame} (hg : Came ([.fragment 0 (frame 1)]
    ++ [.fragment 5 (frame 0)]) g) : g.Short := by
  obtain ⟨now, hmem⟩ := hg
  rcases List.mem_cons.mp hmem with heq | hmem'
  · rw [(IpEvent.fragment.inj heq).2]
    decide
  · rw [(IpEvent.fragment.inj (List.mem_singleton.mp hmem')).2]
    decide

/-- The pieces of a packet come in any order and any number of times, with
fragments of other packets between them: until the last missing piece is
there nothing is passed on, and then it is the packet, uncut. Before the
first of them no other fragment with their key may wait, and no fragment
may have such a length that a big packet is written past its end. -/
theorem reassembly_delivers (d : Datagram) (bigs : List Word)
    (content : Word → Nat → Byte) (pre evs : List IpEvent) (now : BitVec 32)
    (f : Frame)
    (hfresh : ((init bigs content).run pre).findFragControl d.src d.ident
      = none)
    (hfair : FairRun d ((init bigs content).run pre)
      (evs ++ [.fragment now f]))
    (hshort : ∀ g, Came (pre ++ evs ++ [.fragment now f]) g → g.Short)
    (hkey : f.ip.ipSrc = d.src ∧ f.ip.ident = d.ident)
    (hmissing : ∃ j < d.count, ¬ Arrived d evs j) :
    let r := ((init bigs content).run (pre ++ evs)).processFragment now f
    (r.1.isSome = true
        ↔ ∀ j < d.count, Arrived d (evs ++ [.fragment now f]) j)
      ∧ (∀ F, r.1 = some F → Whole d F) ∧ r.2.overrun = false := by
  rw [← and_assoc]
  refine ⟨?_, within_processFragment bigs content hshort⟩
  rw [run_append]
  have hfair' : FairRun d ((init bigs content).run pre) evs :=
    fun before e' post heq =>
      hfair before e' (post ++ [.fragment now f]) (by simp [heq])
  have hw := waiting_run hfresh evs hfair' hmissing
  obtain ⟨⟨k, hf⟩, hroom, hbig⟩ := hfair evs _ [] rfl hkey
  have harr : ∀ j, Arrived d (evs ++ [.fragment now f]) j
      ↔ j = k ∨ Arrived d evs j := by
    intro j
    rw [arrived_append, or_comm]
    refine or_congr_left ⟨?_, ?_⟩
    · intro h
      obtain ⟨now', f', heq, hf'⟩ := h
      obtain ⟨rfl, rfl⟩ := IpEvent.fragment.inj heq
      exact hf'.unique hf
    · intro h
      exact ⟨now, f, rfl, h ▸ hf⟩
  simp only [harr]
  rcases piece_step now hw hf hroom hmissing with
    ⟨⟨j, hj, hno⟩, hout, _⟩ | ⟨hall, hwhole⟩
  · rw [hout]
    constructor
    · exact iff_of_false (by simp) fun h => hno (h j hj)
    · intro F hF
      cases hF
  · obtain ⟨F, hF, hwhole'⟩ := hwhole hbig
    rw [hF]
    refine ⟨⟨fun _ => hall, fun _ => rfl⟩, ?_⟩
    intro F' hF'
    exact Option.some.inj hF' ▸ hwhole'

/-- The last piece comes first. -/
theorem reassembly_delivers_twoPieces :
    ∃ F, (((init [7] fun _ _ => 0).run [.fragment 0 (twoPieces.frame 1)]
        ).processFragment 5 (twoPieces.frame 0)).1 = some F
      ∧ Whole twoPieces F := by
  have hfair : FairRun twoPieces (init [7] fun _ _ => 0)
      ([.fragment 0 (twoPieces.frame 1)]
        ++ [.fragment 5 (twoPieces.frame 0)]) := by
    intro pre e post heq
    rcases pre with - | ⟨e₁, - | ⟨e₂, pre⟩⟩
    · cases heq
      exact fun _ => ⟨⟨1, twoPieces.isPiece (by decide)⟩,
        fun _ => by decide, by decide⟩
    · cases heq
      exact fun _ => ⟨⟨0, twoPieces.isPiece (by decide)⟩,
        fun _ => by decide, by decide⟩
    · cases pre <;> cases heq
  have harr : ∀ j < twoPieces.count, Arrived twoPieces
      ([.fragment 0 (twoPieces.frame 1)]
        ++ [.fragment 5 (twoPieces.frame 0)]) j := by
    intro j hj
    rcases Nat.le_one_iff_eq_zero_or_eq_one.mp (Nat.le_of_lt_succ hj) with
      rfl | rfl
    · exact ⟨5, _, .tail _ (.head _), twoPieces.isPiece (by decide)⟩
    · exact ⟨0, _, .head _, twoPieces.isPiece (by decide)⟩
  have hmissing : ∃ j < twoPieces.count,
      ¬ Arrived twoPieces [.fragment 0 (twoPieces.frame 1)] j := by
    refine ⟨0, by decide, fun harr => ?_⟩
    obtain ⟨now, f, hmem, hf⟩ := harr
    obtain ⟨rfl, rfl⟩ := IpEvent.fragment.inj (List.mem_singleton.mp hmem)
    have hsame := hf.unique (twoPieces.isPiece (by decide))
    exact absurd hsame (by decide)
  obtain ⟨hiff, hwhole, -⟩ := reassembly_delivers twoPieces [7]
    (fun _ _ => 0) [] [.fragment 0 (twoPieces.frame 1)] 5 (twoPieces.frame 0)
    (by decide) hfair (fun g hg => twoPieces.short hg) (by decide) hmissing
  obtain ⟨F, hF⟩ := Option.isSome_iff_exists.mp (hiff.mpr harr)
  exact ⟨F, hF, hwhole F hF⟩

end Pdtb.Net
