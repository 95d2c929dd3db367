/-
Fragments put together again.

A `Datagram` is a packet as its sender cut it: pieces in order, none
empty, few enough and small enough for the tables here. `Collecting` is
the invariant from its first fragment to the one before the last missing
one: there is one control structure with its key, and that holds the pieces
that have arrived, each once and in order. It does not matter in which
order they came, how often, and what came between them: a fragment of
another packet touches only control structures with another key or with
none (`processFragment_spares`).

The pieces held are complete when they are all of them (`complete_iff`):
they begin at 0, follow on each other, and the last one is there.
-/
import Pdtb.Proofs.Header
import Mathlib.Data.List.Forall2
import Mathlib.Data.List.Perm.Subperm
import Mathlib.Data.List.Induction

namespace Pdtb.Net

open Lib

-- ================================================== a packet in pieces

/-- A packet as it was cut. -/
structure Datagram where
  src : IpAddr
  dest : IpAddr
  ident : Word
  protocol : Byte
  pieces : List (List Byte)
  nonempty : ∀ p ∈ pieces, p ≠ []
  several : 2 ≤ pieces.length
  few : pieces.length ≤ ipMaxFragsPerPacket
  fits : pieces.flatten.length ≤ ipBigPacketSize.toNat

namespace Datagram

variable (d : Datagram) {j k : Nat}

/-- How many pieces there are. -/
def count : Nat := d.pieces.length

def piece (k : Nat) : List Byte := d.pieces.getD k []

/-- Where a piece begins. -/
def offset (k : Nat) : Nat := (d.pieces.take k).flatten.length

@[simp] theorem offset_zero : d.offset 0 = 0 := rfl

theorem offset_succ (hk : k < d.count) :
    d.offset (k + 1) = d.offset k + (d.piece k).length := by
  unfold offset piece
  rw [List.take_add_one, List.getElem?_eq_getElem hk,
    List.getD_eq_getElem _ _ hk]
  simp

theorem piece_pos (hk : k < d.count) : 0 < (d.piece k).length := by
  have hmem : d.pieces[k] ∈ d.pieces := List.getElem_mem hk
  unfold piece
  rw [List.getD_eq_getElem _ _ hk]
  exact List.length_pos_of_ne_nil (d.nonempty _ hmem)

/-- Later pieces begin where earlier ones have ended, or behind that. -/
theorem offset_add_le (hjk : j < k) (hk : k ≤ d.count) :
    d.offset j + (d.piece j).length ≤ d.offset k := by
  induction k with
  | zero => omega
  | succ k ih =>
      rw [d.offset_succ (by omega)]
      by_cases heq : j = k
      · rw [heq]
      · have := ih (by omega) (by omega)
        omega

theorem offset_lt (hjk : j < k) (hk : k ≤ d.count) :
    d.offset j < d.offset k := by
  have := d.offset_add_le hjk hk
  have := d.piece_pos (k := j) (by omega)
  omega

theorem offset_inj (hj : j ≤ d.count) (hk : k ≤ d.count) :
    d.offset j = d.offset k ↔ j = k := by
  constructor
  · intro h
    by_contra hne
    rcases Nat.lt_or_gt_of_ne hne with hlt | hlt
    · have := d.offset_lt hlt hk
      omega
    · have := d.offset_lt hlt hj
      omega
  · intro h
    rw [h]

theorem offset_count : d.offset d.count = d.pieces.flatten.length := by
  unfold offset count
  rw [List.take_length]

theorem offset_le (hk : k ≤ d.count) : d.offset k ≤ 2048 := by
  have hfits : d.offset d.count ≤ 2048 := by
    rw [offset_count]
    exact d.fits
  by_cases heq : k = d.count
  · rw [heq]
    exact hfits
  · have := d.offset_lt (j := k) (k := d.count) (by omega) (Nat.le_refl _)
    omega

/-- Offsets are words as they are. -/
theorem offset_word (hk : k ≤ d.count) :
    (BitVec.ofNat 16 (d.offset k)).toNat = d.offset k := by
  have := d.offset_le hk
  rw [BitVec.toNat_ofNat, Nat.mod_eq_of_lt (by omega)]

theorem piece_word (hk : k < d.count) :
    (BitVec.ofNat 16 (d.piece k).length).toNat = (d.piece k).length := by
  have := d.offset_le (k := k + 1) (by omega)
  rw [d.offset_succ hk] at this
  rw [BitVec.toNat_ofNat, Nat.mod_eq_of_lt (by omega)]

/-- The end of a piece, in words. -/
theorem end_word (k : Nat) (hk : k < d.count) :
    BitVec.ofNat 16 (d.offset k) + BitVec.ofNat 16 (d.piece k).length
      = BitVec.ofNat 16 (d.offset (k + 1)) := by
  rw [d.offset_succ hk, BitVec.ofNat_add]

theorem flatMap_range : (List.range d.count).flatMap d.piece
    = d.pieces.flatten := by
  have hmap : (List.range d.count).map d.piece = d.pieces := by
    apply List.ext_getElem
    · simp [count]
    · intro i hi hi'
      rw [List.getElem_map, List.getElem_range, piece,
        List.getD_eq_getElem _ _ hi']
  rw [List.flatMap_def, hmap]

/-- A frame with the `k`-th piece, as the sender sends it. -/
structure IsPiece (k : Nat) (f : Frame) : Prop where
  lt : k < d.count
  src : f.ip.ipSrc = d.src
  dest : f.ip.ipDest = d.dest
  ident : f.ip.ident = d.ident
  protocol : f.ip.protocol = d.protocol
  offset : f.ip.fragmentOffset = BitVec.ofNat 16 (d.offset k)
  length : f.ip.payloadLen = BitVec.ofNat 16 (d.piece k).length
  last : f.ip.isLastFragment = decide (k + 1 = d.count)
  payload : f.payload (d.piece k).length = d.piece k

variable {d}

theorem IsPiece.unique {f : Frame} (hj : d.IsPiece j f)
    (hk : d.IsPiece k f) : j = k := by
  have hjl := hj.lt
  have hkl := hk.lt
  have h := congrArg BitVec.toNat (hj.offset.symm.trans hk.offset)
  rw [d.offset_word (by omega), d.offset_word (by omega)] at h
  exact (d.offset_inj (by omega) (by omega)).mp h

variable (d)

/-- An entry of a control structure with the `k`-th piece. -/
structure Held (k : Nat) (g : Fragment) : Prop where
  packet : d.IsPiece k g.packet
  offset : g.offset = BitVec.ofNat 16 (d.offset k)
  length : g.length = BitVec.ofNat 16 (d.piece k).length

end Datagram

open Datagram

variable {d : Datagram}

-- ================================================== pieces in order

theorem offset_le_iff {j k : Nat} {g : Fragment} (hk : k < d.count)
    (hg : d.Held j g) :
    BitVec.ofNat 16 (d.offset k) ≤ g.offset ↔ k ≤ j := by
  have hj := hg.packet.lt
  rw [hg.offset, BitVec.le_def, d.offset_word (by omega),
    d.offset_word (by omega)]
  constructor
  · intro h
    by_contra hlt
    have := d.offset_lt (j := j) (k := k) (by omega) (by omega)
    omega
  · intro h
    by_cases heq : k = j
    · rw [heq]
    · have := d.offset_lt (j := k) (k := j) (by omega) (by omega)
      omega

theorem held_lt {ks : List Nat} {gs : List Fragment} {k : Nat}
    (hheld : List.Forall₂ d.Held ks gs) (hk : k ∈ ks) : k < d.count := by
  induction hheld with
  | nil => cases hk
  | cons hg _ ih =>
      rcases List.mem_cons.mp hk with heq | hk'
      · exact heq ▸ hg.packet.lt
      · exact ih hk'

/-- Where a piece that is there is found. -/
theorem find_held {ks : List Nat} {gs : List Fragment} {k : Nat}
    (hheld : List.Forall₂ d.Held ks gs) (hsorted : ks.Pairwise (· < ·))
    (hk : k < d.count) (hmem : k ∈ ks) :
    ∃ next, gs[gs.findIdx fun g => BitVec.ofNat 16 (d.offset k) ≤ g.offset]?
      = some next ∧ d.Held k next := by
  induction hheld with
  | nil => cases hmem
  | @cons j g ks gs hg _ ih =>
      have hle := offset_le_iff hk hg
      obtain ⟨hall, hsorted'⟩ := List.pairwise_cons.mp hsorted
      rcases List.mem_cons.mp hmem with heq | hmem'
      · subst heq
        refine ⟨g, ?_, hg⟩
        rw [List.findIdx_cons, decide_eq_true (hle.mpr (Nat.le_refl k))]
        rfl
      · have hlt := hall k hmem'
        obtain ⟨next, hnext, hheld'⟩ := ih hsorted' hmem'
        refine ⟨next, ?_, hheld'⟩
        rw [List.findIdx_cons,
          decide_eq_false (fun h => absurd (hle.mp h) (by omega))]
        exact hnext

/-- Where a new piece goes: what is before it has a smaller number, and
what is behind it a greater one. -/
theorem insert_held {ks : List Nat} {gs : List Fragment} {k : Nat}
    {new : Fragment} (hheld : List.Forall₂ d.Held ks gs)
    (hsorted : ks.Pairwise (· < ·)) (hnew : d.Held k new) (hmem : k ∉ ks) :
    (∀ next, gs[gs.findIdx fun g => new.offset ≤ g.offset]? = some next →
        ∃ j, k < j ∧ d.Held j next)
      ∧ ∃ ks', List.Forall₂ d.Held ks'
          (gs.insertIdx (gs.findIdx fun g => new.offset ≤ g.offset) new)
        ∧ ks'.Pairwise (· < ·) ∧ ∀ j, j ∈ ks' ↔ j = k ∨ j ∈ ks := by
  rw [hnew.offset]
  induction hheld with
  | nil =>
      refine ⟨?_, [k], ?_, ?_, ?_⟩
      · intro next h
        cases h
      · exact .cons hnew .nil
      · exact List.pairwise_singleton _ _
      · intro j
        simp
  | @cons j g ks gs hg htail ih =>
      have hle := offset_le_iff hnew.packet.lt hg
      obtain ⟨hall, hsorted'⟩ := List.pairwise_cons.mp hsorted
      have hne : k ≠ j := fun h => hmem (h ▸ List.mem_cons_self)
      by_cases hlt : k < j
      · rw [List.findIdx_cons, decide_eq_true (hle.mpr hlt.le), cond_true,
          List.insertIdx_zero]
        refine ⟨?_, k :: j :: ks, .cons hnew (.cons hg htail), ?_, ?_⟩
        · intro next hnext
          obtain rfl : g = next := Option.some.inj hnext
          exact ⟨j, hlt, hg⟩
        · refine List.pairwise_cons.mpr ⟨?_, hsorted⟩
          intro i hi
          rcases List.mem_cons.mp hi with heq | hi'
          · exact heq ▸ hlt
          · exact hlt.trans (hall i hi')
        · intro i
          simp only [List.mem_cons]
      · have hgt : j < k := by omega
        obtain ⟨hnext, ks', hheld', hsorted'', hmem'⟩ :=
          ih hsorted' (fun h => hmem (List.mem_cons_of_mem _ h))
        rw [List.findIdx_cons,
          decide_eq_false (fun h => hlt (by have := hle.mp h; omega)),
          cond_false, List.insertIdx_succ_cons]
        refine ⟨?_, j :: ks', .cons hg hheld', ?_, ?_⟩
        · intro next hsome
          exact hnext next (by simpa using hsome)
        · refine List.pairwise_cons.mpr ⟨?_, hsorted''⟩
          intro i hi
          rcases (hmem' i).mp hi with heq | hi'
          · exact heq ▸ hgt
          · exact hall i hi'
        · intro i
          simp only [List.mem_cons, hmem']
          tauto

/-- The pieces held follow on each other from the `m`-th on just when they
are numbered so. -/
theorem complete_range {ks : List Nat} {gs : List Fragment}
    (hheld : List.Forall₂ d.Held ks gs) :
    ∀ m ≤ d.count, Reassembly.complete (BitVec.ofNat 16 (d.offset m)) gs = true
      ↔ ks = List.range' m ks.length := by
  induction hheld with
  | nil => exact fun m _ => iff_of_true rfl rfl
  | @cons j g ks gs hg _ ih =>
      intro m hm
      have hj := hg.packet.lt
      have hstart : BitVec.ofNat 16 (d.offset m) = g.offset ↔ m = j := by
        rw [hg.offset, ← BitVec.toNat_inj, d.offset_word hm,
          d.offset_word (by omega)]
        exact d.offset_inj hm (by omega)
      rw [Reassembly.complete, Bool.and_eq_true, decide_eq_true_iff, hstart,
        List.length_cons, List.range'_succ, List.cons.injEq]
      constructor
      · intro hand
        obtain ⟨rfl, hrest⟩ := hand
        rw [hg.length, d.end_word m hj] at hrest
        exact ⟨rfl, (ih (m + 1) hj).mp hrest⟩
      · intro hand
        obtain ⟨rfl, hrest⟩ := hand
        rw [hg.length, d.end_word j hj]
        exact ⟨rfl, (ih (j + 1) hj).mpr hrest⟩

/-- With the last piece among them, they are complete when they are all
there. -/
theorem complete_iff {ks : List Nat} {gs : List Fragment}
    (hheld : List.Forall₂ d.Held ks gs) (hlast : d.count - 1 ∈ ks) :
    Reassembly.complete 0 gs = true ↔ ks = List.range d.count := by
  have hpos := d.several
  have hcount : d.count = d.pieces.length := rfl
  have hrange := complete_range hheld 0 (Nat.zero_le _)
  rw [d.offset_zero] at hrange
  refine hrange.trans ?_
  rw [← List.range_eq_range']
  constructor
  · intro h
    rw [h, List.mem_range] at hlast
    have hlen : ks.length ≤ d.count := by
      by_contra hlt
      have hmem : d.count ∈ ks := by
        rw [h, List.mem_range]
        omega
      have hlt' := held_lt hheld hmem
      omega
    have heq : ks.length = d.count := by omega
    rw [← heq]
    exact h
  · intro h
    rw [h, List.length_range]

-- ================================================== the table

/-- Whether a control structure is for the fragments with this key. -/
def IpFragControl.owns (src : IpAddr) (ident : Word) (fc : IpFragControl) :
    Bool :=
  fc.inUse && fc.srcAddr == src && fc.ident == ident

theorem owns_iff {src : IpAddr} {ident : Word} {fc : IpFragControl} :
    fc.owns src ident = true
      ↔ fc.inUse = true ∧ fc.srcAddr = src ∧ fc.ident = ident := by
  simp [IpFragControl.owns, and_assoc]

theorem findFragControl_owns {src : IpAddr} {ident : Word} {s : Reassembly}
    {i : Fin ipMaxFragPackets} (h : s.findFragControl src ident = some i) :
    (s.fragControl i).owns src ident = true :=
  List.find?_some (p := fun i => (s.fragControl i).owns src ident) h

/-- The first of fewer is the first of all that is still there. -/
theorem find?_of_imp {α : Type} {p q : α → Bool} {xs : List α} {a : α}
    (himp : ∀ x, q x = true → p x = true) (hp : xs.find? p = some a)
    (ha : q a = true) : xs.find? q = some a := by
  induction xs with
  | nil => cases hp
  | cons x xs ih =>
      rw [List.find?_cons] at hp ⊢
      cases hpx : p x with
      | true =>
          rw [hpx] at hp
          obtain rfl : x = a := Option.some.inj hp
          rw [ha]
      | false =>
          rw [hpx] at hp
          have hqx : q x = false := by
            rw [Bool.eq_false_iff]
            intro hq
            rw [himp x hq] at hpx
            cases hpx
          rw [hqx]
          exact ih hp

@[simp] theorem Reassembly.setFragControl_self (i : Fin ipMaxFragPackets)
    (fc : IpFragControl) (s : Reassembly) :
    (s.setFragControl i fc).fragControl i = fc := Function.update_self _ _ _

/-- What a step does to the control structures with some key: they stay
as they are, and there is no other. -/
structure Spares (src : IpAddr) (ident : Word) (s s' : Reassembly) :
    Prop where
  kept : ∀ i, (s.fragControl i).owns src ident = true →
    s'.fragControl i = s.fragControl i
  old : ∀ i, (s'.fragControl i).owns src ident = true →
    (s.fragControl i).owns src ident = true

namespace Spares

variable {src : IpAddr} {ident : Word} {s s' s'' : Reassembly}
  {i : Fin ipMaxFragPackets}

theorem refl (h : s'.fragControl = s.fragControl) : Spares src ident s s' := by
  constructor
  · intro i _
    rw [h]
  · intro i howns
    rwa [h] at howns

theorem trans (h : Spares src ident s s') (h' : Spares src ident s' s'') :
    Spares src ident s s'' := by
  constructor
  · intro i howns
    have heq := h.kept i howns
    rw [← heq] at howns
    exact (h'.kept i howns).trans heq
  · intro i howns
    exact h.old i (h'.old i howns)

/-- A control structure without the key becomes another one without it. -/
theorem set {fc : IpFragControl} (h : ¬ (s.fragControl i).owns src ident = true)
    (hfc : ¬ fc.owns src ident = true)
    (hs : s'.fragControl = Function.update s.fragControl i fc) :
    Spares src ident s s' := by
  constructor
  · intro j howns
    have hne : j ≠ i := fun heq => h (heq ▸ howns)
    rw [hs, Function.update_of_ne hne]
  · intro j howns
    rw [hs] at howns
    by_cases heq : j = i
    · rw [heq, Function.update_self] at howns
      exact absurd howns hfc
    · rwa [Function.update_of_ne heq] at howns

theorem kill (h : ¬ (s.fragControl i).owns src ident = true) :
    Spares src ident s (s.killFragmentControl i) := by
  have hidle : ¬ ({ s.fragControl i with
      inUse := false, frags := [] } : IpFragControl).owns src ident = true := by
    simp [IpFragControl.owns]
  exact set h hidle rfl

theorem makeBigPacket (h : ¬ (s.fragControl i).owns src ident = true) :
    Spares src ident s (s.makeBigPacket i).2 := by
  refine (kill h).trans (refl ?_)
  unfold Reassembly.makeBigPacket
  cases s.bigPacketFreeList <;> rfl

theorem insertFragment {insertPos : Nat} {g : Fragment}
    (h : ¬ (s.fragControl i).owns src ident = true) :
    Spares src ident s (s.insertFragment i insertPos g).2 := by
  have hset : ∀ fc : IpFragControl, fc = { s.fragControl i with
      frags := (s.fragControl i).frags.insertIdx insertPos g } →
      Spares src ident s (s.setFragControl i fc)
        ∧ ¬ ((s.setFragControl i fc).fragControl i).owns src ident = true := by
    intro fc hfc
    have hno : ¬ fc.owns src ident = true := by
      rw [hfc]
      exact h
    refine ⟨set h hno rfl, ?_⟩
    rwa [Reassembly.setFragControl_self]
  obtain ⟨hspare, hno⟩ := hset _ rfl
  unfold Reassembly.insertFragment
  simp only
  split
  · exact hspare.trans (makeBigPacket hno)
  · split
    · exact hspare.trans (kill hno)
    · exact hspare

/-- What is found stays found. -/
theorem found (h : Spares src ident s s')
    (hfind : s.findFragControl src ident = some i) :
    s'.findFragControl src ident = some i
      ∧ s'.fragControl i = s.fragControl i := by
  have howns := findFragControl_owns hfind
  have heq := h.kept i howns
  refine ⟨?_, heq⟩
  exact find?_of_imp (fun j => h.old j) hfind
    (by show (s'.fragControl i).owns src ident = true; rwa [heq])

theorem notFound (h : Spares src ident s s')
    (hfind : s.findFragControl src ident = none) :
    s'.findFragControl src ident = none := by
  refine List.find?_eq_none.mpr fun j hj howns => ?_
  exact List.find?_eq_none.mp hfind j hj (h.old j howns)

end Spares

/-- A fragment of another packet changes nothing for this one. -/
theorem processFragment_spares {src : IpAddr} {ident : Word}
    (now : BitVec 32) {f : Frame} (s : Reassembly)
    (hother : ¬ (f.ip.ipSrc = src ∧ f.ip.ident = ident)) :
    Spares src ident s (s.processFragment now f).2 := by
  unfold Reassembly.processFragment
  cases hfind : s.findFragControl f.ip.ipSrc f.ip.ident with
  | none =>
      show Spares src ident s (s.startReassembly now f)
      unfold Reassembly.startReassembly
      cases hopen : s.findOpenFragControl with
      | none => exact .refl rfl
      | some i =>
          have hidle : (s.fragControl i).inUse = false := by
            simpa using List.find?_some hopen
          simp only
          split
          · exact .refl rfl
          · refine Spares.set (i := i) ?_ ?_ rfl
            · simp [IpFragControl.owns, hidle]
            · rw [owns_iff]
              intro hand
              exact hother ⟨hand.2.1, hand.2.2⟩
  | some i =>
      have howns := findFragControl_owns hfind
      have hno : ∀ fc : IpFragControl,
          fc.srcAddr = (s.fragControl i).srcAddr →
          fc.ident = (s.fragControl i).ident →
          ¬ fc.owns src ident = true := by
        intro fc hsrc hident h
        obtain ⟨_, hs, hi⟩ := owns_iff.mp howns
        obtain ⟨_, hs', hi'⟩ := owns_iff.mp h
        exact hother ⟨by rw [← hs, ← hsrc, hs'], by rw [← hi, ← hident, hi']⟩
      have hi := hno (s.fragControl i) rfl rfl
      show Spares src ident s (s.continueReassembly i f).2
      unfold Reassembly.continueReassembly
      simp only
      split
      · have hfree : Spares src ident s (s.bufferFree f.buffer) := .refl rfl
        exact hfree.trans (.kill hi)
      · have hnote := hno ((s.fragControl i).noteLast f.ip.isLastFragment)
          rfl rfl
        have hset : Spares src ident s (s.setFragControl i
            ((s.fragControl i).noteLast f.ip.isLastFragment)) :=
          .set hi hnote rfl
        have hnote' : ¬ ((s.setFragControl i ((s.fragControl i).noteLast
            f.ip.isLastFragment)).fragControl i).owns src ident = true := by
          rwa [Reassembly.setFragControl_self]
        split
        · exact hset.trans (.insertFragment hnote')
        · split
          · exact hset.trans (.refl rfl)
          · split
            · have hfree : Spares src ident s ((s.setFragControl i
                  ((s.fragControl i).noteLast
                    f.ip.isLastFragment)).bufferFree f.buffer) :=
                hset.trans (.refl rfl)
              exact hfree.trans (.kill hnote')
            · exact hset.trans (.insertFragment hnote')

-- ================================================== the whole packet

theorem gathered_held {ks : List Nat} {gs : List Fragment}
    (hheld : List.Forall₂ d.Held ks gs) :
    Reassembly.gathered gs = ks.flatMap d.piece := by
  induction hheld with
  | nil => rfl
  | @cons k g ks gs hg _ ih =>
      unfold Reassembly.gathered at ih ⊢
      rw [List.flatMap_cons, List.flatMap_cons, ih, hg.length,
        d.piece_word hg.packet.lt, hg.packet.payload]

theorem gatheredLen_held {ks : List Nat} {gs : List Fragment}
    (hheld : List.Forall₂ d.Held ks gs) :
    Reassembly.gatheredLen gs
      = BitVec.ofNat 16 (ks.flatMap d.piece).length := by
  induction hheld with
  | nil => rfl
  | @cons k g ks gs hg _ ih =>
      rw [Reassembly.gatheredLen, ih, hg.length, List.flatMap_cons,
        List.length_append, BitVec.ofNat_add]

/-- The packet as it was before it was cut, in one buffer. -/
structure Whole (d : Datagram) (f : Frame) : Prop where
  payload : f.payload f.ip.payloadLen.toNat = d.pieces.flatten
  isFragment : f.ip.isFragment = false
  protocol : f.ip.protocol = d.protocol
  src : f.ip.ipSrc = d.src
  dest : f.ip.ipDest = d.dest

/-- A header and data written to a buffer are read from it again. -/
theorem payload_copied {h : IpHeader} {xs : List Byte} {old : Nat → Byte}
    {buffer : Word} {eh : List Byte} (hlen : h.getIpHlen = sizeofIpHeader) :
    (Frame.mk buffer eh (copied (h.bytes ++ xs) old)).payload xs.length
      = xs := by
  have hip : (Frame.mk buffer eh (copied (h.bytes ++ xs) old)).ip = h :=
    IpHeader.ofRaw_copied h xs old
  have hbytes := h.length_bytes
  have hsize : sizeofIpHeader.toNat = 20 := rfl
  unfold Frame.payload
  rw [hip, hlen, hsize]
  apply List.ext_getElem
  · simp
  · intro i hi hi'
    rw [List.getElem_map, List.getElem_range]
    show copied (h.bytes ++ xs) old (20 + i) = xs[i]
    rw [copied_getElem (by simp; omega), List.getElem_append_right (by omega)]
    simp [hbytes]

section BigHeader

variable (len : Word) (h : IpHeader)

theorem getIpHlen_bigHeader :
    (Reassembly.bigHeader len h).getIpHlen = sizeofIpHeader :=
  getIpHlen_of_versHlen rfl

theorem payloadLen_bigHeader :
    (Reassembly.bigHeader len h).payloadLen = len := by
  unfold IpHeader.payloadLen
  rw [getIpHlen_bigHeader]
  show htons (htons (len + sizeofIpHeader)) - sizeofIpHeader = len
  rw [htons_htons, BitVec.add_sub_cancel]

theorem isFragment_bigHeader :
    (Reassembly.bigHeader len h).isFragment = false := by
  show decide ((0 : Word) &&& 0xFF3F ≠ 0) = false
  decide

end BigHeader

/-- With all the pieces the big packet is the whole packet. -/
theorem makeBigPacket_whole {s : Reassembly} {i : Fin ipMaxFragPackets}
    (hheld : List.Forall₂ d.Held (List.range d.count)
      (s.fragControl i).frags) (hbig : s.bigPacketFreeList ≠ []) :
    ∃ f, (s.makeBigPacket i).1 = some f ∧ Whole d f := by
  have hdata := gathered_held hheld
  have hlen := gatheredLen_held hheld
  rw [d.flatMap_range] at hdata hlen
  have hfits := d.fits
  have hword : (BitVec.ofNat 16 d.pieces.flatten.length).toNat
      = d.pieces.flatten.length := by
    have hsize : ipBigPacketSize.toNat = 2048 := rfl
    rw [BitVec.toNat_ofNat, Nat.mod_eq_of_lt (by omega)]
  have hfirst : ∃ g gs, (s.fragControl i).frags = g :: gs
      ∧ d.IsPiece 0 g.packet := by
    have hseveral := d.several
    obtain ⟨n, hn⟩ : ∃ n, d.count = n + 1 := ⟨d.count - 1, by
      unfold Datagram.count
      omega⟩
    rw [hn, List.range_succ_eq_map] at hheld
    cases hfrags : (s.fragControl i).frags with
    | nil =>
        rw [hfrags] at hheld
        cases hheld
    | cons g gs =>
        rw [hfrags] at hheld
        cases hheld with
        | cons hg _ => exact ⟨g, gs, rfl, hg.packet⟩
  obtain ⟨g, gs, hfrags, hg⟩ := hfirst
  obtain ⟨bp, rest, hfree⟩ := List.exists_cons_of_ne_nil hbig
  unfold Reassembly.makeBigPacket
  simp only [hfree]
  rw [hdata, hlen, hfrags]
  refine ⟨_, rfl, ?_⟩
  have hip : (Frame.mk bp g.packet.eh (copied ((Reassembly.bigHeader
      (BitVec.ofNat 16 d.pieces.flatten.length) g.packet.ip).bytes
        ++ d.pieces.flatten) (s.bigPacket bp))).ip = _ :=
    IpHeader.ofRaw_copied _ _ _
  rw [List.map_cons, List.headI_cons]
  constructor
  · rw [hip, payloadLen_bigHeader, hword]
    exact payload_copied (getIpHlen_bigHeader _ _)
  · rw [hip]
    exact isFragment_bigHeader _ _
  · rw [hip]
    exact hg.protocol
  · rw [hip]
    exact hg.src
  · rw [hip]
    exact hg.dest

-- ================================================== piece by piece

/-- The pieces `ks` have arrived, and control structure `i` has them. -/
structure Collecting (d : Datagram) (ks : List Nat)
    (i : Fin ipMaxFragPackets) (s : Reassembly) : Prop where
  found : s.findFragControl d.src d.ident = some i
  sorted : ks.Pairwise (· < ·)
  held : List.Forall₂ d.Held ks (s.fragControl i).frags
  last : (s.fragControl i).lastFragRcvd = decide (d.count - 1 ∈ ks)

/-- The pieces in `A` have arrived, and they are not yet all. -/
def Waiting (d : Datagram) (A : Nat → Prop) (s : Reassembly) : Prop :=
  (s.findFragControl d.src d.ident = none ∧ ∀ k, ¬ A k)
    ∨ ∃ i ks, Collecting d ks i s ∧ ks ≠ [] ∧ ∀ k, k ∈ ks ↔ A k

/-- What leaves this packet's control structure alone leaves it waiting. -/
theorem Waiting.spares {A : Nat → Prop} {s s' : Reassembly}
    (h : Waiting d A s) (hs : Spares d.src d.ident s s') :
    Waiting d A s' := by
  rcases h with ⟨hnone, hA⟩ | ⟨i, ks, hc, hne, hA⟩
  · exact .inl ⟨hs.notFound hnone, hA⟩
  · obtain ⟨hfound, heq⟩ := hs.found hc.found
    refine .inr ⟨i, ks, ⟨hfound, hc.sorted, ?_, ?_⟩, hne, hA⟩
    · rw [heq]
      exact hc.held
    · rw [heq]
      exact hc.last

/-- A written control structure that had the key and keeps it is found
again. -/
theorem find_setFragControl {src : IpAddr} {ident : Word} {s : Reassembly}
    {i : Fin ipMaxFragPackets} {fc : IpFragControl}
    (hfind : s.findFragControl src ident = some i)
    (hfc : fc.owns src ident = true) :
    (s.setFragControl i fc).findFragControl src ident = some i := by
  refine find?_of_imp ?_ hfind ?_
  · intro j howns
    by_cases heq : j = i
    · rw [heq]
      exact findFragControl_owns hfind
    · have hkeep : (s.setFragControl i fc).fragControl j = s.fragControl j :=
        Function.update_of_ne heq _ _
      rw [hkeep] at howns
      exact howns
  · show ((s.setFragControl i fc).fragControl i).owns src ident = true
    rwa [Reassembly.setFragControl_self]

/-- One written with a key that no other has is found. -/
theorem find_new {src : IpAddr} {ident : Word} {s : Reassembly}
    {i : Fin ipMaxFragPackets} {fc : IpFragControl}
    (hnone : s.findFragControl src ident = none)
    (hfc : fc.owns src ident = true) :
    (s.setFragControl i fc).findFragControl src ident = some i := by
  have hsome : ((s.setFragControl i fc).findFragControl src ident).isSome := by
    refine List.find?_isSome.mpr ⟨i, List.mem_finRange i, ?_⟩
    show ((s.setFragControl i fc).fragControl i).owns src ident = true
    rwa [Reassembly.setFragControl_self]
  obtain ⟨j, hj⟩ := Option.isSome_iff_exists.mp hsome
  have hji : j = i := by
    by_contra hne
    have howns := findFragControl_owns hj
    have hkeep : (s.setFragControl i fc).fragControl j = s.fragControl j :=
      Function.update_of_ne hne _ _
    rw [hkeep] at howns
    exact List.find?_eq_none.mp hnone j (List.mem_finRange j) howns
  rw [hj, hji]

/-- The first piece to arrive. -/
theorem piece_first {s : Reassembly} {f : Frame} {k : Nat} (now : BitVec 32)
    (hnone : s.findFragControl d.src d.ident = none) (hf : d.IsPiece k f)
    (hroom : s.findOpenFragControl ≠ none) :
    (s.processFragment now f).1 = none
      ∧ ∃ i, Collecting d [k] i (s.processFragment now f).2 := by
  have hk := hf.lt
  obtain ⟨i, hopen⟩ := Option.ne_none_iff_exists'.mp hroom
  have hsmall : ¬ ipBigPacketSize < f.ip.fragmentOffset + f.ip.payloadLen := by
    rw [hf.offset, hf.length, d.end_word k hk, BitVec.lt_def,
      d.offset_word hk]
    exact Nat.not_lt.mpr (d.offset_le hk)
  have hrun : s.processFragment now f
      = (none, { s with
          fragsInReassembly := s.fragsInReassembly + 1 }.setFragControl i
        { inUse := true
          lastFragRcvd := f.ip.isLastFragment
          srcAddr := f.ip.ipSrc
          ident := f.ip.ident
          startTime := now
          frags := [f.fragment] }) := by
    unfold Reassembly.processFragment
    rw [hf.src, hf.ident, hnone]
    simp only
    unfold Reassembly.startReassembly
    rw [hopen]
    simp only [if_neg hsmall, hf.src, hf.ident]
  rw [hrun]
  refine ⟨rfl, i, ?_, List.pairwise_singleton _ _, ?_, ?_⟩
  · refine find_new ?_ ?_
    · exact hnone
    · simp [IpFragControl.owns, hf.src, hf.ident]
  · rw [Reassembly.setFragControl_self]
    exact .cons ⟨hf, hf.offset, hf.length⟩ .nil
  · rw [Reassembly.setFragControl_self]
    show f.ip.isLastFragment = _
    rw [hf.last]
    have hpos := d.several
    have hcount : d.count = d.pieces.length := rfl
    simp only [List.mem_singleton]
    exact decide_eq_decide.mpr (by omega)

/-- What is noted of a piece before it is put in. -/
theorem Collecting.note {s : Reassembly} {f : Frame} {k : Nat} {ks : List Nat}
    {i : Fin ipMaxFragPackets} (h : Collecting d ks i s) (hf : d.IsPiece k f) :
    ∃ fc, (s.fragControl i).noteLast f.ip.isLastFragment = fc
      ∧ fc.owns d.src d.ident = true
      ∧ fc.frags = (s.fragControl i).frags
      ∧ fc.lastFragRcvd = decide (d.count - 1 = k ∨ d.count - 1 ∈ ks) := by
  refine ⟨_, rfl, findFragControl_owns h.found, rfl, ?_⟩
  have hk := hf.lt
  show (if f.ip.isLastFragment then true else (s.fragControl i).lastFragRcvd)
    = _
  rw [hf.last, h.last]
  by_cases hlast : k + 1 = d.count
  · have : d.count - 1 = k := by omega
    simp [hlast, this]
  · have : d.count - 1 ≠ k := by omega
    simp [hlast, this]

theorem IsPiece_not_big {f : Frame} {k : Nat} (hf : d.IsPiece k f) :
    ¬ ipBigPacketSize < f.ip.fragmentOffset + f.ip.payloadLen := by
  have hk := hf.lt
  rw [hf.offset, hf.length, d.end_word k hk, BitVec.lt_def, d.offset_word hk]
  exact Nat.not_lt.mpr (d.offset_le hk)

/-- A piece that is there already is freed. -/
theorem piece_again {s : Reassembly} {f : Frame} {k : Nat} {ks : List Nat}
    {i : Fin ipMaxFragPackets} (now : BitVec 32) (h : Collecting d ks i s)
    (hf : d.IsPiece k f) (hk : k ∈ ks) :
    (s.processFragment now f).1 = none
      ∧ Collecting d ks i (s.processFragment now f).2 := by
  obtain ⟨fc, hfc, howns, hfrags, hlast⟩ := h.note hf
  obtain ⟨next, hnext, hheld⟩ := find_held h.held h.sorted hf.lt hk
  have hrun : s.processFragment now f
      = (none, (s.setFragControl i fc).bufferFree f.buffer) := by
    unfold Reassembly.processFragment
    rw [hf.src, hf.ident, h.found]
    simp only
    unfold Reassembly.continueReassembly
    simp only [if_neg (IsPiece_not_big hf)]
    simp only [hfc, hfrags, hf.offset, hnext, hheld.offset, hf.length,
      hheld.length, and_self, if_true]
  rw [hrun]
  refine ⟨rfl, find_setFragControl h.found howns, h.sorted, ?_, ?_⟩
  · show List.Forall₂ d.Held ks ((s.setFragControl i fc).fragControl i).frags
    rw [Reassembly.setFragControl_self, hfrags]
    exact h.held
  · show ((s.setFragControl i fc).fragControl i).lastFragRcvd = _
    rw [Reassembly.setFragControl_self, hlast]
    refine decide_eq_decide.mpr ⟨?_, .inr⟩
    intro hor
    rcases hor with heq | hmem
    · exact heq ▸ hk
    · exact hmem

/-- Fewer than all pieces are fewer in number. -/
theorem length_lt_count {ks : List Nat} (hsorted : ks.Pairwise (· < ·))
    (hlt : ∀ k ∈ ks, k < d.count) (hne : ks ≠ List.range d.count) :
    ks.length < d.count := by
  have hnodup : ks.Nodup := hsorted.imp fun h => Nat.ne_of_lt h
  have hsub := List.Nodup.subperm hnodup fun k hk =>
    List.mem_range.mpr (hlt k hk)
  by_contra hge
  refine hne ?_
  have hperm := hsub.perm_of_length_le (by
    rw [List.length_range]
    omega)
  exact hperm.eq_of_pairwise (fun a b _ _ hab hba => absurd hab (by omega))
    hsorted List.pairwise_lt_range

/-- What comes of a new piece once it is in its place. -/
theorem insert_result {s : Reassembly} {ks : List Nat}
    {i : Fin ipMaxFragPackets} {insertPos : Nat} {g : Fragment}
    (hfound : s.findFragControl d.src d.ident = some i)
    (howns : (s.fragControl i).owns d.src d.ident = true)
    (hsorted : ks.Pairwise (· < ·))
    (hheld : List.Forall₂ d.Held ks
      ((s.fragControl i).frags.insertIdx insertPos g))
    (hlast : (s.fragControl i).lastFragRcvd = decide (d.count - 1 ∈ ks)) :
    (ks ≠ List.range d.count ∧ (s.insertFragment i insertPos g).1 = none
        ∧ Collecting d ks i (s.insertFragment i insertPos g).2)
      ∨ (ks = List.range d.count ∧ (s.bigPacketFreeList ≠ [] →
          ∃ F, (s.insertFragment i insertPos g).1 = some F ∧ Whole d F)) := by
  have hpos := d.several
  have hfew := d.few
  have hcount : d.count = d.pieces.length := rfl
  unfold Reassembly.insertFragment
  by_cases hall : ks = List.range d.count
  · right
    refine ⟨hall, fun hbig => ?_⟩
    have hmem : d.count - 1 ∈ ks := by
      rw [hall, List.mem_range]
      omega
    have hcomplete := (complete_iff hheld hmem).mpr hall
    simp only [hlast, hmem, decide_true, hcomplete, Bool.and_self, if_true]
    apply makeBigPacket_whole
    · rw [Reassembly.setFragControl_self, ← hall]
      exact hheld
    · exact hbig
  · left
    refine ⟨hall, ?_⟩
    have hopen : ((s.fragControl i).lastFragRcvd
        && Reassembly.complete 0 ((s.fragControl i).frags.insertIdx insertPos
          g)) = false := by
      rw [hlast, Bool.and_eq_false_iff]
      by_cases hmem : d.count - 1 ∈ ks
      · right
        rw [Bool.eq_false_iff]
        exact fun hcomplete => hall ((complete_iff hheld hmem).mp hcomplete)
      · left
        exact decide_eq_false hmem
    have hlen : ¬ ((s.fragControl i).frags.insertIdx insertPos g).length
        = ipMaxFragsPerPacket := by
      rw [← hheld.length_eq]
      have := length_lt_count hsorted (fun k hk => held_lt hheld hk) hall
      omega
    simp only [hopen, if_neg hlen]
    refine ⟨rfl, find_setFragControl hfound howns, hsorted, ?_, ?_⟩
    · show List.Forall₂ d.Held ks ((s.setFragControl i _).fragControl i).frags
      rw [Reassembly.setFragControl_self]
      exact hheld
    · show ((s.setFragControl i _).fragControl i).lastFragRcvd = _
      rw [Reassembly.setFragControl_self]
      exact hlast

/-- A piece that was not there goes where it belongs; then it depends on
whether all are there. -/
theorem piece_next {s : Reassembly} {f : Frame} {k : Nat} {ks : List Nat}
    {i : Fin ipMaxFragPackets} (now : BitVec 32) (h : Collecting d ks i s)
    (hf : d.IsPiece k f) (hk : k ∉ ks) :
    ∃ ks', (∀ j, j ∈ ks' ↔ j = k ∨ j ∈ ks) ∧
      ((ks' ≠ List.range d.count ∧ (s.processFragment now f).1 = none
          ∧ Collecting d ks' i (s.processFragment now f).2)
        ∨ (ks' = List.range d.count ∧ (s.bigPacketFreeList ≠ [] →
            ∃ F, (s.processFragment now f).1 = some F ∧ Whole d F))) := by
  obtain ⟨fc, hfc, howns, hfrags, hlast⟩ := h.note hf
  obtain ⟨hbehind, ks', hheld, hsorted, hmem⟩ :=
    insert_held (k := k) h.held h.sorted
      (Held.mk (g := f.fragment) hf hf.offset hf.length) hk
  -- what is behind the place is not the piece, nor does the piece reach it
  have hrun : s.processFragment now f
      = (s.setFragControl i fc).insertFragment i
          ((s.fragControl i).frags.findIdx fun g =>
            f.ip.fragmentOffset ≤ g.offset) f.fragment := by
    unfold Reassembly.processFragment
    rw [hf.src, hf.ident, h.found]
    simp only
    unfold Reassembly.continueReassembly
    simp only [if_neg (IsPiece_not_big hf), hfc, hfrags]
    cases hnext : (s.fragControl i).frags[(s.fragControl i).frags.findIdx
        fun g => f.ip.fragmentOffset ≤ g.offset]? with
    | none => rfl
    | some next =>
        obtain ⟨j, hkj, hj⟩ := hbehind next hnext
        have hjl := hj.packet.lt
        have hne : ¬ (f.ip.fragmentOffset = next.offset
            ∧ f.ip.payloadLen = next.length) := by
          intro hand
          have heq := congrArg BitVec.toNat hand.1
          rw [hf.offset, hj.offset, d.offset_word (by omega),
            d.offset_word (by omega)] at heq
          have := d.offset_lt hkj (by omega)
          omega
        have hbefore : ¬ next.offset
            < f.ip.fragmentOffset + f.ip.payloadLen := by
          rw [hf.offset, hf.length, d.end_word k hf.lt, hj.offset,
            BitVec.lt_def, d.offset_word (by omega), d.offset_word (by omega),
            d.offset_succ hf.lt]
          have := d.offset_add_le hkj (by omega)
          omega
        simp only [if_neg hne, if_neg hbefore]
  have hlast' : fc.lastFragRcvd = decide (d.count - 1 ∈ ks') := by
    rw [hlast]
    exact decide_eq_decide.mpr (hmem (d.count - 1)).symm
  refine ⟨ks', hmem, ?_⟩
  rw [hrun]
  have hbig : (s.setFragControl i fc).bigPacketFreeList
      = s.bigPacketFreeList := rfl
  rw [← hbig]
  exact insert_result (find_setFragControl h.found howns)
    (by rwa [Reassembly.setFragControl_self]) hsorted
    (by rwa [Reassembly.setFragControl_self, hfrags])
    (by rwa [Reassembly.setFragControl_self])

/-- A piece arrives: either one is still missing, or the packet is
there. -/
theorem piece_step {A : Nat → Prop} {s : Reassembly} {f : Frame} {k : Nat}
    (now : BitVec 32) (hw : Waiting d A s) (hf : d.IsPiece k f)
    (hroom : s.findFragControl d.src d.ident = none →
      s.findOpenFragControl ≠ none)
    (hmissing : ∃ j < d.count, ¬ A j) :
    ((∃ j < d.count, ¬ (j = k ∨ A j)) ∧ (s.processFragment now f).1 = none
        ∧ Waiting d (fun j => j = k ∨ A j) (s.processFragment now f).2)
      ∨ ((∀ j < d.count, j = k ∨ A j) ∧ (s.bigPacketFreeList ≠ [] →
          ∃ F, (s.processFragment now f).1 = some F ∧ Whole d F)) := by
  have hseveral := d.several
  have hcount : d.count = d.pieces.length := rfl
  rcases hw with ⟨hnone, hA⟩ | ⟨i, ks, hc, hne, hA⟩
  · obtain ⟨hout, i, hc⟩ := piece_first now hnone hf (hroom hnone)
    left
    refine ⟨?_, hout, .inr ⟨i, [k], hc, by simp, ?_⟩⟩
    · by_cases hk : k = 0
      · refine ⟨1, by omega, ?_⟩
        intro hor
        rcases hor with heq | hA1
        · omega
        · exact hA 1 hA1
      · refine ⟨0, by omega, ?_⟩
        intro hor
        rcases hor with heq | hA0
        · exact hk heq.symm
        · exact hA 0 hA0
    · intro j
      have := hA j
      simp [this]
  · by_cases hk : k ∈ ks
    · obtain ⟨hout, hc'⟩ := piece_again now hc hf hk
      have hsame : ∀ j, j ∈ ks ↔ j = k ∨ A j := by
        intro j
        rw [hA j]
        refine ⟨.inr, fun hor => ?_⟩
        rcases hor with heq | hAj
        · exact heq ▸ (hA k).mp hk
        · exact hAj
      left
      refine ⟨?_, hout, .inr ⟨i, ks, hc', hne, hsame⟩⟩
      obtain ⟨j, hj, hAj⟩ := hmissing
      exact ⟨j, hj, fun hor => hAj ((hA j).mp ((hsame j).mpr hor))⟩
    · obtain ⟨ks', hmem, hor⟩ := piece_next now hc hf hk
      have hmem' : ∀ j, j ∈ ks' ↔ j = k ∨ A j := by
        intro j
        rw [hmem, hA]
      rcases hor with ⟨hsome, hout, hc'⟩ | ⟨hall, hwhole⟩
      · left
        refine ⟨?_, hout, .inr ⟨i, ks', hc', ?_, hmem'⟩⟩
        · by_contra hno
          refine hsome ?_
          have hge : ¬ ks'.length < d.count := by
            intro hlt
            obtain ⟨j, hj, hjn⟩ : ∃ j < d.count, j ∉ ks' := by
              by_contra hno'
              have hsub : List.range d.count ⊆ ks' := by
                intro j hj
                by_contra hjn
                exact hno' ⟨j, List.mem_range.mp hj, hjn⟩
              have hle := (List.Nodup.subperm List.nodup_range hsub).length_le
              rw [List.length_range] at hle
              omega
            exact hno ⟨j, hj, fun h => hjn ((hmem' j).mpr h)⟩
          by_contra hne'
          exact hge (length_lt_count hc'.sorted
            (fun j hj => held_lt hc'.held hj) hne')
        · exact List.ne_nil_of_mem ((hmem' k).mpr (.inl rfl))
      · right
        refine ⟨fun j hj => (hmem' j).mp ?_, hwhole⟩
        rw [hall]
        exact List.mem_range.mpr hj

-- ================================================== whole runs

/-- What control structure is overdue is not this packet's. -/
theorem purge_spares {src : IpAddr} {ident : Word} {now : BitVec 32}
    (xs : List (Fin ipMaxFragPackets)) :
    ∀ s : Reassembly, (∀ i, (s.fragControl i).owns src ident = true →
        ¬ reassemblyTimeout < now - (s.fragControl i).startTime) →
      Spares src ident s (xs.foldl (Reassembly.purge now) s) := by
  induction xs with
  | nil => exact fun s _ => .refl rfl
  | cons i xs ih =>
      intro s hfresh
      have hstep : Spares src ident s (s.purge now i) := by
        unfold Reassembly.purge
        split
        · next hover => exact .kill fun howns => hfresh i howns hover.2
        · exact .refl rfl
      refine hstep.trans (ih _ fun j howns => ?_)
      have hold := hstep.old j howns
      rw [hstep.kept j hold]
      exact hfresh j hold

/-- A piece has come. -/
def Arrived (d : Datagram) (evs : List IpEvent) (k : Nat) : Prop :=
  ∃ now f, IpEvent.fragment now f ∈ evs ∧ d.IsPiece k f

/-- What an event has to respect for a packet to get through: its key is
used for its pieces only, there is a place for the first of them and a big
packet for all, and the time is not over. -/
def Fair (d : Datagram) (s : Reassembly) : IpEvent → Prop
  | .fragment _ f => f.ip.ipSrc = d.src ∧ f.ip.ident = d.ident →
      (∃ k, d.IsPiece k f)
        ∧ (s.findFragControl d.src d.ident = none →
            s.findOpenFragControl ≠ none)
        ∧ s.bigPacketFreeList ≠ []
  | .checkOverdue now => ∀ i, (s.fragControl i).owns d.src d.ident = true →
      ¬ reassemblyTimeout < now - (s.fragControl i).startTime
  | .returned _ => True

/-- All events of a run do. -/
def FairRun (d : Datagram) (s : Reassembly) (evs : List IpEvent) : Prop :=
  ∀ pre e post, evs = pre ++ e :: post → Fair d (s.run pre) e

theorem Reassembly.run_append (s : Reassembly) (evs evs' : List IpEvent) :
    s.run (evs ++ evs') = (s.run evs).run evs' := List.foldl_append

theorem arrived_append {evs : List IpEvent} {e : IpEvent} {k : Nat} :
    Arrived d (evs ++ [e]) k
      ↔ Arrived d evs k ∨ ∃ now f, e = .fragment now f ∧ d.IsPiece k f := by
  unfold Arrived
  constructor
  · intro h
    obtain ⟨now, f, hmem, hf⟩ := h
    rcases List.mem_append.mp hmem with hmem' | hmem'
    · exact .inl ⟨now, f, hmem', hf⟩
    · exact .inr ⟨now, f, (List.mem_singleton.mp hmem').symm, hf⟩
  · intro h
    rcases h with ⟨now, f, hmem, hf⟩ | ⟨now, f, heq, hf⟩
    · exact ⟨now, f, List.mem_append_left _ hmem, hf⟩
    · exact ⟨now, f, by simp [heq], hf⟩

/-- As long as a piece is missing, the table waits for it. -/
theorem waiting_run {s₀ : Reassembly}
    (hfresh : s₀.findFragControl d.src d.ident = none) (evs : List IpEvent)
    (hfair : FairRun d s₀ evs) (hmissing : ∃ j < d.count, ¬ Arrived d evs j) :
    Waiting d (Arrived d evs) (s₀.run evs) := by
  induction evs using List.reverseRecOn with
  | nil =>
      refine .inl ⟨hfresh, fun k h => ?_⟩
      obtain ⟨now, f, hmem, _⟩ := h
      cases hmem
  | append_singleton evs e ih =>
      have hfair' : FairRun d s₀ evs := fun pre e' post heq =>
        hfair pre e' (post ++ [e]) (by simp [heq])
      have he : Fair d (s₀.run evs) e := hfair evs e [] rfl
      have hmissing' : ∃ j < d.count, ¬ Arrived d evs j := by
        obtain ⟨j, hj, hno⟩ := hmissing
        exact ⟨j, hj, fun h => hno (arrived_append.mpr (.inl h))⟩
      have hw := ih hfair' hmissing'
      have hrun : s₀.run (evs ++ [e]) = ((s₀.run evs).handle e).2 := by
        rw [Reassembly.run_append]
        rfl
      have hsame : (∀ k, ¬ ∃ now f, e = .fragment now f ∧ d.IsPiece k f) →
          Arrived d (evs ++ [e]) = Arrived d evs := by
        intro hno
        funext k
        rw [arrived_append, eq_iff_iff]
        exact or_iff_left (hno k)
      rw [hrun]
      cases e with
      | fragment now f =>
          by_cases hkey : f.ip.ipSrc = d.src ∧ f.ip.ident = d.ident
          · obtain ⟨⟨k, hf⟩, hroom, _⟩ := he hkey
            have harr : Arrived d (evs ++ [.fragment now f])
                = fun j => j = k ∨ Arrived d evs j := by
              funext j
              rw [arrived_append, eq_iff_iff, or_comm]
              refine or_congr_left ⟨?_, ?_⟩
              · intro h
                obtain ⟨now', f', heq, hf'⟩ := h
                obtain ⟨rfl, rfl⟩ := IpEvent.fragment.inj heq
                exact hf'.unique hf
              · intro h
                exact ⟨now, f, rfl, h ▸ hf⟩
            rw [harr] at hmissing ⊢
            rcases piece_step now hw hf hroom hmissing' with
              ⟨_, _, hw'⟩ | ⟨hall, _⟩
            · exact hw'
            · obtain ⟨j, hj, hno⟩ := hmissing
              exact absurd (hall j hj) hno
          · rw [hsame]
            · exact hw.spares (processFragment_spares now _ hkey)
            · intro k h
              obtain ⟨now', f', heq, hf'⟩ := h
              obtain ⟨rfl, rfl⟩ := IpEvent.fragment.inj heq
              exact hkey ⟨hf'.src, hf'.ident⟩
      | checkOverdue now =>
          rw [hsame (fun k h => by obtain ⟨_, _, heq, _⟩ := h; cases heq)]
          refine hw.spares ?_
          show Spares d.src d.ident _ ((s₀.run evs).fragsCheckOverdue now)
          unfold Reassembly.fragsCheckOverdue
          split
          · exact purge_spares _ _ he
          · exact .refl rfl
      | returned bp =>
          rw [hsame (fun k h => by obtain ⟨_, _, heq, _⟩ := h; cases heq)]
          exact hw.spares (.refl rfl)

end Pdtb.Net
