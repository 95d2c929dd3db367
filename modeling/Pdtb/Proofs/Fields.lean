/-
What a parsed message looks like from outside `parse.nas`: each pair of a
pointer and a length denotes a part of the message, `paramAt` finds the
parameters, and both survive writes to everything but `parse.nas`'s own
data.

`paramAt` compares signed (`jg`), so its number is an `int`: a negative
one would count as a parameter that is there.
-/
import Pdtb.Proofs.Parse

namespace Pdtb.Asm

open Lib

variable {img : Image} {msg : Irc.Msg} {m₀ m m' : Mem 16 Byte}

-- ==================================================== the data persists

/-- A parsed message is in `parse.nas`'s data and nowhere else. -/
theorem Parsed.congr (h : Parsed img msg m₀ m)
    (hm : Set.EqOn m' m img.parseData) : Parsed img msg m₀ m' := by
  have hvars : ∀ i, i < 15 → img.vars m' i = img.vars m i :=
    fun i hi => Mem.word_congr (hm.mono (img.varAt_subset hi))
  have hfits := h.fits
  have hbuf : ∀ i, i < 514 →
      m' (img.parseBuffer + BitVec.ofNat 16 i)
        = m (img.parseBuffer + BitVec.ofNat 16 i) := by
    intro i hi
    exact hm (img.buffer_subset (n := 1) (by omega)
      (base_mem_region (by omega)))
  have hcount : msg.params.length < 4 := h.few
  refine ⟨hfits, h.few, ?_, ?_, ?_, ?_, ?_, ?_, ?_, ?_, ?_, ?_⟩
  · refine (Mem.read_congr (by omega) (hm.mono ?_)).trans h.copied
    have hsub := img.buffer_subset (i := 0) (n := msg.bytes.length)
      (by omega)
    rwa [BitVec.add_zero] at hsub
  · intro i hi hi'
    exact (hbuf i hi').trans (h.stale i hi hi')
  · exact (hvars 0 (by omega)).trans h.tags
  · exact (hvars 1 (by omega)).trans h.tagsLen
  · exact (hvars 2 (by omega)).trans h.pfx
  · exact (hvars 3 (by omega)).trans h.pfxLen
  · exact (hvars 4 (by omega)).trans h.cmd
  · exact (hvars 5 (by omega)).trans h.cmdLen
  · rw [hvars 14 (by omega)]
    exact h.count
  · intro j hj
    rw [hvars _ (by omega), hvars _ (by omega)]
    exact h.entry j hj

-- ==================================================== pointers and lengths

/-- The string a pointer and a length in memory denote. -/
def deref (m : Mem 16 Byte) (buf len : Word) : List Byte :=
  m.read (m.word buf) (m.word len).toNat

/-- A part of the message, by what is in front of it and behind it. -/
theorem Parsed.part (h : Parsed img msg m₀ m) {front part behind : List Byte}
    (hsplit : msg.bytes = front ++ part ++ behind) :
    m.read (img.parseBuffer + BitVec.ofNat 16 front.length) part.length
      = part := by
  have hall : m.read img.parseBuffer (front ++ part ++ behind).length
      = front ++ part ++ behind := by
    rw [← hsplit]
    exact h.copied
  exact Mem.read_part hall

/-- No part is longer than the buffer, so its length fits a word. -/
theorem Parsed.part_length (h : Parsed img msg m₀ m)
    {front part behind : List Byte}
    (hsplit : msg.bytes = front ++ part ++ behind) :
    (BitVec.ofNat 16 part.length).toNat = part.length := by
  have hfits := h.fits
  rw [hsplit, List.length_append, List.length_append] at hfits
  rw [BitVec.toNat_ofNat]
  omega

theorem Parsed.deref_part (h : Parsed img msg m₀ m)
    {front part behind : List Byte} {buf len : Word}
    (hsplit : msg.bytes = front ++ part ++ behind)
    (hbuf : m.word buf
      = img.parseBuffer + BitVec.ofNat 16 front.length)
    (hlen : m.word len = BitVec.ofNat 16 part.length) :
    deref m buf len = part := by
  rw [deref, hbuf, hlen, h.part_length hsplit, h.part hsplit]

theorem Parsed.deref_tags (h : Parsed img msg m₀ m) :
    deref m img.tagsBuffer img.tagsBufferLen = msg.tags := by
  rw [img.tagsBuffer_eq, img.tagsBufferLen_eq]
  have hsplit : msg.bytes
      = [] ++ msg.tags ++ (msg.pfx ++ msg.cmd ++ msg.params.flatten) := by
    simp [Irc.Msg.bytes]
  refine h.deref_part hsplit ?_ h.tagsLen
  rw [List.length_nil, BitVec.add_zero]
  exact h.tags

theorem Parsed.deref_pfx (h : Parsed img msg m₀ m) :
    deref m img.prefixBuffer img.prefixBufferLen = msg.pfx := by
  rw [img.prefixBuffer_eq, img.prefixBufferLen_eq]
  have hsplit : msg.bytes
      = msg.tags ++ msg.pfx ++ (msg.cmd ++ msg.params.flatten) := by
    simp [Irc.Msg.bytes]
  exact h.deref_part hsplit h.pfx h.pfxLen

theorem Parsed.deref_cmd (h : Parsed img msg m₀ m) :
    deref m img.cmdBuffer img.cmdBufferLen = msg.cmd := by
  rw [img.cmdBuffer_eq, img.cmdBufferLen_eq]
  have hsplit : msg.bytes
      = msg.tags ++ msg.pfx ++ msg.cmd ++ msg.params.flatten := rfl
  exact h.deref_part hsplit h.cmd h.cmdLen

-- ==================================================== the parameters

theorem Parsed.deref_param (h : Parsed img msg m₀ m) {i : Nat}
    (hi : i < msg.params.length) :
    m.read (img.vars m (6 + 2 * i)) (img.vars m (7 + 2 * i)).toNat
      = msg.params[i] := by
  obtain ⟨hbuf, hlen⟩ := h.entry i hi
  have hsplit := msg.bytes_split hi
  rw [hbuf, hlen, h.part_length hsplit, h.part hsplit]

/-- `paramAt.loop` counts `ax` down to 0 and `si` on with it. -/
theorem paramAtLoop_eq {n : Nat} :
    ∀ {s : Bot}, s.ax.toNat = n + 1 → paramAtLoop s
      = { s with
          ax := 0
          si := s.si + BitVec.ofNat 16 (4 * (n + 1)) } := by
  induction n with
  | zero =>
      intro s hax
      have hlast : s.ax - 1 = 0 := by bv_omega
      rw [paramAtLoop]
      simp only [hlast, ↓reduceDIte]
      rfl
  | succ n ih =>
      intro s hax
      have hpred : (s.ax - 1).toNat = n + 1 := by bv_omega
      have hmore : ¬ s.ax - 1 = 0 := by
        intro h0
        rw [h0] at hpred
        exact absurd hpred (by simp)
      have hnext : 4 * (n + 1 + 1) = 4 + 4 * (n + 1) := by omega
      rw [paramAtLoop]
      simp only [hmore, ↓reduceDIte]
      rw [ih hpred, hnext, BitVec.ofNat_add, ← BitVec.add_assoc]
      rfl

theorem varAt_param (i : Nat) :
    img.paramsList + BitVec.ofNat 16 (4 * i) = img.varAt (6 + 2 * i) := by
  rw [img.paramsList_eq, Image.varAt, Image.varAt, BitVec.add_assoc,
    ← BitVec.ofNat_add, show 514 + 2 * 6 + 4 * i = 514 + 2 * (6 + 2 * i) by
      omega]

/-- The entry `paramAt` walks to. -/
theorem paramAt_walk {n : Nat} {s : Bot} (hax : s.ax.toNat = n) :
    (if s.ax = 0 then { s with si := img.paramsList }
      else paramAtLoop { s with si := img.paramsList })
      = { s with ax := 0, si := img.varAt (6 + 2 * n) } := by
  cases n with
  | zero =>
      have h0 : s.ax = 0 := BitVec.eq_of_toNat_eq hax
      rw [if_pos h0, ← varAt_param, BitVec.add_zero, h0]
  | succ n =>
      have hne : ¬ s.ax = 0 := by
        intro h0
        rw [h0] at hax
        exact absurd hax (by simp)
      rw [if_neg hne, ← varAt_param]
      exact paramAtLoop_eq hax

/-- A parameter that is there. -/
theorem paramAt_lt {s : Bot} (h : Parsed img msg m₀ s.mem) {n : Nat}
    (hax : s.ax.toNat = n) (hn : n < msg.params.length) :
    paramAt img s = { s with
      ax := 0
      si := img.vars s.mem (6 + 2 * n)
      cx := img.vars s.mem (7 + 2 * n) } := by
  have hfew := h.few
  have hcount := h.count
  have hslt : s.ax.slt (s.mem.word img.paramsListLen) = true := by
    rw [img.paramsListLen_eq, BitVec.slt_iff_toInt_lt]
    change _ < (img.vars s.mem 14).toInt
    rw [BitVec.toInt_eq_toNat_of_lt, BitVec.toInt_eq_toNat_of_lt] <;>
      simp only [Irc.slotMax] at hfew <;> omega
  rw [paramAt, if_neg (not_not.mpr hslt)]
  simp only [paramAt_walk hax, img.varAt_add_two]
  rw [show 6 + 2 * n + 1 = 7 + 2 * n by omega]
  rfl

/-- No parameter from the last one on. -/
theorem paramAt_ge {s : Bot} (h : Parsed img msg m₀ s.mem)
    (hn : (msg.params.length : Int) ≤ s.ax.toInt) :
    paramAt img s = { s with si := 0, cx := 0 } := by
  have hfew := h.few
  have hcount := h.count
  have hslt : ¬ s.ax.slt (s.mem.word img.paramsListLen) = true := by
    rw [img.paramsListLen_eq, BitVec.slt_iff_toInt_lt]
    change ¬ _ < (img.vars s.mem 14).toInt
    rw [BitVec.toInt_eq_toNat_of_lt (x := img.vars s.mem 14)] <;>
      simp only [Irc.slotMax] at hfew <;> omega
  rw [paramAt, if_pos hslt]

-- ==================================================== a line as argument

/-- `s` with `inp` in `lineBuffer`, as the argument of a call. -/
def withLine (img : Image) (s : Bot) (inp : List Byte) : Bot :=
  { s with
    si := img.lineBuffer
    cx := BitVec.ofNat 16 inp.length
    mem := s.mem.write img.lineBuffer inp }

/-- What fits `lineBuffer` is a proper argument there. -/
theorem given_withLine (s : Bot) {inp : List Byte}
    (h : inp.length ≤ 512) : Given img inp (withLine img s inp) := by
  refine ⟨?_, Mem.read_write _ _ (by omega), ?_⟩
  · rw [withLine, BitVec.toNat_ofNat]
    omega
  · exact img.line_disjoint_parse.mono_left (region_mono h)

end Pdtb.Asm
