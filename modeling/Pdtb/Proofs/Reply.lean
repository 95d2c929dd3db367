/-
The writers of `logic.nas`. A reply is put together piece by piece in
`outBuffer`; `Wrote` says what has been written so far, each piece has a
lemma that adds to it, and the two reply builders are their pieces in a
row.

The room the handlers are given is far more than the buffer, so nothing
here is cut off at 512 bytes: a piece is fine as long as the reply stays
inside `outReach`, the stretch of memory the longest reply to a 512-byte
line covers.
-/
import Pdtb.Asm.Logic
import Pdtb.Irc.Reply
import Pdtb.Proofs.Fields
import Pdtb.Proofs.Log

namespace Pdtb.Asm

open Lib Irc

variable {img : Image} {msg : Msg} {m₀ : Mem 16 Byte}

-- ==================================================== the texts

/-- The texts of `logic.nas` are in memory. -/
def Loaded (img : Image) (m : Mem 16 Byte) : Prop :=
  m.read img.constAt constSize = Text.allBytes

theorem Loaded.congr {m m' : Mem 16 Byte} (h : Loaded img m)
    (hm : Set.EqOn m' m img.constData) : Loaded img m' :=
  (Mem.read_congr (by decide) hm).trans h

theorem Loaded.text {m : Mem 16 Byte} (h : Loaded img m) (t : Text) :
    m.read (img.text t) t.bytes.length = t.bytes := by
  have hall : m.read img.constAt (t.before ++ t.bytes ++ t.behind).length
      = t.before ++ t.bytes ++ t.behind := by
    rw [← Text.allBytes_split, Text.length_allBytes]
    exact h
  exact Mem.read_part hall

theorem text_subset (img : Image) (t : Text) :
    region (img.text t) t.bytes.length ⊆ img.constData := by
  refine region_subset ?_
  have h := congrArg List.length (Text.allBytes_split t)
  rw [Text.length_allBytes, List.length_append, List.length_append] at h
  omega

theorem text_length (t : Text) :
    (BitVec.ofNat 16 t.bytes.length).toNat = t.bytes.length := by
  have h := congrArg List.length (Text.allBytes_split t)
  rw [Text.length_allBytes, List.length_append, List.length_append] at h
  unfold constSize at h
  rw [BitVec.toNat_ofNat]
  omega

-- ==================================================== writing so far

/-- What the reply builders need where they start. -/
structure Ready (img : Image) (msg : Msg) (m₀ : Mem 16 Byte) (b : Bot) :
    Prop where
  dest : b.di = img.outBuffer
  loaded : Loaded img b.mem
  parsed : Parsed img msg m₀ b.mem

/-- `s` is `b` after writing `W`, with `ax`, `bx` and `si` used up. -/
def Wrote (b : Bot) (W : List Byte) (s : Bot) : Prop :=
  ∃ ax bx si, s = { b.emit W with ax := ax, bx := bx, si := si }

theorem Wrote.start (b : Bot) (ax bx si : Word) :
    Wrote b [] { b with ax := ax, bx := bx, si := si } :=
  ⟨ax, bx, si, by rw [Cpu.emit_nil]⟩

/-- The part of `outReach` a piece fills. -/
theorem fill_subset (b : Bot) {W : List Byte} {n : Nat} (k : Nat)
    (hW : W.length + n ≤ outSpill) :
    region (b.emit W).di (min n k) ⊆ region b.di outSpill := by
  refine region_subset ?_
  rw [List.length_take]
  omega

/-- What is written stays inside `outReach`. -/
theorem emit_eqOn (b : Bot) {W : List Byte} (hW : W.length ≤ outSpill) :
    Set.EqOn (b.emit W).mem b.mem (region b.di outSpill)ᶜ := by
  intro x hx
  refine Mem.write_of_notMem fun hx' => hx (region_mono ?_ hx')
  rw [List.length_take]
  omega

/-- `writeStr` adds a string that lies apart from `outReach`. -/
theorem writeStr_wrote {b s : Bot} {W : List Byte} (h : Wrote b W s)
    (hW : W.length + s.bx.toNat ≤ outSpill)
    (hd : Disjoint (region s.si s.bx.toNat) (region b.di outSpill)) :
    Wrote b (W ++ b.mem.read s.si s.bx.toNat) (writeStr s) := by
  obtain ⟨ax, bx, si, rfl⟩ := h
  have hread : (b.emit W).mem.read si bx.toNat = b.mem.read si bx.toNat := by
    refine Mem.read_congr (Nat.le_of_lt bx.isLt) fun x hx => ?_
    refine emit_eqOn b ?_ (Set.disjoint_left.mp hd hx)
    simp only at hW
    omega
  refine ⟨ax, 0, si + BitVec.ofNat 16 (min bx.toNat (b.emit W).cx.toNat),
    ?_⟩
  rw [writeStr_eq]
  · simp only [Cpu.emit_mk, Cpu.emit_append, hread]
    rfl
  · exact hd.mono (region_mono (Nat.min_le_left _ _))
      (fill_subset b _ hW)

theorem putChar_wrote {b s : Bot} {W : List Byte} (h : Wrote b W s)
    (c : Word) : Wrote b (W ++ [loByte c]) (putChar c s) := by
  obtain ⟨ax, bx, si, rfl⟩ := h
  refine ⟨c, bx, si, ?_⟩
  rw [putChar, writeChar_eq]
  simp only [Cpu.emit_mk, Cpu.emit_append, Cpu.al]
  rfl

theorem Wrote.reload {b s : Bot} {W : List Byte} (h : Wrote b W s)
    (ax bx si : Word) :
    Wrote b W { s with ax := ax, bx := bx, si := si } := by
  obtain ⟨ax', bx', si', rfl⟩ := h
  exact ⟨ax, bx, si, rfl⟩

theorem putText_wrote {b s : Bot} {W : List Byte}
    (hb : Ready img msg m₀ b) (h : Wrote b W s) (t : Text)
    (hW : W.length + t.bytes.length ≤ outSpill) :
    Wrote b (W ++ t.bytes) (putText img t s) := by
  have hd : Disjoint (region (img.text t) t.bytes.length)
      (region b.di outSpill) := by
    rw [hb.dest]
    exact img.const_disjoint_out.mono_left (text_subset img t)
  have hput := writeStr_wrote
    (h.reload s.ax (BitVec.ofNat 16 t.bytes.length) (img.text t))
    (by simp only [text_length]; exact hW)
    (by simp only [text_length]; exact hd)
  simp only [text_length, hb.loaded.text t] at hput
  exact hput

-- ==================================================== the parameters

/-- Fetching a parameter that is there. -/
theorem fetchParam_lt {s : Bot} (h : Parsed img msg m₀ s.mem) {i : Nat}
    (hi : i < msg.params.length) :
    fetchParam img (BitVec.ofNat 16 i) s
      = { s with
          ax := 0
          bx := BitVec.ofNat 16 msg.params[i].length
          si := img.parseBuffer
            + BitVec.ofNat 16 (msg.before i).length } := by
  obtain ⟨hbuf, hlen⟩ := h.entry i hi
  have hi' : (BitVec.ofNat 16 i).toNat = i := by
    have hfew := h.few
    unfold slotMax at hfew
    rw [BitVec.toNat_ofNat]
    omega
  have hat := paramAt_lt (s := { s with
    ax := BitVec.ofNat 16 i, bx := s.cx, cx := s.bx }) h hi' hi
  rw [fetchParam]
  simp only [hat, hbuf, hlen]

/-- Fetching one that is not. -/
theorem fetchParam_ge {s : Bot} (h : Parsed img msg m₀ s.mem) {i : Nat}
    (hi : msg.params.length ≤ i) (hint : i < 32768) :
    fetchParam img (BitVec.ofNat 16 i) s
      = { s with ax := BitVec.ofNat 16 i, bx := 0, si := 0 } := by
  have hi' : ((BitVec.ofNat 16 i).toNat : Int) = i := by
    rw [BitVec.toNat_ofNat]
    omega
  have hge : (msg.params.length : Int) ≤ (BitVec.ofNat 16 i).toInt := by
    rw [BitVec.toInt_eq_toNat_of_lt, hi']
    · exact_mod_cast hi
    · rw [BitVec.toNat_ofNat]
      omega
  have hat := paramAt_ge (s := { s with
    ax := BitVec.ofNat 16 i, bx := s.cx, cx := s.bx }) h hge
  rw [fetchParam]
  simp only [hat]

/-- The parameter `fetchParam` finds, and `writeStr` behind it. -/
theorem putParam_wrote {b s : Bot} {W : List Byte}
    (hb : Ready img msg m₀ b) (h : Wrote b W s)
    {i : Nat} (hi : i < msg.params.length)
    (hW : W.length + msg.params[i].length ≤ outSpill) :
    Wrote b (W ++ msg.params[i])
      (writeStr (fetchParam img (BitVec.ofNat 16 i) s)) := by
  have hsplit := msg.bytes_split hi
  have hlen := hb.parsed.part_length hsplit
  have hread := hb.parsed.part hsplit
  -- what was written before did not reach the parser's data
  have hparsed : Parsed img msg m₀ s.mem := by
    obtain ⟨ax, bx, si, rfl⟩ := h
    refine hb.parsed.congr fun x hx => emit_eqOn b (by omega) ?_
    rw [hb.dest]
    exact Set.disjoint_left.mp img.parse_disjoint_out hx
  have hd : Disjoint
      (region (img.parseBuffer + BitVec.ofNat 16 (msg.before i).length)
        msg.params[i].length) (region b.di outSpill) := by
    have hfits := hb.parsed.fits
    rw [hsplit, List.length_append, List.length_append] at hfits
    rw [hb.dest]
    exact img.parse_disjoint_out.mono_left (img.buffer_subset (by omega))
  have hput := writeStr_wrote
    (h.reload 0 (BitVec.ofNat 16 msg.params[i].length)
      (img.parseBuffer + BitVec.ofNat 16 (msg.before i).length))
    (by simp only [hlen]; exact hW) (by simp only [hlen]; exact hd)
  simp only [hlen, hread] at hput
  rw [fetchParam_lt hparsed hi]
  exact hput

-- ==================================================== the replies

theorem writePong_wrote {b s : Bot} (hb : Ready img msg m₀ b)
    (h : Wrote b [] s) (hne : 0 < msg.params.length)
    (hlen : msg.target.length ≤ 510) :
    Wrote b (pong msg.target) (writePong img s) := by
  have htarget : msg.target = msg.params[0] := msg.target_eq hne
  have hpong := length_pong msg.target
  rw [pong, htarget] at hpong ⊢
  rw [htarget] at hlen
  simp only [List.length_append] at hpong
  have h1 := putText_wrote hb h .pongCmd (by decide)
  have h2 := putChar_wrote h1 0x20
  have h3 := putChar_wrote h2 0x3A
  have h4 := putParam_wrote hb h3 hne (by
    simp only [List.length_append, outSpill]
    simp at hpong ⊢
    omega)
  exact putChar_wrote (putChar_wrote h4 0x0D) 0x0A

theorem writeHello_wrote {b s : Bot} (hb : Ready img msg m₀ b)
    (h : Wrote b [] s) (hne : 0 < msg.params.length)
    (hlen : msg.target.length ≤ 510) :
    Wrote b (hello msg.target) (writeHello img s) := by
  have htarget : msg.target = msg.params[0] := msg.target_eq hne
  have hhello := length_hello msg.target
  rw [hello, htarget] at hhello ⊢
  rw [htarget] at hlen
  simp only [List.length_append, List.length_singleton] at hhello
  have hbound : ∀ n, n ≤ msg.params[0].length + 23 → n ≤ outSpill := by
    intro n hn
    unfold outSpill
    omega
  have h1 := putText_wrote hb h .privmsgCmd (by decide)
  have h2 := putChar_wrote h1 0x20
  have h3 := putParam_wrote hb h2 hne (hbound _ (by
    simp only [List.length_append, List.nil_append, List.length_singleton]
    omega))
  have h4 := putChar_wrote h3 0x20
  have h5 := putChar_wrote h4 0x3A
  have h6 := putText_wrote hb h5 .helloText (hbound _ (by
    simp only [List.length_append, List.nil_append, List.length_singleton]
    omega))
  exact putChar_wrote (putChar_wrote h6 0x0D) 0x0A

end Pdtb.Asm
