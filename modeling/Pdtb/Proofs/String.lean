/-
The writers as `emit`: what each puts at `di` is a text of its own,
cut off where the room ends, and a sequence of writers is one `emit` of
the texts in a row (`Cpu.emit_append`). Nothing downstream looks inside
a writer again.

`writeStr` reads while it writes, so its source may not overlap the part
of the destination it fills. `emitted_read` is what callers owe for it:
a source apart from the whole buffer reads the same however much of the
buffer earlier writers filled.
-/
import Pdtb.Asm.String

namespace Pdtb.Asm

open Lib

-- ==================================================== the buffer being filled

/-- Where a writer may still put bytes lies inside the buffer the first
writer was given. -/
theorem emit_region_subset (s : Bot) (bs : List Byte) {k : Nat}
    (hk : k ≤ (s.emit bs).cx.toNat) :
    region (s.emit bs).di k ⊆ region s.di s.cx.toNat := by
  refine region_subset ?_
  rw [Cpu.emit_cx_toNat] at hk
  rw [List.length_take]
  omega

/-- A source apart from the buffer still reads the same. -/
theorem emitted_read {s : Bot} (bs : List Byte) {p : Word} {n : Nat}
    (hn : n ≤ 2 ^ 16)
    (hd : Disjoint (region p n) (region s.di s.cx.toNat)) :
    (s.emit bs).mem.read p n = s.mem.read p n := by
  refine Mem.read_write_disjoint hn (hd.mono_right (region_mono ?_))
  rw [List.length_take]
  omega

/-- The bytes put are counted by the room used up. -/
theorem emitted_count (s : Bot) (bs : List Byte) :
    (s.cx - (s.emit bs).cx).toNat = (bs.take s.cx.toNat).length := by
  have hlt := s.cx.isLt
  have hroom := Cpu.emit_cx_toNat s bs
  rw [List.length_take, BitVec.toNat_sub, hroom]
  omega

/-- The bytes put are there. -/
theorem emitted_text (s : Bot) (bs : List Byte) :
    (s.emit bs).mem.read s.di (bs.take s.cx.toNat).length
      = bs.take s.cx.toNat := by
  refine Mem.read_write _ _ ?_
  have hlt := s.cx.isLt
  rw [List.length_take]
  omega

-- ==================================================== characters and strings

theorem writeChar_eq (s : Bot) : writeChar s = s.emit [s.al] := by
  unfold writeChar
  split
  next h =>
    have h0 : s.cx.toNat = 0 := by rw [h]; rfl
    simp [Cpu.emit, h0]
  next h =>
    have hpos : 1 ≤ s.cx.toNat := by
      rcases Nat.eq_zero_or_pos s.cx.toNat with h0 | h0
      · exact absurd (BitVec.eq_of_toNat_eq h0) h
      · exact h0
    have htake : [s.al].take s.cx.toNat = [s.al] :=
      List.take_of_length_le hpos
    simp only [Cpu.emit, htake]
    rfl

/-- `writeStr` puts the string at `si`, if that does not overlap what
it fills. -/
theorem writeStr_eq (s : Bot)
    (hd : Disjoint (region s.si (min s.bx.toNat s.cx.toNat))
      (region s.di (min s.bx.toNat s.cx.toNat))) :
    writeStr s
      = { s.emit (s.mem.read s.si s.bx.toNat) with
          si := s.si + BitVec.ofNat 16 (min s.bx.toNat s.cx.toNat)
          bx := 0 } := by
  have hcx := s.cx.isLt
  -- how many bytes fit
  obtain ⟨k, hk⟩ : ∃ k, k = min s.bx.toNat s.cx.toNat := ⟨_, rfl⟩
  have hround : (if s.cx < s.bx then { s with bx := s.cx } else s)
      = { s with bx := BitVec.ofNat 16 k } := by
    split
    next h =>
      have : k = s.cx.toNat := by rw [BitVec.lt_def] at h; omega
      simp [this]
    next h =>
      have : k = s.bx.toNat := by rw [BitVec.lt_def] at h; omega
      simp [this]
  have hkn : (BitVec.ofNat 16 k).toNat = k := by
    rw [BitVec.toNat_ofNat]
    omega
  have htake : (s.mem.read s.si s.bx.toNat).take s.cx.toNat
      = s.mem.read s.si k := by
    rw [Mem.take_read, Nat.min_comm, hk]
  rw [← hk] at hd ⊢
  unfold writeStr
  rw [hround]
  simp only [Cpu.repMovsb, hkn]
  rw [Cpu.movsbRounds_eq (by omega) (by exact hd)]
  simp [Cpu.emit, htake]

/-- Of a text only what there is room for matters. -/
theorem emit_congr {s : Bot} {xs ys : List Byte}
    (h : xs.take s.cx.toNat = ys.take s.cx.toNat) : s.emit xs = s.emit ys := by
  unfold Cpu.emit
  rw [h]

/-- A string behind other text, if what there is room for of it is apart
from the buffer. -/
theorem writeStr_emitted {s : Bot} (bs : List Byte) {p n : Word}
    (hd : Disjoint (region p (min n.toNat (s.cx.toNat - bs.length)))
      (region s.di s.cx.toNat))
    (ax dx bp : Word) (cf zf : Bool) (stack : List Word) (dev : Dos) :
    writeStr ⟨ax, n, (s.emit bs).cx, dx, p, (s.emit bs).di, bp, cf, zf,
        (s.emit bs).mem, stack, dev⟩
      = { s.emit (bs ++ s.mem.read p n.toNat) with
          ax := ax
          bx := 0
          dx := dx
          si := p + BitVec.ofNat 16 (min n.toNat (s.emit bs).cx.toNat)
          bp := bp
          cf := cf
          zf := zf
          stack := stack
          dev := dev } := by
  have hroom := Cpu.emit_cx_toNat s bs
  have hlt := s.cx.isLt
  have hsame : s.emit (bs ++ (s.emit bs).mem.read p n.toNat)
      = s.emit (bs ++ s.mem.read p n.toNat) := by
    apply emit_congr
    rw [List.take_append, List.take_append, Mem.take_read, Mem.take_read,
      Nat.min_comm, emitted_read bs (by omega) hd]
  rw [← hroom] at hd
  rw [writeStr_eq]
  · simp only [Cpu.emit_mk, Cpu.emit_append, hsame]
  · exact hd.mono_right (emit_region_subset s bs (Nat.min_le_right _ _))

-- ==================================================== numbers

/-- The digits the loop writes before the last one. -/
def leadingDigits : List Word → Word → Word → Word → List Byte
  | [], _, _, _ => []
  | d :: ds, ax, bx, si =>
      (if ax / d ≠ 0 ∨ ¬ bx.slt si then [loByte (ax / d + 0x30)] else [])
        ++ leadingDigits ds (ax % d) bx (si - 1)

/-- What `writeNum` writes for `n` padded to `pad`, given the room. -/
def numText (n pad : Word) : List Byte :=
  leadingDigits divTable n (pad - 1) 4
    ++ [loByte (divTable.foldl (· % ·) n + 0x30)]

theorem writeNumLoop_eq (ds : List Word) :
    ∀ s : Bot, ∃ d p, writeNumLoop ds s
      = { s.emit (leadingDigits ds s.ax s.bx s.si) with
          ax := ds.foldl (· % ·) s.ax
          dx := d
          bp := p
          si := s.si - BitVec.ofNat 16 ds.length } := by
  induction ds with
  | nil =>
      intro s
      exact ⟨s.dx, s.bp, by simp [writeNumLoop, leadingDigits]⟩
  | cons d ds ih =>
      intro s
      -- the digit, written or skipped
      obtain ⟨bs, hbs⟩ : ∃ bs, bs = if s.ax / d ≠ 0 ∨ ¬ s.bx.slt s.si
          then [loByte (s.ax / d + 0x30)] else [] := ⟨_, rfl⟩
      have hdigit : ∃ a, (if s.ax / d ≠ 0 ∨ ¬ s.bx.slt s.si
          then writeChar { s with ax := s.ax / d + 0x30, dx := s.ax % d }
          else { s with ax := s.ax / d, dx := s.ax % d })
          = { s.emit bs with ax := a, dx := s.ax % d } := by
        by_cases h : s.ax / d ≠ 0 ∨ ¬ s.bx.slt s.si
        · rw [if_pos h] at hbs ⊢
          refine ⟨s.ax / d + 0x30, ?_⟩
          rw [writeChar_eq, hbs]
          rfl
        · rw [if_neg h] at hbs ⊢
          exact ⟨s.ax / d, by simp [hbs]⟩
      obtain ⟨a, ha⟩ := hdigit
      obtain ⟨e, p, he⟩ := ih { s.emit bs with
        ax := s.ax % d, dx := s.ax % d, bp := s.bp + 2, si := s.si - 1 }
      refine ⟨e, p, ?_⟩
      simp only [writeNumLoop, leadingDigits, List.foldl_cons,
        List.length_cons, ← hbs, ← Cpu.emit_append, sub_ofNat_succ]
      rw [ha]
      exact he

theorem writeNum_eq (s : Bot) :
    writeNum s
      = { s.emit (numText s.ax s.bx) with ax := 0, bx := 0, si := 0 } := by
  obtain ⟨d, p, hd⟩ := writeNumLoop_eq divTable
    { (s.push s.dx).push s.bp with si := 4, bx := s.bx - 1, bp := 0 }
  simp only [Cpu.push] at hd
  simp only [writeNum, Cpu.push, hd, writeChar_eq, numText,
    ← Cpu.emit_append]
  rfl

end Pdtb.Asm
