/-
An 8086 as the straight-line code of one segment sees it: the general
registers, the two flags such code branches on, memory, the stack and
whatever devices hang behind interrupts (`dev`, left open).

All segment registers point at the one segment (small model, `es = ds`),
and the direction flag is clear. The stack is a list of words and not a
part of `mem`: pushing and popping is all the code does with it.

Control flow is not modelled here. A routine of the program is a Lean
function on `Cpu`, a call is an application, and the flags are set where
a later instruction reads them.

# What the file gives

`emit` is the one thing every string-building routine does: put bytes at
`di` until they or the room in `cx` run out. `emit_append` is its law;
with it a sequence of writers is one `emit` of one concatenation.
`repMovsb_eq` and `repneScasb_eq` are the two string instructions in
closed form.
-/
import Pdtb.Lib.Mem

namespace Pdtb.Lib

abbrev Byte := BitVec 8
abbrev Word := BitVec 16

-- ================================================== words and bytes

/-- The low byte of a word. -/
def loByte (v : Word) : Byte := v.setWidth 8

/-- The high byte of a word. -/
def hiByte (v : Word) : Byte := (v >>> 8).setWidth 8

/-- The word with these bytes. -/
def mkWord (hi lo : Byte) : Word := BitVec.ofNat 16 (hi.toNat * 256 + lo.toNat)

theorem mkWord_toNat (hi lo : Byte) :
    (mkWord hi lo).toNat = hi.toNat * 256 + lo.toNat := by
  have := hi.isLt
  have := lo.isLt
  rw [mkWord, BitVec.toNat_ofNat]
  omega

theorem loByte_toNat (v : Word) : (loByte v).toNat = v.toNat % 256 := by
  simp [loByte]

theorem hiByte_toNat (v : Word) : (hiByte v).toNat = v.toNat / 256 := by
  have := v.isLt
  simp only [hiByte, BitVec.toNat_setWidth, BitVec.toNat_ushiftRight,
    Nat.shiftRight_eq_div_pow]
  omega

@[simp] theorem loByte_mkWord (hi lo : Byte) : loByte (mkWord hi lo) = lo := by
  have := lo.isLt
  apply BitVec.eq_of_toNat_eq
  rw [loByte_toNat, mkWord_toNat]
  omega

@[simp] theorem hiByte_mkWord (hi lo : Byte) : hiByte (mkWord hi lo) = hi := by
  have := lo.isLt
  apply BitVec.eq_of_toNat_eq
  rw [hiByte_toNat, mkWord_toNat]
  omega

@[simp] theorem mkWord_hi_lo (v : Word) : mkWord (hiByte v) (loByte v) = v := by
  apply BitVec.eq_of_toNat_eq
  rw [mkWord_toNat, hiByte_toNat, loByte_toNat]
  omega

/-- Words agree when both their bytes do. -/
theorem mkWord_inj {hi lo hi' lo' : Byte} :
    mkWord hi lo = mkWord hi' lo' ↔ hi = hi' ∧ lo = lo' := by
  constructor
  · intro h
    exact ⟨by simpa using congrArg hiByte h, by simpa using congrArg loByte h⟩
  · intro hand
    obtain ⟨rfl, rfl⟩ := hand
    rfl

-- ================================================== words in memory

/-- The little-endian word at `a`. -/
def Mem.word (m : Mem 16 Byte) (a : Word) : Word := mkWord (m (a + 1)) (m a)

/-- The two bytes of a word, low byte first. -/
def wordBytes (v : Word) : List Byte := [loByte v, hiByte v]

/-- Store a word, low byte first. -/
def Mem.setWord (m : Mem 16 Byte) (a v : Word) : Mem 16 Byte :=
  m.write a (wordBytes v)

theorem succ_ne_self (a : Word) : a + 1 ≠ a := by
  intro h
  have h' := congrArg BitVec.toNat h
  rw [BitVec.toNat_add, show (1 : Word).toNat = 1 from rfl] at h'
  omega

@[simp] theorem Mem.word_setWord (m : Mem 16 Byte) (a v : Word) :
    (m.setWord a v).word a = v := by
  have hne : a ≠ a + 1 := fun h => succ_ne_self a h.symm
  simp only [Mem.word, Mem.setWord, wordBytes, Mem.write,
    Function.update_self, Function.update_of_ne hne, mkWord_hi_lo]

theorem Mem.setWord_eqOn (m : Mem 16 Byte) (a v : Word) :
    Set.EqOn (m.setWord a v) m (region a 2)ᶜ :=
  Mem.write_eqOn m a (wordBytes v)

/-- Memories that agree on both bytes have the same word. -/
theorem Mem.word_congr {m m' : Mem 16 Byte} {a : Word}
    (h : Set.EqOn m m' (region a 2)) : m.word a = m'.word a := by
  have h0 : m a = m' a := h (base_mem_region (by omega))
  have h1 : m (a + 1) = m' (a + 1) := by
    refine h (region_succ_subset a 1 ?_)
    exact base_mem_region (by omega)
  simp only [Mem.word, h0, h1]

theorem Mem.word_setWord_disjoint {m : Mem 16 Byte} {a b v : Word}
    (h : Disjoint (region a 2) (region b 2)) :
    (m.setWord b v).word a = m.word a :=
  Mem.word_congr fun _ hx =>
    Mem.setWord_eqOn m b v (Set.disjoint_left.mp h hx)

/-- A comparison with a word constant compares both bytes. -/
theorem Mem.word_eq_iff {m : Mem 16 Byte} {a : Word} {hi lo : Byte} :
    m.word a = mkWord hi lo ↔ m a = lo ∧ m (a + 1) = hi := by
  rw [Mem.word, mkWord_inj]
  exact And.comm

-- ================================================== the processor

/-- Registers, flags, memory, stack and devices. -/
structure Cpu (δ : Type) where
  ax : Word
  bx : Word
  cx : Word
  dx : Word
  si : Word
  di : Word
  bp : Word
  cf : Bool
  zf : Bool
  mem : Mem 16 Byte
  stack : List Word
  dev : δ
  deriving Inhabited

namespace Cpu

variable {δ : Type}

/-- The low byte of `ax`. -/
def al (s : Cpu δ) : Byte := loByte s.ax

/-- The high byte of `ax`. -/
def ah (s : Cpu δ) : Byte := hiByte s.ax

/-- `mov al, b` -/
def setAl (s : Cpu δ) (b : Byte) : Cpu δ := { s with ax := mkWord s.ah b }

/-- `mov ah, b` -/
def setAh (s : Cpu δ) (b : Byte) : Cpu δ := { s with ax := mkWord b s.al }

/-- `push v` -/
def push (s : Cpu δ) (v : Word) : Cpu δ := { s with stack := v :: s.stack }

/-- The word a `pop` takes. -/
def top (s : Cpu δ) : Word := s.stack.headD 0

/-- The stack after a `pop`. -/
def pop (s : Cpu δ) : Cpu δ := { s with stack := s.stack.tail }

/-- The stack pointer, counted from where the stack begins. -/
def sp (s : Cpu δ) : Word := -BitVec.ofNat 16 (2 * s.stack.length)

/-- `sub sp, 2 * n` -/
def reserve (s : Cpu δ) (n : Nat) : Cpu δ :=
  { s with stack := List.replicate n 0 ++ s.stack }

/-- How many words lie on the stack below `bp`. -/
def below (s : Cpu δ) : Nat := (s.bp - s.sp).toNat / 2

/-- The word at `[bp - 2 * k]`. -/
def slot (s : Cpu δ) (k : Nat) : Word := s.stack.getD (s.below - k) 0

/-- `mov [bp - 2 * k], v` -/
def setSlot (s : Cpu δ) (k : Nat) (v : Word) : Cpu δ :=
  { s with stack := s.stack.set (s.below - k) v }

/-- `mov sp, bp` -/
def leave (s : Cpu δ) : Cpu δ := { s with stack := s.stack.drop s.below }

/-- `lodsb` -/
def lodsb (s : Cpu δ) : Cpu δ := { s.setAl (s.mem s.si) with si := s.si + 1 }

/-- `stosb` -/
def stosb (s : Cpu δ) : Cpu δ :=
  { s with mem := Function.update s.mem s.di s.al, di := s.di + 1 }

/-- `movsb` -/
def movsb (s : Cpu δ) : Cpu δ :=
  { s with
    mem := Function.update s.mem s.di (s.mem s.si)
    si := s.si + 1
    di := s.di + 1 }

/-- `n` rounds of `rep movsb`. -/
def movsbRounds : Nat → Cpu δ → Cpu δ
  | 0, s => s
  | n + 1, s => movsbRounds n { s.movsb with cx := s.cx - 1 }

/-- `rep movsb` -/
def repMovsb (s : Cpu δ) : Cpu δ := movsbRounds s.cx.toNat s

/-- At most `n` rounds of `repne scasb`. -/
def scasbRounds : Nat → Cpu δ → Cpu δ
  | 0, s => s
  | n + 1, s =>
      let hit := decide (s.mem s.di = s.al)
      let s := { s with di := s.di + 1, cx := s.cx - 1, zf := hit }
      if hit then s else scasbRounds n s

/-- `repne scasb` -/
def repneScasb (s : Cpu δ) : Cpu δ := scasbRounds s.cx.toNat s

@[simp] theorem al_setAl (s : Cpu δ) (b : Byte) : (s.setAl b).al = b :=
  loByte_mkWord _ _

@[simp] theorem ah_setAl (s : Cpu δ) (b : Byte) : (s.setAl b).ah = s.ah :=
  hiByte_mkWord _ _

@[simp] theorem ah_setAh (s : Cpu δ) (b : Byte) : (s.setAh b).ah = b :=
  hiByte_mkWord _ _

-- ================================================== stack frames

/-- With `bp` where the stack was before `frame` was put on it, the words
of `frame` are below it. -/
theorem below_frame {s : Cpu δ} (frame rest : List Word)
    (hstack : s.stack = frame ++ rest)
    (hbp : s.bp = -BitVec.ofNat 16 (2 * rest.length))
    (hsmall : frame.length < 2 ^ 15) : s.below = frame.length := by
  have hdiff : s.bp - s.sp = BitVec.ofNat 16 (2 * frame.length) := by
    rw [hbp, sp, hstack, List.length_append, Nat.mul_add, BitVec.ofNat_add]
    generalize BitVec.ofNat 16 (2 * frame.length) = x
    generalize BitVec.ofNat 16 (2 * rest.length) = y
    bv_omega
  rw [below, hdiff, BitVec.toNat_ofNat]
  omega

-- ================================================== string instructions

/-- `rep movsb` between runs that do not overlap copies the source run. -/
theorem movsbRounds_eq {n : Nat} (hn : n ≤ 2 ^ 16) :
    ∀ {s : Cpu δ}, Disjoint (region s.si n) (region s.di n) →
      movsbRounds n s
        = { s with
            mem := s.mem.write s.di (s.mem.read s.si n)
            si := s.si + BitVec.ofNat 16 n
            di := s.di + BitVec.ofNat 16 n
            cx := s.cx - BitVec.ofNat 16 n } := by
  induction n with
  | zero =>
      intro s _
      simp [movsbRounds, Mem.read]
  | succ n ih =>
      intro s hd
      have hrest : Disjoint (region (s.si + 1) n) (region (s.di + 1) n) :=
        hd.mono (region_succ_subset _ _) (region_succ_subset _ _)
      -- the byte just stored is not among those still to be read
      have hkeep : Mem.read (Function.update s.mem s.di (s.mem s.si))
          (s.si + 1) n = s.mem.read (s.si + 1) n := by
        refine Mem.read_congr (by omega) fun x hx => ?_
        have hsi : x ∈ region s.si (n + 1) := region_succ_subset s.si n hx
        have hne : x ≠ s.di := by
          intro h
          have hdi : s.di ∈ region s.di (n + 1) := base_mem_region (by omega)
          exact Set.disjoint_left.mp hd hsi (h ▸ hdi)
        exact Function.update_of_ne hne _ _
      rw [movsbRounds,
        ih (by omega) (s := { s.movsb with cx := s.cx - 1 }) hrest]
      simp only [movsb, hkeep, Mem.read, Mem.write, add_ofNat_succ,
        sub_ofNat_succ]

/-- What `repne scasb` leaves unscanned of `bs`: all behind the first
`x`. -/
def afterFirst {α : Type} [DecidableEq α] (x : α) : List α → List α
  | [] => []
  | b :: bs => if b = x then bs else afterFirst x bs

theorem afterFirst_length_le {α : Type} [DecidableEq α] (x : α)
    (bs : List α) : (afterFirst x bs).length ≤ bs.length := by
  induction bs with
  | nil => exact Nat.le_refl _
  | cons b bs ih =>
      unfold afterFirst
      split
      · simp
      · exact Nat.le_succ_of_le ih

/-- `repne scasb` moves past the first `al` of the run, or past the run:
`cx` counts what is left either way. -/
theorem scasbRounds_eq {bs : List Byte} :
    ∀ {s : Cpu δ}, s.mem.read s.di bs.length = bs →
      ∃ z, scasbRounds bs.length s
        = { s with
            di := s.di + BitVec.ofNat 16
              (bs.length - (afterFirst s.al bs).length)
            cx := s.cx - BitVec.ofNat 16
              (bs.length - (afterFirst s.al bs).length)
            zf := z } := by
  induction bs with
  | nil =>
      intro s _
      exact ⟨s.zf, by simp [scasbRounds, afterFirst]⟩
  | cons b bs ih =>
      intro s h
      simp only [List.length_cons, Mem.read, List.cons.injEq] at h
      obtain ⟨hb, hrest⟩ := h
      simp only [List.length_cons, scasbRounds, afterFirst, hb]
      by_cases hit : b = s.al
      · refine ⟨true, ?_⟩
        simp [hit]
      · obtain ⟨z, hz⟩ := ih (s := { s with
          di := s.di + 1, cx := s.cx - 1, zf := decide (b = s.al) }) hrest
        refine ⟨z, ?_⟩
        have hle := afterFirst_length_le s.al bs
        simp only [hit, ↓reduceIte, decide_false, Bool.false_eq_true]
        simp only [hit, decide_false] at hz
        rw [hz, show bs.length + 1 - (afterFirst s.al bs).length
          = bs.length - (afterFirst s.al bs).length + 1 from by omega,
          add_ofNat_succ, sub_ofNat_succ]
        rfl

-- ================================================== writing with room

/-- Put `bs` at `di`, as far as the room in `cx` goes. -/
def emit (s : Cpu δ) (bs : List Byte) : Cpu δ :=
  { s with
    mem := s.mem.write s.di (bs.take s.cx.toNat)
    di := s.di + BitVec.ofNat 16 (bs.take s.cx.toNat).length
    cx := s.cx - BitVec.ofNat 16 (bs.take s.cx.toNat).length }

@[simp] theorem emit_nil (s : Cpu δ) : s.emit [] = s := by
  simp [emit]

-- the registers `emit` leaves alone
@[simp] theorem emit_ax (s : Cpu δ) (bs : List Byte) :
    (s.emit bs).ax = s.ax := rfl
@[simp] theorem emit_bx (s : Cpu δ) (bs : List Byte) :
    (s.emit bs).bx = s.bx := rfl
@[simp] theorem emit_dx (s : Cpu δ) (bs : List Byte) :
    (s.emit bs).dx = s.dx := rfl
@[simp] theorem emit_si (s : Cpu δ) (bs : List Byte) :
    (s.emit bs).si = s.si := rfl
@[simp] theorem emit_bp (s : Cpu δ) (bs : List Byte) :
    (s.emit bs).bp = s.bp := rfl
@[simp] theorem emit_cf (s : Cpu δ) (bs : List Byte) :
    (s.emit bs).cf = s.cf := rfl
@[simp] theorem emit_zf (s : Cpu δ) (bs : List Byte) :
    (s.emit bs).zf = s.zf := rfl
@[simp] theorem emit_stack (s : Cpu δ) (bs : List Byte) :
    (s.emit bs).stack = s.stack := rfl
@[simp] theorem emit_dev (s : Cpu δ) (bs : List Byte) :
    (s.emit bs).dev = s.dev := rfl

theorem emit_mem (s : Cpu δ) (bs : List Byte) :
    (s.emit bs).mem = s.mem.write s.di (bs.take s.cx.toNat) := rfl

/-- Only the buffer cursor and memory matter to `emit`: every other
register passes through. -/
theorem emit_mk (s : Cpu δ) (bs : List Byte) (ax bx dx si bp : Word)
    (cf zf : Bool) (stack : List Word) (dev : δ) :
    (Cpu.mk ax bx s.cx dx si s.di bp cf zf s.mem stack dev).emit bs
      = { s.emit bs with
          ax := ax, bx := bx, dx := dx, si := si, bp := bp, cf := cf
          zf := zf, stack := stack, dev := dev } := rfl

/-- The room left: what was there less what was put. -/
theorem emit_cx_toNat (s : Cpu δ) (bs : List Byte) :
    (s.emit bs).cx.toNat = s.cx.toNat - bs.length := by
  have hlt := s.cx.isLt
  simp only [emit, BitVec.toNat_sub, List.length_take, BitVec.toNat_ofNat]
  omega

/-- One writer after another is one writer of both texts: the second
starts where the first stopped, with the room the first left. -/
theorem emit_append (s : Cpu δ) (xs ys : List Byte) :
    (s.emit xs).emit ys = s.emit (xs ++ ys) := by
  have hroom := emit_cx_toNat s xs
  have htake : (xs ++ ys).take s.cx.toNat
      = xs.take s.cx.toNat ++ ys.take (s.cx.toNat - xs.length) :=
    List.take_append
  unfold emit at hroom ⊢
  simp only [hroom, htake, List.length_append, Mem.write_append,
    BitVec.ofNat_add, BitVec.sub_sub, BitVec.add_assoc]

end Cpu

end Pdtb.Lib
