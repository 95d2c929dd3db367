/-
The number writers in decimal. What `writeNum` puts is `suppressed 10`
of the number (`numText_eq`), so it is the decimal numeral exactly for
the numbers that are `Plain`: a zero inside the number is written only
where padding reaches it.
-/
import Pdtb.Lib.Digits
import Pdtb.Proofs.String

namespace Pdtb.Asm

open Lib

-- ==================================================== numerals as text

/-- The character of a digit. -/
def digitByte (d : Nat) : Byte := BitVec.ofNat 8 (0x30 + d)

/-- The decimal representation of `n` with at least `p` digits. -/
def decimal (p n : Nat) : List Byte := (numeral 10 (max p 1) n).map digitByte

/-- The same with a sign. -/
def signedDecimal (p : Nat) (z : Int) : List Byte :=
  if z < 0 then 0x2D :: decimal p z.natAbs else decimal p z.natAbs

/-- The number that digits denote. -/
def readNum (bs : List Byte) : Nat :=
  Nat.ofDigits 10 (bs.map fun b => b.toNat - 0x30).reverse

/-- The number that digits and perhaps a sign denote. -/
def readNumSigned (bs : List Byte) : Int :=
  match bs with
  | [] => 0
  | b :: bs => if b = 0x2D then -(readNum bs : Int) else readNum (b :: bs)

/-- What a writer put between where `di` was and where it is now. -/
def written (s t : Bot) : List Byte := t.mem.read s.di (t.di - s.di).toNat

theorem written_emit (s : Bot) {bs : List Byte}
    (hroom : bs.length ≤ s.cx.toNat) : written s (s.emit bs) = bs := by
  have hlt := s.cx.isLt
  have htake : bs.take s.cx.toNat = bs := List.take_of_length_le hroom
  have hcount : ((s.emit bs).di - s.di).toNat = bs.length := by
    simp only [Cpu.emit, htake]
    rw [BitVec.toNat_sub, BitVec.toNat_add, BitVec.toNat_ofNat]
    have := s.di.isLt
    omega
  have htext := emitted_text s bs
  rw [htake] at htext
  rw [written, hcount]
  exact htext

/-- Digits are read off their characters. -/
theorem map_digitByte {ds : List Nat} (h : ∀ d ∈ ds, d < 10) :
    (ds.map digitByte).map (fun b => b.toNat - 0x30) = ds := by
  rw [List.map_map]
  calc ds.map ((fun b : Byte => b.toNat - 0x30) ∘ digitByte)
      = ds.map id := by
        apply List.map_congr_left
        intro d hd
        have hlt := h d hd
        rw [Function.comp_apply, digitByte, BitVec.toNat_ofNat, id]
        omega
    _ = ds := List.map_id ds

theorem readNum_decimal (p n : Nat) : readNum (decimal p n) = n := by
  rw [readNum, decimal, map_digitByte fun d hd => numeral_lt (by decide) hd]
  exact ofDigits_numeral 10 _ n

/-- A numeral has no sign. -/
theorem decimal_unsigned (p n : Nat) : (0x2D : Byte) ∉ decimal p n := by
  intro hmem
  obtain ⟨d, hd, hbyte⟩ := List.mem_map.mp hmem
  have hlt : d < 10 := numeral_lt (by decide) hd
  have hnat := congrArg BitVec.toNat hbyte
  rw [digitByte, BitVec.toNat_ofNat] at hnat
  change _ = 0x2D at hnat
  omega

theorem readNumSigned_signedDecimal (p : Nat) (z : Int) :
    readNumSigned (signedDecimal p z) = z := by
  unfold signedDecimal
  split
  · next hneg =>
      rw [readNumSigned, if_pos rfl, readNum_decimal]
      omega
  · next hpos =>
      have hread := readNum_decimal p z.natAbs
      have hno := decimal_unsigned p z.natAbs
      cases hd : decimal p z.natAbs with
      | nil =>
          rw [hd] at hread
          change 0 = z.natAbs at hread
          change (0 : Int) = z
          omega
      | cons b bs =>
          rw [hd] at hread hno
          have hb : b ≠ 0x2D := by
            intro heq
            exact hno (heq ▸ List.mem_cons_self)
          rw [readNumSigned, if_neg hb, hread]
          omega

-- ==================================================== the digit loop

/-- The table from place `k` down. -/
def tens : Nat → List Word
  | 0 => []
  | k + 1 => BitVec.ofNat 16 (10 ^ (k + 1)) :: tens k

/-- `jl .skip` compares the place with the padding for the place before
it, which is -1 without padding. -/
theorem slt_place : ∀ p ≤ 5, ∀ k < 4,
    (BitVec.ofNat 16 p - 1).slt (BitVec.ofNat 16 (k + 1))
      = decide (p ≤ k + 1) := by
  decide

theorem digit_char (w : Word) :
    loByte (w + 0x30) = digitByte w.toNat := by
  apply BitVec.eq_of_toNat_eq
  rw [loByte_toNat, digitByte, BitVec.toNat_ofNat, BitVec.toNat_add]
  change (w.toNat + 0x30) % 2 ^ 16 % 256 = _
  omega

theorem leadingDigits_eq {p : Nat} (hp : p ≤ 5) {k : Nat} (hk : k ≤ 4) :
    ∀ n : Word, n.toNat < 10 ^ (k + 1) →
      leadingDigits (tens k) n (BitVec.ofNat 16 p - 1) (BitVec.ofNat 16 k)
          ++ [loByte ((tens k).foldl (· % ·) n + 0x30)]
        = (suppressed 10 p k n.toNat).map digitByte := by
  induction k with
  | zero =>
      intro n hn
      rw [tens, leadingDigits, suppressed, List.nil_append, List.map_cons,
        List.map_nil, List.foldl_nil, digit_char]
  | succ k ih =>
      intro n hn
      have hpow : 10 ^ (k + 1) < 2 ^ 16 := by
        calc 10 ^ (k + 1) ≤ 10 ^ 4 := Nat.pow_le_pow_right (by decide) hk
          _ < 2 ^ 16 := by decide
      have hplace : (BitVec.ofNat 16 (10 ^ (k + 1))).toNat = 10 ^ (k + 1) := by
        rw [BitVec.toNat_ofNat, Nat.mod_eq_of_lt hpow]
      obtain ⟨d, hd⟩ : ∃ d, d = BitVec.ofNat 16 (10 ^ (k + 1)) := ⟨_, rfl⟩
      rw [← hd] at hplace
      have hdiv : (n / d).toNat = n.toNat / 10 ^ (k + 1) := by
        rw [BitVec.toNat_udiv, hplace]
      have hmod : (n % d).toNat = n.toNat % 10 ^ (k + 1) := by
        rw [BitVec.toNat_umod, hplace]
      have hq : (n / d).toNat < 10 := by
        rw [hdiv]
        apply Nat.div_lt_of_lt_mul
        rw [← Nat.pow_succ]
        exact hn
      have hrest := ih (by omega) (n % d) (by
        rw [hmod]
        exact Nat.mod_lt _ (Nat.pow_pos (by decide)))
      have hsi : BitVec.ofNat 16 (k + 1) - 1 = BitVec.ofNat 16 k := by
        rw [BitVec.ofNat_add]
        exact BitVec.add_sub_cancel _ _
      have hwritten : (n / d ≠ 0 ∨ ¬ (BitVec.ofNat 16 p - 1).slt
            (BitVec.ofNat 16 (k + 1)) = true) ↔
          (n.toNat / 10 ^ (k + 1) ≠ 0 ∨ k + 1 < p) := by
        rw [slt_place p hp k hk, decide_eq_true_eq, Nat.not_le, ← hdiv]
        refine or_congr (not_congr ?_) Iff.rfl
        exact BitVec.toNat_eq.trans Iff.rfl
      rw [tens, ← hd, leadingDigits, hsi, List.foldl_cons, List.append_assoc,
        hrest, suppressed, List.map_append, hmod]
      congr 1
      by_cases h : n.toNat / 10 ^ (k + 1) ≠ 0 ∨ k + 1 < p
      · rw [if_pos h, if_pos (hwritten.mpr h), digit_char, hdiv]
        rfl
      · rw [if_neg h, if_neg (mt hwritten.mp h)]
        rfl

/-- `writeNum` drops zeros. -/
theorem numText_eq (n : Word) {pad : Word} (hpad : pad.toNat ≤ 5) :
    numText n pad = (suppressed 10 pad.toNat 4 n.toNat).map digitByte := by
  have hlt := n.isLt
  have h := leadingDigits_eq hpad (Nat.le_refl 4) n (by omega)
  rw [BitVec.ofNat_toNat, BitVec.setWidth_eq] at h
  exact h

theorem numText_eq_iff (n : Word) {pad : Word} (hpad : pad.toNat ≤ 5) :
    numText n pad = decimal pad.toNat n.toNat ↔
      Plain 10 pad.toNat n.toNat := by
  have hlt := n.isLt
  have hn : n.toNat < 10 ^ (4 + 1) := by omega
  rw [numText_eq n hpad, decimal, ← suppressed_iff (by decide) hpad hn]
  constructor
  · intro h
    have hread := congrArg (List.map fun b : Byte => b.toNat - 0x30) h
    rw [map_digitByte fun d hd => suppressed_lt (by decide) hn hd,
      map_digitByte fun d hd => numeral_lt (by decide) hd] at hread
    exact hread
  · exact congrArg (List.map digitByte)

theorem numText_length_le (n : Word) {pad : Word} (hpad : pad.toNat ≤ 5) :
    (numText n pad).length ≤ (decimal pad.toNat n.toNat).length := by
  have hlt := n.isLt
  rw [numText_eq n hpad, decimal, List.length_map, List.length_map]
  exact suppressed_le_numeral (by decide) hpad (by omega)

-- ==================================================== what is written

/-- With a sign, what is written is the sign and the number's size. -/
def numTextSigned (n pad : Word) : List Byte :=
  if n.toInt < 0 then 0x2D :: numText (-n) pad else numText n pad

theorem writeNumSigned_eq (s : Bot) :
    writeNumSigned s = { s.emit (numTextSigned s.ax s.bx) with
      ax := 0, bx := 0, si := 0 } := by
  have hslt : s.ax.slt 0 = true ↔ s.ax.toInt < 0 := decide_eq_true_iff
  unfold writeNumSigned numTextSigned
  by_cases hneg : s.ax.toInt < 0
  · have happend := Cpu.emit_append s [0x2D] (numText (-s.ax) s.bx)
    rw [List.singleton_append] at happend
    rw [if_neg (not_not.mpr (hslt.mpr hneg)), if_pos hneg, ← happend]
    simp only [writeChar_eq, writeNum_eq]
    rfl
  · rw [if_pos (mt hslt.mp hneg), if_neg hneg, writeNum_eq]

/-- The size of a negative number is its negation, also for the least
one. -/
theorem size_neg {n : Word} (hneg : n.toInt < 0) :
    (-n).toNat = n.toInt.natAbs := by
  have hlt := n.isLt
  rw [BitVec.toNat_neg]
  rw [BitVec.toInt_eq_toNat_cond] at hneg ⊢
  split at hneg <;> omega

theorem size_pos {n : Word} (hpos : ¬ n.toInt < 0) :
    n.toNat = n.toInt.natAbs := by
  have hlt := n.isLt
  rw [BitVec.toInt_eq_toNat_cond] at hpos ⊢
  split at hpos <;> omega

theorem numTextSigned_eq_iff (n : Word) {pad : Word} (hpad : pad.toNat ≤ 5) :
    numTextSigned n pad = signedDecimal pad.toNat n.toInt ↔
      Plain 10 pad.toNat n.toInt.natAbs := by
  unfold numTextSigned signedDecimal
  by_cases hneg : n.toInt < 0
  · rw [if_pos hneg, if_pos hneg, List.cons_inj_right, ← size_neg hneg]
    exact numText_eq_iff (-n) hpad
  · rw [if_neg hneg, if_neg hneg, ← size_pos hneg]
    exact numText_eq_iff n hpad

theorem numTextSigned_length_le (n : Word) {pad : Word}
    (hpad : pad.toNat ≤ 5) :
    (numTextSigned n pad).length
      ≤ (signedDecimal pad.toNat n.toInt).length := by
  unfold numTextSigned signedDecimal
  by_cases hneg : n.toInt < 0
  · rw [if_pos hneg, if_pos hneg, ← size_neg hneg]
    exact Nat.succ_le_succ (numText_length_le (-n) hpad)
  · rw [if_neg hneg, if_neg hneg, ← size_pos hneg]
    exact numText_length_le n hpad

/-- The number writers put the decimal representation, which reads back
as the number, exactly for the numbers without a zero inside that the
padding does not reach. -/
theorem writeNum_decimal_iff (s : Bot) (hpad : s.bx.toNat ≤ 5) :
    ((decimal s.bx.toNat s.ax.toNat).length ≤ s.cx.toNat →
      ((written s (writeNum s) = decimal s.bx.toNat s.ax.toNat
          ∧ readNum (written s (writeNum s)) = s.ax.toNat) ↔
        Plain 10 s.bx.toNat s.ax.toNat))
    ∧ ((signedDecimal s.bx.toNat s.ax.toInt).length ≤ s.cx.toNat →
      ((written s (writeNumSigned s) = signedDecimal s.bx.toNat s.ax.toInt
          ∧ readNumSigned (written s (writeNumSigned s)) = s.ax.toInt) ↔
        Plain 10 s.bx.toNat s.ax.toInt.natAbs)) := by
  constructor
  · intro hroom
    have htext : written s (writeNum s) = numText s.ax s.bx := by
      rw [writeNum_eq]
      exact written_emit s ((numText_length_le s.ax hpad).trans hroom)
    rw [htext, ← numText_eq_iff s.ax hpad]
    apply and_iff_left_of_imp
    intro heq
    rw [heq]
    exact readNum_decimal s.bx.toNat s.ax.toNat
  · intro hroom
    have htext : written s (writeNumSigned s)
        = numTextSigned s.ax s.bx := by
      rw [writeNumSigned_eq]
      exact written_emit s ((numTextSigned_length_le s.ax hpad).trans hroom)
    rw [htext, ← numTextSigned_eq_iff s.ax hpad]
    apply and_iff_left_of_imp
    intro heq
    rw [heq]
    exact readNumSigned_signedDecimal s.bx.toNat s.ax.toInt

/-- A call of a number writer for `n` padded to `pad`, with room for six
bytes. -/
def numCall (n pad : Word) : Bot :=
  { (default : Bot) with ax := n, bx := pad, cx := 6 }

/-- 105 comes out as 15. -/
theorem writeNum_not_decimal :
    ¬ ∀ s : Bot, s.bx.toNat ≤ 5 →
      (decimal s.bx.toNat s.ax.toNat).length ≤ s.cx.toNat →
      written s (writeNum s) = decimal s.bx.toNat s.ax.toNat
        ∧ readNum (written s (writeNum s)) = s.ax.toNat := by
  intro hall
  have hroom : (decimal 0 105).length ≤ 6 := by decide +kernel
  have hplain : Plain 10 0 105 :=
    ((writeNum_decimal_iff (numCall 105 0) (by decide)).1 hroom).mp
      (hall (numCall 105 0) (by decide) hroom)
  exact absurd (hplain 1 (by decide) (by decide) (by decide)) (by decide)

theorem writeNum_decimal_least :
    written (numCall 0x8000 0) (writeNumSigned (numCall 0x8000 0))
      = signedDecimal 0 (-32768) := by
  have hroom : (signedDecimal 0 (-32768)).length ≤ 6 := by decide +kernel
  have hplain : Plain 10 0 32768 := by
    intro j hj hle hzero
    have hfew : j < 4 := by
      by_contra hge
      have : 10 ^ 5 ≤ 10 ^ (j + 1) :=
        Nat.pow_le_pow_right (by decide) (by omega)
      omega
    interval_cases j <;> revert hzero <;> decide
  exact (((writeNum_decimal_iff (numCall 0x8000 0) (by decide)).2
    hroom).mpr hplain).1

end Pdtb.Asm
