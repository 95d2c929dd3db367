/-
Numbers as digits, highest place first. `numeral` is how a number is
written at a least width; `suppressed` is how a loop over the places
writes it that looks at one digit at a time: a zero above the padding is
dropped wherever it stands.

The two agree exactly on the numbers without such a zero inside
(`Plain`). `suppressed_full` compares with the numeral of full width,
where every dropped zero shows; `suppressed_iff` follows, since from the
first digit that is written on the widths are the same.
-/
import Mathlib.Data.Nat.Digits.Lemmas

namespace Pdtb.Lib

variable {b p k n : Nat}

/-- `n` in base `b` with at least `w` digits. -/
def numeral (b w n : Nat) : List Nat := (Nat.digitsAppend b w n).reverse

/-- The digits of `n` from place `k` down, without the zeros at places
from `p` on. The last digit is always there. -/
def suppressed (b p : Nat) : Nat → Nat → List Nat
  | 0, n => [n]
  | k + 1, n =>
      (if n / b ^ (k + 1) ≠ 0 ∨ k + 1 < p then [n / b ^ (k + 1)] else [])
        ++ suppressed b p k (n % b ^ (k + 1))

/-- No zero inside the number stands at a place from `p` on; the first
and the last digit are not inside. -/
def Plain (b p n : Nat) : Prop :=
  ∀ j, 1 ≤ j → b ^ (j + 1) ≤ n → n / b ^ j % b = 0 → j < p

-- ==================================================== numerals

theorem length_numeral (hb : 1 < b) (hn : n < b ^ k) :
    (numeral b k n).length = k := by
  rw [numeral, List.length_reverse, Nat.length_digitsAppend hb k hn]

/-- A numeral denotes its number. -/
theorem ofDigits_numeral (b w n : Nat) :
    Nat.ofDigits b (numeral b w n).reverse = n := by
  rw [numeral, List.reverse_reverse, Nat.digitsAppend,
    Nat.ofDigits_append_replicate_zero, Nat.ofDigits_digits]

theorem numeral_lt {w d : Nat} (hb : 1 < b) (hd : d ∈ numeral b w n) :
    d < b :=
  Nat.lt_of_mem_digitsAppend hb w d (List.mem_reverse.mp hd)

theorem numeral_one (hn : n < b) : numeral b 1 n = [n] := by
  rcases Nat.eq_zero_or_pos n with rfl | hpos
  · simp [numeral, Nat.digitsAppend]
  · rw [numeral, Nat.digitsAppend, Nat.digits_of_lt b n (by omega) hn]
    rfl

/-- The digit at the highest place comes first. -/
theorem numeral_succ (hb : 1 < b) (hn : n < b ^ (k + 1)) :
    numeral b (k + 1) n = n / b ^ k :: numeral b k (n % b ^ k) := by
  obtain ⟨q, hq⟩ : ∃ q, q = n / b ^ k := ⟨_, rfl⟩
  obtain ⟨m, hm⟩ : ∃ m, m = n % b ^ k := ⟨_, rfl⟩
  have hpos : 0 < b ^ k := Nat.pow_pos (by omega)
  have hsum : n = m + b ^ k * q := by
    rw [hm, hq, Nat.add_comm]
    exact (Nat.div_add_mod n (b ^ k)).symm
  have hqb : q < b := by
    rw [hq]
    apply Nat.div_lt_of_lt_mul
    rw [← Nat.pow_succ]
    exact hn
  have hlen : (Nat.digits b m).length ≤ k := by
    rw [Nat.digits_length_le_iff hb, hm]
    exact Nat.mod_lt n hpos
  rw [← hq, ← hm, numeral, numeral, ← List.reverse_concat]
  apply congrArg List.reverse
  rcases Nat.eq_zero_or_pos q with hzero | hqpos
  · -- one more zero
    have hnm : n = m := by rw [hsum, hzero, Nat.mul_zero, Nat.add_zero]
    rw [hnm, hzero, Nat.digitsAppend, Nat.digitsAppend,
      Nat.succ_sub hlen, List.replicate_succ',
      List.append_assoc]
  · -- the zeros between
    have hdigits : Nat.digits b n
        = Nat.digits b m ++ List.replicate (k - (Nat.digits b m).length) 0
          ++ [q] := by
      have h := Nat.digits_append_zeroes_append_digits (b := b) (m := q)
        (n := m) (k := k - (Nat.digits b m).length) hb hqpos
      rw [Nat.digits_of_lt b q (by omega) hqb,
        Nat.add_sub_cancel' hlen, ← hsum] at h
      exact h.symm
    have hfull : k + 1 - (Nat.digits b n).length = 0 := by
      rw [hdigits]
      simp only [List.length_append, List.length_replicate,
        List.length_singleton]
      omega
    rw [Nat.digitsAppend, Nat.digitsAppend, hfull, hdigits,
      List.replicate_zero, List.append_nil]

/-- A number that needs the width has the same numeral at any smaller
one. -/
theorem numeral_of_le {w : Nat} (hb : 1 < b) (hw : w ≤ k + 1)
    (hn : b ^ k ≤ n) : numeral b w n = numeral b (k + 1) n := by
  have hlen : k < (Nat.digits b n).length := by
    by_contra hle
    have := (Nat.digits_length_le_iff hb n).mp (Nat.not_lt.mp hle)
    omega
  rw [numeral, numeral, Nat.digitsAppend, Nat.digitsAppend,
    Nat.sub_eq_zero_of_le (Nat.le_trans hw hlen),
    Nat.sub_eq_zero_of_le hlen]

-- ==================================================== dropped zeros

theorem suppressed_length_le (b p k n : Nat) :
    (suppressed b p k n).length ≤ k + 1 := by
  induction k generalizing n with
  | zero => exact Nat.le_refl 1
  | succ k ih =>
      have := ih (n % b ^ (k + 1))
      rw [suppressed, List.length_append]
      split
      · rw [List.length_singleton]
        omega
      · rw [List.length_nil]
        omega

theorem suppressed_lt {d : Nat} (hb : 1 < b) (hn : n < b ^ (k + 1))
    (hd : d ∈ suppressed b p k n) : d < b := by
  induction k generalizing n with
  | zero =>
      rw [suppressed, List.mem_singleton] at hd
      rw [hd, ← Nat.pow_one b]
      exact hn
  | succ k ih =>
      rw [suppressed, List.mem_append] at hd
      rcases hd with hd | hd
      · split at hd
        · rw [List.mem_singleton] at hd
          rw [hd]
          apply Nat.div_lt_of_lt_mul
          rw [← Nat.pow_succ]
          exact hn
        · cases hd
      · exact ih (Nat.mod_lt n (Nat.pow_pos (by omega))) hd

/-- A digit below a place is a digit of what is left there. -/
theorem mod_digit {i j : Nat} (hj : i < j) :
    n % b ^ j / b ^ i % b = n / b ^ i % b := by
  obtain ⟨d, rfl⟩ := Nat.exists_eq_add_of_lt hj
  rw [Nat.add_assoc, Nat.pow_add, Nat.mod_mul_right_div_self,
    Nat.pow_succ, Nat.mod_mul_left_mod]

/-- All places from `k` down are there exactly when no zero is at a place
from `p` on. -/
theorem suppressed_full (hb : 1 < b) (hn : n < b ^ (k + 1)) :
    suppressed b p k n = numeral b (k + 1) n ↔
      ∀ j, 1 ≤ j → j ≤ k → n / b ^ j % b = 0 → j < p := by
  induction k generalizing n with
  | zero =>
      rw [Nat.zero_add, Nat.pow_one] at hn
      rw [suppressed, numeral_one hn]
      exact iff_of_true rfl fun j hpos hzero => by omega
  | succ k ih =>
      have hpos : 0 < b ^ (k + 1) := Nat.pow_pos (by omega)
      have hq : n / b ^ (k + 1) < b := by
        apply Nat.div_lt_of_lt_mul
        rw [← Nat.pow_succ]
        exact hn
      have htop : n / b ^ (k + 1) % b = n / b ^ (k + 1) :=
        Nat.mod_eq_of_lt hq
      have hrest := ih (Nat.mod_lt n hpos)
      rw [numeral_succ hb hn, suppressed]
      split
      · next hwritten =>
          rw [List.singleton_append, List.cons_inj_right, hrest]
          constructor
          · intro h j hj hjk hzero
            rcases Nat.lt_or_ge j (k + 1) with hlt | hge
            · exact h j hj (by omega) ((mod_digit hlt).trans hzero)
            · obtain rfl : j = k + 1 := by omega
              rw [htop] at hzero
              exact hwritten.resolve_left fun hne => hne hzero
          · intro h j hj hjk hzero
            exact h j hj (by omega)
              ((mod_digit (by omega)).symm.trans hzero)
      · next hskipped =>
          -- one digit short
          obtain ⟨hzero, hp⟩ := not_or.mp hskipped
          rw [not_not] at hzero
          apply iff_of_false
          · intro heq
            have hle := suppressed_length_le b p k (n % b ^ (k + 1))
            have hlen := congrArg List.length heq
            rw [List.nil_append, List.length_cons,
              length_numeral hb (Nat.mod_lt n hpos)] at hlen
            omega
          · intro h
            exact hp (h (k + 1) (by omega) (Nat.le_refl _)
              (htop.trans hzero))

/-- What the loop over the places does before it first writes: nothing. -/
theorem suppressed_skip (hn : n < b ^ (k + 1)) (hp : p ≤ k + 1) :
    suppressed b p (k + 1) n = suppressed b p k n := by
  rw [suppressed, Nat.div_eq_of_lt hn, Nat.mod_eq_of_lt hn, if_neg,
    List.nil_append]
  omega

/-- The loop writes the numeral exactly when no zero is dropped from the
inside of the number. -/
theorem suppressed_iff (hb : 1 < b) (hp : p ≤ k + 1)
    (hn : n < b ^ (k + 1)) :
    suppressed b p k n = numeral b (max p 1) n ↔ Plain b p n := by
  induction k with
  | zero =>
      have hwidth : max p 1 = 0 + 1 := by omega
      rw [hwidth, suppressed_full hb hn]
      refine iff_of_true (fun j hpos hzero => by omega) ?_
      intro j hj hle
      have : b ^ (0 + 1) ≤ b ^ (j + 1) :=
        Nat.pow_le_pow_right (by omega) (by omega)
      omega
  | succ k ih =>
      rcases Nat.lt_or_ge n (b ^ (k + 1)) with hlt | hge
      · rcases Nat.lt_or_ge (k + 1) p with hpad | hpad
        · -- padded from the first place on
          have hwidth : max p 1 = k + 1 + 1 := by omega
          rw [hwidth, suppressed_full hb hn]
          apply iff_of_true
          · intro j hj hjk hzero
            omega
          · intro j hj hle hzero
            by_contra hjp
            have : b ^ (k + 1) ≤ b ^ (j + 1) :=
              Nat.pow_le_pow_right (by omega) (by omega)
            omega
        · rw [suppressed_skip hlt hpad]
          exact ih hpad hlt
      · -- the first digit is at this place
        have hq : n / b ^ (k + 1) % b ≠ 0 := by
          have hpos : 0 < b ^ (k + 1) := Nat.pow_pos (by omega)
          rw [Nat.mod_eq_of_lt]
          · exact Nat.ne_of_gt (Nat.div_pos hge hpos)
          · apply Nat.div_lt_of_lt_mul
            rw [← Nat.pow_succ]
            exact hn
        rw [numeral_of_le hb (by omega) hge, suppressed_full hb hn]
        constructor
        · intro h j hj hle hzero
          apply h j hj _ hzero
          by_contra hjk
          have : b ^ (k + 1 + 1) ≤ b ^ (j + 1) :=
            Nat.pow_le_pow_right (by omega) (by omega)
          omega
        · intro h j hj hjk hzero
          rcases Nat.lt_or_ge j (k + 1) with hjk' | hjk'
          · apply h j hj _ hzero
            exact Nat.le_trans (Nat.pow_le_pow_right (by omega) (by omega))
              hge
          · obtain rfl : j = k + 1 := by omega
            exact absurd hzero hq

/-- The loop never writes more than the numeral has. -/
theorem suppressed_le_numeral (hb : 1 < b) (hp : p ≤ k + 1)
    (hn : n < b ^ (k + 1)) :
    (suppressed b p k n).length ≤ (numeral b (max p 1) n).length := by
  induction k with
  | zero =>
      have hwidth : max p 1 = 0 + 1 := by omega
      rw [hwidth, length_numeral hb hn]
      exact suppressed_length_le b p 0 n
  | succ k ih =>
      rcases Nat.lt_or_ge n (b ^ (k + 1)) with hlt | hge
      · rcases Nat.lt_or_ge (k + 1) p with hpad | hpad
        · have hwidth : max p 1 = k + 1 + 1 := by omega
          rw [hwidth, length_numeral hb hn]
          exact suppressed_length_le b p (k + 1) n
        · rw [suppressed_skip hlt hpad]
          exact ih hpad hlt
      · rw [numeral_of_le hb (by omega) hge, length_numeral hb hn]
        exact suppressed_length_le b p (k + 1) n

end Pdtb.Lib
