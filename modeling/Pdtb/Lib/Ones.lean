/-
Ones' complement sums of `w`-bit words, by end-around carry.

A sum of words is known by two things: what it comes to modulo
`2 ^ w - 1`, and whether it is zero. `fold` picks the word that says both.
So the order of the words and the places where the carry is put back do
not matter.

# What the file gives

`Carrying` is a word with a carry that still has to be added, as a
processor keeps them. The word is not all ones while there is a carry
(`tame`), so putting the carry back never makes another one.
`settle_sum` says that a chain of additions with carry is `fold` of the
plain sum; `fold_add_not` and `fold_add_eq_allOnes` are why a complemented
sum is a checksum.
-/
import Mathlib.Data.Nat.ModEq
import Mathlib.Algebra.BigOperators.Group.List.Basic

namespace Pdtb.Lib

variable {w : Nat}

theorem two_pow_pos_sub (w : Nat) : 2 ^ w - 1 + 1 = 2 ^ w :=
  Nat.sub_add_cancel (Nat.one_le_two_pow)

-- ==================================================== folding a number

/-- The word that stands for `n`: zero for zero, else the one between 1
and `2 ^ w - 1` that is the same modulo `2 ^ w - 1`. -/
def fold (w n : Nat) : BitVec w :=
  if n = 0 then 0 else BitVec.ofNat w ((n - 1) % (2 ^ w - 1) + 1)

@[simp] theorem fold_zero : fold w 0 = 0 := rfl

theorem fold_toNat {n : Nat} (hw : 0 < w) (hn : n ≠ 0) :
    (fold w n).toNat = (n - 1) % (2 ^ w - 1) + 1 := by
  have hone : 2 ≤ 2 ^ w := by
    calc 2 = 2 ^ 1 := rfl
      _ ≤ 2 ^ w := Nat.pow_le_pow_right (by omega) hw
  have hlt : (n - 1) % (2 ^ w - 1) < 2 ^ w - 1 := Nat.mod_lt _ (by omega)
  rw [fold, if_neg hn, BitVec.toNat_ofNat, Nat.mod_eq_of_lt (by omega)]

theorem fold_eq_zero_iff {n : Nat} (hw : 0 < w) : fold w n = 0 ↔ n = 0 := by
  constructor
  · intro h
    by_contra hn
    have hpos := fold_toNat hw hn
    rw [h] at hpos
    simp at hpos
  · intro h
    rw [h, fold_zero]

theorem fold_modEq (hw : 0 < w) (n : Nat) :
    (fold w n).toNat ≡ n [MOD 2 ^ w - 1] := by
  by_cases hn : n = 0
  · rw [hn, fold_zero]
    rfl
  · rw [fold_toNat hw hn]
    calc (n - 1) % (2 ^ w - 1) + 1 ≡ n - 1 + 1 [MOD 2 ^ w - 1] :=
          (Nat.mod_modEq _ _).add_right 1
      _ ≡ n [MOD 2 ^ w - 1] := by rw [Nat.sub_add_cancel (by omega)]

/-- Two words that agree modulo `2 ^ w - 1`, and of which neither or both
are zero, are the same. -/
theorem eq_of_modEq {x y : BitVec w} (h : x.toNat ≡ y.toNat [MOD 2 ^ w - 1])
    (hz : x = 0 ↔ y = 0) : x = y := by
  by_cases hx : x = 0
  · rw [hx, hz.mp hx]
  · have hy : y ≠ 0 := fun hy => hx (hz.mpr hy)
    have hx' : x.toNat ≠ 0 := fun h0 => hx (BitVec.eq_of_toNat_eq h0)
    have hy' : y.toNat ≠ 0 := fun h0 => hy (BitVec.eq_of_toNat_eq h0)
    have hxl := x.isLt
    have hyl := y.isLt
    apply BitVec.eq_of_toNat_eq
    have hpred : x.toNat - 1 ≡ y.toNat - 1 [MOD 2 ^ w - 1] := by
      refine Nat.ModEq.add_right_cancel' 1 ?_
      rwa [Nat.sub_add_cancel (by omega), Nat.sub_add_cancel (by omega)]
    have heq := hpred.eq_of_lt_of_lt (by omega) (by omega)
    omega

/-- `fold` is the only word that says both things. -/
theorem eq_fold {x : BitVec w} {n : Nat} (hw : 0 < w)
    (h : x.toNat ≡ n [MOD 2 ^ w - 1]) (hz : x = 0 ↔ n = 0) :
    x = fold w n := by
  apply eq_of_modEq
  · exact h.trans (fold_modEq hw n).symm
  · exact hz.trans (fold_eq_zero_iff hw).symm

theorem fold_congr {n m : Nat} (hw : 0 < w) (h : n ≡ m [MOD 2 ^ w - 1])
    (hz : n = 0 ↔ m = 0) : fold w n = fold w m := by
  apply eq_fold hw
  · exact (fold_modEq hw n).trans h
  · exact (fold_eq_zero_iff hw).trans hz

/-- What was folded already may be folded again with more. -/
theorem fold_fold_add (hw : 0 < w) (n m : Nat) :
    fold w ((fold w n).toNat + m) = fold w (n + m) := by
  apply fold_congr hw
  · exact (fold_modEq hw n).add_right m
  · have hz := fold_eq_zero_iff (n := n) hw
    have hz' : (fold w n).toNat = 0 ↔ fold w n = 0 :=
      ⟨fun h0 => BitVec.eq_of_toNat_eq h0, fun h0 => by rw [h0]; rfl⟩
    rw [Nat.add_eq_zero_iff, Nat.add_eq_zero_iff, hz', hz]

-- ==================================================== checksums

theorem allOnes_modEq (w : Nat) :
    (BitVec.allOnes w).toNat ≡ 0 [MOD 2 ^ w - 1] := by
  rw [BitVec.toNat_allOnes]
  exact Nat.modEq_zero_iff_dvd.mpr (Nat.dvd_refl _)

theorem allOnes_ne_zero (hw : 0 < w) : BitVec.allOnes w ≠ 0 := by
  intro h
  have h' := congrArg BitVec.toNat h
  have hone : 2 ≤ 2 ^ w := by
    calc 2 = 2 ^ 1 := rfl
      _ ≤ 2 ^ w := Nat.pow_le_pow_right (by omega) hw
  rw [BitVec.toNat_allOnes] at h'
  simp at h'
  omega

/-- A sum is all ones when it is a multiple of `2 ^ w - 1` other than
zero. -/
theorem fold_eq_allOnes_iff {n : Nat} (hw : 0 < w) :
    fold w n = BitVec.allOnes w ↔ n ≡ 0 [MOD 2 ^ w - 1] ∧ n ≠ 0 := by
  constructor
  · intro h
    constructor
    · have hmod := fold_modEq hw n
      rw [h] at hmod
      exact hmod.symm.trans (allOnes_modEq w)
    · intro hn
      rw [hn, fold_zero] at h
      exact allOnes_ne_zero hw h.symm
  · intro hand
    obtain ⟨hmod, hn⟩ := hand
    refine (eq_fold hw ?_ ?_).symm
    · exact (allOnes_modEq w).trans hmod.symm
    · exact iff_of_false (allOnes_ne_zero hw) hn

/-- A sum and its complement come to all ones. -/
theorem fold_add_not (hw : 0 < w) (n : Nat) :
    fold w (n + (~~~ fold w n).toNat) = BitVec.allOnes w := by
  have hlt := (fold w n).isLt
  have hnot : (~~~ fold w n).toNat = 2 ^ w - 1 - (fold w n).toNat :=
    BitVec.toNat_not
  have hall := BitVec.toNat_allOnes (v := w)
  rw [← fold_fold_add hw, hnot]
  have hsum : (fold w n).toNat + (2 ^ w - 1 - (fold w n).toNat)
      = (BitVec.allOnes w).toNat := by omega
  rw [hsum]
  refine (eq_fold hw rfl ?_).symm
  constructor
  · intro h
    rw [h]
    rfl
  · intro h
    exact BitVec.eq_of_toNat_eq h

/-- What keeps a sum all ones when it takes the place of `x`. -/
theorem fold_add_eq_allOnes {n : Nat} {x y : BitVec w} (hw : 0 < w)
    (hx : fold w (n + x.toNat) = BitVec.allOnes w)
    (hy : fold w (n + y.toNat) = BitVec.allOnes w) :
    x.toNat ≡ y.toNat [MOD 2 ^ w - 1] := by
  have hx' := ((fold_eq_allOnes_iff hw).mp hx).1
  have hy' := ((fold_eq_allOnes_iff hw).mp hy).1
  exact Nat.ModEq.add_left_cancel' n (hx'.trans hy'.symm)

/-- Only zero and all ones are the same modulo `2 ^ w - 1`. -/
theorem eq_or_zero_allOnes {x y : BitVec w}
    (h : x.toNat ≡ y.toNat [MOD 2 ^ w - 1]) :
    x = y ∨ (x = 0 ∧ y = BitVec.allOnes w)
      ∨ (x = BitVec.allOnes w ∧ y = 0) := by
  have hall : ∀ v : BitVec w, v ≠ 0 → v.toNat ≡ 0 [MOD 2 ^ w - 1]
      → v = BitVec.allOnes w := by
    intro v hv hmod
    have hv' : v.toNat ≠ 0 := fun h0 => hv (BitVec.eq_of_toNat_eq h0)
    have hlt := v.isLt
    apply BitVec.eq_of_toNat_eq
    rw [BitVec.toNat_allOnes]
    have hle := Nat.le_of_dvd (by omega) (Nat.modEq_zero_iff_dvd.mp hmod)
    omega
  by_cases hx : x = 0
  · by_cases hy : y = 0
    · left
      rw [hx, hy]
    · right; left
      refine ⟨hx, hall y hy ?_⟩
      rw [hx] at h
      exact h.symm
  · by_cases hy : y = 0
    · right; right
      refine ⟨hall x hx ?_, hy⟩
      rw [hy] at h
      exact h
    · left
      exact eq_of_modEq h (iff_of_false hx hy)

-- ==================================================== a chain of carries

/-- A word and the carry that is still to be added. -/
structure Carrying (w : Nat) where
  word : BitVec w
  carry : Bool
  tame : carry = true → word ≠ BitVec.allOnes w

namespace Carrying

/-- Nothing added yet. -/
def zero (w : Nat) : Carrying w := ⟨0, false, fun h => nomatch h⟩

/-- What the two stand for. -/
def value (a : Carrying w) : Nat := a.word.toNat + a.carry.toNat

theorem value_lt (a : Carrying w) : a.value < 2 ^ w := by
  have hlt := a.word.isLt
  unfold value
  cases hc : a.carry with
  | false => simpa using hlt
  | true =>
      have hne : a.word.toNat ≠ 2 ^ w - 1 := by
        intro h
        refine a.tame hc (BitVec.eq_of_toNat_eq ?_)
        rw [h, BitVec.toNat_allOnes]
      simp only [Bool.toNat_true]
      omega

/-- Addition with carry. -/
def adc (a : Carrying w) (x : BitVec w) : Carrying w where
  word := a.word + x + BitVec.ofNat w a.carry.toNat
  carry := decide (2 ^ w ≤ a.word.toNat + x.toNat + a.carry.toNat)
  tame := by
    intro hc hall
    have hv := a.value_lt
    have hx := x.isLt
    have hle : 2 ^ w ≤ a.word.toNat + x.toNat + a.carry.toNat :=
      of_decide_eq_true hc
    have hall' := congrArg BitVec.toNat hall
    unfold value at hv
    rw [BitVec.toNat_allOnes, BitVec.toNat_add, BitVec.toNat_add,
      BitVec.toNat_ofNat, Nat.add_mod_mod, Nat.mod_add_mod,
      Nat.mod_eq_sub_mod hle, Nat.mod_eq_of_lt (by omega)] at hall'
    omega

/-- The carry put back. -/
def settle (a : Carrying w) : BitVec w :=
  a.word + BitVec.ofNat w a.carry.toNat

theorem settle_toNat (a : Carrying w) : a.settle.toNat = a.value := by
  have hlt := a.value_lt
  unfold value at hlt ⊢
  rw [settle, BitVec.toNat_add, BitVec.toNat_ofNat, Nat.add_mod_mod,
    Nat.mod_eq_of_lt hlt]

/-- An addition is right up to what went out with the carry. -/
theorem value_adc (a : Carrying w) (x : BitVec w) :
    (a.adc x).value + (2 ^ w - 1) * (a.adc x).carry.toNat
      = a.value + x.toNat := by
  have hv := a.value_lt
  have hx := x.isLt
  have hpos := two_pow_pos_sub w
  have hword : (a.adc x).word.toNat
      = (a.word.toNat + x.toNat + a.carry.toNat) % 2 ^ w := by
    show (a.word + x + BitVec.ofNat w a.carry.toNat).toNat = _
    rw [BitVec.toNat_add, BitVec.toNat_add, BitVec.toNat_ofNat,
      Nat.add_mod_mod, Nat.mod_add_mod]
  unfold value at hv ⊢
  rw [hword]
  by_cases hle : 2 ^ w ≤ a.word.toNat + x.toNat + a.carry.toNat
  · have hc : (a.adc x).carry = true := decide_eq_true hle
    rw [hc, Nat.mod_eq_sub_mod hle, Nat.mod_eq_of_lt (by omega)]
    simp only [Bool.toNat_true]
    omega
  · have hc : (a.adc x).carry = false := decide_eq_false hle
    rw [hc, Nat.mod_eq_of_lt (by omega)]
    simp only [Bool.toNat_false]
    omega

theorem value_adc_modEq (a : Carrying w) (x : BitVec w) :
    (a.adc x).value ≡ a.value + x.toNat [MOD 2 ^ w - 1] := by
  have h := a.value_adc x
  calc (a.adc x).value
      ≡ (a.adc x).value + (2 ^ w - 1) * (a.adc x).carry.toNat
          [MOD 2 ^ w - 1] := by simp [Nat.ModEq]
    _ = a.value + x.toNat := h

theorem value_adc_eq_zero (a : Carrying w) (x : BitVec w) :
    (a.adc x).value = 0 ↔ a.value + x.toNat = 0 := by
  have h := a.value_adc x
  have hx := x.isLt
  have hlt := a.value_lt
  constructor
  · intro h0
    cases hc : (a.adc x).carry with
    | false =>
        rw [hc, h0] at h
        simpa using h.symm
    | true =>
        -- a carry out of nothing would take two summands of all ones
        rw [hc, h0] at h
        have hword : (a.adc x).value = (a.adc x).word.toNat + 1 := by
          unfold value
          rw [hc]
          rfl
        omega
  · intro h0
    omega

/-- The words added one after the other. -/
def sum (a : Carrying w) (xs : List (BitVec w)) : Carrying w :=
  xs.foldl adc a

@[simp] theorem sum_nil (a : Carrying w) : a.sum [] = a := rfl

@[simp] theorem sum_cons (a : Carrying w) (x : BitVec w)
    (xs : List (BitVec w)) : a.sum (x :: xs) = (a.adc x).sum xs := rfl

theorem sum_append (a : Carrying w) (xs ys : List (BitVec w)) :
    a.sum (xs ++ ys) = (a.sum xs).sum ys := List.foldl_append

theorem value_sum (a : Carrying w) (xs : List (BitVec w)) :
    (a.sum xs).value ≡ a.value + (xs.map BitVec.toNat).sum [MOD 2 ^ w - 1]
      ∧ ((a.sum xs).value = 0
          ↔ a.value + (xs.map BitVec.toNat).sum = 0) := by
  induction xs generalizing a with
  | nil => exact ⟨rfl, Iff.rfl⟩
  | cons x xs ih =>
      obtain ⟨hmod, hz⟩ := ih (a.adc x)
      have hx := a.value_adc_eq_zero x
      rw [sum_cons, List.map_cons, List.sum_cons, ← Nat.add_assoc]
      constructor
      · exact hmod.trans ((a.value_adc_modEq x).add_right _)
      · rw [hz]
        omega

/-- A chain of additions with carry, settled, is the sum folded. -/
theorem settle_sum (hw : 0 < w) (a : Carrying w) (xs : List (BitVec w)) :
    (a.sum xs).settle = fold w (a.value + (xs.map BitVec.toNat).sum) := by
  obtain ⟨hmod, hz⟩ := a.value_sum xs
  apply eq_fold hw
  · rw [settle_toNat]
    exact hmod
  · rw [← hz, ← settle_toNat]
    constructor
    · intro h
      rw [h]
      rfl
    · intro h
      exact BitVec.eq_of_toNat_eq h

/-- A settled word is one to go on from. -/
def ofWord (x : BitVec w) : Carrying w := ⟨x, false, fun h => nomatch h⟩

@[simp] theorem value_ofWord (x : BitVec w) : (ofWord x).value = x.toNat :=
  rfl

end Carrying

end Pdtb.Lib
