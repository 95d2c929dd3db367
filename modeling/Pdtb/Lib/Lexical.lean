/-
Lists compared place by place, the first difference deciding: core's
`compare` on lists. Lists made of parts of the same lengths compare part
by part (`compare_append`), so what is written in columns of fixed width
sorts by its columns, and numbers written to one width sort as numbers
(`compare_numeral`).
-/
import Pdtb.Lib.Digits

namespace Pdtb.Lib

variable {α β : Type} [Ord α] [Ord β]

-- ==================================================== parts of lists

/-- The first parts decide, if they differ. -/
theorem compare_append {xs ys : List α} (hlen : xs.length = ys.length)
    (xs' ys' : List α) :
    compare (xs ++ xs') (ys ++ ys')
      = (compare xs ys).then (compare xs' ys') := by
  induction xs generalizing ys with
  | nil =>
      obtain rfl : ys = [] := List.length_eq_zero_iff.mp hlen.symm
      rfl
  | cons x xs ih =>
      cases ys with
      | nil => cases hlen
      | cons y ys =>
          have hrest := ih (Nat.succ.inj hlen)
          rw [List.cons_append, List.cons_append, List.compare_cons_cons,
            List.compare_cons_cons, hrest]
          cases compare x y <;> rfl

/-- What stands in both lists at the same place decides nothing. -/
theorem compare_append_left [Std.ReflOrd α] (pre xs ys : List α) :
    compare (pre ++ xs) (pre ++ ys) = compare xs ys := by
  rw [compare_append rfl, Std.ReflOrd.compare_self]
  rfl

/-- Lists of the same length compare as their images do under a map that
keeps the order of what is in them. -/
theorem compare_map {f : α → β} {xs ys : List α}
    (hlen : xs.length = ys.length)
    (hf : ∀ x ∈ xs, ∀ y ∈ ys, compare (f x) (f y) = compare x y) :
    compare (xs.map f) (ys.map f) = compare xs ys := by
  induction xs generalizing ys with
  | nil =>
      obtain rfl : ys = [] := List.length_eq_zero_iff.mp hlen.symm
      rfl
  | cons x xs ih =>
      cases ys with
      | nil => cases hlen
      | cons y ys =>
          have hhead : compare (f x) (f y) = compare x y :=
            hf x List.mem_cons_self y List.mem_cons_self
          have hrest : compare (xs.map f) (ys.map f) = compare xs ys := by
            apply ih (Nat.succ.inj hlen)
            intro a ha b hb
            exact hf a (List.mem_cons_of_mem x ha) b
              (List.mem_cons_of_mem y hb)
          rw [List.map_cons, List.map_cons, List.compare_cons_cons,
            List.compare_cons_cons, hhead, hrest]

-- ==================================================== numbers

/-- The quotients decide, and the remainders if the quotients agree. -/
theorem compare_div_mod (d m n : Nat) :
    compare m n
      = (compare (m / d) (n / d)).then (compare (m % d) (n % d)) := by
  have hm := Nat.div_add_mod m d
  have hn := Nat.div_add_mod n d
  rcases Nat.lt_trichotomy (m / d) (n / d) with hlt | heq | hgt
  · have hless : m < n := by
      by_contra hle
      exact absurd (Nat.div_le_div_right (c := d) (Nat.not_lt.mp hle))
        (Nat.not_le.mpr hlt)
    rw [Nat.compare_eq_lt.mpr hlt, Nat.compare_eq_lt.mpr hless]
    rfl
  · rw [Nat.compare_eq_eq.mpr heq]
    rw [heq] at hm
    change compare m n = compare (m % d) (n % d)
    rcases Nat.lt_trichotomy (m % d) (n % d) with h | h | h
    · rw [Nat.compare_eq_lt.mpr h, Nat.compare_eq_lt.mpr (by omega)]
    · rw [Nat.compare_eq_eq.mpr h, Nat.compare_eq_eq.mpr (by omega)]
    · rw [Nat.compare_eq_gt.mpr h, Nat.compare_eq_gt.mpr (by omega)]
  · have hmore : n < m := by
      by_contra hle
      exact absurd (Nat.div_le_div_right (c := d) (Nat.not_lt.mp hle))
        (Nat.not_le.mpr hgt)
    rw [Nat.compare_eq_gt.mpr hgt, Nat.compare_eq_gt.mpr hmore]
    rfl

/-- Numerals of one width compare as the numbers. -/
theorem compare_numeral {b k m n : Nat} (hb : 1 < b) (hm : m < b ^ k)
    (hn : n < b ^ k) :
    compare (numeral b k m) (numeral b k n) = compare m n := by
  induction k generalizing m n with
  | zero =>
      have hm0 : m = 0 := by rw [Nat.pow_zero] at hm; omega
      have hn0 : n = 0 := by rw [Nat.pow_zero] at hn; omega
      rw [hm0, hn0, Std.ReflOrd.compare_self, Std.ReflOrd.compare_self]
  | succ k ih =>
      have hpos : 0 < b ^ k := Nat.pow_pos (by omega)
      have hrest := ih (Nat.mod_lt m hpos) (Nat.mod_lt n hpos)
      rw [numeral_succ hb hm, numeral_succ hb hn, List.compare_cons_cons,
        hrest]
      exact (compare_div_mod (b ^ k) m n).symm

end Pdtb.Lib
