/-
Byte-addressed memory, one cell for every `w`-bit address, read and
written in runs of consecutive cells. Addresses wrap around, so nothing
here asks that a run end below `2 ^ w`; what a run needs is that it be no
longer than the memory.

A run is a `region`: the addresses less than `n` cells above its base.
Regions are Mathlib sets, so that "apart" is `Disjoint`, "untouched" is
`Set.EqOn` on a complement, and both compose by the lemmas sets already
have.
-/
import Mathlib.Algebra.Ring.Nat
import Mathlib.Data.Set.Function
import Mathlib.Data.Set.Lattice
import Mathlib.Order.CompletePartialOrder

namespace Pdtb.Lib

variable {w : Nat} {α : Type}

-- ============================================================ addresses

/-- How far `x` lies above `a`, going upwards and around. -/
def off (a x : BitVec w) : Nat := (x - a).toNat

/-- The `n` cells from `a` on. -/
def region (a : BitVec w) (n : Nat) : Set (BitVec w) := {x | off a x < n}

theorem mem_region {a x : BitVec w} {n : Nat} :
    x ∈ region a n ↔ off a x < n := Iff.rfl

theorem off_lt (a x : BitVec w) : off a x < 2 ^ w := (x - a).isLt

@[simp] theorem off_self (a : BitVec w) : off a a = 0 := by
  simp [off]

/-- The cell `i` places up is `i` places up, as long as that is no full
turn. -/
theorem off_add {a : BitVec w} {i : Nat} (hi : i < 2 ^ w) :
    off a (a + BitVec.ofNat w i) = i := by
  unfold off
  rw [BitVec.add_comm, BitVec.add_sub_cancel, BitVec.toNat_ofNat,
    Nat.mod_eq_of_lt hi]

/-- An address is its base plus its offset. -/
theorem add_off (a x : BitVec w) : a + BitVec.ofNat w (off a x) = x := by
  unfold off
  rw [BitVec.ofNat_toNat, BitVec.setWidth_eq, BitVec.add_comm,
    BitVec.sub_add_cancel]

/-- A step of `n + 1` is a step of one and a step of `n`. -/
theorem add_ofNat_succ (a : BitVec w) (n : Nat) :
    a + BitVec.ofNat w (n + 1) = a + 1 + BitVec.ofNat w n := by
  rw [BitVec.ofNat_add, BitVec.add_assoc, BitVec.add_comm 1]
  rfl

theorem sub_ofNat_succ (a : BitVec w) (n : Nat) :
    a - BitVec.ofNat w (n + 1) = a - 1 - BitVec.ofNat w n := by
  rw [BitVec.ofNat_add, BitVec.sub_sub, BitVec.add_comm 1]
  rfl

/-- Seen from a base moved up by `i`, everything at least `i` up is `i`
nearer. -/
theorem off_add_left {a x : BitVec w} {i : Nat} (hi : i ≤ off a x) :
    off (a + BitVec.ofNat w i) x = off a x - i := by
  have hlt : i < 2 ^ w := Nat.lt_of_le_of_lt hi (off_lt a x)
  have hle : BitVec.ofNat w i ≤ x - a := by
    rw [BitVec.le_def, BitVec.toNat_ofNat, Nat.mod_eq_of_lt hlt]
    exact hi
  unfold off
  rw [← BitVec.sub_sub, BitVec.toNat_sub_of_le hle, BitVec.toNat_ofNat,
    Nat.mod_eq_of_lt hlt]

/-- Only the base itself is no place up. -/
theorem off_pos {a x : BitVec w} (h : x ≠ a) : 1 ≤ off a x := by
  rcases Nat.eq_zero_or_pos (off a x) with h0 | h0
  · have hx := add_off a x
    rw [h0] at hx
    exact absurd (by simpa using hx.symm) h
  · exact h0

/-- The base moved up by one, for any other address. -/
theorem off_succ {a x : BitVec w} (h : x ≠ a) :
    off (a + 1) x = off a x - 1 :=
  off_add_left (i := 1) (off_pos h)

/-- A run inside a run: the part from cell `i` on. -/
theorem region_subset {a : BitVec w} {i n k : Nat} (h : i + n ≤ k) :
    region (a + BitVec.ofNat w i) n ⊆ region a k := by
  intro x hx
  by_contra hxk
  rw [mem_region] at hx hxk
  have hi : i ≤ off a x := by omega
  rw [off_add_left hi] at hx
  omega

/-- Being in a run inside a run, seen from the outer one's base. -/
theorem mem_region_add {a x : BitVec w} {i n : Nat} (h : i + n ≤ 2 ^ w) :
    x ∈ region (a + BitVec.ofNat w i) n ↔
      i ≤ off a x ∧ off a x < i + n := by
  constructor
  · intro hx
    have hlt : off a x < i + n := region_subset (Nat.le_refl _) hx
    refine ⟨?_, hlt⟩
    by_contra hi
    -- below the inner base, `x` is nearly a full turn above it
    have hback := add_off (a + BitVec.ofNat w i) x
    have hoff := congrArg (off a) hback
    rw [mem_region] at hx
    rw [BitVec.add_assoc, ← BitVec.ofNat_add, off_add (by omega)] at hoff
    omega
  · intro hand
    obtain ⟨hi, hlt⟩ := hand
    rw [mem_region, off_add_left hi]
    omega

/-- Two runs inside a run, one behind the other. -/
theorem region_disjoint {a : BitVec w} {i n j k : Nat} (h : i + n ≤ j)
    (hk : j + k ≤ 2 ^ w) :
    Disjoint (region (a + BitVec.ofNat w i) n)
      (region (a + BitVec.ofNat w j) k) := by
  rw [Set.disjoint_left]
  intro x hx hx'
  rw [mem_region_add (by omega)] at hx hx'
  omega

theorem region_mono {a : BitVec w} {n k : Nat} (h : n ≤ k) :
    region a n ⊆ region a k := fun _ hx => Nat.lt_of_lt_of_le hx h

@[simp] theorem region_zero (a : BitVec w) : region a 0 = ∅ := by
  ext x
  simp [region]

theorem base_mem_region {a : BitVec w} {n : Nat} (h : 0 < n) :
    a ∈ region a n := by
  rw [mem_region, off_self]
  exact h

/-- The cell after the base starts the rest of the run. -/
theorem region_succ_subset (a : BitVec w) (n : Nat) :
    region (a + 1) n ⊆ region a (n + 1) :=
  region_subset (i := 1) (by omega)

-- ============================================================ the memory

/-- Memory with `w`-bit addresses. -/
abbrev Mem (w : Nat) (α : Type) := BitVec w → α

/-- Write `bs` from `a` on. -/
def Mem.write (m : Mem w α) (a : BitVec w) : List α → Mem w α
  | [] => m
  | b :: bs => Mem.write (Function.update m a b) (a + 1) bs

/-- Read `n` cells from `a` on. -/
def Mem.read (m : Mem w α) (a : BitVec w) : Nat → List α
  | 0 => []
  | n + 1 => m a :: Mem.read m (a + 1) n

@[simp] theorem Mem.write_nil (m : Mem w α) (a : BitVec w) :
    m.write a [] = m := rfl

@[simp] theorem Mem.read_zero (m : Mem w α) (a : BitVec w) :
    m.read a 0 = [] := rfl

@[simp] theorem Mem.length_read (m : Mem w α) (a : BitVec w) (n : Nat) :
    (m.read a n).length = n := by
  induction n generalizing a with
  | zero => rfl
  | succ n ih => simp [Mem.read, ih]

-- ==================================================== reading, in parts

/-- Two runs back to back read as one. -/
theorem Mem.read_add (m : Mem w α) (a : BitVec w) (i j : Nat) :
    m.read a (i + j) = m.read a i ++ m.read (a + BitVec.ofNat w i) j := by
  induction i generalizing a with
  | zero => simp
  | succ i ih =>
      rw [Nat.add_right_comm, add_ofNat_succ]
      simp only [Mem.read, ih, List.cons_append]

/-- The front of what is read is what a shorter read gives. -/
theorem Mem.take_read (m : Mem w α) (a : BitVec w) (k n : Nat) :
    (m.read a n).take k = m.read a (min k n) := by
  rcases Nat.le_total k n with h | h
  · obtain ⟨j, rfl⟩ := Nat.exists_eq_add_of_le h
    rw [Mem.read_add, Nat.min_eq_left h]
    exact List.take_left' (by simp)
  · rw [Nat.min_eq_right h]
    exact List.take_of_length_le (by simpa using h)

/-- The rest of what is read is what a later read gives. -/
theorem Mem.drop_read (m : Mem w α) (a : BitVec w) (i n : Nat) :
    (m.read a n).drop i = m.read (a + BitVec.ofNat w i) (n - i) := by
  rcases Nat.le_total i n with h | h
  · obtain ⟨j, rfl⟩ := Nat.exists_eq_add_of_le h
    rw [Mem.read_add, Nat.add_sub_cancel_left]
    exact List.drop_left' (by simp)
  · rw [Nat.sub_eq_zero_of_le h, List.drop_of_length_le (by simpa using h)]
    rfl

theorem Mem.read_getElem (m : Mem w α) (a : BitVec w) {n i : Nat}
    (hi : i < (m.read a n).length) :
    (m.read a n)[i] = m (a + BitVec.ofNat w i) := by
  induction n generalizing a i with
  | zero => cases hi
  | succ n ih =>
      cases i with
      | zero => simp [Mem.read]
      | succ i =>
          rw [add_ofNat_succ]
          exact ih (a + 1) (Nat.lt_of_succ_lt_succ hi)

/-- Memories that agree on a run read the same there. -/
theorem Mem.read_congr {m m' : Mem w α} {a : BitVec w} {n : Nat}
    (hn : n ≤ 2 ^ w) (h : Set.EqOn m m' (region a n)) :
    m.read a n = m'.read a n := by
  refine List.ext_getElem (by simp) fun i hi hi' => ?_
  rw [Mem.read_getElem m a hi, Mem.read_getElem m' a hi']
  rw [Mem.length_read] at hi
  refine h ?_
  rw [mem_region, off_add (Nat.lt_of_lt_of_le hi hn)]
  exact hi

/-- Reading part of a run whose contents are known. -/
theorem Mem.read_part {m : Mem w α} {a : BitVec w} {xs ys zs : List α}
    (h : m.read a (xs ++ ys ++ zs).length = xs ++ ys ++ zs) :
    m.read (a + BitVec.ofNat w xs.length) ys.length = ys := by
  rw [List.length_append, Mem.read_add, List.length_append,
    Mem.read_add] at h
  have hl := List.append_inj_left h (by simp)
  exact List.append_inj_right hl (by simp)

-- ================================================== writing, then reading

/-- The same write keeps two memories the same where they were. -/
theorem Mem.write_congr {m m' : Mem w α} {x : BitVec w} (a : BitVec w)
    (bs : List α) (h : m x = m' x) : m.write a bs x = m'.write a bs x := by
  induction bs generalizing m m' a with
  | nil => exact h
  | cons b bs ih =>
      refine ih (a + 1) ?_
      by_cases hx : x = a
      · rw [hx, Function.update_self, Function.update_self]
      · rw [Function.update_of_ne hx, Function.update_of_ne hx, h]

/-- Outside the run written, nothing changes. -/
theorem Mem.write_of_notMem {m : Mem w α} {a x : BitVec w} {bs : List α}
    (hx : x ∉ region a bs.length) : m.write a bs x = m x := by
  induction bs generalizing m a with
  | nil => rfl
  | cons b bs ih =>
      have hne : x ≠ a := by
        intro heq
        subst heq
        exact hx (base_mem_region (by simp))
      have hnot : x ∉ region (a + 1) bs.length := by
        intro hmem
        rw [mem_region, off_succ hne] at hmem
        rw [mem_region, List.length_cons] at hx
        have := off_pos hne
        omega
      rw [Mem.write, ih hnot, Function.update_of_ne hne]

theorem Mem.write_eqOn (m : Mem w α) (a : BitVec w) (bs : List α) :
    Set.EqOn (m.write a bs) m (region a bs.length)ᶜ :=
  fun _ hx => Mem.write_of_notMem hx

/-- A run not longer than the memory reads back as it was written. -/
theorem Mem.read_write (m : Mem w α) (a : BitVec w) {bs : List α}
    (h : bs.length ≤ 2 ^ w) : (m.write a bs).read a bs.length = bs := by
  induction bs generalizing m a with
  | nil => rfl
  | cons b bs ih =>
      rw [List.length_cons] at h
      have ha : a ∉ region (a + 1) bs.length := by
        intro hmem
        have hoff : off (a + 1) a = 2 ^ w - 1 := by
          have h1 : (1 : BitVec w) = BitVec.ofNat w 1 := rfl
          unfold off
          rw [← BitVec.sub_sub, BitVec.sub_self, BitVec.zero_sub,
            BitVec.toNat_neg, h1, BitVec.toNat_ofNat]
          rcases Nat.eq_zero_or_pos w with rfl | hw
          · simp
          · have := Nat.one_lt_two_pow_iff.mpr (Nat.pos_iff_ne_zero.mp hw)
            rw [Nat.mod_eq_of_lt this, Nat.mod_eq_of_lt (by omega)]
        rw [mem_region, hoff] at hmem
        omega
      rw [List.length_cons, Mem.read, Mem.write, ih _ _ (by omega),
        Mem.write_of_notMem ha, Function.update_self]

/-- Writing two runs back to back is writing their concatenation. -/
theorem Mem.write_append (m : Mem w α) (a : BitVec w) (xs ys : List α) :
    m.write a (xs ++ ys)
      = (m.write a xs).write (a + BitVec.ofNat w xs.length) ys := by
  induction xs generalizing m a with
  | nil => simp
  | cons x xs ih =>
      rw [List.cons_append, Mem.write, Mem.write, List.length_cons, ih,
        add_ofNat_succ]

/-- A write elsewhere does not show in a run. -/
theorem Mem.read_write_disjoint {m : Mem w α} {a b : BitVec w} {n : Nat}
    {bs : List α} (hn : n ≤ 2 ^ w)
    (h : Disjoint (region a n) (region b bs.length)) :
    (m.write b bs).read a n = m.read a n :=
  Mem.read_congr hn fun _ hx =>
    Mem.write_of_notMem (Set.disjoint_left.mp h hx)

/-- A cell of a run just written. -/
theorem Mem.write_getElem {m : Mem w α} {a : BitVec w} {bs : List α}
    (h : bs.length ≤ 2 ^ w) {i : Nat} (hi : i < bs.length) :
    m.write a bs (a + BitVec.ofNat w i) = bs[i] := by
  have hread := Mem.read_write m a h
  have hget := Mem.read_getElem (m.write a bs) a (i := i) (n := bs.length)
    (by rwa [Mem.length_read])
  rw [← hget]
  exact getElem_congr_coll hread

end Pdtb.Lib
