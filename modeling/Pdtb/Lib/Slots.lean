/-
A queue in a ring of `m` places without a count: the index of the oldest
item and the index of the next free place. One place is always free, so
that the two indices are the same only when the queue is empty.

The ring is a function and the indices are below `m`; what it holds is a
list (`listed`), to which putting in appends (`listed_push`) as long as a
place would still be free after it, and from which taking out takes the
head (`listed_pop`).
-/
import Mathlib.Data.List.Basic
import Mathlib.Data.Nat.ModEq
import Mathlib.Logic.Function.Basic

namespace Pdtb.Lib

variable {α : Type} {m first next : Nat} {ring : Nat → α} {x : α}

/-- How many items there are. -/
def between (m first next : Nat) : Nat := (next + m - first) % m

/-- The items, the oldest one first. -/
def listed (m : Nat) (ring : Nat → α) (first next : Nat) : List α :=
  (List.range (between m first next)).map fun i => ring ((first + i) % m)

@[simp] theorem length_listed :
    (listed m ring first next).length = between m first next := by
  simp [listed]

/-- From the oldest item it is so far to the free place. -/
theorem add_between (hfirst : first < m) (hnext : next < m) :
    (first + between m first next) % m = next := by
  unfold between
  rw [Nat.add_mod_mod]
  have hsum : first + (next + m - first) = next + m := by omega
  rw [hsum, Nat.add_mod_right, Nat.mod_eq_of_lt hnext]

theorem between_lt (hfirst : first < m) : between m first next < m :=
  Nat.mod_lt _ (by omega)

theorem between_eq_zero_iff (hfirst : first < m) (hnext : next < m) :
    between m first next = 0 ↔ first = next := by
  constructor
  · intro h
    have hadd := add_between hfirst hnext
    rw [h, Nat.add_zero, Nat.mod_eq_of_lt hfirst] at hadd
    exact hadd
  · intro h
    unfold between
    rw [h, Nat.add_sub_cancel_left, Nat.mod_self]

/-- Indices round the ring are the same only after a whole round. -/
theorem add_mod_inj (first : Nat) {i j : Nat} (hi : i < m) (hj : j < m) :
    (first + i) % m = (first + j) % m ↔ i = j := by
  constructor
  · intro h
    have hmod : i ≡ j [MOD m] := Nat.ModEq.add_left_cancel' first h
    exact hmod.eq_of_lt_of_lt hi hj
  · intro h
    rw [h]

theorem between_push (hfirst : first < m) (hnext : next < m)
    (hroom : between m first next + 1 < m) :
    between m first ((next + 1) % m) = between m first next + 1 := by
  have hmod : (next + 1) % m < m := Nat.mod_lt _ (by omega)
  refine (add_mod_inj first (between_lt hfirst) hroom).mp ?_
  rw [add_between hfirst hmod, ← Nat.add_assoc,
    ← Nat.mod_add_mod (first + between m first next),
    add_between hfirst hnext]

/-- Putting in appends. -/
theorem listed_push (hfirst : first < m) (hnext : next < m)
    (hroom : between m first next + 1 < m) :
    listed m (Function.update ring next x) first ((next + 1) % m)
      = listed m ring first next ++ [x] := by
  unfold listed
  rw [between_push hfirst hnext hroom, List.range_succ, List.map_append]
  congr 1
  · apply List.map_congr_left
    intro i hi
    have hlt := List.mem_range.mp hi
    refine Function.update_of_ne ?_ _ _
    intro heq
    rw [← add_between hfirst hnext] at heq
    have := (add_mod_inj first (by omega) (by omega)).mp heq
    omega
  · rw [List.map_singleton, add_between hfirst hnext, Function.update_self]

/-- Taking out takes the head. -/
theorem listed_pop (hfirst : first < m) (hnext : next < m)
    (hne : first ≠ next) :
    listed m ring first next
      = ring first :: listed m ring ((first + 1) % m) next := by
  have hpos : between m first next ≠ 0 := fun h =>
    hne ((between_eq_zero_iff hfirst hnext).mp h)
  have hlt : between m first next < m := between_lt hfirst
  have hmod : (first + 1) % m < m := Nat.mod_lt _ (by omega)
  have hpred : between m ((first + 1) % m) next
      = between m first next - 1 := by
    refine (add_mod_inj ((first + 1) % m) (between_lt hmod)
      (by omega)).mp ?_
    rw [add_between hmod hnext, Nat.mod_add_mod]
    have hsum : first + 1 + (between m first next - 1)
        = first + between m first next := by omega
    rw [hsum, add_between hfirst hnext]
  unfold listed
  rw [hpred]
  obtain ⟨n, hn⟩ := Nat.exists_eq_succ_of_ne_zero hpos
  rw [hn, List.range_succ_eq_map, List.map_cons, List.map_map,
    Nat.succ_sub_one, Nat.add_zero, Nat.mod_eq_of_lt hfirst]
  congr 1
  apply List.map_congr_left
  intro i _
  show ring ((first + (i + 1)) % m) = ring (((first + 1) % m + i) % m)
  rw [Nat.mod_add_mod, Nat.add_assoc, Nat.add_comm 1 i]

end Pdtb.Lib
