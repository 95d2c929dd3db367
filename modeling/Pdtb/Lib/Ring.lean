/-
A queue in a ring of `2 ^ k` places, the way it is kept in C: the index
of the next item to take, the index of the next free place and the number
of items, with a mask for the way round.

What the ring holds is a list (`toList`); on lists, to enqueue is to
append and to dequeue is to take the head.
-/
import Mathlib.Data.Nat.Bitwise
import Mathlib.Data.Nat.ModEq
import Mathlib.Data.List.Basic
import Mathlib.Logic.Function.Basic

namespace Pdtb.Lib

variable {α : Type} {k : Nat}

/-- Round the ring. -/
def wrap (k i : Nat) : Nat := i &&& (2 ^ k - 1)

theorem wrap_eq (k i : Nat) : wrap k i = i % 2 ^ k :=
  Nat.and_two_pow_sub_one_eq_mod i k

theorem wrap_lt (k i : Nat) : wrap k i < 2 ^ k := by
  rw [wrap_eq]
  exact Nat.mod_lt i (Nat.two_pow_pos k)

/-- A ring of `2 ^ k` places. The items are at `first` and behind it,
and `next` is behind the last of them. -/
structure Ring (α : Type) (k : Nat) where
  first : Nat
  next : Nat
  entries : Nat
  ring : Nat → α
  first_lt : first < 2 ^ k
  entries_le : entries ≤ 2 ^ k
  next_eq : next = wrap k (first + entries)

namespace Ring

variable {q : Ring α k} {x : α} {xs : List α}

-- ==================================================== the operations

/-- An empty ring; its places hold `x`, which is not read. -/
def init (k : Nat) (x : α) : Ring α k where
  first := 0
  next := 0
  entries := 0
  ring := fun _ => x
  first_lt := Nat.two_pow_pos k
  entries_le := Nat.zero_le _
  next_eq := by rw [wrap_eq, Nat.zero_mod]

/-- Puts an item last: 0 if there was a place, -1 if not. -/
def enqueue (q : Ring α k) (x : α) : Int × Ring α k :=
  if hfull : q.entries = 2 ^ k then (-1, q) else
  (0, { first := q.first
        next := wrap k (q.next + 1)
        entries := q.entries + 1
        ring := Function.update q.ring q.next x
        first_lt := q.first_lt
        entries_le := by
          have := q.entries_le
          omega
        next_eq := by
          rw [q.next_eq, wrap_eq, wrap_eq, wrap_eq, Nat.mod_add_mod,
            Nat.add_assoc] })

/-- Takes the first item. -/
def dequeue (q : Ring α k) : Option α × Ring α k :=
  if hempty : q.entries = 0 then (none, q) else
  (some (q.ring q.first),
    { q with
      first := wrap k (q.first + 1)
      entries := q.entries - 1
      first_lt := wrap_lt k _
      entries_le := (Nat.sub_le _ _).trans q.entries_le
      next_eq := by
        have hsum : q.first + q.entries
            = q.first + 1 + (q.entries - 1) := by omega
        rw [q.next_eq, wrap_eq, wrap_eq, wrap_eq, Nat.mod_add_mod, hsum] })

/-- The first item. -/
def peek (q : Ring α k) : Option α :=
  if q.entries = 0 then none else some (q.ring q.first)

def hasRoom (q : Ring α k) : Bool := q.entries < 2 ^ k

-- ==================================================== what it holds

/-- The items, the first one first. -/
def toList (q : Ring α k) : List α :=
  (List.range q.entries).map fun i => q.ring (wrap k (q.first + i))

@[simp] theorem length_toList (q : Ring α k) :
    q.toList.length = q.entries := by
  rw [toList, List.length_map, List.length_range]

theorem toList_eq_nil : q.toList = [] ↔ q.entries = 0 := by
  rw [← List.length_eq_zero_iff, length_toList]

theorem hasRoom_iff : q.hasRoom = true ↔ q.toList.length < 2 ^ k := by
  rw [hasRoom, length_toList, decide_eq_true_iff]

/-- The free place is none of those in use. -/
theorem wrap_ne_next {i : Nat} (hi : i < q.entries)
    (hroom : q.entries < 2 ^ k) : wrap k (q.first + i) ≠ q.next := by
  rw [q.next_eq, wrap_eq, wrap_eq]
  intro heq
  have hmod : i ≡ q.entries [MOD 2 ^ k] := Nat.ModEq.add_left_cancel' _ heq
  rw [Nat.ModEq, Nat.mod_eq_of_lt (hi.trans hroom),
    Nat.mod_eq_of_lt hroom] at hmod
  omega

theorem toList_enqueue (hroom : q.hasRoom = true) (x : α) :
    (q.enqueue x).2.toList = q.toList ++ [x] := by
  have hlt : q.entries < 2 ^ k := by
    rw [hasRoom_iff, length_toList] at hroom
    exact hroom
  rw [enqueue, dif_neg (Nat.ne_of_lt hlt)]
  simp only [toList]
  rw [List.range_succ, List.map_append, List.map_singleton, ← q.next_eq,
    Function.update_self]
  congr 1
  refine List.map_congr_left fun i hi => ?_
  rw [Function.update_of_ne (wrap_ne_next (List.mem_range.mp hi) hlt)]

theorem enqueue_room (hroom : q.hasRoom = true) (x : α) :
    (q.enqueue x).1 = 0 := by
  have hlt : q.entries < 2 ^ k := by
    rw [hasRoom_iff, length_toList] at hroom
    exact hroom
  rw [enqueue, dif_neg (Nat.ne_of_lt hlt)]

/-- A full ring stays as it is. -/
theorem enqueue_full (hroom : q.hasRoom = false) (x : α) :
    q.enqueue x = (-1, q) := by
  have hfull : q.entries = 2 ^ k := by
    have hle := q.entries_le
    rw [hasRoom, decide_eq_false_iff_not] at hroom
    omega
  rw [enqueue, dif_pos hfull]

theorem dequeue_nil (h : q.toList = []) : q.dequeue = (none, q) := by
  rw [dequeue, dif_pos (toList_eq_nil.mp h)]

/-- What is in the ring is its first item and the others. -/
theorem toList_eq_cons (hne : q.entries ≠ 0) :
    q.toList = q.ring q.first :: q.dequeue.2.toList := by
  rw [dequeue, dif_neg hne]
  simp only [toList]
  obtain ⟨n, hn⟩ := Nat.exists_eq_succ_of_ne_zero hne
  rw [hn, List.range_succ_eq_map, List.map_cons, List.map_map,
    Nat.succ_sub_one]
  congr 1
  · rw [Nat.add_zero, wrap_eq, Nat.mod_eq_of_lt q.first_lt]
  · refine List.map_congr_left fun i _ => ?_
    rw [Function.comp_apply, wrap_eq, wrap_eq, wrap_eq, Nat.mod_add_mod,
      Nat.succ_eq_add_one]
    congr 2
    omega

theorem dequeue_cons (h : q.toList = x :: xs) :
    q.dequeue.1 = some x ∧ q.dequeue.2.toList = xs := by
  have hne : q.entries ≠ 0 := by
    rw [← length_toList, h]
    exact Nat.succ_ne_zero _
  have hcons := toList_eq_cons hne
  rw [h] at hcons
  obtain ⟨hx, hxs⟩ := List.cons.inj hcons
  refine ⟨?_, hxs.symm⟩
  rw [dequeue, dif_neg hne, hx]

/-- What comes of taking an item. -/
theorem toList_of_dequeue {q' : Ring α k} (h : q.dequeue = (some x, q')) :
    q.toList = x :: q'.toList := by
  by_cases hempty : q.entries = 0
  · rw [dequeue_nil (toList_eq_nil.mpr hempty)] at h
    cases h
  · have hcons := toList_eq_cons hempty
    obtain ⟨hx, -⟩ := dequeue_cons hcons
    rw [h] at hx hcons
    cases hx
    exact hcons

/-- What is peeked at is the head. -/
theorem toList_of_peek (h : q.peek = some x) : ∃ xs, q.toList = x :: xs := by
  unfold peek at h
  split at h
  · cases h
  · next hne =>
      obtain rfl := Option.some.inj h
      exact ⟨_, toList_eq_cons hne⟩

/-- Dequeued so many times, and nothing made of it. -/
theorem toList_iterate_dequeue (n : Nat) (q : Ring α k) :
    ((fun q => q.dequeue.2)^[n] q).toList = q.toList.drop n := by
  induction n generalizing q with
  | zero => rfl
  | succ n ih =>
      rw [Function.iterate_succ_apply, ih]
      cases hq : q.toList with
      | nil => rw [dequeue_nil hq, hq, List.drop_nil, List.drop_nil]
      | cons x xs => rw [(dequeue_cons hq).2, List.drop_succ_cons]

end Ring

end Pdtb.Lib
