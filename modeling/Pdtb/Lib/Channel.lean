/-
One direction of a connection as both of its ends together see it: what
was sent so far and whether that is all, what was taken over at the other
end and whether that end has seen that it is all, and what the sender knows
to have been taken over.

Between the ends a piece may be lost, come twice, or come late. So it says
where in the stream it belongs, and stays true of a stream that goes on
(`Carries.push`). What is taken over is a piece that belongs behind what
was taken so far. That nothing else can happen makes what was acknowledged
a part of what was taken over, and that a part of what was sent; a
`Channel` has this built in, and its operations ask for what they need.
-/
import Mathlib.Data.List.Infix

namespace Pdtb.Lib

variable {α : Type}

structure Channel (α : Type) where
  sent : List α
  /-- nothing will be sent any more -/
  ended : Bool
  got : List α
  /-- the other end knows that -/
  closed : Bool
  acked : List α
  got_sent : got <+: sent
  closed_all : closed = true → ended = true ∧ got = sent
  acked_got : acked <+: got

namespace Channel

variable {C : Channel α} {xs ys data : List α} {start : Nat}

/-- A channel nothing was sent on. -/
def fresh : Channel α where
  sent := []
  ended := false
  got := []
  closed := false
  acked := []
  got_sent := List.prefix_rfl
  closed_all h := nomatch h
  acked_got := List.prefix_rfl

-- ==================================================== pieces

/-- The data belongs there. -/
def Carries (C : Channel α) (start : Nat) (data : List α) : Prop :=
  data <+: C.sent.drop start

/-- The stream ends there. -/
def Ends (C : Channel α) (start : Nat) : Prop :=
  C.ended = true ∧ start = C.sent.length

theorem carries_nil (start : Nat) : C.Carries start [] := List.nil_prefix

/-- A piece with data is within what was sent. -/
theorem Carries.le (h : C.Carries start data) (hne : data ≠ []) :
    start + data.length ≤ C.sent.length := by
  have hle := h.length_le
  have hpos := List.length_pos_iff.mpr hne
  rw [List.length_drop] at hle
  omega

-- ==================================================== operations

/-- More is sent, perhaps the last of it; behind the end there is
nothing. -/
def push (C : Channel α) (xs : List α) (last : Bool)
    (h : C.ended = true → xs = []) : Channel α :=
  { C with
    sent := C.sent ++ xs
    ended := C.ended || last
    got_sent := C.got_sent.trans (List.prefix_append _ _)
    closed_all := by
      intro hclosed
      obtain ⟨hended, hgot⟩ := C.closed_all hclosed
      rw [h hended, hended, List.append_nil]
      exact ⟨rfl, hgot⟩ }

/-- The next piece is taken over. -/
def take (C : Channel α) (xs : List α) (h : C.Carries C.got.length xs) :
    Channel α :=
  { C with
    got := C.got ++ xs
    got_sent := by
      obtain ⟨rest, hsent⟩ := C.got_sent
      unfold Carries at h
      rw [← hsent, List.drop_left] at h
      rw [← hsent]
      exact (List.prefix_append_right_inj _).mpr h
    closed_all := by
      intro hclosed
      obtain ⟨hended, hgot⟩ := C.closed_all hclosed
      unfold Carries at h
      rw [hgot, List.drop_length] at h
      rw [List.prefix_nil.mp h, List.append_nil]
      exact ⟨hended, hgot⟩
    acked_got := C.acked_got.trans (List.prefix_append _ _) }

/-- The end is seen. -/
def close (C : Channel α) (h : C.Ends C.got.length) : Channel α :=
  { C with
    closed := true
    closed_all := fun _ => ⟨h.1, C.got_sent.eq_of_length h.2⟩ }

/-- The sender comes to know that these were taken over. -/
def acknowledge (C : Channel α) (xs : List α)
    (h : C.acked ++ xs <+: C.got) : Channel α :=
  { C with
    acked := C.acked ++ xs
    acked_got := h }

/-- The sender has not noticed anything. -/
structure SameSent (C D : Channel α) : Prop where
  sent : D.sent = C.sent
  ended : D.ended = C.ended
  acked : D.acked = C.acked

/-- Nor has the receiver. -/
structure SameGot (C D : Channel α) : Prop where
  got : D.got = C.got
  closed : D.closed = C.closed

theorem SameSent.refl (C : Channel α) : C.SameSent C := ⟨rfl, rfl, rfl⟩

theorem SameSent.trans {D E : Channel α} (h₁ : C.SameSent D)
    (h₂ : D.SameSent E) : C.SameSent E :=
  ⟨h₂.sent.trans h₁.sent, h₂.ended.trans h₁.ended, h₂.acked.trans h₁.acked⟩

theorem SameGot.refl (C : Channel α) : C.SameGot C := ⟨rfl, rfl⟩

theorem SameGot.trans {D E : Channel α} (h₁ : C.SameGot D)
    (h₂ : D.SameGot E) : C.SameGot E :=
  ⟨h₂.got.trans h₁.got, h₂.closed.trans h₁.closed⟩

-- ==================================================== what stays true

section

variable {last : Bool} {hxs : C.ended = true → xs = []}

theorem Carries.push (h : C.Carries start data) :
    (C.push xs last hxs).Carries start data := by
  show data <+: (C.sent ++ xs).drop start
  rw [List.drop_append]
  exact h.trans (List.prefix_append _ _)

/-- What has just been sent belongs where it was. -/
theorem carries_push : (C.push xs last hxs).Carries C.sent.length xs := by
  show xs <+: (C.sent ++ xs).drop C.sent.length
  rw [List.drop_left]

theorem ends_push (hlast : last = true) :
    (C.push xs last hxs).Ends (C.sent.length + xs.length) := by
  refine ⟨?_, List.length_append.symm⟩
  show (C.ended || last) = true
  rw [hlast, Bool.or_true]

/-- A stream that has ended stays as it is. -/
theorem Ends.push (h : C.Ends start) : (C.push xs last hxs).Ends start := by
  refine ⟨?_, ?_⟩
  · show (C.ended || last) = true
    rw [h.1, Bool.true_or]
  · show start = (C.sent ++ xs).length
    rw [hxs h.1, List.append_nil]
    exact h.2

end

/-- What was taken over is a prefix, so only its length counts. -/
theorem acked_append_got (hsent : C.acked ++ xs ++ ys = C.sent)
    (hlen : (C.acked ++ xs).length ≤ C.got.length) :
    C.acked ++ xs <+: C.got :=
  List.prefix_of_prefix_length_le (hsent ▸ List.prefix_append _ ys)
    C.got_sent hlen

end Channel

end Pdtb.Lib
