/-
A loop as code has it: a body that makes the next state or leaves the loop
with a result. `runLoop` runs it for so many rounds.

What the body does may depend on a part of the state only, its control.
If there are finitely many controls, a loop that comes to the same one
twice goes round for ever, so it ends within as many rounds as there are
controls or never (`loop_within`).
-/
import Mathlib.Data.Fintype.Card

namespace Pdtb.Lib

variable {σ ρ κ : Type} {body : σ → σ ⊕ ρ} {s t : σ} {r : ρ} {m n : Nat}

/-- What the loop leaves with, if it does so within `n` rounds. -/
def runLoop (body : σ → σ ⊕ ρ) : Nat → σ → Option ρ
  | 0, _ => none
  | n + 1, s =>
      match body s with
      | .inl t => runLoop body n t
      | .inr r => some r

theorem loop_goes (h : body s = .inl t) :
    runLoop body (n + 1) s = runLoop body n t := by
  rw [runLoop, h]

theorem loop_leaves (h : body s = .inr r) :
    runLoop body (n + 1) s = some r := by
  rw [runLoop, h]

/-- More rounds do no harm. -/
theorem loop_mono (h : runLoop body m s = some r) (hle : m ≤ n) :
    runLoop body n s = some r := by
  induction m generalizing n s with
  | zero => cases h
  | succ m ih =>
      obtain ⟨k, rfl⟩ := Nat.exists_eq_add_of_le' hle
      rw [Nat.add_succ] at hle ⊢
      cases hbody : body s with
      | inl t =>
          rw [loop_goes hbody] at h ⊢
          exact ih h (Nat.le_of_succ_le_succ hle)
      | inr r' =>
          rw [loop_leaves hbody] at h ⊢
          exact h

/-- What holds at the start, and after each round if before, holds where
the loop is left. -/
theorem loop_induct {I : σ → Prop} {Q : ρ → Prop}
    (hgoes : ∀ s t, I s → body s = .inl t → I t)
    (hleaves : ∀ s r, I s → body s = .inr r → Q r) (hs : I s)
    (h : runLoop body n s = some r) : Q r := by
  induction n generalizing s with
  | zero => cases h
  | succ n ih =>
      cases hbody : body s with
      | inl t =>
          rw [loop_goes hbody] at h
          exact ih (hgoes s t hs hbody) h
      | inr r' =>
          rw [loop_leaves hbody] at h
          cases h
          exact hleaves s r hs hbody

-- ==================================================== ending

/-- The state after `n` rounds, or the one in which the loop is left. -/
def stateAfter (body : σ → σ ⊕ ρ) : Nat → σ → σ
  | 0, s => s
  | n + 1, s =>
      match body s with
      | .inl t => stateAfter body n t
      | .inr _ => s

/-- What holds at the start, and after each round if before, always
holds, whether the loop ends or not. -/
theorem stateAfter_induct {I : σ → Prop}
    (hgoes : ∀ s t, I s → body s = .inl t → I t) (hs : I s) (n : Nat) :
    I (stateAfter body n s) := by
  induction n generalizing s with
  | zero => exact hs
  | succ n ih =>
      rw [stateAfter]
      cases hbody : body s with
      | inl t => exact ih (hgoes s t hs hbody)
      | inr r => exact hs

theorem loop_add (h : runLoop body m s = none) :
    runLoop body (m + n) s = runLoop body n (stateAfter body m s) := by
  induction m generalizing s with
  | zero => rw [Nat.zero_add, stateAfter]
  | succ m ih =>
      rw [Nat.succ_add]
      cases hbody : body s with
      | inl t =>
          rw [loop_goes hbody] at h ⊢
          rw [stateAfter, hbody]
          exact ih h
      | inr r =>
          rw [loop_leaves hbody] at h
          cases h

/-- The body goes on from states with the same control to states with the
same control. -/
def Controls (body : σ → σ ⊕ ρ) (control : σ → κ) : Prop :=
  ∀ s s' t, control s' = control s → body s = .inl t →
    ∃ t', body s' = .inl t' ∧ control t' = control t

theorem Controls.loop_isSome {control : σ → κ} (hc : Controls body control)
    {s' : σ} (hs : control s' = control s)
    (h : (runLoop body n s).isSome = true) :
    (runLoop body n s').isSome = true := by
  induction n generalizing s s' with
  | zero => cases h
  | succ n ih =>
      cases hbody : body s' with
      | inl t' =>
          obtain ⟨t, hgoes, ht⟩ := hc s' s t' hs.symm hbody
          rw [loop_goes hgoes] at h
          rw [loop_goes hbody]
          exact ih ht.symm h
      | inr r =>
          rw [loop_leaves hbody]
          rfl

/-- The loop ends within as many rounds as there are controls, or never. -/
theorem loop_within [Fintype κ] {control : σ → κ} (hc : Controls body control)
    (h : runLoop body n s = some r) :
    runLoop body (Fintype.card κ) s = some r := by
  have hends : ∃ m, (runLoop body m s).isSome = true := ⟨n, by rw [h]; rfl⟩
  obtain ⟨hsome, hleast⟩ := (⟨Nat.find_spec hends,
    fun m hm => Nat.find_min hends hm⟩ :
    (runLoop body (Nat.find hends) s).isSome = true
      ∧ ∀ m < Nat.find hends, ¬ (runLoop body m s).isSome = true)
  generalize Nat.find hends = k at hsome hleast
  have hnone : ∀ i < k, runLoop body i s = none := fun i hi =>
    Option.not_isSome_iff_eq_none.mp (hleast i hi)
  -- from the same control again, it would have ended earlier
  have hlt : ∀ i j, i < j → j < k → control (stateAfter body i s)
      ≠ control (stateAfter body j s) := by
    intro i j hij hj heq
    have hrest : (runLoop body (k - j) (stateAfter body j s)).isSome
        = true := by
      rw [← loop_add (hnone j hj), Nat.add_sub_cancel' hj.le]
      exact hsome
    have hearly := hc.loop_isSome heq hrest
    rw [← loop_add (hnone i (hij.trans hj))] at hearly
    exact hleast _ (by omega) hearly
  have hinj : Function.Injective
      fun i : Fin k => control (stateAfter body i s) := by
    intro i j heq
    rcases Nat.lt_trichotomy i j with hij | hij | hij
    · exact absurd heq (hlt i j hij j.isLt)
    · exact Fin.ext hij
    · exact absurd heq.symm (hlt j i hij i.isLt)
  have hle := Fintype.card_le_of_injective _ hinj
  rw [Fintype.card_fin] at hle
  obtain ⟨r', hr'⟩ := Option.isSome_iff_exists.mp hsome
  have hcard := loop_mono hr' hle
  have hboth := (loop_mono h (Nat.le_max_left n (Fintype.card κ))).symm.trans
    (loop_mono hcard (Nat.le_max_right n (Fintype.card κ)))
  rw [hcard, hboth]

end Pdtb.Lib
