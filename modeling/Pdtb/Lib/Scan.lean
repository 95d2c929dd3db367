/-
Scanning a list up to a stop, with and without a limit on how much may
be taken. Both scanners fail at the end of the list: they want to see
what stops them.

`scan_eq_some` and `skip_eq_some` say the same as the recursions, in the
terms a grammar is written in: a scan succeeds on exactly the lists that
split into what is taken and a rest that starts with a stop.
-/

namespace Pdtb.Lib

variable {α : Type}

/-- The list goes on with something `p` holds of. -/
def StartsWith (p : α → Bool) (xs : List α) : Prop :=
  ∃ x rest, xs = x :: rest ∧ p x = true

theorem startsWith_cons {p : α → Bool} {x : α} {xs : List α} :
    StartsWith p (x :: xs) ↔ p x = true := by
  constructor
  · intro hex
    obtain ⟨_, _, h, hp⟩ := hex
    cases h
    exact hp
  · exact fun hp => ⟨x, xs, rfl, hp⟩

theorem not_startsWith_nil {p : α → Bool} : ¬ StartsWith p [] := by
  intro hex
  obtain ⟨_, _, h, _⟩ := hex
  cases h

theorem StartsWith.append {p : α → Bool} {xs : List α}
    (h : StartsWith p xs) (ys : List α) : StartsWith p (xs ++ ys) := by
  obtain ⟨x, rest, rfl, hp⟩ := h
  exact ⟨x, rest ++ ys, rfl, hp⟩

/-- Take what comes before the first `stop`, at most `room` of it. -/
def scan (stop : α → Bool) : Nat → List α → Option (List α × List α)
  | _, [] => none
  | room, x :: xs =>
      if stop x then some ([], x :: xs)
      else
        match room with
        | 0 => none
        | room + 1 => (scan stop room xs).map fun (w, rest) => (x :: w, rest)

/-- Drop everything before the first `stop`. -/
def skip (stop : α → Bool) : List α → Option (List α)
  | [] => none
  | x :: xs => if stop x then some (x :: xs) else skip stop xs

theorem scan_nil (stop : α → Bool) (room : Nat) :
    scan stop room ([] : List α) = none := by
  rw [scan]

theorem scan_stop {stop : α → Bool} {x : α} (h : stop x = true)
    (room : Nat) (xs : List α) :
    scan stop room (x :: xs) = some ([], x :: xs) := by
  unfold scan
  rw [if_pos h]

theorem scan_full {stop : α → Bool} {x : α} (h : stop x = false)
    (xs : List α) : scan stop 0 (x :: xs) = none := by
  simp [scan, h]

theorem scan_succ {stop : α → Bool} {x : α} (h : stop x = false)
    (room : Nat) (xs : List α) :
    scan stop (room + 1) (x :: xs)
      = (scan stop room xs).map fun (w, rest) => (x :: w, rest) := by
  simp [scan, h]

/-- A scan finds the split at the first stop, if what comes before it
fits. -/
theorem scan_eq_some {stop : α → Bool} {room : Nat} {xs w rest : List α} :
    scan stop room xs = some (w, rest) ↔
      xs = w ++ rest ∧ (∀ x ∈ w, stop x = false) ∧ StartsWith stop rest
        ∧ w.length ≤ room := by
  induction xs generalizing room w with
  | nil =>
      constructor
      · intro h
        rw [scan_nil] at h
        cases h
      · intro hand
        obtain ⟨hx, -, hs, -⟩ := hand
        obtain ⟨-, rfl⟩ := List.append_eq_nil_iff.mp hx.symm
        exact absurd hs not_startsWith_nil
  | cons x xs ih =>
      unfold scan
      cases hx : stop x with
      | true =>
          rw [if_pos rfl, Option.some.injEq, Prod.mk.injEq]
          constructor
          · intro hand
            obtain ⟨rfl, rfl⟩ := hand
            exact ⟨rfl, by simp, startsWith_cons.mpr hx, by simp⟩
          · intro hand
            obtain ⟨hsplit, hw, -, -⟩ := hand
            cases w with
            | nil => exact ⟨rfl, hsplit⟩
            | cons y w =>
                cases hsplit
                have := hw x List.mem_cons_self
                rw [hx] at this
                cases this
      | false =>
          simp only [Bool.false_eq_true, ↓reduceIte]
          -- what is taken starts with `x`, as the rest starts with a stop
          have hcons : ∀ {w}, x :: xs = w ++ rest → StartsWith stop rest →
              ∃ v, w = x :: v ∧ xs = v ++ rest := by
            intro w hsplit hs
            cases w with
            | nil =>
                rw [List.nil_append] at hsplit
                subst hsplit
                rw [startsWith_cons, hx] at hs
                cases hs
            | cons y w =>
                cases hsplit
                exact ⟨w, rfl, rfl⟩
          cases room with
          | zero =>
              constructor
              · intro h
                cases h
              · intro hand
                obtain ⟨hsplit, -, hs, hlen⟩ := hand
                obtain ⟨v, rfl, -⟩ := hcons hsplit hs
                simp at hlen
          | succ room =>
              simp only [Option.map_eq_some_iff, Prod.exists, Prod.mk.injEq]
              constructor
              · intro hex
                obtain ⟨v, rest', h, rfl, rfl⟩ := hex
                obtain ⟨rfl, hw, hs, hlen⟩ := ih.mp h
                refine ⟨rfl, ?_, hs, Nat.succ_le_succ hlen⟩
                intro y hy
                rcases List.mem_cons.mp hy with rfl | hy
                · exact hx
                · exact hw y hy
              · intro hand
                obtain ⟨hsplit, hw, hs, hlen⟩ := hand
                obtain ⟨v, rfl, rfl⟩ := hcons hsplit hs
                refine ⟨v, rest, ih.mpr ⟨rfl, ?_, hs, ?_⟩, rfl, rfl⟩
                · exact fun y hy => hw y (List.mem_cons_of_mem x hy)
                · exact Nat.le_of_succ_le_succ hlen

/-- What stops a scan is left. -/
theorem scan_rest {stop : α → Bool} {room : Nat} {xs w rest : List α}
    (h : scan stop room xs = some (w, rest)) : rest ≠ [] := by
  intro heq
  subst heq
  exact not_startsWith_nil (scan_eq_some.mp h).2.2.1

theorem skip_eq_some {stop : α → Bool} {xs rest : List α} :
    skip stop xs = some rest ↔
      ∃ gone, xs = gone ++ rest ∧ (∀ x ∈ gone, stop x = false)
        ∧ StartsWith stop rest := by
  induction xs with
  | nil =>
      constructor
      · intro h
        cases h
      · intro hex
        obtain ⟨gone, hx, -, hs⟩ := hex
        obtain ⟨-, rfl⟩ := List.append_eq_nil_iff.mp hx.symm
        exact absurd hs not_startsWith_nil
  | cons x xs ih =>
      unfold skip
      cases hx : stop x with
      | true =>
          rw [if_pos rfl, Option.some.injEq]
          constructor
          · intro heq
            subst heq
            exact ⟨[], rfl, by simp, startsWith_cons.mpr hx⟩
          · intro hex
            obtain ⟨gone, hsplit, hg, -⟩ := hex
            cases gone with
            | nil => exact hsplit
            | cons y gone =>
                cases hsplit
                have := hg x List.mem_cons_self
                rw [hx] at this
                cases this
      | false =>
          simp only [Bool.false_eq_true, ↓reduceIte, ih]
          constructor
          · intro hex
            obtain ⟨gone, rfl, hg, hs⟩ := hex
            refine ⟨x :: gone, rfl, ?_, hs⟩
            intro y hy
            rcases List.mem_cons.mp hy with rfl | hy
            · exact hx
            · exact hg y hy
          · intro hex
            obtain ⟨gone, hsplit, hg, hs⟩ := hex
            cases gone with
            | nil =>
                rw [List.nil_append] at hsplit
                subst hsplit
                rw [startsWith_cons, hx] at hs
                cases hs
            | cons y gone =>
                cases hsplit
                exact ⟨gone, rfl,
                  fun y hy => hg y (List.mem_cons_of_mem x hy), hs⟩

-- ==================================================== parts in order

/-- `ws` are found in `xs` in this order, none reaching into the next. -/
def Scattered : List (List α) → List α → Prop
  | [], _ => True
  | w :: ws, xs => ∃ g rest, xs = g ++ w ++ rest ∧ Scattered ws rest

theorem scattered_single (g w rest : List α) :
    Scattered [w] (g ++ w ++ rest) := ⟨g, rest, rfl, trivial⟩

theorem Scattered.prepend {ws : List (List α)} {xs : List α}
    (h : Scattered ws xs) (ys : List α) : Scattered ws (ys ++ xs) := by
  cases ws with
  | nil => trivial
  | cons w ws =>
      obtain ⟨g, rest, rfl, hws⟩ := h
      exact ⟨ys ++ g, rest, by simp only [List.append_assoc], hws⟩

/-- Parts of one list, then parts of what is behind it. -/
theorem Scattered.append {vs ws : List (List α)} {xs ys : List α}
    (h : Scattered vs xs) (h' : Scattered ws ys) :
    Scattered (vs ++ ws) (xs ++ ys) := by
  induction vs generalizing xs with
  | nil => exact h'.prepend xs
  | cons v vs ih =>
      obtain ⟨g, rest, rfl, hvs⟩ := h
      exact ⟨g, rest ++ ys, by simp only [List.append_assoc], ih hvs⟩

end Pdtb.Lib
