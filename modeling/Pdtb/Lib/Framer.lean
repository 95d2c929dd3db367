/-
Cutting a stream into lines with a buffer of bounded size. A line that
fits is handed on whole, its terminator included; of one that does not,
what fits is handed on and the rest, up to the terminator, is skipped.

`feed` is the framer, an element at a time, and `feed_cut` says what it
makes of a stream in terms of the stream's lines (`cut`), which know of
no buffer. `feedPieces` is a framer that forgets at the end of a piece
that it was skipping; `feedPieces_eq_iff` says when that goes unnoticed.
-/
import Mathlib.Data.List.Basic

namespace Pdtb.Lib

variable {α : Type}

-- ==================================================== the lines

/-- `ls` are the lines of `s`, each with its terminator, and `tail` is
what follows the last of them. -/
structure Lines (eol : α) (s : List α) (ls : List (List α))
    (tail : List α) : Prop where
  stream : s = ls.flatten ++ tail
  ended : ∀ l ∈ ls, ∃ w, l = w ++ [eol] ∧ eol ∉ w
  unended : eol ∉ tail

section

variable [DecidableEq α] (eol : α)

/-- The lines of a stream that goes on behind `p`, and its tail. -/
def cutFrom : List α → List α → List (List α) × List α
  | p, [] => ([], p)
  | p, b :: bs =>
      if b = eol then ((p ++ [b]) :: (cutFrom [] bs).1, (cutFrom [] bs).2)
      else cutFrom (p ++ [b]) bs

/-- The lines of a stream and its tail. -/
def cut (s : List α) : List (List α) × List α := cutFrom eol [] s

variable {eol}

theorem cutFrom_eol (p s : List α) :
    cutFrom eol p (eol :: s)
      = ((p ++ [eol]) :: (cut eol s).1, (cut eol s).2) := by
  rw [cutFrom, if_pos rfl]
  rfl

theorem cutFrom_word {w : List α} (hw : eol ∉ w) (p s : List α) :
    cutFrom eol p (w ++ s) = cutFrom eol (p ++ w) s := by
  induction w generalizing p with
  | nil => simp
  | cons b w ih =>
      rw [List.mem_cons, not_or] at hw
      rw [List.cons_append, cutFrom, if_neg (Ne.symm hw.1), ih hw.2,
        List.append_assoc, List.singleton_append]

/-- `cut` finds the lines. -/
theorem cut_eq {s : List α} {ls : List (List α)} {tail : List α}
    (h : Lines eol s ls tail) : cut eol s = (ls, tail) := by
  obtain ⟨rfl, hls, htail⟩ := h
  induction ls with
  | nil =>
      have hword := cutFrom_word htail [] []
      rw [List.append_nil, List.nil_append] at hword
      exact hword
  | cons l ls ih =>
      obtain ⟨w, rfl, hw⟩ := hls l (List.mem_cons_self ..)
      have hrest := ih fun l hl => hls l (List.mem_cons_of_mem _ hl)
      rw [List.flatten_cons, List.append_assoc, List.append_assoc,
        List.singleton_append, cut, cutFrom_word hw, cutFrom_eol, hrest,
        List.nil_append]

theorem cutFrom_lines (p s : List α) (hp : eol ∉ p) :
    Lines eol (p ++ s) (cutFrom eol p s).1 (cutFrom eol p s).2 := by
  induction s generalizing p with
  | nil => exact ⟨by simp [cutFrom], by simp [cutFrom], hp⟩
  | cons b s ih =>
      by_cases hb : b = eol
      · obtain ⟨hstream, hended, hunended⟩ := ih [] (by simp)
        rw [hb, cutFrom_eol]
        refine ⟨?_, ?_, hunended⟩
        · rw [List.nil_append] at hstream
          rw [List.flatten_cons, List.append_assoc, List.append_assoc, cut,
            ← hstream, List.singleton_append]
        · intro l hl
          rcases List.mem_cons.mp hl with rfl | hl
          · exact ⟨p, rfl, hp⟩
          · exact hended l hl
      · have hp' : eol ∉ p ++ [b] := by
          rw [List.mem_append, List.mem_singleton, not_or]
          exact ⟨hp, Ne.symm hb⟩
        have h := ih (p ++ [b]) hp'
        rw [List.append_assoc, List.singleton_append] at h
        rw [cutFrom, if_neg hb]
        exact h

variable (eol) in
/-- Every stream has its lines. -/
theorem cut_lines (s : List α) :
    Lines eol s (cut eol s).1 (cut eol s).2 :=
  cutFrom_lines [] s (List.not_mem_nil)

theorem cutFrom_append (p xs ys : List α) :
    cutFrom eol p (xs ++ ys)
      = ((cutFrom eol p xs).1 ++ (cutFrom eol (cutFrom eol p xs).2 ys).1,
        (cutFrom eol (cutFrom eol p xs).2 ys).2) := by
  induction xs generalizing p with
  | nil => rfl
  | cons b xs ih =>
      rw [List.cons_append, cutFrom, cutFrom]
      split
      · rw [ih]
        rfl
      · exact ih (p ++ [b])

variable (eol) in
/-- A line begun is the first to end, or it is the tail. -/
theorem cutFrom_begun (p ys : List α) :
    (∃ z, p ++ z ∈ (cutFrom eol p ys).1)
      ∨ ∃ z, p ++ z = (cutFrom eol p ys).2 := by
  induction ys generalizing p with
  | nil => exact Or.inr ⟨[], List.append_nil p⟩
  | cons b ys ih =>
      rw [cutFrom]
      split
      · exact Or.inl ⟨[b], List.mem_cons_self ..⟩
      · rcases ih (p ++ [b]) with ⟨z, hz⟩ | ⟨z, hz⟩
        · exact Or.inl ⟨b :: z, by rwa [List.append_cons p b z]⟩
        · exact Or.inr ⟨b :: z, by rwa [List.append_cons p b z]⟩

/-- Where no line is longer than `cap`, no line begun is. -/
theorem cut_begun_le {cap : Nat} {xs : List α} (ys : List α)
    (hls : ∀ l ∈ (cut eol (xs ++ ys)).1, l.length ≤ cap)
    (htail : (cut eol (xs ++ ys)).2.length ≤ cap) :
    (cut eol xs).2.length ≤ cap := by
  rw [cut, cutFrom_append] at hls htail
  rcases cutFrom_begun eol (cut eol xs).2 ys with ⟨z, hz⟩ | ⟨z, hz⟩
  · have hle := hls _ (List.mem_append_right _ hz)
    rw [List.length_append] at hle
    exact Nat.le_trans (Nat.le_add_right _ _) hle
  · have hle : ((cut eol xs).2 ++ z).length ≤ cap := hz ▸ htail
    rw [List.length_append] at hle
    exact Nat.le_trans (Nat.le_add_right _ _) hle

end

-- ==================================================== the framer

/-- What a framer is at: filling its buffer, or skipping the rest of a
line that did not fit. -/
inductive Mode (α : Type) where
  | filling (held : List α)
  | skipping

/-- A mode, and the lines handed on so far. -/
abbrev Framed (α : Type) := Mode α × List (List α)

/-- Going on from where a framer stands. -/
def Framed.andThen (r : Framed α) (k : Mode α → Framed α) : Framed α :=
  ((k r.1).1, r.2 ++ (k r.1).2)

@[simp] theorem Framed.andThen_nil (m : Mode α) (k : Mode α → Framed α) :
    Framed.andThen (m, []) k = k m := rfl

theorem Framed.andThen_assoc (r : Framed α) (k l : Mode α → Framed α) :
    (r.andThen k).andThen l = r.andThen fun m => (k m).andThen l := by
  simp only [Framed.andThen, List.append_assoc]

/-- The elements in the buffer. -/
def Mode.held : Mode α → List α
  | .filling held => held
  | .skipping => []

section

variable [DecidableEq α] (eol : α) (cap : Nat)

/-- One element. -/
def Mode.next : Mode α → α → Framed α
  | .filling held, b =>
      if held.length = cap then
        (if b = eol then .filling [] else .skipping, [held])
      else if b = eol then (.filling [], [held ++ [b]])
      else (.filling (held ++ [b]), [])
  | .skipping, b => (if b = eol then .filling [] else .skipping, [])

/-- Some elements, one after another. -/
def feed : Mode α → List α → Framed α
  | m, [] => (m, [])
  | m, b :: bs => (m.next eol cap b).andThen fun m => feed m bs

variable {eol cap}

theorem feed_append (m : Mode α) (xs ys : List α) :
    feed eol cap m (xs ++ ys)
      = (feed eol cap m xs).andThen fun m => feed eol cap m ys := by
  induction xs generalizing m with
  | nil => rfl
  | cons b xs ih =>
      simp only [List.cons_append, feed, ih, Framed.andThen_assoc]

-- ------------------------------------------------ by unended line

variable (cap) in
/-- Where the framer stands after an unended line's elements. -/
def Mode.after (p : List α) : Mode α :=
  if p.length ≤ cap then .filling p else .skipping

variable (cap) in
/-- What it has handed on of them. -/
def overflow (p : List α) : List (List α) :=
  if cap < p.length then [p.take cap] else []

omit [DecidableEq α] in
theorem after_nil : Mode.after cap ([] : List α) = .filling [] :=
  if_pos (Nat.zero_le _)

omit [DecidableEq α] in
theorem overflow_nil : overflow cap ([] : List α) = [] :=
  if_neg (Nat.not_lt_zero _)

variable (cap) in
/-- An element that goes on with the line. -/
theorem next_other {b : α} (hb : b ≠ eol) (p : List α) :
    ((Mode.after cap p).next eol cap b).1 = Mode.after cap (p ++ [b])
      ∧ overflow cap p ++ ((Mode.after cap p).next eol cap b).2
        = overflow cap (p ++ [b]) := by
  have hlen : (p ++ [b]).length = p.length + 1 := by simp
  unfold Mode.after overflow
  rw [hlen]
  rcases Nat.lt_trichotomy p.length cap with hlt | heq | hgt
  · rw [if_pos (by omega), if_pos (by omega), if_neg (by omega),
      if_neg (by omega), Mode.next, if_neg (by omega), if_neg hb]
    exact ⟨rfl, rfl⟩
  · rw [if_pos (by omega), if_neg (by omega), if_neg (by omega),
      if_pos (by omega), Mode.next, if_pos heq, if_neg hb,
      List.take_append_of_le_length (by omega),
      List.take_of_length_le (by omega)]
    exact ⟨rfl, rfl⟩
  · rw [if_neg (by omega), if_neg (by omega), if_pos hgt,
      if_pos (by omega), Mode.next, if_neg hb,
      List.take_append_of_le_length (by omega)]
    exact ⟨rfl, List.append_nil _⟩

variable (eol cap) in
/-- The terminator. -/
theorem next_eol (p : List α) :
    ((Mode.after cap p).next eol cap eol).1 = .filling []
      ∧ overflow cap p ++ ((Mode.after cap p).next eol cap eol).2
        = [(p ++ [eol]).take cap] := by
  have hlen : (p ++ [eol]).length = p.length + 1 := by simp
  unfold Mode.after overflow
  rcases Nat.lt_trichotomy p.length cap with hlt | heq | hgt
  · rw [if_pos (by omega), if_neg (by omega), Mode.next,
      if_neg (by omega), if_pos rfl, List.take_of_length_le (by omega)]
    exact ⟨rfl, rfl⟩
  · rw [if_pos (by omega), if_neg (by omega), Mode.next, if_pos heq,
      if_pos rfl, List.take_append_of_le_length (by omega),
      List.take_of_length_le (by omega)]
    exact ⟨rfl, rfl⟩
  · rw [if_neg (by omega), if_pos hgt, Mode.next, if_pos rfl,
      List.take_append_of_le_length (by omega)]
    exact ⟨rfl, List.append_nil _⟩

variable (eol cap) in
theorem feed_after (p s : List α) :
    (feed eol cap (.after cap p) s).1 = .after cap (cutFrom eol p s).2
      ∧ overflow cap p ++ (feed eol cap (.after cap p) s).2
        = (cutFrom eol p s).1.map (List.take cap)
          ++ overflow cap (cutFrom eol p s).2 := by
  induction s generalizing p with
  | nil => exact ⟨rfl, by simp [feed, cutFrom]⟩
  | cons b s ih =>
      simp only [feed, Framed.andThen]
      by_cases hb : b = eol
      · obtain ⟨hmode, hout⟩ := next_eol eol cap p
        obtain ⟨ihmode, ihout⟩ := ih []
        rw [after_nil] at ihmode ihout
        rw [overflow_nil, List.nil_append] at ihout
        rw [hb, cutFrom_eol, hmode, ← List.append_assoc, hout]
        refine ⟨ihmode, ?_⟩
        rw [ihout, List.map_cons, List.singleton_append,
          List.cons_append]
        rfl
      · obtain ⟨hmode, hout⟩ := next_other cap hb p
        rw [hmode, ← List.append_assoc, hout, cutFrom, if_neg hb]
        exact ih (p ++ [b])

/-- What the framer makes of a stream: its lines as far as they fit, and
what fits of a tail that is longer. -/
theorem feed_cut (s : List α) :
    feed eol cap (.filling []) s = (.after cap (cut eol s).2,
      (cut eol s).1.map (List.take cap) ++ overflow cap (cut eol s).2) := by
  obtain ⟨hmode, hout⟩ := feed_after eol cap [] s
  rw [after_nil] at hmode hout
  rw [overflow_nil, List.nil_append] at hout
  exact Prod.ext hmode hout

-- ==================================================== pieces

/-- Skipping forgotten. -/
def Mode.forget : Mode α → Mode α
  | .filling held => .filling held
  | .skipping => .filling []

variable (eol cap) in
/-- A framer that gets its stream in pieces, and forgets at the end of
each that it was skipping. -/
def feedPieces : Mode α → List (List α) → Framed α
  | m, [] => (m, [])
  | m, c :: cs =>
      (feed eol cap m c).andThen fun m => feedPieces m.forget cs

omit [DecidableEq α] in
theorem held_forget (m : Mode α) : m.forget.held = m.held := by
  cases m with
  | filling _ => rfl
  | skipping => rfl

omit [DecidableEq α] in
/-- Nothing is forgotten where the unended line still fits. -/
theorem forget_after {p : List α} (h : p.length ≤ cap) :
    (Mode.after cap p).forget = .after cap p := by
  rw [Mode.after, if_pos h]
  rfl

variable (eol cap) in
/-- Where the framer stands after some of a stream. -/
theorem feed_next (s xs : List α) :
    (feed eol cap (.after cap (cut eol s).2) xs).1
      = .after cap (cut eol (s ++ xs)).2 := by
  have hmode : ∀ ys : List α, (feed eol cap (.filling []) ys).1
      = .after cap (cut eol ys).2 := fun ys => by rw [feed_cut]
  rw [← hmode, ← hmode, feed_append]
  rfl

/-- As long as no piece but the last ends inside an overflow, the pieces
make no difference. -/
theorem feedPieces_eq {cs : List (List α)} {s : List α}
    (h : ∀ cs₁ cs₂, cs = cs₁ ++ cs₂ → cs₂ ≠ [] →
      (cut eol (s ++ cs₁.flatten)).2.length ≤ cap) :
    (feedPieces eol cap (.after cap (cut eol s).2) cs).2
        = (feed eol cap (.after cap (cut eol s).2) cs.flatten).2
      ∧ (feedPieces eol cap (.after cap (cut eol s).2) cs).1.held
        = (feed eol cap (.after cap (cut eol s).2) cs.flatten).1.held := by
  induction cs generalizing s with
  | nil => exact ⟨rfl, rfl⟩
  | cons c cs ih =>
      have hnext := feed_next eol cap s c
      rw [List.flatten_cons, feed_append]
      simp only [feedPieces, Framed.andThen, hnext]
      cases cs with
      | nil =>
          simp only [feedPieces, List.flatten_nil, feed, held_forget,
            and_self]
      | cons c' cs =>
          have hfits : (cut eol (s ++ c)).2.length ≤ cap := by
            have := h [c] (c' :: cs) rfl (List.cons_ne_nil _ _)
            rwa [List.flatten_singleton] at this
          rw [forget_after hfits]
          have hrest := ih (s := s ++ c) fun cs₁ cs₂ hcs hne => by
            rw [List.append_assoc, ← List.flatten_cons]
            exact h (c :: cs₁) cs₂ (by rw [hcs]; rfl) hne
          exact ⟨by rw [hrest.1], hrest.2⟩

-- ------------------------------------------------ what is handed on

/-- A line as it is handed on: it ends in its only terminator, or it
fills the buffer and has none. -/
def Delimited (eol : α) (cap : Nat) (l : List α) : Prop :=
  l.length ≤ cap
    ∧ ((∃ u, l = u ++ [eol] ∧ eol ∉ u) ∨ l.length = cap ∧ eol ∉ l)

/-- What fills the buffer has no terminator, and fits. -/
def Mode.Sound (eol : α) (cap : Nat) : Mode α → Prop
  | .filling held => eol ∉ held ∧ held.length ≤ cap
  | .skipping => True

omit [DecidableEq α] in
theorem Mode.Sound.forget {m : Mode α} (h : m.Sound eol cap) :
    m.forget.Sound eol cap := by
  cases m with
  | filling _ => exact h
  | skipping => exact ⟨List.not_mem_nil, Nat.zero_le _⟩

theorem Mode.Sound.next {m : Mode α} (h : m.Sound eol cap) (b : α) :
    (m.next eol cap b).1.Sound eol cap
      ∧ ∀ l ∈ (m.next eol cap b).2, Delimited eol cap l := by
  have hfresh : ∀ b : α, (if b = eol then Mode.filling [] else
      .skipping).Sound eol cap := by
    intro b
    split
    · exact ⟨List.not_mem_nil, Nat.zero_le _⟩
    · trivial
  cases m with
  | skipping => exact ⟨hfresh b, fun l hl => absurd hl List.not_mem_nil⟩
  | filling held =>
      obtain ⟨hword, hlen⟩ := h
      rw [Mode.next]
      split
      · next hfull =>
          refine ⟨hfresh b, fun l hl => ?_⟩
          rw [List.mem_singleton.mp hl]
          exact ⟨hlen, Or.inr ⟨hfull, hword⟩⟩
      · next hfree =>
          have hroom : (held ++ [b]).length ≤ cap := by
            rw [List.length_append, List.length_singleton]
            omega
          split
          · next hb =>
              refine ⟨⟨List.not_mem_nil, Nat.zero_le _⟩, fun l hl => ?_⟩
              rw [List.mem_singleton.mp hl]
              exact ⟨hroom, Or.inl ⟨held, by rw [hb], hword⟩⟩
          · next hb =>
              refine ⟨⟨?_, hroom⟩, fun l hl => absurd hl List.not_mem_nil⟩
              rw [List.mem_append, List.mem_singleton, not_or]
              exact ⟨hword, Ne.symm hb⟩

theorem Mode.Sound.feed {m : Mode α} (h : m.Sound eol cap) (xs : List α) :
    (feed eol cap m xs).1.Sound eol cap
      ∧ ∀ l ∈ (feed eol cap m xs).2, Delimited eol cap l := by
  induction xs generalizing m with
  | nil => exact ⟨h, fun l hl => absurd hl List.not_mem_nil⟩
  | cons b xs ih =>
      obtain ⟨hnext, hout⟩ := h.next b
      obtain ⟨hrest, hout'⟩ := ih hnext
      refine ⟨hrest, fun l hl => ?_⟩
      rcases List.mem_append.mp hl with hl | hl
      · exact hout l hl
      · exact hout' l hl

/-- The framer at `m` is ahead of the one at `m'`, having handed on `k`
lines more: by a line, or by what it holds. -/
def Ahead (k : Nat) (m m' : Mode α) : Prop :=
  m = m' ∧ 1 ≤ k
    ∨ ∃ held, m = .filling held ∧ m' = .skipping ∧ (held ≠ [] ∨ 1 ≤ k)

variable (eol cap) in
/-- An element keeps one ahead. -/
theorem Ahead.next {k : Nat} {m m' : Mode α} (h : Ahead k m m') (b : α) :
    ∃ k', Ahead k' (m.next eol cap b).1 (m'.next eol cap b).1
      ∧ k + (m.next eol cap b).2.length
        = k' + (m'.next eol cap b).2.length := by
  rcases h with ⟨rfl, hk⟩ | ⟨held, rfl, rfl, hheld⟩
  · exact ⟨k, Or.inl ⟨rfl, hk⟩, rfl⟩
  · simp only [Mode.next]
    split
    · exact ⟨k + 1, Or.inl ⟨rfl, by omega⟩, rfl⟩
    · by_cases hb : b = eol
      · rw [if_pos hb, if_pos hb]
        exact ⟨k + 1, Or.inl ⟨rfl, by omega⟩, rfl⟩
      · rw [if_neg hb, if_neg hb]
        exact ⟨k, Or.inr ⟨_, rfl, rfl, Or.inl (by simp)⟩, rfl⟩

variable (eol cap) in
theorem Ahead.feed {k : Nat} {m m' : Mode α} (h : Ahead k m m')
    (xs : List α) :
    ∃ k', Ahead k' (feed eol cap m xs).1 (feed eol cap m' xs).1
      ∧ k + (feed eol cap m xs).2.length
        = k' + (feed eol cap m' xs).2.length := by
  induction xs generalizing k m m' with
  | nil => exact ⟨k, h, rfl⟩
  | cons b xs ih =>
      obtain ⟨k₁, h₁, hk₁⟩ := h.next eol cap b
      obtain ⟨k₂, h₂, hk₂⟩ := ih h₁
      refine ⟨k₂, h₂, ?_⟩
      simp only [Lib.feed, Framed.andThen, List.length_append]
      omega

omit [DecidableEq α] in
/-- Forgetting keeps one ahead. -/
theorem Ahead.forget {k : Nat} {m m' : Mode α} (h : Ahead k m m') :
    Ahead k m.forget m' := by
  rcases h with ⟨rfl, hk⟩ | ⟨held, rfl, rfl, hheld⟩
  · cases m with
    | filling held => exact Or.inl ⟨rfl, hk⟩
    | skipping => exact Or.inr ⟨[], rfl, rfl, Or.inr hk⟩
  · exact Or.inr ⟨held, rfl, rfl, hheld⟩

variable (eol cap) in
theorem Ahead.feedPieces {k : Nat} {m m' : Mode α} (h : Ahead k m m')
    (cs : List (List α)) :
    ∃ k', Ahead k' (feedPieces eol cap m cs).1
        (Lib.feed eol cap m' cs.flatten).1
      ∧ k + (feedPieces eol cap m cs).2.length
        = k' + (Lib.feed eol cap m' cs.flatten).2.length := by
  induction cs generalizing k m m' with
  | nil => exact ⟨k, h, rfl⟩
  | cons c cs ih =>
      obtain ⟨k₁, h₁, hk₁⟩ := h.feed eol cap c
      obtain ⟨k₂, h₂, hk₂⟩ := ih h₁.forget
      refine ⟨k₂, ?_, ?_⟩
      · rw [List.flatten_cons, feed_append]
        exact h₂
      · rw [List.flatten_cons, feed_append]
        simp only [Lib.feedPieces, Framed.andThen, List.length_append]
        omega

variable (eol) in
/-- The first element behind a forgotten skip puts the framer ahead. -/
theorem ahead_start (hcap : 0 < cap) (b : α) :
    ∃ k, Ahead k ((Mode.filling []).next eol cap b).1
        (Mode.skipping.next eol cap b).1
      ∧ ((Mode.filling []).next eol cap b).2.length
        = k + (Mode.skipping.next eol cap b).2.length := by
  have hne : ([] : List α).length ≠ cap := by
    rw [List.length_nil]
    omega
  simp only [Mode.next, if_neg hne]
  by_cases hb : b = eol
  · rw [if_pos hb, if_pos hb]
    exact ⟨1, Or.inl ⟨rfl, Nat.le_refl 1⟩, rfl⟩
  · rw [if_neg hb, if_neg hb]
    exact ⟨0, Or.inr ⟨_, rfl, rfl, Or.inl (by simp)⟩, rfl⟩

omit [DecidableEq α] in
/-- Whoever is ahead differs in the lines handed on or in what is
held. -/
theorem Ahead.ne {k : Nat} {m m' : Mode α} (h : Ahead k m m') (hk : k = 0) :
    m.held ≠ m'.held := by
  rcases h with ⟨-, hk'⟩ | ⟨held, rfl, rfl, hheld | hk'⟩
  · omega
  · exact hheld
  · omega

theorem feedPieces_ne (hcap : 0 < cap) {cs : List (List α)}
    (hcs : ∀ c ∈ cs, c ≠ []) (hne : cs ≠ []) :
    ¬ ((feedPieces eol cap (.filling []) cs).2
        = (feed eol cap .skipping cs.flatten).2
      ∧ (feedPieces eol cap (.filling []) cs).1.held
        = (feed eol cap .skipping cs.flatten).1.held) := by
  intro h
  obtain ⟨hout, hheld⟩ := h
  cases cs with
  | nil => exact hne rfl
  | cons c cs =>
      cases c with
      | nil => exact hcs [] (List.mem_cons_self ..) rfl
      | cons b c =>
          obtain ⟨k₁, h₁, hk₁⟩ := ahead_start eol hcap b
          obtain ⟨k₂, h₂, hk₂⟩ := h₁.feed eol cap c
          obtain ⟨k₃, h₃, hk₃⟩ :=
            h₂.forget.feedPieces eol cap cs
          rw [List.flatten_cons, feed_append] at hout hheld
          have hlen := congrArg List.length hout
          simp only [feedPieces, feed, Framed.andThen,
            List.length_append] at hlen hheld
          exact h₃.ne (by omega) hheld

/-- And the other way round. -/
theorem feedPieces_fits (hcap : 0 < cap) {cs : List (List α)} {s : List α}
    (hcs : ∀ c ∈ cs, c ≠ []) (hs : (cut eol s).2.length ≤ cap)
    (hout : (feedPieces eol cap (.after cap (cut eol s).2) cs).2
      = (feed eol cap (.after cap (cut eol s).2) cs.flatten).2)
    (hheld : (feedPieces eol cap (.after cap (cut eol s).2) cs).1.held
      = (feed eol cap (.after cap (cut eol s).2) cs.flatten).1.held)
    {cs₁ cs₂ : List (List α)} (hsplit : cs = cs₁ ++ cs₂) (hne : cs₂ ≠ []) :
    (cut eol (s ++ cs₁.flatten)).2.length ≤ cap := by
  induction cs₁ generalizing cs s with
  | nil => simpa using hs
  | cons c cs₁ ih =>
      subst hsplit
      have hrest : ∀ c ∈ cs₁ ++ cs₂, c ≠ [] := fun c hc =>
        hcs c (List.mem_cons_of_mem _ hc)
      have hnext := feed_next eol cap s c
      rw [List.cons_append, List.flatten_cons, feed_append]
        at hout hheld
      simp only [feedPieces, Framed.andThen, hnext,
        List.append_cancel_left_eq] at hout hheld
      by_cases hfits : (cut eol (s ++ c)).2.length ≤ cap
      · rw [forget_after hfits] at hout hheld
        have hall := ih hrest hfits hout hheld rfl
        rwa [List.append_assoc, ← List.flatten_cons] at hall
      · rw [Mode.after, if_neg hfits] at hout hheld
        refine absurd ⟨hout, hheld⟩ (feedPieces_ne hcap hrest ?_)
        exact List.append_ne_nil_of_right_ne_nil _ hne

variable (eol) in
/-- Forgetting goes unnoticed exactly when no piece but the last ends
inside an overflow. -/
theorem feedPieces_eq_iff (hcap : 0 < cap) {cs : List (List α)}
    (hcs : ∀ c ∈ cs, c ≠ []) :
    ((feedPieces eol cap (.filling []) cs).2
        = (feed eol cap (.filling []) cs.flatten).2
      ∧ (feedPieces eol cap (.filling []) cs).1.held
        = (feed eol cap (.filling []) cs.flatten).1.held)
      ↔ ∀ cs₁ cs₂, cs = cs₁ ++ cs₂ → cs₂ ≠ [] →
        (cut eol cs₁.flatten).2.length ≤ cap := by
  have hnil : (cut eol ([] : List α)).2 = [] := rfl
  have hmode : Mode.filling [] = .after cap (cut eol ([] : List α)).2 :=
    (hnil ▸ after_nil).symm
  rw [hmode]
  constructor
  · intro hand cs₁ cs₂ hsplit hne
    obtain ⟨hout, hheld⟩ := hand
    have hfits : (cut eol ([] : List α)).2.length ≤ cap := by
      rw [hnil]
      exact Nat.zero_le _
    exact feedPieces_fits hcap hcs hfits hout hheld hsplit hne
  · exact fun h => feedPieces_eq h

end

end Pdtb.Lib
