/-
`parse.nas` does what `Irc.parse` says. `Stage` is the invariant of a
parse that has not failed: what is left of the input, what was copied,
and that nothing else changed. Every routine takes a `Stage` to a
`Stage`, or fails when its counterpart over lists does (`Outcome`);
`Outcome.bind` is the law of `parseThen`, and the proofs go through the
routines with it in the source's order.

`parse.nas`'s variables are followed as an array of 15 words
(`Image.vars`): a copy changes none of them, a store changes one.
-/
import Pdtb.Asm.Parse
import Pdtb.Irc.Message

namespace Pdtb

open Lib

namespace Image

variable (img : Image)

theorem tagsBuffer_eq : img.tagsBuffer = img.varAt 0 := by
  rw [varAt]
  rfl

theorem tagsBufferLen_eq : img.tagsBufferLen = img.varAt 1 := by
  rw [varAt]
  rfl

theorem prefixBuffer_eq : img.prefixBuffer = img.varAt 2 := by
  rw [varAt]
  rfl

theorem prefixBufferLen_eq : img.prefixBufferLen = img.varAt 3 := by
  rw [varAt]
  rfl

theorem cmdBuffer_eq : img.cmdBuffer = img.varAt 4 := by
  rw [varAt]
  rfl

theorem cmdBufferLen_eq : img.cmdBufferLen = img.varAt 5 := by
  rw [varAt]
  rfl

theorem paramsList_eq : img.paramsList = img.varAt 6 := by
  rw [varAt]
  rfl

theorem paramsListLen_eq : img.paramsListLen = img.varAt 14 := by
  rw [varAt]
  rfl

theorem varAt_add_two (i : Nat) : img.varAt i + 2 = img.varAt (i + 1) := by
  have hnext : BitVec.ofNat 16 (514 + 2 * (i + 1))
      = BitVec.ofNat 16 (514 + 2 * i) + 2 :=
    BitVec.ofNat_add (514 + 2 * i) 2
  rw [varAt, varAt, hnext, BitVec.add_assoc]

theorem varAt_add_four (i : Nat) :
    img.varAt i + paramsListEntryLen = img.varAt (i + 2) := by
  rw [← varAt_add_two, ← varAt_add_two, BitVec.add_assoc]
  rfl

/-- The variables' values. -/
def vars (m : Mem 16 Byte) (i : Nat) : Word := m.word (img.varAt i)

theorem varAt_subset {i : Nat} (hi : i < 15) :
    region (img.varAt i) 2 ⊆ img.parseData := by
  rw [varAt]
  exact region_subset (by simp only [parseSize]; omega)

theorem buffer_subset {i n : Nat} (h : i + n ≤ 514) :
    region (img.parseBuffer + BitVec.ofNat 16 i) n ⊆ img.parseData :=
  region_subset (by simp only [parseSize]; omega)

theorem varAt_disjoint {i j : Nat} (hi : i < 15) (hj : j < 15)
    (h : i ≠ j) :
    Disjoint (region (img.varAt i) 2) (region (img.varAt j) 2) := by
  rw [varAt, varAt]
  rcases Nat.lt_or_gt_of_ne h with h | h
  · exact region_disjoint (by omega) (by omega)
  · exact (region_disjoint (by omega) (by omega)).symm

theorem buffer_disjoint_varAt {i n j : Nat} (h : i + n ≤ 514)
    (hj : j < 15) :
    Disjoint (region (img.parseBuffer + BitVec.ofNat 16 i) n)
      (region (img.varAt j) 2) := by
  rw [varAt]
  exact region_disjoint (by omega) (by omega)

/-- What the parser stores to: all of its data but `parseBufferLen`. -/
def parseStores : Set Word :=
  img.parseData \ region img.parseBufferLen 2

theorem varAt_stores {i : Nat} (hi : i < 15) :
    region (img.varAt i) 2 ⊆ img.parseStores := by
  refine fun x hx => ⟨img.varAt_subset hi hx, fun hlen => ?_⟩
  have hd := img.buffer_disjoint_varAt (i := 512) (n := 2) (by omega) hi
  exact Set.disjoint_left.mp hd hlen hx

theorem buffer_stores {i n : Nat} (h : i + n ≤ 512) :
    region (img.parseBuffer + BitVec.ofNat 16 i) n ⊆ img.parseStores := by
  refine fun x hx => ⟨img.buffer_subset (by omega) hx, fun hlen => ?_⟩
  have hd := region_disjoint (a := img.parseBuffer) (i := i) (n := n)
    (j := 512) (k := 2) h (by omega)
  exact Set.disjoint_left.mp hd hx hlen

/-- A store to one variable. -/
theorem vars_setWord (m : Mem 16 Byte) {i j : Nat} (hi : i < 15)
    (hj : j < 15) (v : Word) :
    img.vars (m.setWord (img.varAt i) v) j
      = if j = i then v else img.vars m j := by
  by_cases h : j = i
  · subst h
    rw [if_pos rfl, vars, Mem.word_setWord]
  · rw [if_neg h, vars, vars,
      Mem.word_setWord_disjoint (img.varAt_disjoint hj hi h)]

end Image

namespace Asm

variable {img : Image} {s₀ : Bot}

-- ==================================================== the invariant

/-- What no routine of the parser changes. -/
structure Frame (img : Image) (s₀ s : Bot) : Prop where
  outside : Set.EqOn s.mem s₀.mem img.parseStoresᶜ
  dx : s.dx = s₀.dx
  stack : s.stack = s₀.stack
  dev : s.dev = s₀.dev

/-- A parse under way: `inp` is still to be read and `out` was copied. -/
structure Stage (img : Image) (s₀ : Bot) (out inp : List Byte) (s : Bot) :
    Prop where
  frame : Frame img s₀ s
  room : s.cx.toNat + out.length = 512
  dest : s.di = img.parseBuffer + BitVec.ofNat 16 out.length
  left : s.bx.toNat = inp.length
  input : s.mem.read s.si inp.length = inp
  apart : Disjoint (region s.si inp.length) img.parseData
  copied : s.mem.read img.parseBuffer out.length = out
  stale : ∀ i, out.length ≤ i → i < 514 →
    s.mem (img.parseBuffer + BitVec.ofNat 16 i)
      = s₀.mem (img.parseBuffer + BitVec.ofNat 16 i)

/-- A copy keeps the variables, and `bp` which walks them. -/
structure Kept (img : Image) (s t : Bot) : Prop where
  bp : t.bp = s.bp
  vars : ∀ i, i < 15 → img.vars t.mem i = img.vars s.mem i

theorem Kept.refl (s : Bot) : Kept img s s := ⟨rfl, fun _ _ => rfl⟩

theorem Kept.trans {s t u : Bot} (h : Kept img s t) (h' : Kept img t u) :
    Kept img s u :=
  ⟨h'.bp.trans h.bp, fun i hi => (h'.vars i hi).trans (h.vars i hi)⟩

/-- A stage does not depend on `ax`, `bp` and the flags. -/
theorem Stage.scratch {out inp : List Byte} {s : Bot}
    (h : Stage img s₀ out inp s) (ax bp : Word) (cf zf : Bool) :
    Stage img s₀ out inp { s with ax := ax, bp := bp, cf := cf, zf := zf } :=
  ⟨⟨h.frame.outside, h.frame.dx, h.frame.stack, h.frame.dev⟩, h.room,
    h.dest, h.left, h.input, h.apart, h.copied, h.stale⟩

theorem Frame.scratch {s : Bot} (h : Frame img s₀ s) (ax bp : Word)
    (cf zf : Bool) :
    Frame img s₀ { s with ax := ax, bp := bp, cf := cf, zf := zf } :=
  ⟨h.outside, h.dx, h.stack, h.dev⟩

theorem Stage.out_le {out inp : List Byte} {s : Bot}
    (h : Stage img s₀ out inp s) : out.length ≤ 512 := by
  have := h.room
  omega

theorem Stage.room_eq {out inp : List Byte} {s : Bot}
    (h : Stage img s₀ out inp s) : s.cx.toNat = 512 - out.length := by
  have := h.room
  omega

theorem Stage.cx_ne_zero {out inp : List Byte} {s : Bot}
    (h : Stage img s₀ out inp s) (hroom : out.length < 512) :
    s.cx ≠ 0 := by
  intro h0
  have hsum := h.room
  rw [h0] at hsum
  exact absurd hsum (by simp; omega)

theorem Stage.ne_nil {out inp : List Byte} {s : Bot}
    (h : Stage img s₀ out inp s) : s.bx = 0 ↔ inp = [] := by
  have hleft := h.left
  constructor
  · intro h0
    rw [h0] at hleft
    exact List.length_eq_zero_iff.mp hleft.symm
  · intro heq
    subst heq
    exact BitVec.eq_of_toNat_eq hleft

/-- A store to a variable shows in nothing a stage says. -/
theorem Stage.setVar {out inp : List Byte} {s : Bot}
    (h : Stage img s₀ out inp s) {i : Nat} (hi : i < 15) (v : Word) :
    Stage img s₀ out inp
      { s with mem := s.mem.setWord (img.varAt i) v } := by
  have hsub := img.varAt_subset hi
  have hout := h.out_le
  have hinp : inp.length ≤ 2 ^ 16 := by
    rw [← h.left]
    exact s.bx.isLt.le
  refine ⟨⟨?_, h.frame.dx, h.frame.stack, h.frame.dev⟩, h.room, h.dest,
    h.left, ?_, h.apart, ?_, ?_⟩
  · intro x hx
    have hx' : x ∉ region (img.varAt i) 2 :=
      fun hm => hx (img.varAt_stores hi hm)
    exact (Mem.setWord_eqOn _ _ _ hx').trans (h.frame.outside hx)
  · refine (Mem.read_write_disjoint hinp ?_).trans h.input
    exact h.apart.mono_right hsub
  · refine (Mem.read_write_disjoint (by omega) ?_).trans h.copied
    have := img.buffer_disjoint_varAt (i := 0) (n := out.length)
      (by omega) hi
    rwa [BitVec.add_zero] at this
  · intro j hj hj'
    refine (Mem.setWord_eqOn _ _ _ fun hm => ?_).trans (h.stale j hj hj')
    have hd := img.buffer_disjoint_varAt (i := j) (n := 1) (by omega) hi
    exact Set.disjoint_left.mp hd (base_mem_region (by omega)) hm

-- ==================================================== success and failure

/-- A routine failed together with its counterpart, or both came to
results that `P` relates. -/
def Outcome {α : Type} (img : Image) (s₀ : Bot) (P : α → Bot → Prop) :
    Option α → Bot → Prop
  | none, t => t.cf = true ∧ Frame img s₀ t
  | some a, t => t.cf = false ∧ P a t

variable {α β : Type} {P : α → Bot → Prop} {Q : β → Bot → Prop}

theorem Outcome.cf {o : Option α} {t : Bot} (h : Outcome img s₀ P o t) :
    t.cf = o.isNone := by
  cases o with
  | none => exact h.1
  | some a => exact h.1

/-- A failed call ends the routine. -/
theorem parseThen_fail {f k : Bot → Bot} {s : Bot}
    (h : (f s).cf = true) : parseThen f k s = f s := by
  rw [parseThen, if_pos h]

/-- A call that did not fail. -/
theorem parseThen_go {f k : Bot → Bot} {s : Bot}
    (h : (f s).cf = false) : parseThen f k s = k (f s) := by
  rw [parseThen, if_neg (by simp [h])]

/-- A call goes together with a `bind`. -/
theorem Outcome.bind {o : Option α} {g : α → Option β} {f k : Bot → Bot}
    {s : Bot} (h : Outcome img s₀ P o (f s))
    (hk : ∀ a, o = some a → P a (f s) → Outcome img s₀ Q (g a) (k (f s))) :
    Outcome img s₀ Q (o.bind g) (parseThen f k s) := by
  cases o with
  | none =>
      rw [parseThen_fail h.1]
      exact h
  | some a =>
      rw [parseThen_go h.1]
      exact hk a rfl h.2

/-- A call in front of code that cannot fail. -/
theorem Outcome.andThen {R : α → Bot → Prop} {o : Option α}
    {f k : Bot → Bot} {s : Bot} (h : Outcome img s₀ P o (f s))
    (hk : ∀ a, P a (f s) → (k (f s)).cf = false ∧ R a (k (f s))) :
    Outcome img s₀ R o (parseThen f k s) := by
  cases o with
  | none =>
      rw [parseThen_fail h.1]
      exact h
  | some a =>
      rw [parseThen_go h.1]
      exact hk a h.2

theorem Outcome.imp {R : α → Bot → Prop} {o : Option α} {t : Bot}
    (h : Outcome img s₀ P o t) (hk : ∀ a t, P a t → R a t) :
    Outcome img s₀ R o t := by
  cases o with
  | none => exact h
  | some a => exact ⟨h.1, hk a t h.2⟩

/-- A call that ends the routine. -/
theorem Outcome.mapTail {o : Option α} {f : α → β} {t : Bot}
    (h : Outcome img s₀ P o t) (hk : ∀ a t, P a t → Q (f a) t) :
    Outcome img s₀ Q (o.map f) t := by
  cases o with
  | none => exact h
  | some a => exact ⟨h.1, hk a t h.2⟩

theorem Stage.fail {out inp : List Byte} {s : Bot}
    (h : Stage img s₀ out inp s) :
    Outcome img s₀ P none { s with cf := true } :=
  ⟨rfl, h.frame.scratch s.ax s.bp true s.zf⟩

-- ==================================================== one character

theorem Stage.head {out inp : List Byte} {b : Byte} {s : Bot}
    (h : Stage img s₀ out (b :: inp) s) : s.bx ≠ 0 ∧ s.mem s.si = b := by
  refine ⟨fun h0 => List.cons_ne_nil _ _ (h.ne_nil.mp h0), ?_⟩
  exact (List.cons.inj h.input).1

theorem pred_toNat {v : Word} {n : Nat} (h : v.toNat = n + 1) :
    (v - 1).toNat = n := by
  bv_omega

/-- Reading moves the input on. -/
theorem Stage.tail {out inp : List Byte} {b : Byte} {s : Bot}
    (h : Stage img s₀ out (b :: inp) s) :
    Stage img s₀ out inp { s with si := s.si + 1, bx := s.bx - 1 } :=
  ⟨⟨h.frame.outside, h.frame.dx, h.frame.stack, h.frame.dev⟩, h.room,
    h.dest, pred_toNat h.left, (List.cons.inj h.input).2,
    h.apart.mono_left (region_succ_subset _ _), h.copied, h.stale⟩

/-- Copying moves the input on and the byte behind what was copied. -/
theorem Stage.copy {out inp : List Byte} {b : Byte} {s : Bot}
    (h : Stage img s₀ out (b :: inp) s) (hroom : out.length < 512) :
    Stage img s₀ (out ++ [b]) inp
        { s with
          mem := Function.update s.mem s.di b
          si := s.si + 1
          di := s.di + 1
          bx := s.bx - 1
          cx := s.cx - 1 }
      ∧ ∀ i, i < 15 →
        img.vars (Function.update s.mem s.di b) i = img.vars s.mem i := by
  have htail := h.tail
  -- the cell written is cell `out.length` of the buffer
  have hcell : s.di ∈ region
      (img.parseBuffer + BitVec.ofNat 16 out.length) 1 := by
    rw [h.dest]
    exact base_mem_region (by omega)
  have hstore : s.di ∈ img.parseStores :=
    img.buffer_stores (by omega) hcell
  have hne : ∀ {x}, x ∉ region
      (img.parseBuffer + BitVec.ofNat 16 out.length) 1 →
      Function.update s.mem s.di b x = s.mem x := by
    intro x hx
    refine Function.update_of_ne ?_ _ _
    intro heq
    subst heq
    exact hx hcell
  have hinp : inp.length ≤ 2 ^ 16 := by
    have := h.left
    have := s.bx.isLt
    rw [List.length_cons] at *
    omega
  refine ⟨⟨⟨?_, h.frame.dx, h.frame.stack, h.frame.dev⟩, ?_, ?_,
    htail.left, ?_, htail.apart, ?_, ?_⟩, ?_⟩
  · intro x hx
    refine (Function.update_of_ne ?_ _ _).trans (h.frame.outside hx)
    intro heq
    subst heq
    exact hx hstore
  · have hcx : s.cx.toNat = (511 - out.length) + 1 := by
      have := h.room
      omega
    have hpred := pred_toNat hcx
    simp only [hpred, List.length_append, List.length_singleton]
    omega
  · rw [h.dest, List.length_append, List.length_singleton,
      BitVec.ofNat_add, ← BitVec.add_assoc]
    rfl
  · refine (Mem.read_congr hinp fun x hx => ?_).trans htail.input
    refine Function.update_of_ne ?_ _ _
    intro heq
    subst heq
    exact Set.disjoint_left.mp htail.apart hx hstore.1
  · rw [List.length_append, List.length_singleton, Mem.read_add]
    have hold : Mem.read (Function.update s.mem s.di b) img.parseBuffer
        out.length = out := by
      refine (Mem.read_congr (by omega) fun x hx => ?_).trans h.copied
      refine hne fun hx' => ?_
      rw [mem_region_add (by omega)] at hx'
      rw [mem_region] at hx
      omega
    simp only [hold, Mem.read, ← h.dest, Function.update_self]
  · intro i hi hi'
    rw [List.length_append, List.length_singleton] at hi
    refine (hne fun hx => ?_).trans (h.stale i (by omega) hi')
    rw [mem_region_add (by omega), off_add (by omega)] at hx
    omega
  · intro i hi
    refine Mem.word_congr fun x hx => hne fun hx' => ?_
    have hd := img.buffer_disjoint_varAt (i := out.length) (n := 1)
      (by omega) hi
    exact Set.disjoint_left.mp hd hx' hx

theorem peek_nil {out : List Byte} {s : Bot}
    (h : Stage img s₀ out [] s) : peek s = { s with cf := true } := by
  rw [peek, if_pos (h.ne_nil.mpr rfl)]

theorem peek_cons {out inp : List Byte} {b : Byte} {s : Bot}
    (h : Stage img s₀ out (b :: inp) s) :
    ∃ t, peek s = t ∧ t.cf = false ∧ t.al = b ∧ t.ah = s.ah
      ∧ Stage img s₀ out (b :: inp) t ∧ Kept img s t := by
  refine ⟨{ s.setAl b with cf := false }, ?_, rfl, Cpu.al_setAl s b,
    Cpu.ah_setAl s b, h.scratch _ _ _ _, rfl, fun _ _ => rfl⟩
  rw [peek, if_neg h.head.1, h.head.2]

theorem read_nil {out : List Byte} {s : Bot}
    (h : Stage img s₀ out [] s) : read s = { s with cf := true } := by
  rw [read, if_pos (h.ne_nil.mpr rfl)]

theorem read_cons {out inp : List Byte} {b : Byte} {s : Bot}
    (h : Stage img s₀ out (b :: inp) s) :
    ∃ t, read s = t ∧ t.cf = false ∧ t.al = b
      ∧ Stage img s₀ out inp t ∧ Kept img s t := by
  refine ⟨{ s.setAl b with si := s.si + 1, bx := s.bx - 1, cf := false },
    ?_, rfl, Cpu.al_setAl s b, h.tail.scratch _ _ _ _, rfl,
    fun _ _ => rfl⟩
  rw [read, if_neg h.head.1, h.head.2]

/-- A copy without room. -/
theorem copy_full {out inp : List Byte} {b : Byte} {s : Bot}
    (h : Stage img s₀ out (b :: inp) s) (hroom : out.length = 512) :
    copy s = { s with cf := true } := by
  have hcx : s.cx = 0 := by
    have hsum := h.room
    exact BitVec.eq_of_toNat_eq (show s.cx.toNat = 0 by omega)
  rw [copy, if_neg h.head.1, if_pos hcx]

theorem copy_cons {out inp : List Byte} {b : Byte} {s : Bot}
    (h : Stage img s₀ out (b :: inp) s) (hroom : out.length < 512) :
    ∃ t, copy s = t ∧ t.cf = false
      ∧ Stage img s₀ (out ++ [b]) inp t ∧ Kept img s t := by
  obtain ⟨hcopied, hvars⟩ := h.copy hroom
  refine ⟨_, rfl, ?_, ?_, ?_⟩ <;>
    rw [copy, if_neg h.head.1, if_neg (h.cx_ne_zero hroom), h.head.2]
  · exact hcopied.scratch _ _ _ _
  · exact ⟨rfl, hvars⟩

/-- `clc` after a call that did not fail. -/
theorem clc {s : Bot} (h : s.cf = false) : { s with cf := false } = s := by
  rw [← h]

-- ==================================================== the loops

/-- `copyWord` and `copyToCR` copy what a scan takes. -/
theorem copyUntil_spec (stop : Byte → Bool) {out inp : List Byte}
    {s : Bot} (h : Stage img s₀ out inp s) :
    Outcome img s₀
      (fun (w, rest) t => Stage img s₀ (out ++ w) rest t ∧ Kept img s t)
      (scan stop (512 - out.length) inp) (copyUntil stop s) := by
  induction inp generalizing out s with
  | nil =>
      rw [copyUntil, peek_nil h, scan_nil]
      exact h.fail
  | cons b inp ih =>
      obtain ⟨t, hpeek, hcf, hal, -, ht, hkept⟩ := peek_cons h
      rw [copyUntil, hpeek]
      simp only [hcf, hal, clc hcf, Bool.false_eq_true, ↓reduceIte]
      cases hb : stop b with
      | true =>
          rw [scan_stop hb, if_pos rfl]
          refine ⟨hcf, ?_, hkept⟩
          rwa [List.append_nil]
      | false =>
          rw [if_neg Bool.false_ne_true]
          rcases Nat.lt_or_ge out.length 512 with hroom | hroom
          · obtain ⟨u, hcopy, hcf', hu, hkept'⟩ := copy_cons ht hroom
            have hroom' : 512 - out.length
                = 512 - (out ++ [b]).length + 1 := by
              rw [List.length_append, List.length_singleton]
              omega
            rw [hcopy, dif_neg (by simp [hcf']), hroom', scan_succ hb]
            refine (ih hu).mapTail ?_
            intro r v hand
            obtain ⟨w, rest⟩ := r
            obtain ⟨hv, hrest⟩ := hand
            rw [List.append_assoc] at hv
            exact ⟨hv, hkept.trans (hkept'.trans hrest)⟩
          · have hfull := h.out_le
            rw [copy_full ht (by omega), dif_pos rfl,
              show 512 - out.length = 0 by omega, scan_full hb]
            exact ht.fail

theorem skipSpace_spec {out inp : List Byte} {s : Bot}
    (h : Stage img s₀ out inp s) :
    Outcome img s₀ (fun rest t => Stage img s₀ out rest t ∧ Kept img s t)
      (skip Irc.notSpace inp) (skipSpace s) := by
  induction inp generalizing s with
  | nil =>
      rw [skipSpace, peek_nil h]
      exact h.fail
  | cons b inp ih =>
      obtain ⟨t, hpeek, hcf, hal, -, ht, hkept⟩ := peek_cons h
      rw [skipSpace, hpeek, skip]
      simp only [hcf, hal, clc hcf, Bool.false_eq_true, ↓reduceIte]
      by_cases hb : b = space
      · obtain ⟨u, hread, hcf', -, hu, hkept'⟩ := read_cons ht
        rw [if_neg (by simp [Irc.notSpace, hb]), if_neg (not_not.mpr hb),
          hread, dif_neg (by simp [hcf'])]
        refine (ih hu).imp ?_
        intro rest v hand
        obtain ⟨hv, hrest⟩ := hand
        exact ⟨hv, hkept.trans (hkept'.trans hrest)⟩
      · rw [if_pos (by simp [Irc.notSpace, hb]), if_pos hb]
        exact ⟨hcf, ht, hkept⟩

-- ==================================================== the fields

theorem parseWordIf_spec {mark : Byte} {out inp : List Byte} {s : Bot}
    (h : Stage img s₀ out inp s) (hmark : s.ah = mark) :
    Outcome img s₀
      (fun (w, rest) t => Stage img s₀ (out ++ w) rest t ∧ Kept img s t)
      (Irc.wordIf mark (512 - out.length) inp) (parseWordIf s) := by
  cases inp with
  | nil =>
      rw [parseWordIf, parseThen_fail (by rw [peek_nil h]), peek_nil h]
      exact h.fail
  | cons b inp =>
      obtain ⟨t, hpeek, hcf, hal, hah, ht, hkept⟩ := peek_cons h
      rw [hmark] at hah
      rw [parseWordIf, parseThen_go (by rw [hpeek, hcf]), hpeek, Irc.wordIf]
      simp only [hal, hah, clc hcf]
      by_cases hb : b = mark
      · obtain ⟨u, hread, hcf', -, hu, hkept'⟩ := read_cons ht
        rw [if_pos hb, if_neg (not_not.mpr hb),
          parseThen_go (by rw [hread, hcf']), hread]
        refine (copyUntil_spec Irc.endsWord hu).bind ?_
        intro r _ hand
        obtain ⟨w, rest⟩ := r
        obtain ⟨hv, hword⟩ := hand
        refine (skipSpace_spec hv).mapTail ?_
        intro rest' x hand
        obtain ⟨hx, hspace⟩ := hand
        exact ⟨hx, hkept.trans (hkept'.trans (hword.trans hspace))⟩
      · rw [if_neg hb, if_pos hb]
        refine ⟨hcf, ?_, hkept⟩
        rwa [List.append_nil]

/-- What storing a word's place and length in a pair of variables leaves:
the pair points at the word, and no other variable changed. -/
structure Stored (img : Image) (i start : Nat) (w : List Byte)
    (s t : Bot) : Prop where
  buf : img.vars t.mem i = img.parseBuffer + BitVec.ofNat 16 start
  len : img.vars t.mem (i + 1) = BitVec.ofNat 16 w.length
  others : ∀ j, j < 15 → j ≠ i → j ≠ i + 1 →
    img.vars t.mem j = img.vars s.mem j

/-- The room used up is the length of what was copied. -/
theorem Stage.used {out w inp rest : List Byte} {s t : Bot}
    (h : Stage img s₀ out inp s) (h' : Stage img s₀ (out ++ w) rest t) :
    s.cx - t.cx = BitVec.ofNat 16 w.length := by
  have hs := h.room
  have ht := h'.room
  rw [List.length_append] at ht
  bv_omega

theorem parseField_spec {i : Nat} (hi : i + 1 < 15) {f : Bot → Bot}
    {o : Option (List Byte × List Byte)} {out inp : List Byte} {s : Bot}
    (h : Stage img s₀ out inp s)
    (hf : ∀ s, Stage img s₀ out inp s → Outcome img s₀
      (fun (w, rest) t => Stage img s₀ (out ++ w) rest t ∧ Kept img s t)
      o (f s)) :
    Outcome img s₀
      (fun (w, rest) t => Stage img s₀ (out ++ w) rest t
        ∧ Stored img i out.length w s t)
      o (parseField (img.varAt i) (img.varAt (i + 1)) f s) := by
  obtain ⟨a, ha⟩ : ∃ a,
      a = setParseBuffer (img.varAt i) (img.varAt (i + 1)) s := ⟨_, rfl⟩
  have hset : Stage img s₀ out inp a := by
    rw [ha]
    exact ((h.setVar (by omega) s.di).setVar hi s.cx).scratch _ _ false _
  have havars : ∀ j, j < 15 → img.vars a.mem j
      = if j = i + 1 then s.cx else if j = i then s.di
        else img.vars s.mem j := by
    intro j hj
    rw [ha, setParseBuffer, img.vars_setWord _ hi hj,
      img.vars_setWord _ (by omega) hj]
  rw [parseField, ← ha]
  refine (hf a hset).andThen ?_
  intro r hand
  obtain ⟨w, rest⟩ := r
  obtain ⟨hb, hkept⟩ := hand
  obtain ⟨b, hfa⟩ : ∃ b, b = f a := ⟨_, rfl⟩
  rw [← hfa] at hb hkept ⊢
  have hvars : ∀ j, j < 15 →
      img.vars (subParseBufferLen (img.varAt (i + 1)) b).mem j
        = if j = i + 1 then a.cx - b.cx else img.vars b.mem j := by
    intro j hj
    have hlen := hkept.vars (i + 1) hi
    rw [havars _ hi, if_pos rfl, Image.vars] at hlen
    rw [subParseBufferLen, img.vars_setWord _ hi hj, hlen, ha]
    rfl
  refine ⟨rfl, (hb.setVar hi _).scratch _ _ false _, ?_, ?_, ?_⟩
  · rw [hvars i (by omega), if_neg (by omega), hkept.vars i (by omega),
      havars i (by omega), if_neg (by omega), if_pos rfl, h.dest]
  · rw [hvars _ hi, if_pos rfl, hset.used hb]
  · intro j hj hne hne'
    rw [hvars j hj, if_neg hne', hkept.vars j hj, havars j hj,
      if_neg hne', if_neg hne]

-- ==================================================== the parameters

/-- `peekCR` where something comes next. -/
theorem peekCR_cons {out inp : List Byte} {b : Byte} {s : Bot}
    (h : Stage img s₀ out (b :: inp) s) :
    ∃ t, peekCR s = t ∧ t.cf = false ∧ t.zf = decide (b = cr)
      ∧ Stage img s₀ out (b :: inp) t ∧ Kept img s t := by
  obtain ⟨t, hpeek, hcf, hal, -, ht, hkept⟩ := peek_cons h
  refine ⟨{ t with zf := decide (b = cr), cf := false }, ?_, rfl, rfl,
    ht.scratch _ _ _ _, hkept.bp, hkept.vars⟩
  rw [peekCR, parseThen_go (by rw [hpeek, hcf]), hpeek, hal]

theorem parseParam_spec {out inp : List Byte} {s : Bot}
    (h : Stage img s₀ out inp s) :
    Outcome img s₀
      (fun (w, rest) t => Stage img s₀ (out ++ w) rest t ∧ Kept img s t)
      (Irc.slot (512 - out.length) inp) (parseParam s) := by
  cases inp with
  | nil =>
      rw [parseParam, parseThen_fail (by rw [peek_nil h]), peek_nil h]
      exact h.fail
  | cons b inp =>
      obtain ⟨t, hpeek, hcf, hal, -, ht, hkept⟩ := peek_cons h
      rw [parseParam, parseThen_go (by rw [hpeek, hcf]), hpeek, Irc.slot]
      simp only [hal, clc hcf]
      by_cases hb : b = colon
      · obtain ⟨u, hread, hcf', -, hu, hkept'⟩ := read_cons ht
        rw [if_pos hb, if_pos hb, parseThen_go (by rw [hread, hcf']), hread]
        refine (copyUntil_spec Irc.isCR hu).imp ?_
        intro r v hand
        obtain ⟨w, rest⟩ := r
        obtain ⟨hv, hrest⟩ := hand
        exact ⟨hv, hkept.trans (hkept'.trans hrest)⟩
      · rw [if_neg hb, if_neg hb]
        refine (copyUntil_spec Irc.endsWord ht).imp ?_
        intro r v hand
        obtain ⟨w, rest⟩ := r
        obtain ⟨hv, hrest⟩ := hand
        exact ⟨hv, hkept.trans hrest⟩

/-- `paramsList` as `parseParams` leaves it: from entry `k` on the
parameters `ps`, copied from `start` on one behind the other. -/
structure Listed (img : Image) (start k : Nat) (ps : List (List Byte))
    (s t : Bot) : Prop where
  count : (img.vars t.mem 14).toNat = k + ps.length
  entry : ∀ j (hj : j < ps.length),
    img.vars t.mem (6 + 2 * (k + j))
        = img.parseBuffer
          + BitVec.ofNat 16 (start + (ps.take j).flatten.length)
      ∧ img.vars t.mem (7 + 2 * (k + j)) = BitVec.ofNat 16 ps[j].length
  others : ∀ j, j < 6 + 2 * k → img.vars t.mem j = img.vars s.mem j

theorem slot_rest {room : Nat} {inp w rest : List Byte}
    (h : Irc.slot room inp = some (w, rest)) : rest ≠ [] := by
  cases inp with
  | nil => cases h
  | cons b inp =>
      rw [Irc.slot] at h
      split at h
      · exact scan_rest h
      · exact scan_rest h

theorem slots_length_le {n room : Nat} {inp rest : List Byte}
    {ps : List (List Byte)}
    (h : Irc.slots n room inp = some (ps, rest)) : ps.length ≤ n := by
  induction n generalizing room inp ps with
  | zero => cases h
  | succ n ih =>
      simp only [Irc.slots, Option.bind_eq_some_iff] at h
      obtain ⟨inp', -, ⟨p, rest'⟩, -, h⟩ := h
      split at h
      · cases h
        simp
      · rw [Option.map_eq_some_iff] at h
        obtain ⟨⟨qs, rest''⟩, hqs, hps⟩ := h
        cases hps
        exact Nat.succ_le_succ (ih hqs)

theorem count_toNat {v : Word} {k : Nat} (hv : v.toNat = k) (hk : k ≤ 3) :
    (v + 1).toNat = k + 1 := by
  bv_omega

/-- Counting an entry in `paramsListLen`. -/
theorem count_succ {v : Word} {k : Nat} (hv : v.toNat = k) (hk : k ≤ 3) :
    (v + 1).slt paramsListMax = decide (k < 3) := by
  have hcases : k = 0 ∨ k = 1 ∨ k = 2 ∨ k = 3 := by omega
  obtain rfl : v = BitVec.ofNat 16 k := by
    rw [← hv, BitVec.ofNat_toNat, BitVec.setWidth_eq]
  rcases hcases with rfl | rfl | rfl | rfl <;> decide

/-- An entry is begun: its place and the room are in it. -/
theorem beginParam_spec {k : Nat} (hk : k < 4) {out inp : List Byte}
    {s : Bot} (h : Stage img s₀ out inp s)
    (hbp : s.bp = img.varAt (6 + 2 * k)) :
    Stage img s₀ out inp (beginParam s)
      ∧ ∀ j, j < 15 → img.vars (beginParam s).mem j
        = if j = 7 + 2 * k then s.cx
          else if j = 6 + 2 * k then s.di
          else img.vars s.mem j := by
  rw [beginParam, hbp, img.varAt_add_two]
  refine ⟨?_, ?_⟩
  · have hset := (h.setVar (i := 6 + 2 * k) (by omega) s.di).setVar
      (i := 6 + 2 * k + 1) (by omega) s.cx
    exact hset.scratch _ _ _ _
  · intro j hj
    rw [img.vars_setWord _ (by omega) hj, img.vars_setWord _ (by omega) hj,
      show 6 + 2 * k + 1 = 7 + 2 * k by omega]

/-- An entry is ended: the room in it becomes the length of the
parameter, and `bp` is the next entry. -/
theorem endParam_spec {k : Nat} (hk : k < 4) {out inp : List Byte}
    {s : Bot} (h : Stage img s₀ out inp s)
    (hbp : s.bp = img.varAt (6 + 2 * k)) :
    Stage img s₀ out inp (endParam s)
      ∧ (endParam s).bp = img.varAt (6 + 2 * (k + 1))
      ∧ ∀ j, j < 15 → img.vars (endParam s).mem j
        = if j = 7 + 2 * k then img.vars s.mem j - s.cx
          else img.vars s.mem j := by
  rw [endParam, hbp, img.varAt_add_two, img.varAt_add_four]
  refine ⟨?_, rfl, ?_⟩
  · have hset := h.setVar (i := 6 + 2 * k + 1) (by omega)
      (s.mem.word (img.varAt (6 + 2 * k + 1)) - s.cx)
    exact hset.scratch _ _ _ _
  · intro j hj
    rw [img.vars_setWord _ (by omega) hj,
      show 6 + 2 * k + 1 = 7 + 2 * k by omega]
    by_cases he : j = 7 + 2 * k
    · subst he
      rw [if_pos rfl, if_pos rfl]
      rfl
    · rw [if_neg he, if_neg he]

/-- One more parameter in front. -/
theorem Listed.cons {start k : Nat} {p : List Byte} {ps : List (List Byte)}
    {s t u : Bot} (h : Listed img (start + p.length) (k + 1) ps t u)
    (hbuf : img.vars t.mem (6 + 2 * k)
      = img.parseBuffer + BitVec.ofNat 16 start)
    (hlen : img.vars t.mem (7 + 2 * k) = BitVec.ofNat 16 p.length)
    (hothers : ∀ j, j < 6 + 2 * k → img.vars t.mem j = img.vars s.mem j) :
    Listed img start k (p :: ps) s u := by
  refine ⟨?_, ?_, ?_⟩
  · rw [h.count, List.length_cons]
    omega
  · intro j hj
    cases j with
    | zero =>
        rw [Nat.add_zero, h.others _ (by omega), h.others _ (by omega)]
        refine ⟨?_, hlen⟩
        rw [hbuf]
        simp
    | succ j =>
        rw [List.length_cons] at hj
        have hentry := h.entry j (by omega)
        rw [show k + 1 + j = k + (j + 1) by omega] at hentry
        rw [List.take_succ_cons, List.flatten_cons, List.length_append,
          ← Nat.add_assoc start, List.getElem_cons_succ]
        exact hentry
  · intro j hj
    rw [h.others j (by omega), hothers j hj]

theorem parseParams_spec {n k : Nat} (hk : k + n = 3)
    {out inp : List Byte} {s : Bot} (h : Stage img s₀ out inp s)
    (hcount : (img.vars s.mem 14).toNat = k)
    (hbp : s.bp = img.varAt (6 + 2 * k)) :
    Outcome img s₀
      (fun (ps, rest) t => Stage img s₀ (out ++ ps.flatten) rest t
        ∧ Listed img out.length k ps s t)
      (Irc.slots n (512 - out.length) inp) (parseParams img (n + 1) s) := by
  induction n generalizing k out inp s with
  | zero =>
      have hslt : (s.mem.word (img.varAt 14) + 1).slt paramsListMax
          = decide (k < 3) := count_succ hcount (by omega)
      rw [parseParams, Irc.slots]
      simp only [img.paramsListLen_eq, hslt]
      rw [if_pos (by simp; omega)]
      exact (h.setVar (i := 14) (by omega) _).fail
  | succ n ih =>
      have hk3 : k < 3 := by omega
      have hslt : (s.mem.word (img.varAt 14) + 1).slt paramsListMax
          = decide (k < 3) := count_succ hcount (by omega)
      rw [parseParams, Irc.slots]
      simp only [img.paramsListLen_eq, hslt]
      rw [if_neg (by simp; omega)]
      -- the entry is counted and begun
      obtain ⟨v, hv⟩ : ∃ v, v = s.mem.word (img.varAt 14) + 1 := ⟨_, rfl⟩
      obtain ⟨a, ha⟩ : ∃ a : Bot,
          a = { s with mem := s.mem.setWord (img.varAt 14) v } := ⟨_, rfl⟩
      have hcounted : Stage img s₀ out inp a := by
        rw [ha]
        exact h.setVar (i := 14) (by omega) _
      have habp : a.bp = img.varAt (6 + 2 * k) := by rw [ha, hbp]
      have havars : ∀ j, j < 15 → img.vars a.mem j
          = if j = 14 then v else img.vars s.mem j := by
        intro j hj
        rw [ha, img.vars_setWord _ (by omega) hj]
      rw [← hv, ← ha]
      obtain ⟨hbegun, hbvars⟩ := beginParam_spec (by omega) hcounted habp
      refine (skipSpace_spec hbegun).bind ?_
      intro inp' _ hand
      obtain ⟨hb, hbkept⟩ := hand
      refine (parseParam_spec hb).bind ?_
      intro r hslot hand
      obtain ⟨w, rest⟩ := r
      obtain ⟨hc, hckept⟩ := hand
      -- the entry is ended
      obtain ⟨c, hc'⟩ : ∃ c, c = parseParam (skipSpace (beginParam a)) :=
        ⟨_, rfl⟩
      have hkept := hbkept.trans hckept
      rw [← hc'] at hc hkept ⊢
      have hcbp : c.bp = img.varAt (6 + 2 * k) := by
        rw [hkept.bp]
        exact habp
      obtain ⟨hd, hdbp, hdvars⟩ := endParam_spec (by omega) hc hcbp
      generalize endParam c = d at hd hdbp hdvars ⊢
      have hvars : ∀ j, j < 15 → img.vars d.mem j
          = if j = 7 + 2 * k then BitVec.ofNat 16 w.length
            else if j = 6 + 2 * k then img.parseBuffer
              + BitVec.ofNat 16 out.length
            else if j = 14 then v
            else img.vars s.mem j := by
        intro j hj
        rw [hdvars j hj, hkept.vars j hj, hbvars j hj]
        by_cases h7 : j = 7 + 2 * k
        · rw [if_pos h7, if_pos h7, if_pos h7, hcounted.used hc]
        · rw [if_neg h7, if_neg h7, if_neg h7, havars j hj, hcounted.dest]
      -- CR ends the list, anything else is in front of the next entry
      cases rest with
      | nil => exact absurd rfl (slot_rest hslot)
      | cons x rest =>
          obtain ⟨e, hpeek, hcf, hzf, he, hekept⟩ := peekCR_cons hd
          have hevars : ∀ j, j < 15 → img.vars e.mem j
              = if j = 7 + 2 * k then BitVec.ofNat 16 w.length
                else if j = 6 + 2 * k then img.parseBuffer
                  + BitVec.ofNat 16 out.length
                else if j = 14 then v
                else img.vars s.mem j := by
            intro j hj
            rw [hekept.vars j hj, hvars j hj]
          have hbuf : img.vars e.mem (6 + 2 * k)
              = img.parseBuffer + BitVec.ofNat 16 out.length := by
            rw [hevars _ (by omega), if_neg (by omega), if_pos rfl]
          have hlen : img.vars e.mem (7 + 2 * k)
              = BitVec.ofNat 16 w.length := by
            rw [hevars _ (by omega), if_pos rfl]
          have hothers : ∀ j, j < 6 + 2 * k →
              img.vars e.mem j = img.vars s.mem j := by
            intro j hj
            rw [hevars j (by omega), if_neg (by omega), if_neg (by omega),
              if_neg (by omega)]
          have hecount : (img.vars e.mem 14).toNat = k + 1 := by
            rw [hevars 14 (by omega), if_neg (by omega), if_neg (by omega),
              if_pos rfl, hv]
            exact count_toNat hcount (by omega)
          rw [parseThen_go (by rw [hpeek, hcf]), hpeek]
          simp only [List.head?_cons, Option.some.injEq, hzf,
            decide_eq_true_eq]
          by_cases hx : x = cr
          · rw [if_pos hx, if_pos hx]
            refine ⟨hcf, ?_, hecount, ?_, hothers⟩
            · simpa using he
            · intro j hj
              obtain rfl : j = 0 := by simpa using hj
              simpa using ⟨hbuf, hlen⟩
          · rw [if_neg hx, if_neg hx]
            have hlast := ih (by omega) he hecount (hekept.bp.trans hdbp)
            rw [List.length_append, ← Nat.sub_sub] at hlast
            refine hlast.mapTail ?_
            intro r u hand
            obtain ⟨ps, rest'⟩ := r
            obtain ⟨hu, hlisted⟩ := hand
            refine ⟨?_, hlisted.cons hbuf hlen hothers⟩
            rwa [List.append_assoc] at hu

-- ==================================================== the message

theorem parseCRLF_spec {out inp : List Byte} {s : Bot}
    (h : Stage img s₀ out inp s) :
    Outcome img s₀
      (fun rest t => Stage img s₀ out rest t ∧ Kept img s t)
      (Irc.lineEnd inp) (parseCRLF s) := by
  have hfail : ∀ t, Frame img s₀ t →
      Outcome img s₀ (fun rest t => Stage img s₀ out rest t ∧ Kept img s t)
        none { t with cf := true } :=
    fun t ht => ⟨rfl, ht.scratch t.ax t.bp true t.zf⟩
  cases inp with
  | nil =>
      rw [parseCRLF, read_nil h]
      exact hfail s h.frame
  | cons b inp =>
      obtain ⟨t, hread, hcf, hal, ht, hkept⟩ := read_cons h
      rw [parseCRLF, hread]
      simp only [hcf, hal, Bool.false_eq_true, ↓reduceIte]
      by_cases hb : b = cr
      · rw [if_neg (not_not.mpr hb)]
        cases inp with
        | nil =>
            rw [read_nil ht]
            exact hfail t ht.frame
        | cons c inp =>
            obtain ⟨u, hread', hcf', hal', hu, hkept'⟩ := read_cons ht
            rw [hread', Irc.lineEnd]
            simp only [hcf', hal', Bool.false_eq_true, ↓reduceIte]
            by_cases hc : c = lf
            · rw [if_pos ⟨hb, hc⟩, if_neg (not_not.mpr hc), clc hcf']
              exact ⟨hcf', hu, hkept.trans hkept'⟩
            · rw [if_neg fun hbc => hc hbc.2, if_pos hc]
              exact hfail u hu.frame
      · rw [if_pos hb]
        cases inp with
        | nil => exact hfail t ht.frame
        | cons c inp =>
            rw [Irc.lineEnd, if_neg fun hbc => hb hbc.1]
            exact hfail t ht.frame

/-- What an accepted line leaves in `parse.nas`'s data: its parts packed
into `parseBuffer`, the variables pointing at them, and behind them what
was there before. -/
structure Parsed (img : Image) (msg : Irc.Msg) (m₀ m : Mem 16 Byte) :
    Prop where
  fits : msg.bytes.length ≤ 512
  few : msg.params.length < Irc.slotMax
  copied : m.read img.parseBuffer msg.bytes.length = msg.bytes
  stale : ∀ i, msg.bytes.length ≤ i → i < 514 →
    m (img.parseBuffer + BitVec.ofNat 16 i)
      = m₀ (img.parseBuffer + BitVec.ofNat 16 i)
  tags : img.vars m 0 = img.parseBuffer
  tagsLen : img.vars m 1 = BitVec.ofNat 16 msg.tags.length
  pfx : img.vars m 2
    = img.parseBuffer + BitVec.ofNat 16 msg.tags.length
  pfxLen : img.vars m 3 = BitVec.ofNat 16 msg.pfx.length
  cmd : img.vars m 4
    = img.parseBuffer + BitVec.ofNat 16 (msg.tags ++ msg.pfx).length
  cmdLen : img.vars m 5 = BitVec.ofNat 16 msg.cmd.length
  count : (img.vars m 14).toNat = msg.params.length
  entry : ∀ j (hj : j < msg.params.length),
    img.vars m (6 + 2 * j)
        = img.parseBuffer + BitVec.ofNat 16 (msg.before j).length
      ∧ img.vars m (7 + 2 * j) = BitVec.ofNat 16 msg.params[j].length

theorem Stage.setAh {out inp : List Byte} {s : Bot}
    (h : Stage img s₀ out inp s) (b : Byte) :
    Stage img s₀ out inp (s.setAh b) :=
  h.scratch (mkWord b s.al) s.bp s.cf s.zf

/-- A marked word copied to a field of its own. -/
theorem parseMarked_spec (mark : Byte) {i : Nat} (hi : i + 1 < 15)
    {out inp : List Byte} {s : Bot} (h : Stage img s₀ out inp s) :
    Outcome img s₀
      (fun (w, rest) t => Stage img s₀ (out ++ w) rest t
        ∧ Stored img i out.length w s t)
      (Irc.wordIf mark (512 - out.length) inp)
      (parseField (img.varAt i) (img.varAt (i + 1))
        (fun s => parseWordIf (s.setAh mark)) s) := by
  refine parseField_spec hi h fun s hs => ?_
  have hword := parseWordIf_spec (hs.setAh mark) (Cpu.ah_setAh s mark)
  refine hword.imp ?_
  intro r t hand
  obtain ⟨w, rest⟩ := r
  obtain ⟨ht, hkept⟩ := hand
  exact ⟨ht, hkept.bp, hkept.vars⟩

theorem parseTags_spec {inp : List Byte} {s : Bot}
    (h : Stage img s₀ [] inp s) :
    Outcome img s₀
      (fun (w, rest) t => Stage img s₀ w rest t ∧ Stored img 0 0 w s t)
      (Irc.wordIf atSign 512 inp) (parseTags img s) := by
  rw [parseTags, img.tagsBuffer_eq, img.tagsBufferLen_eq]
  exact parseMarked_spec atSign (i := 0) (by omega) h

theorem parsePrefix_spec {out inp : List Byte} {s : Bot}
    (h : Stage img s₀ out inp s) :
    Outcome img s₀
      (fun (w, rest) t => Stage img s₀ (out ++ w) rest t
        ∧ Stored img 2 out.length w s t)
      (Irc.wordIf colon (512 - out.length) inp) (parsePrefix img s) := by
  rw [parsePrefix, img.prefixBuffer_eq, img.prefixBufferLen_eq]
  exact parseMarked_spec colon (i := 2) (by omega) h

theorem parseCmd_spec {out inp : List Byte} {s : Bot}
    (h : Stage img s₀ out inp s) :
    Outcome img s₀
      (fun (w, rest) t => Stage img s₀ (out ++ w) rest t
        ∧ Stored img 4 out.length w s t)
      (scan Irc.endsWord (512 - out.length) inp) (parseCmd img s) := by
  rw [parseCmd, img.cmdBuffer_eq, img.cmdBufferLen_eq]
  exact parseField_spec (i := 4) (by omega) h fun s hs =>
    copyUntil_spec Irc.endsWord hs

theorem parseMessage_spec {inp : List Byte} {s : Bot}
    (h : Stage img s₀ [] inp s) :
    Outcome img s₀
      (fun (msg, rest) t => Stage img s₀ msg.bytes rest t
        ∧ Parsed img msg s₀.mem t.mem)
      (Irc.message 512 inp) (parseMessage img s) := by
  rw [parseMessage, Irc.message]
  refine (parseTags_spec h).bind ?_
  intro r _ hand
  obtain ⟨tags, inp⟩ := r
  obtain ⟨ha, hatags⟩ := hand
  generalize parseTags img s = a at ha hatags ⊢
  refine (parsePrefix_spec ha).bind ?_
  intro r _ hand
  obtain ⟨pfx, inp⟩ := r
  obtain ⟨hb, hbpfx⟩ := hand
  generalize parsePrefix img a = b at hb hbpfx ⊢
  have hcmd := parseCmd_spec hb
  rw [List.length_append, ← Nat.sub_sub] at hcmd
  refine hcmd.bind ?_
  intro r _ hand
  obtain ⟨cmd, inp⟩ := r
  obtain ⟨hc, hccmd⟩ := hand
  generalize parseCmd img b = c at hc hccmd ⊢
  -- the list starts empty
  rw [img.paramsList_eq, img.paramsListLen_eq,
    show paramsListMax.toNat = 3 + 1 from rfl]
  obtain ⟨d, hd⟩ : ∃ d : Bot, d = { c with
    bp := img.varAt 6
    mem := c.mem.setWord (img.varAt 14) 0 } := ⟨_, rfl⟩
  have hdstage : Stage img s₀ (tags ++ pfx ++ cmd) inp d := by
    rw [hd]
    exact (hc.setVar (i := 14) (by omega) 0).scratch _ _ _ _
  have hdvars : ∀ j, j < 15 → img.vars d.mem j
      = if j = 14 then 0 else img.vars c.mem j := by
    intro j hj
    rw [hd, img.vars_setWord _ (by omega) hj]
  rw [← hd]
  have hparams := parseParams_spec (n := 3) (k := 0) (by omega) hdstage
    (by rw [hdvars 14 (by omega), if_pos rfl]; rfl) (by rw [hd])
  rw [List.length_append, List.length_append, ← Nat.sub_sub,
    ← Nat.sub_sub] at hparams
  refine hparams.bind ?_
  intro r hslots hand
  obtain ⟨ps, inp⟩ := r
  obtain ⟨he, helisted⟩ := hand
  generalize parseParams img (3 + 1) d = e at he helisted ⊢
  refine (parseCRLF_spec he).mapTail ?_
  intro rest t hand
  obtain ⟨ht, htkept⟩ := hand
  -- each variable was last stored to in its own part
  have hvars : ∀ j, j < 6 → img.vars t.mem j = img.vars c.mem j := by
    intro j hj
    rw [htkept.vars j (by omega), helisted.others j (by omega),
      hdvars j (by omega), if_neg (by omega)]
  have hfields : ∀ j, j < 4 → img.vars c.mem j = img.vars b.mem j :=
    fun j hj => hccmd.others j (by omega) (by omega) (by omega)
  have htagvars : ∀ j, j < 2 → img.vars b.mem j = img.vars a.mem j :=
    fun j hj => hbpfx.others j (by omega) (by omega) (by omega)
  refine ⟨ht, ⟨ht.out_le, Nat.lt_succ_of_le (slots_length_le hslots),
    ht.copied, ht.stale, ?_, ?_, ?_, ?_, ?_, ?_, ?_, ?_⟩⟩
  · rw [hvars 0 (by omega), hfields 0 (by omega), htagvars 0 (by omega),
      hatags.buf, BitVec.add_zero]
  · rw [hvars 1 (by omega), hfields 1 (by omega), htagvars 1 (by omega)]
    exact hatags.len
  · rw [hvars 2 (by omega), hfields 2 (by omega), hbpfx.buf]
  · rw [hvars 3 (by omega), hfields 3 (by omega)]
    exact hbpfx.len
  · rw [hvars 4 (by omega), hccmd.buf, ← List.length_append]
  · rw [hvars 5 (by omega)]
    exact hccmd.len
  · rw [htkept.vars 14 (by omega), helisted.count, Nat.zero_add]
  · intro j hj
    change j < ps.length at hj
    have hcount : ps.length ≤ 3 := slots_length_le hslots
    have hentry := helisted.entry j hj
    rw [Nat.zero_add] at hentry
    rw [htkept.vars _ (by omega), htkept.vars _ (by omega)]
    simpa only [Irc.Msg.before, List.length_append] using hentry

/-- What `doParse` gives back as it was. -/
structure Saved (img : Image) (s t : Bot) : Prop where
  ax : t.ax = s.ax
  bx : t.bx = s.bx
  dx : t.dx = s.dx
  di : t.di = s.di
  bp : t.bp = s.bp
  stack : t.stack = s.stack
  dev : t.dev = s.dev
  outside : Set.EqOn t.mem s.mem img.parseStoresᶜ

/-- The pops undo the pushes, whatever a frame changed in between. -/
theorem doParseReturn_saved {s a t : Bot} (hframe : Frame img a t)
    (hmem : a.mem = s.mem) (hdx : a.dx = s.dx) (hdev : a.dev = s.dev)
    (hstack : a.stack = s.bp :: s.di :: s.bx :: s.ax :: s.stack) :
    Saved img s (doParseReturn t) := by
  have htstack := hframe.stack.trans hstack
  have houtside := hframe.outside
  rw [hmem] at houtside
  refine ⟨?_, ?_, hframe.dx.trans hdx, ?_, ?_, ?_, hframe.dev.trans hdev,
    houtside⟩ <;>
    simp [doParseReturn, Cpu.pop, Cpu.top, htstack]

/-- The argument of a call: `inp` at `si`, `cx`, and clear of
`parse.nas`'s data, which the parse overwrites. -/
structure Given (img : Image) (inp : List Byte) (s : Bot) : Prop where
  len : s.cx.toNat = inp.length
  input : s.mem.read s.si inp.length = inp
  apart : Disjoint (region s.si inp.length) img.parseData

/-- The processor as `doParse` calls `parseMessage`. -/
def parseCall (img : Image) (s : Bot) : Bot := { s with
  bx := s.cx
  cx := parseBufferLenMax
  di := img.parseBuffer
  stack := s.bp :: s.di :: s.bx :: s.ax :: s.stack }

variable (img) in
theorem doParse_eq (s : Bot) : doParse img s
    = doParseReturn (parseThen (parseMessage img)
      (fun t => { t with cf := decide (t.bx ≠ 0) }) (parseCall img s)) := by
  rw [parseCall]
  rfl

/-- The parse begins with nothing copied. -/
theorem Given.stage {inp : List Byte} {s : Bot} (h : Given img inp s) :
    Stage img (parseCall img s) [] inp (parseCall img s) :=
  ⟨⟨fun _ _ => rfl, rfl, rfl, rfl⟩, rfl, (BitVec.add_zero _).symm,
    h.len, h.input, h.apart, rfl, fun _ _ _ => rfl⟩

/-- `doParse` agrees with the parse of the line it is given: `cf` says
whether there is one, and if there is, it is in memory. -/
theorem doParse_spec {inp : List Byte} {s : Bot}
    (h : Given img inp s) :
    (doParse img s).cf = (Irc.parse 512 inp).isNone
      ∧ (∀ msg, Irc.parse 512 inp = some msg →
        Parsed img msg s.mem (doParse img s).mem)
      ∧ Saved img s (doParse img s) := by
  have hstage := h.stage
  obtain ⟨a, ha⟩ : ∃ a, a = parseCall img s := ⟨_, rfl⟩
  rw [← ha] at hstage
  have hsaved : ∀ t, Frame img a t → Saved img s (doParseReturn t) := by
    intro t ht
    refine doParseReturn_saved ht ?_ ?_ ?_ ?_ <;> rw [ha, parseCall]
  have hmem : a.mem = s.mem := by rw [ha, parseCall]
  rw [doParse_eq, ← ha, Irc.parse]
  rcases hmsg : Irc.message 512 inp with _ | ⟨msg, rest⟩
  · -- no message
    have hout := parseMessage_spec hstage
    rw [hmsg] at hout
    rw [parseThen_fail hout.1]
    refine ⟨hout.1, ?_, hsaved _ hout.2⟩
    intro msg hnone
    cases hnone
  · have hout := parseMessage_spec hstage
    rw [hmsg] at hout
    obtain ⟨hcf, hstage', hparsed⟩ := hout
    rw [parseThen_go hcf]
    generalize parseMessage img a = t at hstage' hparsed ⊢
    rw [hmem] at hparsed
    have hbx : decide (t.bx ≠ 0) = !decide (rest = []) := by
      rw [decide_not, decide_eq_decide.mpr hstage'.ne_nil]
    refine ⟨?_, ?_, hsaved _ (hstage'.frame.scratch _ _ _ _)⟩
    · change decide (t.bx ≠ 0) = _
      rw [hbx]
      by_cases hrest : rest = [] <;> simp [hrest]
    · intro msg' hsome
      change (if rest = [] then some msg else none) = some msg' at hsome
      by_cases hrest : rest = []
      · rw [if_pos hrest] at hsome
        cases hsome
        exact hparsed
      · rw [if_neg hrest] at hsome
        cases hsome

end Asm

end Pdtb
