/-
Two runs side by side. `Twin A` relates processors that differ only in
what memory holds outside `A`, in `zf`, and in the file of credentials
behind DOS. A routine that reads memory in `A` only takes twins to
twins: what it writes is the same bytes at the same places, and its
branches, its registers and its log are the same.

For the parser this goes routine by routine (`Level`), since no closed
form says what a failed parse leaves in memory. Everything else follows
from the closed forms of the routines.
-/
import Pdtb.Proofs.Session

namespace Pdtb.Asm

open Lib Dos Irc

variable {img : Image} {A B I : Set Word} {s s' : Bot} {p : Word}
  {inp : List Byte} {st : BotState} {msg : Msg} {m₀ : Mem 16 Byte}

-- ==================================================== writing the same

/-- The same bytes at the same place keep memories alike. -/
theorem eqOn_write {m m' : Mem 16 Byte} (h : Set.EqOn m m' A) (a : Word)
    (bs : List Byte) : Set.EqOn (m.write a bs) (m'.write a bs) A :=
  fun _ hx => Mem.write_congr a bs (h hx)

/-- And make them alike there. -/
theorem eqOn_write_union {m m' : Mem 16 Byte} (h : Set.EqOn m m' A)
    (a : Word) {bs : List Byte} (hlen : bs.length ≤ 2 ^ 16) :
    Set.EqOn (m.write a bs) (m'.write a bs) (A ∪ region a bs.length) := by
  intro x hor
  rcases hor with hx | hx
  · exact eqOn_write h a bs hx
  · have hcell := Mem.write_getElem (m := m) (a := a) hlen hx
    have hcell' := Mem.write_getElem (m := m') (a := a) hlen hx
    rw [add_off] at hcell hcell'
    exact hcell.trans hcell'.symm

theorem eqOn_setWord {m m' : Mem 16 Byte} (h : Set.EqOn m m' A)
    (a v : Word) : Set.EqOn (m.setWord a v) (m'.setWord a v) A :=
  eqOn_write h a (wordBytes v)

-- ==================================================== twins

/-- Processors that differ in what memory holds outside `A`, in `zf` and
in the file of credentials, at most. -/
def Twin (A : Set Word) (s s' : Bot) : Prop :=
  ∃ m z f, s' = { s with
      mem := m, zf := z, dev := { s.dev with authRead := f } }
    ∧ Set.EqOn m s.mem A

namespace Twin

theorem mono (h : Twin A s s') (hB : B ⊆ A) : Twin B s s' := by
  obtain ⟨m, z, f, rfl, hm⟩ := h
  exact ⟨m, z, f, rfl, hm.mono hB⟩

theorem eqOn (h : Twin A s s') : Set.EqOn s'.mem s.mem A := by
  obtain ⟨m, z, f, rfl, hm⟩ := h
  exact hm

theorem cf (h : Twin A s s') : s'.cf = s.cf := by
  obtain ⟨m, z, f, rfl, -⟩ := h
  rfl

theorem ax (h : Twin A s s') : s'.ax = s.ax := by
  obtain ⟨m, z, f, rfl, -⟩ := h
  rfl

theorem cx (h : Twin A s s') : s'.cx = s.cx := by
  obtain ⟨m, z, f, rfl, -⟩ := h
  rfl

theorem si (h : Twin A s s') : s'.si = s.si := by
  obtain ⟨m, z, f, rfl, -⟩ := h
  rfl

theorem written (h : Twin A s s') : s'.dev.written = s.dev.written := by
  obtain ⟨m, z, f, rfl, -⟩ := h
  rfl

end Twin

-- ==================================================== the parser

/-- Twins with input in `I` left to parse, and `bp` where it was. -/
structure Reading (I A : Set Word) (p : Word) (s s' : Bot) : Prop where
  twin : Twin A s s'
  input : region s.si s.bx.toNat ⊆ I
  known : I ⊆ A
  bp : s.bp = p

/-- The routine takes twins with input to such. -/
def Level (I A : Set Word) (p : Word) (f : Bot → Bot) : Prop :=
  ∀ s s', Reading I A p s s' → Reading I A p (f s) (f s')

/-- The next character is the same. -/
theorem Reading.char {m : Mem 16 Byte} (hm : Set.EqOn m s.mem A)
    (hin : region s.si s.bx.toNat ⊆ I)
    (hI : I ⊆ A) (hbx : s.bx ≠ 0) :
    m s.si = s.mem s.si := by
  have hpos : 0 < s.bx.toNat := Nat.pos_of_ne_zero fun h0 =>
    hbx (BitVec.eq_of_toNat_eq h0)
  exact hm (hI (hin (base_mem_region hpos)))

/-- What is left behind it. -/
theorem input_next {a n : Word} (hin : region a n.toNat ⊆ I)
    (hn : n ≠ 0) : region (a + 1) (n - 1).toNat ⊆ I := by
  have hpos : 0 < n.toNat := Nat.pos_of_ne_zero fun h0 =>
    hn (BitVec.eq_of_toNat_eq h0)
  have hone : (1 : Word).toNat = 1 := rfl
  have hpred : n.toNat = (n - 1).toNat + 1 := by
    rw [BitVec.toNat_sub]
    have := n.isLt
    omega
  rw [hpred] at hin
  exact (region_succ_subset a _).trans hin

theorem peek_level : Level I A p peek := by
  intro s _ h
  obtain ⟨⟨m, z, f, rfl, hm⟩, hin, hI, hbp⟩ := h
  unfold peek
  dsimp only
  split
  · exact ⟨⟨m, z, f, rfl, hm⟩, hin, hI, hbp⟩
  · next hbx =>
      rw [Reading.char hm hin hI hbx]
      exact ⟨⟨m, z, f, rfl, hm⟩, hin, hI, hbp⟩

theorem read_level : Level I A p read := by
  intro s _ h
  obtain ⟨⟨m, z, f, rfl, hm⟩, hin, hI, hbp⟩ := h
  unfold read
  dsimp only
  split
  · exact ⟨⟨m, z, f, rfl, hm⟩, hin, hI, hbp⟩
  · next hbx =>
      rw [Reading.char hm hin hI hbx]
      exact ⟨⟨m, z, f, rfl, hm⟩, input_next hin hbx, hI, hbp⟩

theorem copy_level : Level I A p copy := by
  intro s _ h
  obtain ⟨⟨m, z, f, rfl, hm⟩, hin, hI, hbp⟩ := h
  unfold copy
  dsimp only
  split
  · exact ⟨⟨m, z, f, rfl, hm⟩, hin, hI, hbp⟩
  · next hbx =>
      split
      · exact ⟨⟨m, z, f, rfl, hm⟩, hin, hI, hbp⟩
      · rw [Reading.char hm hin hI hbx]
        exact ⟨⟨_, z, f, rfl, eqOn_write hm s.di [s.mem s.si]⟩,
          input_next hin hbx, hI, hbp⟩

/-- Flags are set the same. -/
theorem Reading.setCf (h : Reading I A p s s') (c : Bool) :
    Reading I A p { s with cf := c } { s' with cf := c } := by
  obtain ⟨⟨m, z, f, rfl, hm⟩, hin, hI, hbp⟩ := h
  exact ⟨⟨m, z, f, rfl, hm⟩, hin, hI, hbp⟩

theorem Reading.al (h : Reading I A p s s') : s'.al = s.al := by
  rw [Cpu.al, Cpu.al, h.twin.ax]

theorem Reading.mono (h : Reading I B p s s') (hA : A ⊆ B) (hI : I ⊆ A) :
    Reading I A p s s' :=
  ⟨h.twin.mono hA, h.input, hI, h.bp⟩

/-- A call and the code behind it, where both runs go the same way. -/
theorem parseThen_alike {P : Bot → Bot → Prop} {f g : Bot → Bot}
    (hcf : (f s').cf = (f s).cf) (hf : P (f s) (f s'))
    (hg : P (g (f s)) (g (f s'))) :
    P (parseThen f g s) (parseThen f g s') := by
  unfold parseThen
  simp only [hcf]
  split
  · exact hf
  · exact hg

theorem parseThen_level {f g : Bot → Bot} (hf : Level I A p f)
    (hg : Level I A p g) : Level I A p (parseThen f g) := by
  intro s s' h
  have hfst := hf s s' h
  exact parseThen_alike hfst.twin.cf hfst (hg _ _ hfst)

theorem copyUntil_level (stop : Byte → Bool) :
    Level I A p (copyUntil stop) := by
  intro s s' h
  induction s using copyUntil.induct stop generalizing s' with
  | case1 s t hcf =>
      have hpeek := peek_level s s' h
      rw [copyUntil, if_pos hcf, copyUntil, if_pos (hpeek.twin.cf.trans hcf)]
      exact hpeek
  | case2 s t hcf hstop =>
      have hpeek := peek_level s s' h
      have hcf' := hcf
      have hstop' := hstop
      rw [← hpeek.twin.cf] at hcf'
      rw [← hpeek.al] at hstop'
      rw [copyUntil, if_neg hcf, if_pos hstop, copyUntil, if_neg hcf',
        if_pos hstop']
      exact hpeek.setCf false
  | case3 s t hcf hstop u hfull =>
      have hpeek := peek_level s s' h
      have hcopy := copy_level _ _ hpeek
      have hcf' := hcf
      have hstop' := hstop
      rw [← hpeek.twin.cf] at hcf'
      rw [← hpeek.al] at hstop'
      rw [copyUntil, if_neg hcf, if_neg hstop, dif_pos hfull, copyUntil,
        if_neg hcf', if_neg hstop', dif_pos (hcopy.twin.cf.trans hfull)]
      exact hcopy
  | case4 s t hcf hstop u hfull ih =>
      have hpeek := peek_level s s' h
      have hcopy := copy_level _ _ hpeek
      have hcf' := hcf
      have hstop' := hstop
      have hfull' := hfull
      rw [← hpeek.twin.cf] at hcf'
      rw [← hpeek.al] at hstop'
      rw [← hcopy.twin.cf] at hfull'
      have hgo : copyUntil stop s = copyUntil stop (copy (peek s)) := by
        rw [copyUntil, if_neg hcf, if_neg hstop, dif_neg hfull]
      have hgo' : copyUntil stop s' = copyUntil stop (copy (peek s')) := by
        rw [copyUntil, if_neg hcf', if_neg hstop', dif_neg hfull']
      rw [hgo, hgo']
      exact ih _ hcopy

theorem skipSpace_level : Level I A p skipSpace := by
  intro s s' h
  induction s using skipSpace.induct generalizing s' with
  | case1 s t hcf =>
      have hpeek := peek_level s s' h
      rw [skipSpace, if_pos hcf, skipSpace, if_pos (hpeek.twin.cf.trans hcf)]
      exact hpeek
  | case2 s t hcf hstop =>
      have hpeek := peek_level s s' h
      have hcf' := hcf
      have hstop' := hstop
      rw [← hpeek.twin.cf] at hcf'
      rw [← hpeek.al] at hstop'
      rw [skipSpace, if_neg hcf, if_pos hstop, skipSpace, if_neg hcf',
        if_pos hstop']
      exact hpeek.setCf false
  | case3 s t hcf hstop u hfail =>
      have hpeek := peek_level s s' h
      have hread := read_level _ _ (hpeek.setCf false)
      have hcf' := hcf
      have hstop' := hstop
      rw [← hpeek.twin.cf] at hcf'
      rw [← hpeek.al] at hstop'
      rw [skipSpace, if_neg hcf, if_neg hstop, dif_pos hfail, skipSpace,
        if_neg hcf', if_neg hstop', dif_pos (hread.twin.cf.trans hfail)]
      exact hread
  | case4 s t hcf hstop u hfail ih =>
      have hpeek := peek_level s s' h
      have hread := read_level _ _ (hpeek.setCf false)
      have hcf' := hcf
      have hstop' := hstop
      have hfail' := hfail
      rw [← hpeek.twin.cf] at hcf'
      rw [← hpeek.al] at hstop'
      rw [← hread.twin.cf] at hfail'
      have hgo : skipSpace s
          = skipSpace (read { peek s with cf := false }) := by
        rw [skipSpace, if_neg hcf, if_neg hstop, dif_neg hfail]
      have hgo' : skipSpace s'
          = skipSpace (read { peek s' with cf := false }) := by
        rw [skipSpace, if_neg hcf', if_neg hstop', dif_neg hfail']
      rw [hgo, hgo']
      exact ih _ hread

theorem parseWordIf_level : Level I A p parseWordIf := by
  refine parseThen_level peek_level fun s s' h => ?_
  have hah : s'.ah = s.ah := by rw [Cpu.ah, Cpu.ah, h.twin.ax]
  have hcf := h.setCf false
  simp only [h.al, hah]
  split
  · exact hcf
  · exact parseThen_level read_level
      (parseThen_level (copyUntil_level _) skipSpace_level) _ _ hcf

theorem parseParam_level : Level I A p parseParam := by
  refine parseThen_level peek_level fun s s' h => ?_
  have hcf := h.setCf false
  simp only [h.al]
  split
  · exact parseThen_level read_level (copyUntil_level _) _ _ hcf
  · exact copyUntil_level _ _ _ hcf

theorem parseCRLF_level : Level I A p parseCRLF := by
  intro s s' h
  have hfst := read_level _ _ h
  have hsnd := read_level _ _ hfst
  unfold parseCRLF
  simp only [hfst.twin.cf, hfst.al, hsnd.twin.cf, hsnd.al]
  split
  · exact hfst.setCf true
  · split
    · exact hfst.setCf true
    · split
      · exact hsnd.setCf true
      · split
        · exact hsnd.setCf true
        · exact hsnd.setCf false

/-- A CR is seen by both, or by neither. -/
theorem peekCR_level (h : Reading I A p s s') :
    Reading I A p (peekCR s) (peekCR s')
      ∧ ((peekCR s).cf = false → (peekCR s').zf = (peekCR s).zf) := by
  have hpeek := peek_level _ _ h
  unfold peekCR parseThen
  generalize peek s = t at hpeek ⊢
  generalize peek s' = t' at hpeek ⊢
  simp only [hpeek.twin.cf, hpeek.al]
  split
  · next hcf =>
      refine ⟨hpeek, fun hno => ?_⟩
      rw [hcf] at hno
      cases hno
  · obtain ⟨⟨m, z, f, rfl, hm⟩, hin, hI, hbp⟩ := hpeek
    exact ⟨⟨⟨m, _, f, rfl, hm⟩, hin, hI, hbp⟩, fun _ => rfl⟩

/-- The variables are stored the same. -/
theorem Reading.store (h : Reading I A p s s') (a v : Word) :
    Reading I A p { s with mem := s.mem.setWord a v }
      { s' with mem := s'.mem.setWord a v } := by
  obtain ⟨⟨m, z, f, rfl, hm⟩, hin, hI, hbp⟩ := h
  exact ⟨⟨_, z, f, rfl, eqOn_setWord hm a v⟩, hin, hI, hbp⟩

theorem Reading.word (h : Reading I A p s s') {a : Word}
    (ha : region a 2 ⊆ A) : s'.mem.word a = s.mem.word a :=
  Mem.word_congr (h.twin.eqOn.mono ha)

theorem parseField_level {buf len : Word} {f : Bot → Bot}
    (hlen : region len 2 ⊆ A) (hf : Level I A p f) :
    Level I A p (parseField buf len f) := by
  intro s s' h
  have hset : Reading I A p (setParseBuffer buf len s)
      (setParseBuffer buf len s') := by
    obtain ⟨⟨m, z, f, rfl, hm⟩, hin, hI, hbp⟩ := h
    exact ⟨⟨_, z, f, rfl, eqOn_setWord (eqOn_setWord hm buf s.di) len s.cx⟩,
      hin, hI, hbp⟩
  refine parseThen_level hf (fun t t' ht => ?_) _ _ hset
  have hword := ht.word hlen
  obtain ⟨⟨m, z, f, rfl, hm⟩, hin, hI, hbp⟩ := ht
  refine ⟨⟨_, z, f, ?_, eqOn_setWord hm len (t.mem.word len - t.cx)⟩, hin,
    hI, hbp⟩
  unfold subParseBufferLen
  simp only [hword]

/-- An entry's length can be read back once it is stored. -/
theorem Reading.beginParam (h : Reading I A p s s') :
    Reading I (A ∪ region (p + 2) 2) p (beginParam s) (beginParam s') := by
  obtain ⟨⟨m, z, f, rfl, hm⟩, hin, hI, rfl⟩ := h
  refine ⟨⟨_, z, f, rfl, ?_⟩, hin, hI.trans Set.subset_union_left, rfl⟩
  have hlen : (wordBytes s.cx).length ≤ 2 ^ 16 := show 2 ≤ _ by decide
  exact eqOn_write_union (eqOn_setWord hm s.bp s.di) (s.bp + 2) hlen

theorem Reading.endParam (h : Reading I A p s s')
    (hA : region (p + 2) 2 ⊆ A) :
    Reading I A (p + paramsListEntryLen) (endParam s) (endParam s') := by
  have hword := h.word hA
  obtain ⟨⟨m, z, f, rfl, hm⟩, hin, hI, rfl⟩ := h
  refine ⟨⟨_, z, f, ?_, eqOn_setWord hm (s.bp + 2)
    (s.mem.word (s.bp + 2) - s.cx)⟩, hin, hI, rfl⟩
  unfold Asm.endParam
  simp only [hword]

theorem parseParams_level (hA : img.parseData ⊆ A) (fuel : Nat) :
    ∀ (p : Word) (s s' : Bot), Reading I A p s s' →
      ∃ q, Reading I A q (parseParams img fuel s) (parseParams img fuel s') := by
  induction fuel with
  | zero => exact fun p s s' h => ⟨p, h⟩
  | succ fuel ih =>
      intro p s s' h
      have hlen : region img.paramsListLen 2 ⊆ A := by
        rw [img.paramsListLen_eq]
        exact (img.varAt_subset (by omega)).trans hA
      rw [parseParams, parseParams]
      simp only [h.word hlen]
      obtain ⟨n, hn⟩ : ∃ n, n = s.mem.word img.paramsListLen + 1 := ⟨_, rfl⟩
      rw [← hn]
      have hcount := h.store img.paramsListLen n
      split
      · exact ⟨p, hcount.setCf true⟩
      · -- the entry's length is read back where it was stored
        obtain ⟨b, hb⟩ : ∃ b : Bot, b
            = { s with mem := s.mem.setWord img.paramsListLen n } := ⟨_, rfl⟩
        obtain ⟨b', hb'⟩ : ∃ b : Bot, b
            = { s' with mem := s'.mem.setWord img.paramsListLen n } :=
          ⟨_, rfl⟩
        rw [← hb, ← hb'] at hcount ⊢
        have hbegin := hcount.beginParam
        have hskip := skipSpace_level _ _ hbegin
        have hparam := parseParam_level _ _ hskip
        have hend := hparam.endParam Set.subset_union_right
        obtain ⟨hpeek, hzf⟩ := peekCR_level hend
        have hback := hend.mono Set.subset_union_left h.known
        have hpeek' := hpeek.mono Set.subset_union_left h.known
        refine parseThen_alike (P := fun t t' => ∃ q, Reading I A q t t')
          hskip.twin.cf ⟨p, hskip.mono Set.subset_union_left h.known⟩ ?_
        refine parseThen_alike (P := fun t t' => ∃ q, Reading I A q t t')
          hparam.twin.cf ⟨p, hparam.mono Set.subset_union_left h.known⟩ ?_
        by_cases hcf : (peekCR (endParam
            (parseParam (skipSpace (beginParam b))))).cf = true
        · rw [parseThen, parseThen, if_pos hcf,
            if_pos (hpeek.twin.cf.trans hcf)]
          exact ⟨_, hpeek'⟩
        · have hcf' := hcf
          rw [← hpeek.twin.cf] at hcf'
          rw [Bool.not_eq_true] at hcf
          rw [parseThen, parseThen, if_neg (Bool.not_eq_true _ ▸ hcf),
            if_neg hcf']
          simp only [hzf hcf]
          split
          · exact ⟨_, hpeek'⟩
          · exact ih _ _ _ hpeek'

theorem parseMessage_level (hA : img.parseData ⊆ A)
    (h : Reading I A p s s') :
    ∃ q, Reading I A q (parseMessage img s) (parseMessage img s') := by
  have hvar : ∀ i, i < 15 → region (img.varAt i) 2 ⊆ A := fun i hi =>
    (img.varAt_subset hi).trans hA
  have hmark : ∀ mark : Byte, Level I A p
      fun s => parseWordIf (s.setAh mark) := by
    intro mark s s' h
    apply parseWordIf_level
    obtain ⟨⟨m, z, f, rfl, hm⟩, hin, hI, hbp⟩ := h
    exact ⟨⟨m, z, f, rfl, hm⟩, hin, hI, hbp⟩
  have htags : Level I A p (parseTags img) := by
    rw [parseTags, img.tagsBufferLen_eq]
    exact parseField_level (hvar _ (by omega)) (hmark atSign)
  have hprefix : Level I A p (parsePrefix img) := by
    rw [parsePrefix, img.prefixBufferLen_eq]
    exact parseField_level (hvar _ (by omega)) (hmark colon)
  have hcmd : Level I A p (parseCmd img) := by
    rw [parseCmd, img.cmdBufferLen_eq]
    exact parseField_level (hvar _ (by omega)) (copyUntil_level _)
  have ha := htags _ _ h
  have hb := hprefix _ _ ha
  have hc := hcmd _ _ hb
  refine parseThen_alike (P := fun t t' => ∃ q, Reading I A q t t')
    ha.twin.cf ⟨p, ha⟩ ?_
  refine parseThen_alike (P := fun t t' => ∃ q, Reading I A q t t')
    hb.twin.cf ⟨p, hb⟩ ?_
  refine parseThen_alike (P := fun t t' => ∃ q, Reading I A q t t')
    hc.twin.cf ⟨p, hc⟩ ?_
  generalize parseCmd img (parsePrefix img (parseTags img s)) = c at hc ⊢
  generalize parseCmd img (parsePrefix img (parseTags img s')) = c' at hc ⊢
  have hbegin : Reading I A img.paramsList
      { c with bp := img.paramsList
               mem := c.mem.setWord img.paramsListLen 0 }
      { c' with bp := img.paramsList
                mem := c'.mem.setWord img.paramsListLen 0 } := by
    obtain ⟨⟨m, z, f, rfl, hm⟩, hin, hI, -⟩ := hc
    exact ⟨⟨_, z, f, rfl, eqOn_setWord hm img.paramsListLen 0⟩, hin, hI,
      rfl⟩
  obtain ⟨q, hd⟩ := parseParams_level hA paramsListMax.toNat _ _ _ hbegin
  exact parseThen_alike (P := fun t t' => ∃ q, Reading I A q t t')
    hd.twin.cf ⟨q, hd⟩ ⟨q, parseCRLF_level _ _ hd⟩

/-- The parser takes twins to twins. -/
theorem doParse_twin (hA : img.parseData ⊆ A)
    (hin : region s.si s.cx.toNat ⊆ A) (h : Twin A s s') :
    Twin A (doParse img s) (doParse img s') := by
  obtain ⟨m, z, f, rfl, hm⟩ := h
  unfold doParse
  simp only [Cpu.push]
  obtain ⟨a, ha⟩ : ∃ a : Bot, a = { s with
    bx := s.cx, di := img.parseBuffer, cx := parseBufferLenMax
    stack := s.bp :: s.di :: s.bx :: s.ax :: s.stack } := ⟨_, rfl⟩
  have hread : Reading (region s.si s.cx.toNat) A s.bp a { a with
      mem := m, zf := z, dev := { a.dev with authRead := f } } := by
    rw [ha]
    exact ⟨⟨m, z, f, rfl, hm⟩, subset_rfl, hin, rfl⟩
  obtain ⟨q, hq⟩ := parseMessage_level hA hread
  have hdone : Twin A
      (parseThen (parseMessage img)
        (fun s => { s with cf := decide (s.bx ≠ 0) }) a)
      (parseThen (parseMessage img)
        (fun s => { s with cf := decide (s.bx ≠ 0) }) { a with
          mem := m, zf := z, dev := { a.dev with authRead := f } }) := by
    refine parseThen_alike hq.twin.cf hq.twin ?_
    obtain ⟨m', z', f', heq, hm'⟩ := hq.twin
    rw [heq]
    exact ⟨m', z', f', rfl, hm'⟩
  rw [ha] at hdone
  obtain ⟨m', z', f', heq, hm'⟩ := hdone
  rw [heq]
  exact ⟨m', z', f', rfl, hm'⟩

-- ==================================================== the log

/-- What the bot keeps in memory and reads is alike: all but the
credentials. -/
structure Known (img : Image) (A : Set Word) : Prop where
  const : img.constData ⊆ A
  parse : img.parseData ⊆ A
  null : img.nullData ⊆ A
  log : img.logData ⊆ A
  line : img.lineData ⊆ A
  len : region img.outBufferLen 2 ⊆ A
  state : region img.botState 2 ⊆ A

/-- Twins log the same. -/
theorem logGeneral_twin (hA : Known img A) (h : Twin A s s')
    (htag : Disjoint (region s.ax s.bx.toNat) (region img.logBuffer 512))
    (htagA : region s.ax s.bx.toNat ⊆ A)
    (hline : Disjoint (region s.si s.cx.toNat) (region img.logBuffer 512))
    (hlineA : region s.si s.cx.toNat ⊆ A) :
    Twin A (logGeneral img s) (logGeneral img s') := by
  obtain ⟨m, z, f, heq, hm⟩ := h
  have hlt : ∀ v : Word, v.toNat ≤ 2 ^ 16 := fun v => v.isLt.le
  have hrecord : logged s' = logged s := by
    rw [heq]
    simp only [logged]
    rw [Mem.read_congr (hlt _) (hm.mono htagA),
      Mem.read_congr (hlt _) (hm.mono hlineA)]
  have hhandle : s'.mem.word img.logHandle = s.mem.word img.logHandle := by
    rw [heq]
    refine Mem.word_congr (hm.mono (subset_trans ?_ hA.log))
    exact region_mono (by decide)
  have htag' : Disjoint (region s'.ax s'.bx.toNat)
      (region img.logBuffer 512) := by
    rw [heq]
    exact htag
  have hline' : Disjoint (region s'.si s'.cx.toNat)
      (region img.logBuffer 512) := by
    rw [heq]
    exact hline
  rw [logGeneral_eq img s htag hline, logGeneral_eq img s' htag' hline',
    hrecord, hhandle, heq]
  generalize logged s = bs
  have hm' := eqOn_write hm img.logBuffer bs
  generalize m.write img.logBuffer bs = m₁ at hm' ⊢
  generalize s.mem.write img.logBuffer bs = m₂ at hm' ⊢
  exact ⟨m₁, z, f, rfl, hm'⟩

theorem logLine_twin (tag : Text) (hA : Known img A) (h : Twin A s s')
    (hline : Disjoint (region s.si (s.cx - 1).toNat)
      (region img.logBuffer 512))
    (hlineA : region s.si (s.cx - 1).toNat ⊆ A) :
    Twin A (logLine img tag s) (logLine img tag s') := by
  obtain ⟨m, z, f, rfl, hm⟩ := h
  obtain ⟨a, ha⟩ : ∃ a : Bot, a = { s with
    ax := img.text tag
    bx := BitVec.ofNat 16 tag.bytes.length
    cx := s.cx - 1
    stack := s.bx :: s.ax :: s.cx :: s.stack } := ⟨_, rfl⟩
  have hlog : Twin A (logGeneral img a) (logGeneral img { a with
      mem := m, zf := z, dev := { a.dev with authRead := f } }) := by
    refine logGeneral_twin hA ?_ ?_ ?_ ?_ ?_
    · rw [ha]
      exact ⟨m, z, f, rfl, hm⟩
    · rw [ha]
      exact tag_disjoint img tag
    · rw [ha]
      simp only
      rw [text_length]
      exact (text_subset img tag).trans hA.const
    · rw [ha]
      exact hline
    · rw [ha]
      exact hlineA
  rw [ha] at hlog
  obtain ⟨m', z', f', heq, hm'⟩ := hlog
  simp only [logLine, Cpu.push]
  rw [heq]
  exact ⟨m', z', f', rfl, hm'⟩

theorem logLogic_twin (t : Text) (hA : Known img A) (h : Twin A s s') :
    Twin A (logLogic img (sayText img t s))
      (logLogic img (sayText img t s')) := by
  obtain ⟨m, z, f, rfl, hm⟩ := h
  obtain ⟨a, ha⟩ : ∃ a : Bot, a = { sayText img t s with
    ax := img.text .logicTag
    bx := BitVec.ofNat 16 Text.logicTag.bytes.length
    stack := s.bx :: s.ax :: s.stack } := ⟨_, rfl⟩
  have hlog : Twin A (logGeneral img a) (logGeneral img { a with
      mem := m, zf := z, dev := { a.dev with authRead := f } }) := by
    refine logGeneral_twin hA ?_ ?_ ?_ ?_ ?_
    · rw [ha]
      exact ⟨m, z, f, rfl, hm⟩
    · rw [ha]
      exact tag_disjoint img .logicTag
    · rw [ha]
      simp only
      rw [text_length]
      exact (text_subset img .logicTag).trans hA.const
    · rw [ha]
      exact tag_disjoint img t
    · rw [ha]
      simp only [sayText]
      rw [text_length]
      exact (text_subset img t).trans hA.const
  rw [ha] at hlog
  obtain ⟨m', z', f', heq, hm'⟩ := hlog
  simp only [logLogic, Cpu.push, sayText]
  simp only [sayText] at heq
  rw [heq]
  exact ⟨m', z', f', rfl, hm'⟩

-- ==================================================== a dispatch

theorem Known.mono (h : Known img A) (hA : A ⊆ B) : Known img B where
  const := h.const.trans hA
  parse := h.parse.trans hA
  null := h.null.trans hA
  log := h.log.trans hA
  line := h.line.trans hA
  len := h.len.trans hA
  state := h.state.trans hA

variable (img) in
/-- The same reply, and it is in `outBuffer` for both. -/
theorem replied_alike {m m' : Mem 16 Byte} (h : Set.EqOn m m' A)
    (reply : List Byte) (st st' : BotState) :
    Set.EqOn (replied img m reply st st') (replied img m' reply st st')
      (A ∪ region img.outBuffer (sent img reply).length) := by
  have hlen : (sent img reply).length < 2 ^ 16 := sent_length_lt reply
  have hwrite := eqOn_write_union h img.outBuffer (Nat.le_of_lt hlen)
  unfold replied
  simp only
  split
  · exact hwrite
  · exact eqOn_setWord hwrite img.botState (handler img st')

/-- Twins that have parsed the same message build the same reply. -/
theorem buildBuffer_twin (hA : Known img A) (h : Twin A s s')
    (hparsed : Parsed img msg m₀ s.mem) (halive : Alive img st s.mem)
    (hcalm : Calm img m₀ s.mem) (hne : 0 < msg.params.length)
    (hlen : msg.target.length ≤ 510) :
    ∃ c c', buildBuffer img s = some c ∧ buildBuffer img s' = some c'
      ∧ c.si = img.outBuffer
      ∧ c.cx.toNat = (sent img (act img m₀ st msg).1).length
      ∧ Twin (A ∪ region c.si c.cx.toNat) c c' := by
  have heqOn := h.eqOn
  have hbuild := buildBuffer_spec hparsed halive.loaded hcalm halive.state
    hne hlen
  have hcalm' : Calm img m₀ s'.mem := by
    refine ⟨?_, (Mem.read_congr (by decide) ?_).trans hcalm.null⟩
    · exact (heqOn (hA.parse parseBufferLen_mem_parse)).trans hcalm.zero
    · exact heqOn.mono hA.null
  have hbuild' := buildBuffer_spec (hparsed.congr (heqOn.mono hA.parse))
    (halive.loaded.congr (heqOn.mono hA.const)) hcalm'
    ((Mem.word_congr (heqOn.mono hA.state)).trans halive.state) hne hlen
  obtain ⟨r, hr⟩ : ∃ r, r = act img m₀ st msg := ⟨_, rfl⟩
  rw [← hr] at hbuild hbuild' ⊢
  have hcount : (BitVec.ofNat 16 (sent img r.1).length).toNat
      = (sent img r.1).length := by
    rw [BitVec.toNat_ofNat]
    exact Nat.mod_eq_of_lt (sent_length_lt r.1)
  refine ⟨_, _, hbuild, hbuild', rfl, hcount, ?_⟩
  simp only
  rw [hcount]
  obtain ⟨m, z, f, rfl, hm⟩ := h
  have hsame := replied_alike img hm r.1 st r.2
  generalize replied img m r.1 st r.2 = m₁ at hsame ⊢
  generalize replied img s.mem r.1 st r.2 = m₂ at hsame ⊢
  exact ⟨m₁, z, f, rfl, hsame⟩

/-- Twins dispatch a line alike: what is to be sent is the same. -/
theorem dispatchLine_twin (hA : Known img A) (h : Twin A s s')
    (hline : AtLine img inp s) (halive : Alive img st s.mem) :
    ∃ t t', dispatchLine img s = some t ∧ dispatchLine img s' = some t'
      ∧ Twin (A ∪ region t.si t.cx.toNat) t t' := by
  have hcx := hline.cx
  have hpos := hline.pos
  have hwhole : region s.si s.cx.toNat ⊆ img.lineData := by
    rw [hline.si, hcx]
    exact region_mono hline.short
  have hpart : region s.si (s.cx - 1).toNat ⊆ img.lineData := by
    refine (region_mono ?_).trans hwhole
    bv_omega
  have hlog : Twin A (logIncoming img s) (logIncoming img s') :=
    logLine_twin .incomingTag hA h hline.log_disjoint
      (hpart.trans hA.line)
  have hlogged : Logged img s (logIncoming img s) :=
    logLine_logged .incomingTag hline.log_disjoint
  obtain ⟨-, hsi, hcx'⟩ := hlogged.returned
  obtain ⟨b, hb⟩ : ∃ b, b = doParse img (logIncoming img s) := ⟨_, rfl⟩
  obtain ⟨b', hb'⟩ : ∃ b, b = doParse img (logIncoming img s') := ⟨_, rfl⟩
  have hparse : Twin A b b' := by
    rw [hb, hb']
    refine doParse_twin hA.parse ?_ hlog
    rw [hsi, hcx']
    exact hwhole.trans hA.line
  cases hmsg : parse 512 inp with
  | none =>
      have hcf : b.cf = true := by
        rw [hb, (doParse_spec hline.given).1, hmsg]
        rfl
      have hbad := logLogic_twin .badParseMessage hA hparse
      refine ⟨{ logLogic img (sayText img .badParseMessage b) with
        cx := 0 }, { logLogic img (sayText img .badParseMessage b') with
        cx := 0 }, ?_, ?_, ?_⟩
      · simp only [dispatchLine, ← hb, hcf, ↓reduceIte]
      · simp only [dispatchLine, ← hb', hparse.cf, hcf, ↓reduceIte]
      · obtain ⟨m, z, f, heq, hm⟩ := hbad
        rw [heq]
        refine ⟨m, z, f, rfl, ?_⟩
        change Set.EqOn _ _ (A ∪ region _ 0)
        rw [region_zero, Set.union_empty]
        exact hm
  | some msg =>
      obtain ⟨hcf, hparsed, hblive, hcalm, -, -⟩ :=
        hline.accepted halive hmsg hb
      obtain ⟨c, c', hc, hc', hcsi, hccx, htwin⟩ :=
        buildBuffer_twin hA hparse hparsed hblive hcalm
          (parse_params_pos hmsg) (hline.target_le hmsg)
      have hgo : dispatchLine img s = some
          (if c.cx = 0 then { c with cx := 0 } else logOutgoing img c) := by
        simp only [dispatchLine, ← hb, hcf, hc, Bool.false_eq_true,
          ↓reduceIte, Option.map_some]
      have hgo' : dispatchLine img s' = some
          (if c.cx = 0 then { c' with cx := 0 }
            else logOutgoing img c') := by
        simp only [dispatchLine, ← hb', hparse.cf, hcf, hc', htwin.cx,
          Bool.false_eq_true, ↓reduceIte, Option.map_some]
      refine ⟨_, _, hgo, hgo', ?_⟩
      by_cases hzero : c.cx = 0
      · rw [if_pos hzero, if_pos hzero]
        obtain ⟨m, z, f, rfl, hm⟩ := htwin
        rw [← hzero]
        exact ⟨m, z, f, rfl, hm⟩
      · rw [if_neg hzero, if_neg hzero]
        have hlen : c.cx.toNat ≤ outSpill := by
          rw [hccx, sent, List.length_take]
          exact (Nat.min_le_right _ _).trans
            (act_length_le img s.mem st (hline.target_le hmsg))
        have hpred : (c.cx - 1).toNat ≤ c.cx.toNat := by
          have hne : c.cx.toNat ≠ 0 := fun h0 =>
            hzero (BitVec.eq_of_toNat_eq h0)
          bv_omega
        have hout : Disjoint (region c.si (c.cx - 1).toNat)
            (region img.logBuffer 512) := by
          rw [hcsi]
          exact img.log_disjoint_out.symm.mono
            (region_mono (hpred.trans hlen)) img.logBuffer_subset
        have hlogged' : Logged img c (logOutgoing img c) :=
          logLine_logged .outgoingTag hout
        obtain ⟨-, hsi', hcx''⟩ := hlogged'.returned
        rw [hsi', hcx'']
        exact logLine_twin .outgoingTag (hA.mono Set.subset_union_left)
          htwin hout ((region_mono hpred).trans Set.subset_union_right)

-- ==================================================== the first and the last

/-- The user's goodbye. -/
theorem dispatchExit_twin (hA : Known img A) (h : Twin A s s') :
    Twin A (dispatchExit img s) (dispatchExit img s') := by
  have hfirst := logLogic_twin .exitMessage hA h
  unfold dispatchExit
  generalize logLogic img (sayText img .exitMessage s) = a at hfirst ⊢
  generalize logLogic img (sayText img .exitMessage s') = a' at hfirst ⊢
  have hsay : Twin A (sayText img .quitMessage a)
      (sayText img .quitMessage a') := by
    obtain ⟨m, z, f, rfl, hm⟩ := hfirst
    exact ⟨m, z, f, rfl, hm⟩
  exact logLine_twin .outgoingTag hA hsay
    (img.const_disjoint_log.mono quit_subset img.logBuffer_subset)
    (quit_subset.trans hA.const)

/-- Files of credentials that differ in content at most. -/
def SameSize (f f' : Except Word (List Byte)) : Prop :=
  ∃ bs bs', f = .ok bs ∧ f' = .ok bs' ∧ bs.length = bs'.length

/-- Reading either leaves twins, but for the buffer it is read to. -/
theorem readAuth_twin {f : Except Word (List Byte)}
    (hA : Disjoint (region img.outBuffer 512) A)
    (hf : SameSize s.dev.authRead f) :
    Twin A (readAuth img s)
      (readAuth img { s with dev := { s.dev with authRead := f } }) := by
  obtain ⟨bs, bs', hbs, rfl, hlen⟩ := hf
  obtain ⟨u, hu⟩ : ∃ u : Bot, u
      = { s with dev := { s.dev with authRead := .ok bs' } } := ⟨_, rfl⟩
  rw [← hu]
  by_cases henv : s.dev.authEnv = 0
  · have henv' : u.dev.authEnv = 0 := by
      rw [hu]
      exact henv
    rw [readAuth_unset henv, readAuth_unset henv', hu]
    exact ⟨s.mem, s.zf, .ok bs', rfl, fun _ _ => rfl⟩
  · cases hopen : s.dev.authOpen with
    | error code =>
        have henv' : u.dev.authEnv ≠ 0 := by
          rw [hu]
          exact henv
        have hopen' : u.dev.authOpen = .error code := by
          rw [hu]
          exact hopen
        rw [readAuth_unopened henv hopen, readAuth_unopened henv' hopen',
          hu]
        exact ⟨s.mem, s.zf, .ok bs', rfl, fun _ _ => rfl⟩
    | ok handle =>
        have hcs : credentials s.dev = some (bs.take 512) := by
          rw [credentials, if_neg henv, hopen, hbs]
        have hcs' : credentials u.dev = some (bs'.take 512) := by
          rw [hu, credentials, if_neg henv, hopen]
        have hcount : (bs'.take 512).length = (bs.take 512).length := by
          rw [List.length_take, List.length_take, hlen]
        rw [readAuth_some hcs, readAuth_some hcs', hcount, hu]
        refine ⟨_, s.zf, .ok bs', rfl, ?_⟩
        apply eqOn_setWord
        have hout : ∀ xs : List Byte, xs.length ≤ 512 →
            Set.EqOn (s.mem.write img.outBuffer xs) s.mem A := by
          intro xs hxs x hx
          refine Mem.write_of_notMem fun hx' => ?_
          exact Set.disjoint_left.mp hA (region_mono hxs hx') hx
        have hshort : ∀ xs : List Byte, (xs.take 512).length ≤ 512 := by
          intro xs
          rw [List.length_take]
          exact Nat.min_le_left _ _
        exact (hout _ (hshort bs')).trans (hout _ (hshort bs)).symm

/-- So does the beginning of a run. -/
theorem dispatchInit_twin {f : Except Word (List Byte)} (hA : Known img A)
    (hout : Disjoint (region img.outBuffer 512) A)
    (hf : SameSize s.dev.authRead f) :
    Twin A (dispatchInit img s)
      (dispatchInit img { s with dev := { s.dev with authRead := f } }) := by
  have hread : Twin A
      (readAuth img { s with
        mem := s.mem.setWord img.botState img.startState })
      (readAuth img { s with
        mem := s.mem.setWord img.botState img.startState
        dev := { s.dev with authRead := f } }) :=
    readAuth_twin (s := { s with
      mem := s.mem.setWord img.botState img.startState }) hout hf
  simp only [dispatchInit]
  generalize readAuth img { s with
    mem := s.mem.setWord img.botState img.startState } = b at hread ⊢
  generalize readAuth img { s with
    mem := s.mem.setWord img.botState img.startState
    dev := { s.dev with authRead := f } } = b' at hread ⊢
  rw [hread.ax]
  split
  · exact logLogic_twin .authFailMessage hA hread
  · have hlog := logLogic_twin .initMessage hA hread
    generalize logLogic img (sayText img .initMessage b) = c at hlog ⊢
    generalize logLogic img (sayText img .initMessage b') = c' at hlog ⊢
    rw [Mem.word_congr (hlog.eqOn.mono hA.len)]
    obtain ⟨m, z, g, rfl, hm⟩ := hlog
    exact ⟨m, z, g, rfl, hm⟩

end Pdtb.Asm
