/-
What the parser stores, and where. Whatever it is given to parse, each of
its routines keeps `Safe`: only `parse.nas`'s own variables change, and
`di` is as far into `parseBuffer` as `cx` says. That the table of
parameters holds is up to the counter in memory, so `Safe` follows the
counter and `bp` too.

When the parse succeeds, what the variables point at is laid end to end
from the start of `parseBuffer`, and is in the input in the same order.
-/
import Pdtb.Irc.Grammar
import Pdtb.Proofs.Fields

namespace Pdtb.Asm

open Lib

variable {img : Image} {s₀ s t : Bot} {p k : Word}

-- ==================================================== stores

/-- A parse under way, as far as its stores go: `p` is the entry of
`paramsList` that is next, `k` the count of those before it. -/
structure Safe (img : Image) (s₀ : Bot) (p k : Word) (s : Bot) : Prop where
  outside : Set.EqOn s.mem s₀.mem img.parseStoresᶜ
  room : s.cx.toNat ≤ parseBufferLenMax.toNat
  dest : s.di = img.parseBuffer
    + BitVec.ofNat 16 (parseBufferLenMax.toNat - s.cx.toNat)
  bp : s.bp = p
  count : img.vars s.mem 14 = k

/-- A routine that keeps it. -/
def Keeps (img : Image) (s₀ : Bot) (p k : Word) (f : Bot → Bot) : Prop :=
  ∀ s, Safe img s₀ p k s → Safe img s₀ p k (f s)

theorem Safe.congr (h : Safe img s₀ p k s) (hm : t.mem = s.mem)
    (hcx : t.cx = s.cx) (hdi : t.di = s.di) (hbp : t.bp = s.bp) :
    Safe img s₀ p k t := by
  refine ⟨?_, ?_, ?_, hbp.trans h.bp, ?_⟩
  · rw [hm]
    exact h.outside
  · rw [hcx]
    exact h.room
  · rw [hdi, hcx]
    exact h.dest
  · rw [hm]
    exact h.count

/-- A store to a variable other than the counter. -/
theorem Safe.setVar (h : Safe img s₀ p k s) {i : Nat} (hi : i < 14)
    (v : Word) :
    Safe img s₀ p k { s with mem := s.mem.setWord (img.varAt i) v } := by
  refine ⟨fun x hx => ?_, h.room, h.dest, h.bp, ?_⟩
  · have hx' : x ∉ region (img.varAt i) 2 :=
      fun hm => hx (img.varAt_stores (by omega) hm)
    exact (Mem.setWord_eqOn _ _ _ hx').trans (h.outside hx)
  · show img.vars _ 14 = k
    rw [img.vars_setWord _ (by omega) (by omega), if_neg (by omega)]
    exact h.count

/-- A store to the counter. -/
theorem Safe.setCount (h : Safe img s₀ p k s) (v : Word) :
    Safe img s₀ p v { s with mem := s.mem.setWord (img.varAt 14) v } := by
  refine ⟨fun x hx => ?_, h.room, h.dest, h.bp, ?_⟩
  · have hx' : x ∉ region (img.varAt 14) 2 :=
      fun hm => hx (img.varAt_stores (by omega) hm)
    exact (Mem.setWord_eqOn _ _ _ hx').trans (h.outside hx)
  · show img.vars _ 14 = v
    rw [img.vars_setWord _ (by omega) (by omega), if_pos rfl]

-- ------------------------------------------------ one character

theorem peek_keeps : Keeps img s₀ p k peek := by
  intro s h
  unfold peek
  split
  · exact h.congr rfl rfl rfl rfl
  · exact h.congr rfl rfl rfl rfl

theorem read_keeps : Keeps img s₀ p k read := by
  intro s h
  unfold read
  split
  · exact h.congr rfl rfl rfl rfl
  · exact h.congr rfl rfl rfl rfl

/-- A byte is copied where there is room for it. -/
theorem copy_keeps : Keeps img s₀ p k copy := by
  intro s h
  unfold copy
  split
  · exact h.congr rfl rfl rfl rfl
  · split
    · exact h.congr rfl rfl rfl rfl
    · next hcx =>
        have hmax : parseBufferLenMax.toNat = 512 := rfl
        have hroom := h.room
        have hdest := h.dest
        have hpos : 1 ≤ s.cx.toNat := Nat.pos_of_ne_zero fun h0 =>
          hcx (BitVec.eq_of_toNat_eq h0)
        have hcell : s.di ∈ region
            (img.parseBuffer + BitVec.ofNat 16 (512 - s.cx.toNat)) 1 := by
          rw [hdest, hmax]
          exact base_mem_region (by omega)
        have hone : (1 : Word).toNat = 1 := rfl
        have hpred : (s.cx - 1).toNat = s.cx.toNat - 1 := by
          rw [BitVec.toNat_sub]
          omega
        refine ⟨fun x hx => ?_, ?_, ?_, h.bp, ?_⟩
        · refine (Function.update_of_ne ?_ _ _).trans (h.outside hx)
          intro heq
          subst heq
          exact hx (img.buffer_stores (by omega) hcell)
        · show (s.cx - 1).toNat ≤ _
          omega
        · show s.di + 1 = _ + BitVec.ofNat 16 (_ - (s.cx - 1).toNat)
          rw [hdest, hpred, hmax, show 512 - (s.cx.toNat - 1)
            = 512 - s.cx.toNat + 1 by omega, BitVec.ofNat_add,
            BitVec.add_assoc]
          rfl
        · refine Eq.trans (Mem.word_congr fun x hx => ?_) h.count
          refine Function.update_of_ne ?_ _ _
          intro heq
          subst heq
          exact Set.disjoint_left.mp (img.buffer_disjoint_varAt (by omega)
            (by omega)) hcell hx

-- ------------------------------------------------ routines

/-- Where a call and the code behind it come to, so does the whole. -/
theorem parseThen_of {P : Bot → Prop} {f g : Bot → Bot} (hf : P (f s))
    (hg : P (g (f s))) : P (parseThen f g s) := by
  unfold parseThen
  simp only
  split
  · exact hf
  · exact hg

theorem parseThen_keeps {f g : Bot → Bot} (hf : Keeps img s₀ p k f)
    (hg : Keeps img s₀ p k g) : Keeps img s₀ p k (parseThen f g) :=
  fun s h => parseThen_of (hf s h) (hg _ (hf s h))

theorem copyUntil_keeps (stop : Byte → Bool) :
    Keeps img s₀ p k (copyUntil stop) := by
  intro s h
  induction s using copyUntil.induct stop with
  | case1 s t hcf =>
      rw [copyUntil, if_pos hcf]
      exact peek_keeps s h
  | case2 s t hcf hstop =>
      rw [copyUntil, if_neg hcf, if_pos hstop]
      exact (peek_keeps s h).congr rfl rfl rfl rfl
  | case3 s t hcf hstop u hfull =>
      rw [copyUntil, if_neg hcf, if_neg hstop, dif_pos hfull]
      exact copy_keeps _ (peek_keeps s h)
  | case4 s t hcf hstop u hfull ih =>
      rw [copyUntil, if_neg hcf, if_neg hstop, dif_neg hfull]
      exact ih (copy_keeps _ (peek_keeps s h))

theorem skipSpace_keeps : Keeps img s₀ p k skipSpace := by
  intro s h
  induction s using skipSpace.induct with
  | case1 s t hcf =>
      rw [skipSpace, if_pos hcf]
      exact peek_keeps s h
  | case2 s t hcf hstop =>
      rw [skipSpace, if_neg hcf, if_pos hstop]
      exact (peek_keeps s h).congr rfl rfl rfl rfl
  | case3 s t hcf hstop u hfail =>
      rw [skipSpace, if_neg hcf, if_neg hstop, dif_pos hfail]
      exact read_keeps _ ((peek_keeps s h).congr rfl rfl rfl rfl)
  | case4 s t hcf hstop u hfail ih =>
      rw [skipSpace, if_neg hcf, if_neg hstop, dif_neg hfail]
      exact ih (read_keeps _ ((peek_keeps s h).congr rfl rfl rfl rfl))

theorem parseWordIf_keeps : Keeps img s₀ p k parseWordIf := by
  refine parseThen_keeps peek_keeps fun s h => ?_
  have h' : Safe img s₀ p k { s with cf := false } :=
    h.congr rfl rfl rfl rfl
  split
  · exact h'
  · exact parseThen_keeps read_keeps
      (parseThen_keeps (copyUntil_keeps _) skipSpace_keeps) _ h'

theorem parseParam_keeps : Keeps img s₀ p k parseParam := by
  refine parseThen_keeps peek_keeps fun s h => ?_
  have h' : Safe img s₀ p k { s with cf := false } :=
    h.congr rfl rfl rfl rfl
  split
  · exact parseThen_keeps read_keeps (copyUntil_keeps _) _ h'
  · exact copyUntil_keeps _ _ h'

theorem peekCR_keeps : Keeps img s₀ p k peekCR :=
  parseThen_keeps peek_keeps fun _ h => h.congr rfl rfl rfl rfl

theorem parseCRLF_keeps : Keeps img s₀ p k parseCRLF := by
  intro s h
  have h₁ := read_keeps s h
  have h₂ := read_keeps _ h₁
  unfold parseCRLF
  simp only
  split
  · exact h₁.congr rfl rfl rfl rfl
  · split
    · exact h₁.congr rfl rfl rfl rfl
    · split
      · exact h₂.congr rfl rfl rfl rfl
      · split
        · exact h₂.congr rfl rfl rfl rfl
        · exact h₂.congr rfl rfl rfl rfl

/-- A field's variables are its own. -/
theorem parseField_keeps {i : Nat} (hi : i + 1 < 14) {f : Bot → Bot}
    (hf : Keeps img s₀ p k f) :
    Keeps img s₀ p k (parseField (img.varAt i) (img.varAt (i + 1)) f) := by
  intro s h
  have hset : Safe img s₀ p k
      (setParseBuffer (img.varAt i) (img.varAt (i + 1)) s) :=
    ((h.setVar (by omega) s.di).setVar hi s.cx).congr rfl rfl rfl rfl
  refine parseThen_keeps hf (fun t ht => ?_) _ hset
  exact (ht.setVar hi _).congr rfl rfl rfl rfl

/-- The stores of an entry, `bp` being entry `j` of the four. -/
theorem param_keeps {j : Nat} (hj : j < 4)
    (h : Safe img s₀ (img.varAt (6 + 2 * j)) k s) :
    Safe img s₀ (img.varAt (6 + 2 * j)) k (beginParam s)
      ∧ Safe img s₀ (img.varAt (6 + 2 * (j + 1))) k (endParam s) := by
  have hbp := h.bp
  constructor
  · rw [beginParam, hbp, img.varAt_add_two]
    exact ((h.setVar (i := 6 + 2 * j) (by omega) s.di).setVar
      (i := 6 + 2 * j + 1) (by omega) s.cx).congr rfl rfl rfl hbp.symm
  · rw [endParam, hbp, img.varAt_add_two, img.varAt_add_four]
    have hset := h.setVar (i := 6 + 2 * j + 1) (by omega)
      (s.mem.word (img.varAt (6 + 2 * j + 1)) - s.cx)
    exact ⟨hset.outside, hset.room, hset.dest, rfl, hset.count⟩

/-- The counter keeps the entries inside the table. -/
theorem parseParams_safe (fuel : Nat) {j : Nat} (hj : j ≤ 3)
    (hk : k.toNat = j) (h : Safe img s₀ (img.varAt (6 + 2 * j)) k s) :
    ∃ p k, Safe img s₀ p k (parseParams img fuel s) := by
  induction fuel generalizing j k s with
  | zero => exact ⟨_, _, h⟩
  | succ fuel ih =>
      have hword : s.mem.word (img.varAt 14) = k := h.count
      have hcount := h.setCount (k + 1)
      rw [parseParams]
      simp only [img.paramsListLen_eq, hword]
      rw [count_succ hk hj]
      by_cases hlast : j < 3
      · rw [if_neg (by simpa using hlast)]
        have hbegin := (param_keeps (by omega) hcount).1
        have hskip := skipSpace_keeps _ hbegin
        have hparam := parseParam_keeps _ hskip
        have hend := (param_keeps (by omega) hparam).2
        have hpeek := peekCR_keeps _ hend
        have hnext : (k + 1).toNat = j + 1 := count_toNat hk hj
        refine parseThen_of (P := fun t => ∃ p k, Safe img s₀ p k t)
          ⟨_, _, hskip⟩ ?_
        refine parseThen_of (P := fun t => ∃ p k, Safe img s₀ p k t)
          ⟨_, _, hparam⟩ ?_
        refine parseThen_of (P := fun t => ∃ p k, Safe img s₀ p k t)
          ⟨_, _, hpeek⟩ ?_
        split
        · exact ⟨_, _, hpeek⟩
        · exact ih (by omega) hnext hpeek
      · rw [if_pos (by simpa using hlast)]
        exact ⟨_, _, hcount.congr rfl rfl rfl rfl⟩

theorem parseMarked_keeps (mark : Byte) :
    Keeps img s₀ p k fun s => parseWordIf (s.setAh mark) := fun _ h =>
  parseWordIf_keeps _ (h.congr rfl rfl rfl rfl)

theorem parseTags_keeps : Keeps img s₀ p k (parseTags img) := by
  rw [parseTags, img.tagsBuffer_eq, img.tagsBufferLen_eq]
  exact parseField_keeps (by omega) (parseMarked_keeps atSign)

theorem parsePrefix_keeps : Keeps img s₀ p k (parsePrefix img) := by
  rw [parsePrefix, img.prefixBuffer_eq, img.prefixBufferLen_eq]
  exact parseField_keeps (by omega) (parseMarked_keeps colon)

theorem parseCmd_keeps : Keeps img s₀ p k (parseCmd img) := by
  rw [parseCmd, img.cmdBuffer_eq, img.cmdBufferLen_eq]
  exact parseField_keeps (by omega) (copyUntil_keeps _)

/-- The routines that a parse is made of, but for the loop over the
parameters. -/
inductive Routine (img : Image) : (Bot → Bot) → Prop
  | peek : Routine img peek
  | read : Routine img read
  | copy : Routine img copy
  | copyUntil (stop : Byte → Bool) : Routine img (copyUntil stop)
  | skipSpace : Routine img skipSpace
  | parseWordIf : Routine img parseWordIf
  | parseParam : Routine img parseParam
  | peekCR : Routine img peekCR
  | parseCRLF : Routine img parseCRLF
  | parseTags : Routine img (parseTags img)
  | parsePrefix : Routine img (parsePrefix img)
  | parseCmd : Routine img (parseCmd img)

theorem Routine.keeps {f : Bot → Bot} (hf : Routine img f) :
    Keeps img s₀ p k f := by
  cases hf with
  | peek => exact peek_keeps
  | read => exact read_keeps
  | copy => exact copy_keeps
  | copyUntil stop => exact copyUntil_keeps stop
  | skipSpace => exact skipSpace_keeps
  | parseWordIf => exact parseWordIf_keeps
  | parseParam => exact parseParam_keeps
  | peekCR => exact peekCR_keeps
  | parseCRLF => exact parseCRLF_keeps
  | parseTags => exact parseTags_keeps
  | parsePrefix => exact parsePrefix_keeps
  | parseCmd => exact parseCmd_keeps

/-- The whole parse, wherever it ends. -/
theorem parseMessage_safe (h : Safe img s₀ p k s) :
    ∃ p k, Safe img s₀ p k (parseMessage img s) := by
  have ha := parseTags_keeps s h
  have hb := parsePrefix_keeps _ ha
  have hc := parseCmd_keeps _ hb
  refine parseThen_of (P := fun t => ∃ p k, Safe img s₀ p k t)
    ⟨_, _, ha⟩ ?_
  refine parseThen_of (P := fun t => ∃ p k, Safe img s₀ p k t)
    ⟨_, _, hb⟩ ?_
  refine parseThen_of (P := fun t => ∃ p k, Safe img s₀ p k t)
    ⟨_, _, hc⟩ ?_
  generalize parseCmd img (parsePrefix img (parseTags img s)) = c at hc ⊢
  have hzero : Safe img s₀ (img.varAt 6) 0 { c with
      bp := img.varAt 6, mem := c.mem.setWord (img.varAt 14) 0 } := by
    have hset := hc.setCount 0
    exact ⟨hset.outside, hset.room, hset.dest, rfl, hset.count⟩
  simp only [img.paramsList_eq, img.paramsListLen_eq]
  obtain ⟨p', k', hd⟩ :=
    parseParams_safe paramsListMax.toNat (j := 0) (by omega) rfl hzero
  refine parseThen_of (P := fun t => ∃ p k, Safe img s₀ p k t)
    ⟨_, _, hd⟩ ?_
  exact ⟨_, _, parseCRLF_keeps _ hd⟩

-- ==================================================== spans

/-- What the variables point at, each place with its length: tags, prefix
and command, and the parameters there are. -/
def spans (img : Image) (m : Mem 16 Byte) : List (Word × Word) :=
  [(m.word img.tagsBuffer, m.word img.tagsBufferLen),
    (m.word img.prefixBuffer, m.word img.prefixBufferLen),
    (m.word img.cmdBuffer, m.word img.cmdBufferLen)]
  ++ (List.range (m.word img.paramsListLen).toNat).map fun j =>
    (m.word (img.paramsList + BitVec.ofNat 16 (4 * j)),
      m.word (img.paramsList + BitVec.ofNat 16 (4 * j) + 2))

/-- Each span starts where the one before it ends, the first at `a`, and
the last ends at `b`. -/
def Packed : Word → List (Word × Word) → Word → Prop
  | a, [], b => a = b
  | a, (p, n) :: rest, b => p = a ∧ Packed (a + n) rest b

/-- Words laid end to end from `a` on. -/
def place (a : Word) : List (List Byte) → List (Word × Word)
  | [] => []
  | w :: ws => (a, BitVec.ofNat 16 w.length)
      :: place (a + BitVec.ofNat 16 w.length) ws

theorem length_place (a : Word) (ws : List (List Byte)) :
    (place a ws).length = ws.length := by
  induction ws generalizing a with
  | nil => rfl
  | cons w ws ih => rw [place, List.length_cons, ih, List.length_cons]

theorem place_getElem (a : Word) (ws : List (List Byte)) {i : Nat}
    (hi : i < (place a ws).length) (hi' : i < ws.length) :
    (place a ws)[i] = (a + BitVec.ofNat 16 (ws.take i).flatten.length,
      BitVec.ofNat 16 ws[i].length) := by
  induction ws generalizing a i with
  | nil => cases hi'
  | cons w ws ih =>
      cases i with
      | zero =>
          simp only [place, List.getElem_cons_zero, List.take_zero,
            List.flatten_nil, List.length_nil]
          rw [BitVec.add_zero]
      | succ i =>
          have hnext := ih (a + BitVec.ofNat 16 w.length)
            (Nat.lt_of_succ_lt_succ hi) (Nat.lt_of_succ_lt_succ hi')
          simp only [place, List.getElem_cons_succ, List.take_succ_cons,
            List.flatten_cons, List.length_append]
          rw [hnext, BitVec.ofNat_add, BitVec.add_assoc]

theorem packed_place (a : Word) (ws : List (List Byte)) :
    Packed a (place a ws) (a + BitVec.ofNat 16 ws.flatten.length) := by
  induction ws generalizing a with
  | nil => exact (BitVec.add_zero a).symm
  | cons w ws ih =>
      refine ⟨rfl, ?_⟩
      have h := ih (a + BitVec.ofNat 16 w.length)
      rw [BitVec.add_assoc, ← BitVec.ofNat_add] at h
      rw [List.flatten_cons, List.length_append]
      exact h

theorem place_total (a : Word) (ws : List (List Byte))
    (hlen : ws.flatten.length < 2 ^ 16) :
    ((place a ws).map fun span => span.2.toNat).sum
      = ws.flatten.length := by
  induction ws generalizing a with
  | nil => rfl
  | cons w ws ih =>
      rw [List.flatten_cons, List.length_append] at hlen ⊢
      rw [place, List.map_cons, List.sum_cons, ih _ (by omega),
        BitVec.toNat_ofNat, Nat.mod_eq_of_lt (by omega)]

/-- Read back from where they were laid. -/
theorem place_read {m : Mem 16 Byte} {a : Word} {ws : List (List Byte)}
    (hlen : ws.flatten.length < 2 ^ 16)
    (h : m.read a ws.flatten.length = ws.flatten) :
    (place a ws).map (fun span => m.read span.1 span.2.toNat) = ws := by
  induction ws generalizing a with
  | nil => rfl
  | cons w ws ih =>
      rw [List.flatten_cons, List.length_append] at hlen h
      rw [Mem.read_add] at h
      have hword := List.append_inj_left h (Mem.length_read ..)
      have hrest := List.append_inj_right h (Mem.length_read ..)
      rw [place, List.map_cons, ih (by omega) hrest]
      simp only [BitVec.toNat_ofNat]
      rw [Nat.mod_eq_of_lt (by omega), hword]

/-- The parts of a message, as they are kept. -/
def parts (msg : Irc.Msg) : List (List Byte) :=
  [msg.tags] ++ ([msg.pfx] ++ ([msg.cmd] ++ msg.params))

theorem flatten_parts (msg : Irc.Msg) : (parts msg).flatten = msg.bytes := by
  simp only [parts, Irc.Msg.bytes, List.flatten_append,
    List.flatten_singleton, List.append_assoc]

/-- The entries of `paramsList` among the variables. -/
theorem paramsList_varAt (img : Image) (j : Nat) :
    img.paramsList + BitVec.ofNat 16 (4 * j) = img.varAt (6 + 2 * j) := by
  rw [img.paramsList_eq, Image.varAt, Image.varAt, BitVec.add_assoc,
    ← BitVec.ofNat_add]
  congr 2
  omega

/-- After a parse the variables point at the parts of the message. -/
theorem Parsed.spans {msg : Irc.Msg} {m₀ m : Mem 16 Byte}
    (h : Parsed img msg m₀ m) :
    spans img m = place img.parseBuffer (parts msg) := by
  have hcount : (m.word img.paramsListLen).toNat = msg.params.length := by
    rw [img.paramsListLen_eq]
    exact h.count
  have hparams : (List.range (m.word img.paramsListLen).toNat).map (fun j =>
      (m.word (img.paramsList + BitVec.ofNat 16 (4 * j)),
        m.word (img.paramsList + BitVec.ofNat 16 (4 * j) + 2)))
      = place (img.parseBuffer + BitVec.ofNat 16
          (msg.tags ++ msg.pfx ++ msg.cmd).length) msg.params := by
    rw [hcount]
    refine List.ext_getElem ?_ fun j hj hj' => ?_
    · rw [List.length_map, List.length_range, length_place]
    · rw [List.length_map, List.length_range] at hj
      obtain ⟨hbuf, hlen⟩ := h.entry j hj
      rw [List.getElem_map, List.getElem_range, place_getElem _ _ hj' hj,
        paramsList_varAt, img.varAt_add_two, show 6 + 2 * j + 1 = 7 + 2 * j
          by omega]
      rw [Image.vars] at hbuf hlen
      rw [hbuf, hlen, Irc.Msg.before, BitVec.add_assoc, ← BitVec.ofNat_add,
        ← List.length_append]
  have htags : m.word img.tagsBuffer = img.parseBuffer := by
    rw [img.tagsBuffer_eq]
    exact h.tags
  have htagsLen : m.word img.tagsBufferLen
      = BitVec.ofNat 16 msg.tags.length := by
    rw [img.tagsBufferLen_eq]
    exact h.tagsLen
  have hpfx : m.word img.prefixBuffer
      = img.parseBuffer + BitVec.ofNat 16 msg.tags.length := by
    rw [img.prefixBuffer_eq]
    exact h.pfx
  have hpfxLen : m.word img.prefixBufferLen
      = BitVec.ofNat 16 msg.pfx.length := by
    rw [img.prefixBufferLen_eq]
    exact h.pfxLen
  have hcmd : m.word img.cmdBuffer = img.parseBuffer
      + BitVec.ofNat 16 (msg.tags ++ msg.pfx).length := by
    rw [img.cmdBuffer_eq]
    exact h.cmd
  have hcmdLen : m.word img.cmdBufferLen
      = BitVec.ofNat 16 msg.cmd.length := by
    rw [img.cmdBufferLen_eq]
    exact h.cmdLen
  rw [Asm.spans, hparams, htags, htagsLen, hpfx, hpfxLen, hcmd, hcmdLen]
  simp only [parts, place, List.length_append, BitVec.ofNat_add,
    BitVec.add_assoc, List.cons_append, List.nil_append]

-- ==================================================== doParse

/-- `parse.nas`'s variables: `parseBuffer`, the six of the fields,
`paramsList` and `paramsListLen`. -/
def parseVars (img : Image) : Set Word :=
  region img.parseBuffer parseBufferLenMax.toNat
    ∪ region img.tagsBuffer 12 ∪ region img.paramsList 16
    ∪ region img.paramsListLen 2

theorem parseStores_subset : img.parseStores ⊆ parseVars img := by
  intro x hand
  obtain ⟨hx, hlen⟩ := hand
  have hsize : parseSize = 544 := rfl
  have hmax : parseBufferLenMax.toNat = 512 := rfl
  have hbuf := mem_region_add (a := img.parseAt) (x := x) (i := 512)
    (n := 2) (by omega)
  have htags := mem_region_add (a := img.parseAt) (x := x) (i := 514)
    (n := 12) (by omega)
  have hlist := mem_region_add (a := img.parseAt) (x := x) (i := 526)
    (n := 16) (by omega)
  have hcount := mem_region_add (a := img.parseAt) (x := x) (i := 542)
    (n := 2) (by omega)
  have hall : off img.parseAt x < 544 := hx
  have hout : ¬ (512 ≤ off img.parseAt x ∧ off img.parseAt x < 514) :=
    fun h => hlen (hbuf.mpr h)
  by_cases h₁ : off img.parseAt x < 512
  · exact Or.inl (Or.inl (Or.inl h₁))
  · by_cases h₂ : off img.parseAt x < 526
    · exact Or.inl (Or.inl (Or.inr (htags.mpr ⟨by omega, by omega⟩)))
    · by_cases h₃ : off img.parseAt x < 542
      · exact Or.inl (Or.inr (hlist.mpr ⟨by omega, by omega⟩))
      · exact Or.inr (hcount.mpr ⟨by omega, by omega⟩)

/-- The registers and memory of `doParse` where `parseMessage` ends. -/
theorem doParse_ends (img : Image) (s : Bot) :
    (doParse img s).mem = (parseMessage img (parseCall img s)).mem
      ∧ (doParse img s).cx = (parseMessage img (parseCall img s)).cx := by
  rw [doParse_eq, parseThen]
  generalize parseMessage img (parseCall img s) = t
  split
  · exact ⟨rfl, rfl⟩
  · exact ⟨rfl, rfl⟩

/-- How much room an accepted line leaves. -/
theorem doParse_room {inp : List Byte} {msg : Irc.Msg}
    (h : Given img inp s) (hparse : Irc.parse 512 inp = some msg) :
    (doParse img s).cx.toNat + msg.bytes.length = 512 := by
  rw [(doParse_ends img s).2]
  have hout := parseMessage_spec h.stage
  rw [Irc.parse, Option.bind_eq_some_iff] at hparse
  obtain ⟨⟨msg', rest⟩, hmsg, hlast⟩ := hparse
  change (if rest = [] then some msg' else none) = some msg at hlast
  split at hlast
  · cases hlast
    rw [hmsg] at hout
    exact hout.2.1.room
  · cases hlast

variable (img) in
/-- Whatever it is given, `doParse` stores to its own variables, and `di`
is where `cx` says: so it is called, each of its routines keeps it so, the
code around a parameter too, and so it is wherever `parseMessage` ends.
What it accepts lies packed in `parseBuffer`, and is in the line in the
same order. -/
theorem doParse_layout (s : Bot) :
    (∃ p k, Safe img (parseCall img s) p k (parseCall img s))
      ∧ (∀ f, Routine img f → ∀ p k, Keeps img (parseCall img s) p k f)
      ∧ (∀ j < 4, ∀ k t,
        Safe img (parseCall img s) (img.varAt (6 + 2 * j)) k t →
          Safe img (parseCall img s) (img.varAt (6 + 2 * j)) k (beginParam t)
            ∧ Safe img (parseCall img s) (img.varAt (6 + 2 * (j + 1))) k
              (endParam t))
      ∧ Set.EqOn (doParse img s).mem s.mem (parseVars img)ᶜ
      ∧ (parseMessage img (parseCall img s)).cx.toNat
        ≤ parseBufferLenMax.toNat
      ∧ (parseMessage img (parseCall img s)).di = img.parseBuffer
        + BitVec.ofNat 16 (parseBufferLenMax.toNat
          - (parseMessage img (parseCall img s)).cx.toNat)
      ∧ ∀ inp, Given img inp s → (doParse img s).cf = false →
        Packed img.parseBuffer (spans img (doParse img s).mem)
            (img.parseBuffer + BitVec.ofNat 16
              (parseBufferLenMax.toNat - (doParse img s).cx.toNat))
          ∧ ((spans img (doParse img s).mem).map fun span =>
              span.2.toNat).sum
            = parseBufferLenMax.toNat - (doParse img s).cx.toNat
          ∧ Scattered ((spans img (doParse img s).mem).map fun span =>
              (doParse img s).mem.read span.1 span.2.toNat) inp := by
  have hmem : (parseCall img s).mem = s.mem := by rw [parseCall]
  have hstart : Safe img (parseCall img s) (parseCall img s).bp
      (img.vars (parseCall img s).mem 14) (parseCall img s) := by
    have hcx : (parseCall img s).cx = parseBufferLenMax := by rw [parseCall]
    have hdi : (parseCall img s).di = img.parseBuffer := by rw [parseCall]
    refine ⟨fun _ _ => rfl, ?_, ?_, rfl, rfl⟩
    · rw [hcx]
    · rw [hcx, hdi, Nat.sub_self, BitVec.add_zero]
  obtain ⟨p, k, hsafe⟩ := parseMessage_safe hstart
  refine ⟨⟨_, _, hstart⟩, fun f hf p k => hf.keeps,
    fun j hj k t ht => param_keeps hj ht, fun x hx => ?_, hsafe.room,
    hsafe.dest, fun inp h hcf => ?_⟩
  · rw [(doParse_ends img s).1, ← hmem]
    exact hsafe.outside fun hx' => hx (parseStores_subset hx')
  · obtain ⟨hcf', hmsg, -⟩ := doParse_spec h
    rw [hcf] at hcf'
    obtain ⟨msg, hparse⟩ : ∃ msg, Irc.parse 512 inp = some msg := by
      cases hp : Irc.parse 512 inp with
      | none =>
          rw [hp] at hcf'
          cases hcf'
      | some msg => exact ⟨msg, rfl⟩
    have hparsed := hmsg msg hparse
    have hroom := doParse_room h hparse
    have hfits := hparsed.fits
    have hmax : parseBufferLenMax.toNat = 512 := rfl
    have hused : parseBufferLenMax.toNat - (doParse img s).cx.toNat
        = (parts msg).flatten.length := by
      rw [flatten_parts]
      omega
    have hlen : (parts msg).flatten.length < 2 ^ 16 := by
      rw [flatten_parts]
      omega
    have hread : (doParse img s).mem.read img.parseBuffer
        (parts msg).flatten.length = (parts msg).flatten := by
      rw [flatten_parts]
      exact hparsed.copied
    rw [hparsed.spans, hused]
    refine ⟨packed_place _ _, place_total _ _ hlen, ?_⟩
    rw [place_read hlen hread]
    exact (Irc.parse_sound hparse).1.scattered

theorem doParse_layout_ping :
    Packed (Image.parseBuffer default)
      (spans default (doParse default
        (withLine default default (ascii "PING :x" ++ crlf))).mem)
      (Image.parseBuffer default + BitVec.ofNat 16
        (parseBufferLenMax.toNat - (doParse default
          (withLine default default (ascii "PING :x" ++ crlf))).cx.toNat)) := by
  have hgiven : Given default (ascii "PING :x" ++ crlf)
      (withLine default default (ascii "PING :x" ++ crlf)) :=
    given_withLine default (by decide)
  have hcf := (doParse_spec hgiven).1
  have hsome : Irc.parse 512 (ascii "PING :x" ++ crlf)
      = some ⟨[], [], ascii "PING", [ascii "x"]⟩ := by
    decide +kernel
  rw [hsome] at hcf
  exact ((doParse_layout default _).2.2.2.2.2.2 _ hgiven hcf).1

end Pdtb.Asm
