/-
What a sequence of writer calls comes to. A call has a text of its own
(`Call.text`), and a sequence of calls puts the texts in a row, cut off
where the room ends, wherever that falls: between two calls, inside a
string, between a sign and its digits.

`Emits` is `Cpu.emit` seen by the next writer: memory, the place and the
room. The other registers differ from writer to writer, and the next
call loads its own.
-/
import Pdtb.Proofs.Decimal

namespace Pdtb.Asm

open Lib

-- ==================================================== calls

/-- A call of a writer, with what its registers are loaded with. -/
inductive Call
  | char (v : Word)
  | str (p n : Word)
  | num (n pad : Word)
  | signed (n pad : Word)

namespace Call

/-- Load the registers and call the writer. -/
def run : Call → Bot → Bot
  | char v, s => writeChar { s with ax := v }
  | str p n, s => writeStr { s with si := p, bx := n }
  | num n pad, s => writeNum { s with ax := n, bx := pad }
  | signed n pad, s => writeNumSigned { s with ax := n, bx := pad }

/-- What the call writes when there is room. -/
def text (m : Mem 16 Byte) : Call → List Byte
  | char v => [loByte v]
  | str p n => m.read p n.toNat
  | num n pad => numText n pad
  | signed n pad => numTextSigned n pad

/-- What the call reads of memory. -/
def source : Call → Set Word
  | str p n => region p n.toNat
  | _ => ∅

end Call

/-- One call after another. -/
def runCalls (cs : List Call) (s : Bot) : Bot :=
  cs.foldl (fun s c => c.run s) s

/-- The texts of the calls in a row. -/
def texts (m : Mem 16 Byte) (cs : List Call) : List Byte :=
  cs.flatMap (Call.text m)

-- ==================================================== one call

/-- As far as the next writer can tell, `t` is `s` after `bs`. -/
structure Emits (s : Bot) (bs : List Byte) (t : Bot) : Prop where
  mem : t.mem = (s.emit bs).mem
  di : t.di = (s.emit bs).di
  cx : t.cx = (s.emit bs).cx

variable {s t u : Bot} {xs ys bs : List Byte}

theorem Emits.nil (s : Bot) : Emits s [] s := by
  apply Emits.mk <;> rw [Cpu.emit_nil]

theorem Emits.trans (h : Emits s xs t) (h' : Emits t ys u) :
    Emits s (xs ++ ys) u := by
  have hmem : (t.emit ys).mem = ((s.emit xs).emit ys).mem := by
    simp only [Cpu.emit, h.mem, h.di, h.cx]
  have hdi : (t.emit ys).di = ((s.emit xs).emit ys).di := by
    simp only [Cpu.emit, h.di, h.cx]
  have hcx : (t.emit ys).cx = ((s.emit xs).emit ys).cx := by
    simp only [Cpu.emit, h.cx]
  rw [Cpu.emit_append] at hmem hdi hcx
  exact ⟨h'.mem.trans hmem, h'.di.trans hdi, h'.cx.trans hcx⟩

/-- How much of a text there is room for. -/
def fitting (s : Bot) (bs : List Byte) : Nat := min s.cx.toNat bs.length

theorem length_take_fitting (s : Bot) (bs : List Byte) :
    (bs.take s.cx.toNat).length = fitting s bs :=
  List.length_take

theorem Emits.place (h : Emits s bs t) :
    t.di = s.di + BitVec.ofNat 16 (fitting s bs) := by
  rw [h.di, ← length_take_fitting]
  rfl

theorem Emits.room (h : Emits s bs t) :
    t.cx.toNat = s.cx.toNat - fitting s bs := by
  rw [h.cx, Cpu.emit_cx_toNat, fitting]
  omega

theorem Emits.eqOn (h : Emits s bs t) :
    Set.EqOn t.mem s.mem (region s.di (fitting s bs))ᶜ := by
  rw [h.mem, ← length_take_fitting]
  exact Mem.write_eqOn _ _ _

theorem Emits.read (h : Emits s bs t) :
    t.mem.read s.di (fitting s bs) = bs.take (fitting s bs) := by
  have htext := emitted_text s bs
  rw [length_take_fitting] at htext
  rw [h.mem, htext, fitting]
  exact (List.take_eq_take_min).trans rfl

/-- A call writes its text, as far as there is room, if it does not read
where it writes. -/
theorem Call.run_emits (c : Call)
    (hd : Disjoint c.source (region s.di (fitting s (c.text s.mem)))) :
    Emits s (c.text s.mem) (c.run s) := by
  cases c with
  | char v =>
      rw [Call.run, writeChar_eq]
      exact ⟨rfl, rfl, rfl⟩
  | str p n =>
      have hfit : fitting s (s.mem.read p n.toNat)
          = min n.toNat s.cx.toNat := by
        rw [fitting, Mem.length_read, Nat.min_comm]
      rw [Call.text, hfit] at hd
      rw [Call.run, writeStr_eq]
      · exact ⟨rfl, rfl, rfl⟩
      · exact hd.mono_left (region_mono (Nat.min_le_left _ _))
  | num n pad =>
      rw [Call.run, writeNum_eq]
      exact ⟨rfl, rfl, rfl⟩
  | signed n pad =>
      rw [Call.run, writeNumSigned_eq]
      exact ⟨rfl, rfl, rfl⟩

/-- What a call does not read may change. -/
theorem Call.text_congr {m m' : Mem 16 Byte} (c : Call)
    (h : Set.EqOn m m' c.source) : c.text m = c.text m' := by
  cases c with
  | str p n => exact Mem.read_congr (Nat.le_of_lt n.isLt) h
  | char v => rfl
  | num n pad => rfl
  | signed n pad => rfl

-- ==================================================== all calls

theorem texts_cons (m : Mem 16 Byte) (c : Call) (cs : List Call) :
    texts m (c :: cs) = c.text m ++ texts m cs :=
  List.flatMap_cons

theorem texts_congr {m m' : Mem 16 Byte} {cs : List Call}
    (h : ∀ c ∈ cs, Set.EqOn m m' c.source) : texts m cs = texts m' cs := by
  induction cs with
  | nil => rfl
  | cons c cs ih =>
      have hhead := c.text_congr (h c List.mem_cons_self)
      have htail := ih fun d hd => h d (List.mem_cons_of_mem c hd)
      rw [texts_cons, texts_cons, hhead, htail]

/-- What fits of the second text lies behind what fits of the first, and
is part of what fits of both. -/
theorem Emits.rest_subset (h : Emits s xs t) (ys : List Byte) :
    region t.di (fitting t ys) ⊆ region s.di (fitting s (xs ++ ys)) := by
  rw [h.place]
  apply region_subset
  have hroom := h.room
  have hlen : (xs ++ ys).length = xs.length + ys.length :=
    List.length_append
  unfold fitting at hroom ⊢
  omega

theorem fitting_append_left (s : Bot) (xs ys : List Byte) :
    fitting s xs ≤ fitting s (xs ++ ys) := by
  have hlen : (xs ++ ys).length = xs.length + ys.length :=
    List.length_append
  unfold fitting
  omega

/-- Induction on the calls: a call is apart from what the rest writes,
so the rest finds its sources as they were. -/
theorem runCalls_emits (cs : List Call) :
    ∀ s : Bot, (∀ c ∈ cs, Disjoint c.source
        (region s.di (fitting s (texts s.mem cs)))) →
      Emits s (texts s.mem cs) (runCalls cs s) := by
  induction cs with
  | nil =>
      intro s _
      exact Emits.nil s
  | cons c cs ih =>
      intro s hd
      rw [texts_cons] at hd ⊢
      have hfirst : Emits s (c.text s.mem) (c.run s) := by
        apply c.run_emits
        exact (hd c List.mem_cons_self).mono_right
          (region_mono (fitting_append_left s _ _))
      have hsame : texts (c.run s).mem cs = texts s.mem cs := by
        apply texts_congr
        intro d hmem x hx
        apply hfirst.eqOn
        intro hx'
        refine Set.disjoint_left.mp (hd d (List.mem_cons_of_mem c hmem)) hx ?_
        exact region_mono (fitting_append_left s _ _) hx'
      have hrest := ih (c.run s) fun d hmem => by
        rw [hsame]
        exact (hd d (List.mem_cons_of_mem c hmem)).mono_right
          (hfirst.rest_subset _)
      rw [hsame] at hrest
      exact hfirst.trans hrest

/-- A call that has room writes its text. -/
theorem Call.run_written (c : Call)
    (hroom : (c.text u.mem).length ≤ u.cx.toNat)
    (hd : Disjoint c.source (region u.di (c.text u.mem).length)) :
    written u (c.run u) = c.text u.mem := by
  have hfit : fitting u (c.text u.mem) = (c.text u.mem).length :=
    Nat.min_eq_right hroom
  have hrun : Emits u (c.text u.mem) (c.run u) := by
    apply c.run_emits
    rw [hfit]
    exact hd
  rw [written, hrun.mem, hrun.di]
  exact written_emit u hroom

/-- A sequence of writers fills the room with the first bytes of their
texts in a row, and nothing else: `W` is what the calls write when each
has room, and of it as much is there as the room goes. The sources have
to be apart from what is filled. -/
theorem runCalls_writes (cs : List Call) (s : Bot) (W : List Byte) (k : Nat)
    (hW : W = texts s.mem cs) (hk : k = min s.cx.toNat W.length)
    (hd : ∀ c ∈ cs, Disjoint c.source (region s.di k)) :
    (runCalls cs s).mem.read s.di k = W.take k
      ∧ (runCalls cs s).di = s.di + BitVec.ofNat 16 k
      ∧ (runCalls cs s).cx.toNat = s.cx.toNat - k
      ∧ Set.EqOn (runCalls cs s).mem s.mem (region s.di k)ᶜ
      ∧ ∀ c ∈ cs, ∀ u : Bot, u.mem = s.mem →
          (c.text s.mem).length ≤ u.cx.toNat →
          Disjoint c.source (region u.di (c.text s.mem).length) →
          written u (c.run u) = c.text s.mem := by
  have hfit : fitting s W = k := hk.symm
  have hall : Emits s W (runCalls cs s) := by
    rw [hW]
    apply runCalls_emits
    rw [← hW, hfit]
    exact hd
  refine ⟨?_, ?_, ?_, ?_, ?_⟩
  · rw [← hfit]
    exact hall.read
  · rw [← hfit]
    exact hall.place
  · rw [← hfit]
    exact hall.room
  · rw [← hfit]
    exact hall.eqOn
  · intro c _ u hu hroom hapart
    rw [← hu] at hroom hapart ⊢
    exact c.run_written hroom hapart

/-- `ok`, 42 and -7 in six bytes of room: the exclamation mark is
dropped. -/
theorem runCalls_writes_full :
    ∃ s : Bot, s.cx = 6
      ∧ (runCalls [.str 0x100 2, .num 42 0, .signed (-7) 0, .char 0x21]
        s).mem.read s.di 6 = [0x6F, 0x6B, 0x34, 0x32, 0x2D, 0x37] := by
  obtain ⟨s, hs⟩ : ∃ s : Bot, s = { (default : Bot) with
    cx := 6, mem := Mem.write (fun _ => 0) 0x100 [0x6F, 0x6B] } := ⟨_, rfl⟩
  have hW : [0x6F, 0x6B, 0x34, 0x32, 0x2D, 0x37, 0x21] = texts s.mem
      [.str 0x100 2, .num 42 0, .signed (-7) 0, .char 0x21] := by
    rw [hs]
    decide +kernel
  have happart : Disjoint (region (0x100 : Word) 2) (region 0 6) :=
    (region_disjoint (a := (0 : Word)) (i := 0) (n := 6) (j := 0x100) (k := 2)
      (by decide) (by decide)).symm
  have h := runCalls_writes
    [.str 0x100 2, .num 42 0, .signed (-7) 0, .char 0x21] s _ 6 hW
    (by rw [hs]; rfl) fun c hc => by
      rw [hs]
      simp only [List.mem_cons, List.not_mem_nil, or_false] at hc
      rcases hc with rfl | rfl | rfl | rfl
      · exact happart
      · exact Set.empty_disjoint _
      · exact Set.empty_disjoint _
      · exact Set.empty_disjoint _
  exact ⟨s, by rw [hs], h.1⟩

end Pdtb.Asm
