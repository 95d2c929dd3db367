/-
What a log record is and what logging leaves alone. `logGeneral` writes
the first 512 bytes of time stamp, tag, line and CR LF to both handles;
of memory it changes `logBuffer` only, and of the registers it changes
`dx` only, which DOS's date call overwrites and nothing restores.
-/
import Pdtb.Asm.Log
import Pdtb.Proofs.String

namespace Pdtb.Asm

open Lib Dos

-- ==================================================== the calls made

theorem int21_getDate {s : Bot} (h : s.ax = 0x2A00) :
    int21 s = getDate s := by
  have hah : s.ah = 0x2A := by rw [Cpu.ah, h]; decide
  simp [int21, hah]

theorem int21_getTime {s : Bot} (h : s.ax = 0x2C00) :
    int21 s = getTime s := by
  have hah : s.ah = 0x2C := by rw [Cpu.ah, h]; decide
  simp [int21, hah]

theorem int21_writeFile {s : Bot} (h : s.ax = 0x4000) :
    int21 s = writeFile s := by
  have hah : s.ah = 0x40 := by rw [Cpu.ah, h]; decide
  simp [int21, hah]

-- ==================================================== the time stamp

/-- `YYYY-MM-DDTHH:MM:SS`, the time read at `t` and the date at `d`. -/
def timestamp (t d : Clock) : List Byte :=
  numText d.year 4 ++ [0x2D]
    ++ numText (mkWord 0 d.month) 2 ++ [0x2D]
    ++ numText (mkWord 0 d.day) 2 ++ [0x54]
    ++ numText (mkWord 0 t.hour) 2 ++ [0x3A]
    ++ numText (mkWord 0 t.minute) 2 ++ [0x3A]
    ++ numText (mkWord 0 t.second) 2

/-- The frame of `createTimestamp`, the last word pushed first. -/
def stampFrame (s : Bot) (t d : Clock) : List Word :=
  [s.cx, s.di, d.year, mkWord 0 d.month, mkWord 0 d.day, mkWord 0 t.hour,
    mkWord 0 t.minute, mkWord 0 t.second]

theorem readClock_eq (s : Bot) :
    readClock s = { s with
      ax := mkWord 0 (s.dev.clock (s.dev.now + 1)).month
      cx := (s.dev.clock (s.dev.now + 1)).year
      dx := mkWord (s.dev.clock (s.dev.now + 1)).month
        (s.dev.clock (s.dev.now + 1)).day
      bp := -BitVec.ofNat 16 (2 * (s.bp :: s.stack).length)
      stack := stampFrame s (s.dev.clock s.dev.now)
        (s.dev.clock (s.dev.now + 1)) ++ s.bp :: s.stack
      dev := { s.dev with now := s.dev.now + 2 } } := by
  have hbelow : ∀ (ax bx cx dx si di : Word) (cf zf : Bool)
      (mem : Mem 16 Byte) (dev : Dos) (a b c d e f g h : Word),
      Cpu.below ⟨ax, bx, cx, dx, si, di,
        -BitVec.ofNat 16 (2 * (s.bp :: s.stack).length), cf, zf, mem,
        a :: b :: c :: d :: e :: f :: g :: h :: s.bp :: s.stack, dev⟩ = 8 :=
    fun _ _ _ _ _ _ _ _ _ _ a b c d e f g h => Cpu.below_frame
      [a, b, c, d, e, f, g, h] (s.bp :: s.stack) rfl rfl
      (by simp)
  simp only [readClock, Cpu.push, Cpu.sp, Cpu.reserve, List.replicate,
    List.cons_append, List.nil_append, Cpu.setSlot, hbelow, Nat.reduceSub,
    List.set_cons_succ, List.set_cons_zero, int21_getTime, int21_getDate,
    getTime, getDate, Cpu.setAl, Cpu.setAh, Cpu.ah, Cpu.al, hiByte_mkWord,
    loByte_mkWord, stampFrame]

theorem createTimestamp_eq (s : Bot) :
    createTimestamp s
      = { s.emit (timestamp (s.dev.clock s.dev.now)
            (s.dev.clock (s.dev.now + 1))) with
          ax := 0
          bx := 0
          si := 0
          dx := mkWord (s.dev.clock (s.dev.now + 1)).month
            (s.dev.clock (s.dev.now + 1)).day
          dev := { s.dev with now := s.dev.now + 2 } } := by
  obtain ⟨a, ha⟩ : ∃ a, a = readClock s := ⟨_, rfl⟩
  have hread := readClock_eq s
  rw [← ha] at hread
  have hframe : a.stack = stampFrame s (s.dev.clock s.dev.now)
      (s.dev.clock (s.dev.now + 1)) ++ s.bp :: s.stack := by rw [hread]
  have hbelow : a.below = 8 :=
    Cpu.below_frame _ _ hframe (by rw [hread]) (by simp [stampFrame])
  -- nothing that follows moves the frame
  have hslot : ∀ (ax bx cx dx si di : Word) (cf zf : Bool)
      (mem : Mem 16 Byte) (dev : Dos) (k : Nat),
      Cpu.slot ⟨ax, bx, cx, dx, si, di, a.bp, cf, zf, mem, a.stack, dev⟩ k
        = (stampFrame s (s.dev.clock s.dev.now)
          (s.dev.clock (s.dev.now + 1)) ++ s.bp :: s.stack).getD (8 - k) 0 := by
    intros
    rw [← hframe, ← hbelow]
    rfl
  have hleave : ∀ (ax bx cx dx si di : Word) (cf zf : Bool)
      (mem : Mem 16 Byte) (dev : Dos),
      Cpu.leave ⟨ax, bx, cx, dx, si, di, a.bp, cf, zf, mem, a.stack, dev⟩
        = ⟨ax, bx, cx, dx, si, di, a.bp, cf, zf, mem, s.bp :: s.stack,
          dev⟩ := by
    intro ax bx cx dx si di cf zf mem dev
    have hdrop : a.stack.drop a.below = s.bp :: s.stack := by
      rw [hbelow, hframe]
      rfl
    rw [← hdrop]
    rfl
  have hmem : a.mem = s.mem := by rw [hread]
  unfold createTimestamp
  rw [← ha]
  simp only [hslot, stampFrame, List.cons_append, Nat.reduceSub,
    List.getD_cons_succ, List.getD_cons_zero, hmem, writeNum_eq,
    writeChar_eq, Cpu.emit_mk, Cpu.emit_append, hleave, Cpu.pop, Cpu.top,
    List.headD_cons, List.tail_cons]
  rw [hread]
  rfl

-- ==================================================== the record

/-- Both handles get the block: the log file and the screen. -/
theorem writeLog_eq (img : Image) (s : Bot) :
    writeLog img s
      = { s with
          cf := false
          dev := { s.dev with written := s.dev.written
            ++ [(s.mem.word img.logHandle, s.mem.read s.ax s.cx.toNat),
              (1, s.mem.read s.ax s.cx.toNat)] } } := by
  simp [writeLog, int21_writeFile, writeFile, Cpu.push, Cpu.pop,
    Cpu.top]

/-- The record, before it is cut to `logBuffer`'s size. -/
def logRecord (t d : Clock) (tag line : List Byte) : List Byte :=
  timestamp t d ++ [space] ++ tag ++ [space] ++ line ++ crlf

/-- The record `logGeneral` makes of its arguments. -/
def logged (s : Bot) : List Byte :=
  (logRecord (s.dev.clock s.dev.now) (s.dev.clock (s.dev.now + 1))
    (s.mem.read s.ax s.bx.toNat) (s.mem.read s.si s.cx.toNat)).take 512

theorem logBuffer_disjoint_logHandle (img : Image) :
    Disjoint (region img.logHandle 2) (region img.logBuffer 512) := by
  have hfits := img.log_fits
  unfold logSize at hfits
  refine Apart.disjoint (p := (img.logHandle, 2)) (q := (img.logBuffer, 512))
    ?_ ?_ (Or.inl ?_) <;> simp only [Image.logHandle, Image.logBuffer]
  · omega
  · bv_omega
  · bv_omega

/-- How much of the tag a record has room for. -/
def tagRoom (s : Bot) : Nat :=
  512 - ((timestamp (s.dev.clock s.dev.now)
    (s.dev.clock (s.dev.now + 1))).length + 1)

/-- `logGeneral` in closed form, for a tag and a line of which lies
outside `logBuffer` what the record has room for. -/
theorem logGeneral_apart (img : Image) (s : Bot)
    (htag : Disjoint (region s.ax (min s.bx.toNat (tagRoom s)))
      (region img.logBuffer 512))
    (hline : Disjoint
      (region s.si (min s.cx.toNat (tagRoom s - (s.bx.toNat + 1))))
      (region img.logBuffer 512)) :
    logGeneral img s = { s with
      dx := mkWord (s.dev.clock (s.dev.now + 1)).month
        (s.dev.clock (s.dev.now + 1)).day
      cf := false
      mem := s.mem.write img.logBuffer (logged s)
      dev := { s.dev with
        now := s.dev.now + 2
        written := s.dev.written
          ++ [(s.mem.word img.logHandle, logged s), (1, logged s)] } } := by
  -- the processor as the record is begun
  obtain ⟨b, hb⟩ : ∃ b : Bot, b = { s with
      di := img.logBuffer
      cx := logBufferLen
      stack := s.bx :: s.ax :: s.cx :: s.si :: s.di :: s.cx :: s.bx
        :: s.si :: s.ax :: s.stack } := ⟨_, rfl⟩
  have hdi : b.di = img.logBuffer := by rw [hb]
  have hcx : b.cx.toNat = 512 := by rw [hb]; rfl
  have hbuf : region b.di b.cx.toNat = region img.logBuffer 512 := by
    rw [hdi, hcx]
  have hstack : b.stack = s.bx :: s.ax :: s.cx :: s.si :: s.di :: s.cx
      :: s.bx :: s.si :: s.ax :: s.stack := by rw [hb]
  -- what is in the buffer before the tag, and before the line
  obtain ⟨X, hX⟩ : ∃ X, X = timestamp (b.dev.clock b.dev.now)
      (b.dev.clock (b.dev.now + 1)) ++ [loByte 32] := ⟨_, rfl⟩
  obtain ⟨Y, hY⟩ : ∃ Y, Y = X ++ b.mem.read s.ax s.bx.toNat ++ [loByte 32] :=
    ⟨_, rfl⟩
  have hXroom : b.cx.toNat - X.length = tagRoom s := by
    rw [hcx, hX, hb, tagRoom, List.length_append, List.length_singleton]
  have hYroom : b.cx.toNat - Y.length = tagRoom s - (s.bx.toNat + 1) := by
    rw [hY, ← hXroom, List.length_append, List.length_append,
      Mem.length_read, List.length_singleton]
    omega
  rw [← hbuf, ← hXroom] at htag
  rw [← hbuf, ← hYroom] at hline
  have htag' := writeStr_emitted X htag
  have hline' := writeStr_emitted Y hline
  -- the whole record, and what of it is in the buffer at the end
  obtain ⟨W, hW⟩ : ∃ W, W = logRecord (s.dev.clock s.dev.now)
      (s.dev.clock (s.dev.now + 1)) (s.mem.read s.ax s.bx.toNat)
      (s.mem.read s.si s.cx.toNat) := ⟨_, rfl⟩
  have hWb : Y ++ b.mem.read s.si s.cx.toNat ++ [loByte 13] ++ [loByte 10]
      = W := by
    rw [hY, hX, hW, hb]
    simp only [logRecord, crlf, List.append_assoc]
    rfl
  have hmem : (b.emit W).mem = s.mem.write img.logBuffer (W.take 512) := by
    rw [Cpu.emit, hcx, hdi, hb]
  have hcount : (logBufferLen - (b.emit W).cx).toNat
      = (W.take 512).length := by
    have h := emitted_count b W
    rw [hcx] at h
    rw [← h, hb]
  have htext : (b.emit W).mem.read img.logBuffer (W.take 512).length
      = W.take 512 := by
    have h := emitted_text b W
    rwa [hcx, hdi] at h
  have hhandle : (b.emit W).mem.word img.logHandle
      = s.mem.word img.logHandle := by
    have hd := logBuffer_disjoint_logHandle img
    rw [hmem]
    refine Mem.word_congr fun x hx => Mem.write_of_notMem fun hx' => ?_
    refine Set.disjoint_left.mp hd hx (region_mono ?_ hx')
    rw [List.length_take]
    omega
  simp only [logGeneral, Cpu.push, ← hb, Cpu.pop, Cpu.top,
    createTimestamp_eq, writeChar_eq, Cpu.emit_mk, Cpu.emit_append,
    Cpu.emit_stack, hstack, List.headD_cons, List.tail_cons, Cpu.al,
    writeLog_eq, ← hX, htag', ← hY, hline', hWb]
  simp only [hcount, htext, hhandle]
  simp only [hmem, logged, ← hW, Cpu.emit_bp, Cpu.emit_zf]
  rw [hb]

/-- `logGeneral` in closed form, for a tag and a line that lie outside
`logBuffer`. -/
theorem logGeneral_eq (img : Image) (s : Bot)
    (htag : Disjoint (region s.ax s.bx.toNat) (region img.logBuffer 512))
    (hline : Disjoint (region s.si s.cx.toNat)
      (region img.logBuffer 512)) :
    logGeneral img s = { s with
      dx := mkWord (s.dev.clock (s.dev.now + 1)).month
        (s.dev.clock (s.dev.now + 1)).day
      cf := false
      mem := s.mem.write img.logBuffer (logged s)
      dev := { s.dev with
        now := s.dev.now + 2
        written := s.dev.written
          ++ [(s.mem.word img.logHandle, logged s), (1, logged s)] } } := by
  apply logGeneral_apart
  · exact htag.mono_left (region_mono (Nat.min_le_left _ _))
  · exact hline.mono_left (region_mono (Nat.min_le_left _ _))

end Pdtb.Asm
