/-
The first and the last message. `dispatchInit` reads the credentials and
sets the state; `dispatchExit` says goodbye. What `readAuth` comes to
depends on DOS alone (`credentials`).
-/
import Pdtb.Proofs.Dispatch

namespace Pdtb.Asm

open Lib Dos Irc

variable {img : Image} {s : Bot}

-- ==================================================== the calls made

theorem int21_openFile {s : Bot} (h : s.ax = 0x3D00) :
    int21 s = openFile s := by
  have hah : s.ah = 0x3D := by rw [Cpu.ah, h]; decide
  simp [int21, hah]

theorem int21_closeFile {s : Bot} (h : s.ax = 0x3E00) :
    int21 s = closeFile s := by
  have hah : s.ah = 0x3E := by rw [Cpu.ah, h]; decide
  simp [int21, hah]

theorem int21_readFile {s : Bot} (h : s.ax = 0x3F00) :
    int21 s = readFile s := by
  have hah : s.ah = 0x3F := by rw [Cpu.ah, h]; decide
  simp [int21, hah]

-- ==================================================== the credentials

/-- The credentials as `readAuth` gets them, if it does. -/
def credentials (d : Dos) : Option (List Byte) :=
  if d.authEnv = 0 then none
  else
    match d.authOpen, d.authRead with
    | .ok _, .ok file => some (file.take 512)
    | _, _ => none

theorem readAuth_some {cs : List Byte} (h : credentials s.dev = some cs) :
    readAuth img s = { s with
      ax := 0
      cf := false
      mem := (s.mem.write img.outBuffer cs).setWord img.outBufferLen
        (BitVec.ofNat 16 cs.length) } := by
  unfold credentials at h
  by_cases henv : s.dev.authEnv = 0
  · rw [if_pos henv] at h
    cases h
  · rw [if_neg henv] at h
    cases hopen : s.dev.authOpen with
    | error code =>
        rw [hopen] at h
        cases h
    | ok handle =>
        cases hread : s.dev.authRead with
        | error code =>
            rw [hopen, hread] at h
            cases h
        | ok file =>
            rw [hopen, hread] at h
            cases h
            simp [readAuth, getenv_, int21_openFile, int21_readFile,
              int21_closeFile, openFile, readFile, closeFile, Cpu.push,
              Cpu.pop, Cpu.top, hopen, hread, outBufferMax]
            exact henv

theorem readAuth_unset (henv : s.dev.authEnv = 0) :
    readAuth img s = { s with ax := -1 } := by
  simp [readAuth, getenv_, Cpu.push, Cpu.pop, Cpu.top, henv]

theorem readAuth_unopened {code : Word} (henv : s.dev.authEnv ≠ 0)
    (hopen : s.dev.authOpen = .error code) :
    readAuth img s = { s with ax := -2, cf := true } := by
  simp [readAuth, getenv_, int21_openFile, openFile, Cpu.push, Cpu.pop,
    Cpu.top, hopen]
  exact henv

variable (img) in
theorem readAuth_none (h : credentials s.dev = none) :
    ∃ ax cf m, ax ≠ 0 ∧ readAuth img s = { s with ax := ax, cf := cf, mem := m }
      ∧ Set.EqOn m s.mem (region img.outBufferLen 2)ᶜ := by
  unfold credentials at h
  by_cases henv : s.dev.authEnv = 0
  · exact ⟨-1, s.cf, s.mem, by decide, readAuth_unset henv,
      fun _ _ => rfl⟩
  · rw [if_neg henv] at h
    cases hopen : s.dev.authOpen with
    | error code =>
        exact ⟨-2, true, s.mem, by decide, readAuth_unopened henv hopen,
          fun _ _ => rfl⟩
    | ok handle =>
        cases hread : s.dev.authRead with
        | ok file =>
            rw [hopen, hread] at h
            cases h
        | error code =>
            refine ⟨-3, false, s.mem.setWord img.outBufferLen code,
              by decide, ?_, ?_⟩
            · simp [readAuth, getenv_, int21_openFile, int21_readFile,
                int21_closeFile, openFile, readFile, closeFile, Cpu.push,
                Cpu.pop, Cpu.top, hopen, hread]
              exact henv
            · exact fun x hx => Mem.setWord_eqOn _ _ _ hx

-- ==================================================== dispatchInit

/-- Memory as the program is loaded: the texts, and zeros where
`parse.nas` keeps its data. -/
structure Fresh (img : Image) (m : Mem 16 Byte) : Prop where
  loaded : Loaded img m
  zero : ∀ x ∈ img.parseData, m x = 0

/-- What `dispatchInit` returns with credentials `cs`. -/
structure Begun (img : Image) (cs : List Byte) (s t : Bot) : Prop where
  ax : t.ax = 0
  si : t.si = img.outBuffer
  cx : t.cx.toNat = cs.length
  short : cs.length ≤ 512
  read : t.mem.read img.outBuffer cs.length = cs
  state : t.mem.word img.botState = img.startState
  bx : t.bx = s.bx
  stack : t.stack = s.stack
  mem : Set.EqOn t.mem s.mem (img.outData ∪ img.logData)ᶜ

theorem credentials_length {d : Dos} {cs : List Byte}
    (h : credentials d = some cs) : cs.length ≤ 512 := by
  unfold credentials at h
  split at h
  · cases h
  · split at h
    · cases h
      rw [List.length_take]
      exact Nat.min_le_left _ _
    · cases h

theorem outBuffer_subset {n : Nat} (h : n ≤ 512) :
    region img.outBuffer n ⊆ img.outData :=
  region_mono (by unfold outSize; omega)

theorem outBufferLen_subset :
    region img.outBufferLen 2 ⊆ img.outData :=
  region_subset (a := img.outAt) (i := 512) (n := 2) (k := outSize)
    (by decide)

theorem botState_subset_outData :
    region img.botState 2 ⊆ img.outData :=
  region_subset (a := img.outAt) (i := 514) (n := 2) (k := outSize)
    (by decide)

theorem log_disjoint_outData : Disjoint img.logData img.outData :=
  img.log_disjoint_out.mono_right img.outData_subset_outReach

/-- The parts of `logic.nas`'s variables, apart from one another. -/
theorem outBuffer_disjoint_outBufferLen {n : Nat} (h : n ≤ 512) :
    Disjoint (region img.outBuffer n) (region img.outBufferLen 2) := by
  have hd := region_disjoint (a := img.outAt) (i := 0) (n := 512)
    (j := 512) (k := 2) (by omega) (by omega)
  rw [BitVec.add_zero] at hd
  exact hd.mono_left (region_mono h)

theorem outBuffer_disjoint_botState {n : Nat} (h : n ≤ 514) :
    Disjoint (region img.outBuffer n) (region img.botState 2) := by
  have hd := region_disjoint (a := img.outAt) (i := 0) (n := 514)
    (j := 514) (k := 2) (by omega) (by omega)
  rw [BitVec.add_zero] at hd
  exact hd.mono_left (region_mono h)

theorem outBufferLen_disjoint_botState :
    Disjoint (region img.outBufferLen 2) (region img.botState 2) :=
  region_disjoint (a := img.outAt) (i := 512) (n := 2) (j := 514) (k := 2)
    (by omega) (by omega)

variable (img) in
/-- Reading the credentials and reporting it. -/
theorem dispatchInit_some {cs : List Byte}
    (h : credentials s.dev = some cs) :
    Begun img cs s (dispatchInit img s) := by
  have hlen := credentials_length h
  obtain ⟨a, ha⟩ : ∃ a : Bot, a = { s with
    mem := s.mem.setWord img.botState img.startState } := ⟨_, rfl⟩
  obtain ⟨b, hb⟩ : ∃ b : Bot, b = { a with
    ax := 0
    cf := false
    mem := (a.mem.write img.outBuffer cs).setWord img.outBufferLen
      (BitVec.ofNat 16 cs.length) } := ⟨_, rfl⟩
  have hread : readAuth img a = b := by
    rw [hb]
    exact readAuth_some (by rw [ha]; exact h)
  have hlog := logLogic_logged img b .initMessage
  obtain ⟨c, hc⟩ : ∃ c, c = logLogic img (sayText img .initMessage b) :=
    ⟨_, rfl⟩
  rw [← hc] at hlog
  have hlogmem : Set.EqOn c.mem b.mem img.logDataᶜ := hlog.mem
  have hbax : b.ax = 0 := by rw [hb]
  obtain ⟨m₁, hm₁⟩ : ∃ m, m = (s.mem.setWord img.botState
    img.startState).write img.outBuffer cs := ⟨_, rfl⟩
  have hbmem : b.mem = m₁.setWord img.outBufferLen
      (BitVec.ofNat 16 cs.length) := by
    rw [hb, hm₁, ha]
  have hinit : dispatchInit img s
      = { c with si := img.outBuffer, cx := c.mem.word img.outBufferLen } := by
    simp only [dispatchInit, ← ha, hread, hbax, ne_eq, not_true_eq_false,
      ↓reduceIte, ← hc]
  have hcret := hlog.returned.1
  -- the log record is apart from `logic.nas`'s variables
  have hcmem : Set.EqOn c.mem b.mem img.outData := fun x hx =>
    hlogmem (Set.disjoint_right.mp log_disjoint_outData hx)
  have hcount : c.mem.word img.outBufferLen
      = BitVec.ofNat 16 cs.length := by
    rw [Mem.word_congr (hcmem.mono outBufferLen_subset), hbmem,
      Mem.word_setWord]
  have hwrite : ((s.mem.setWord img.botState img.startState).write
      img.outBuffer cs).word img.botState
        = (s.mem.setWord img.botState img.startState).word img.botState := by
    refine Mem.word_congr fun x hx => Mem.write_of_notMem ?_
    exact Set.disjoint_right.mp
      (outBuffer_disjoint_botState (by omega)) hx
  have hstate : c.mem.word img.botState = img.startState := by
    rw [Mem.word_congr (hcmem.mono botState_subset_outData), hbmem,
      Mem.word_setWord_disjoint outBufferLen_disjoint_botState.symm, hm₁,
      hwrite, Mem.word_setWord]
  rw [hinit]
  refine ⟨?_, rfl, ?_, hlen, ?_, hstate, ?_, ?_, ?_⟩
  · rw [hcret.ax, sayText_ax, hbax]
  · rw [hcount, BitVec.toNat_ofNat]
    omega
  · refine (Mem.read_congr (by omega)
      (hcmem.mono (outBuffer_subset hlen))).trans ?_
    have hread : b.mem.read img.outBuffer cs.length
        = m₁.read img.outBuffer cs.length := by
      rw [hbmem]
      refine Mem.read_congr (by omega) fun x hx => Mem.setWord_eqOn _ _ _ ?_
      exact Set.disjoint_left.mp (outBuffer_disjoint_outBufferLen hlen) hx
    rw [hread, hm₁]
    exact Mem.read_write _ _ (by omega)
  · rw [hcret.bx, sayText_bx, hb, ha]
  · rw [hcret.stack, sayText_stack, hb, ha]
  · intro x hx
    rw [Set.mem_compl_iff, Set.mem_union, not_or] at hx
    refine (hlogmem hx.2).trans ?_
    rw [hbmem, Mem.setWord_eqOn _ _ _ fun h =>
      hx.1 (outBufferLen_subset h), hm₁, Mem.write_of_notMem fun h =>
      hx.1 (outBuffer_subset hlen h), Mem.setWord_eqOn _ _ _ fun h =>
      hx.1 (botState_subset_outData h)]

variable (img) in
/-- Without credentials there is nothing to send. -/
theorem dispatchInit_none (h : credentials s.dev = none) :
    (dispatchInit img s).ax ≠ 0
      ∧ (dispatchInit img s).stack = s.stack
      ∧ (dispatchInit img s).mem.word img.botState = img.startState := by
  obtain ⟨a, ha⟩ : ∃ a : Bot, a = { s with
    mem := s.mem.setWord img.botState img.startState } := ⟨_, rfl⟩
  obtain ⟨ax, cf, m, hax, hread, hm⟩ := readAuth_none img (s := a)
    (by rw [ha]; exact h)
  obtain ⟨b, hb⟩ : ∃ b : Bot, b = { a with ax := ax, cf := cf, mem := m } :=
    ⟨_, rfl⟩
  have hbax : b.ax = ax := by rw [hb]
  have hlogged := logLogic_logged img b .authFailMessage
  have hlog := hlogged.returned.1
  have hinit : dispatchInit img s
      = logLogic img (sayText img .authFailMessage b) := by
    simp only [dispatchInit, ← ha, hread, ← hb, hbax, ne_eq, hax,
      not_false_eq_true, ↓reduceIte]
  rw [hinit]
  refine ⟨?_, ?_, ?_⟩
  · rw [hlog.ax, sayText_ax, hbax]
    exact hax
  · rw [hlog.stack, sayText_stack, hb, ha]
  · rw [Mem.word_congr (hlogged.mem.mono fun x hx => ?_), sayText_mem, hb,
      Mem.word_congr (hm.mono fun x hx => ?_), ha, Mem.word_setWord]
    · exact Set.disjoint_right.mp outBufferLen_disjoint_botState hx
    · exact Set.disjoint_right.mp log_disjoint_outData
        (botState_subset_outData hx)

/-- Memory once the bot has begun. -/
theorem Begun.alive {cs : List Byte} {t : Bot} (h : Begun img cs s t)
    (hfresh : Fresh img s.mem) :
    Alive img .start t.mem ∧ ∀ x ∈ img.parseData, t.mem x = 0 := by
  have hkeep : ∀ A : Set Word, Disjoint A img.outReach →
      Disjoint A img.logData → Set.EqOn t.mem s.mem A := by
    intro A hout hlog x hx
    refine h.mem ?_
    intro hor
    rcases hor with hx' | hx'
    · exact Set.disjoint_left.mp hout hx (img.outData_subset_outReach hx')
    · exact Set.disjoint_left.mp hlog hx hx'
  have hparse : ∀ x ∈ img.parseData, t.mem x = 0 := fun x hx =>
    (hkeep _ img.parse_disjoint_out img.parse_disjoint_log hx).trans
      (hfresh.zero x hx)
  refine ⟨⟨?_, h.state, hparse _ ?_⟩, hparse⟩
  · exact hfresh.loaded.congr
      (hkeep _ img.const_disjoint_out img.const_disjoint_log)
  · exact region_subset (a := img.parseAt) (i := 512) (n := 2)
      (k := parseSize) (by decide) (base_mem_region (by omega))

-- ==================================================== dispatchExit

/-- The goodbye. -/
structure Ended (img : Image) (s t : Bot) : Prop where
  si : t.si = img.text .quitMessage
  cx : t.cx.toNat = Text.quitMessage.bytes.length
  read : t.mem.read t.si t.cx.toNat = Text.quitMessage.bytes
  stack : t.stack = s.stack
  mem : Set.EqOn t.mem s.mem img.logDataᶜ

/-- What `logOutgoing` shows of the goodbye is one of the texts. -/
theorem quit_subset {s : Bot} :
    region (sayText img .quitMessage s).si
      ((sayText img .quitMessage s).cx - 1).toNat ⊆ img.constData := by
  rw [sayText_si]
  refine (region_mono ?_).trans (text_subset img .quitMessage)
  have hcx : (sayText img .quitMessage s).cx.toNat
      = Text.quitMessage.bytes.length := text_length .quitMessage
  have hlen : Text.quitMessage.bytes.length = 37 := by decide +kernel
  bv_omega

theorem dispatchExit_spec (hloaded : Loaded img s.mem) :
    Ended img s (dispatchExit img s) := by
  obtain ⟨a, ha⟩ : ∃ a, a = logLogic img (sayText img .exitMessage s) :=
    ⟨_, rfl⟩
  have hfirst := logLogic_logged img s .exitMessage
  rw [← ha] at hfirst
  obtain ⟨b, hb⟩ : ∃ b, b = sayText img .quitMessage a := ⟨_, rfl⟩
  have hsi : b.si = img.text .quitMessage := by rw [hb, sayText_si]
  have hcx : b.cx.toNat = Text.quitMessage.bytes.length := by
    rw [hb]
    exact text_length .quitMessage
  have hsecond : Logged img b (logOutgoing img b) := by
    rw [hb]
    exact logLine_logged .outgoingTag
      (img.const_disjoint_log.mono quit_subset img.logBuffer_subset)
  have hmem : Set.EqOn (logOutgoing img b).mem s.mem img.logDataᶜ := by
    intro x hx
    refine (hsecond.mem hx).trans ?_
    rw [hb]
    exact hfirst.mem hx
  have hexit : dispatchExit img s = logOutgoing img b := by
    rw [dispatchExit, ← ha, ← hb]
  obtain ⟨hret, hsi', hcx'⟩ := hsecond.returned
  rw [hexit]
  refine ⟨hsi'.trans hsi, by rw [hcx', hcx], ?_, ?_, hmem⟩
  · rw [hsi', hcx', hsi, hcx]
    refine Loaded.text (hloaded.congr fun x hx => hmem ?_) .quitMessage
    exact Set.disjoint_left.mp img.const_disjoint_log hx
  · rw [hret.stack, hb]
    exact hfirst.returned.1.stack

end Pdtb.Asm
