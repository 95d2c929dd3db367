/-
What the state handlers do. They compare bytes at a pointer and ignore
the lengths behind it, so what they react to is what `parseBuffer` shows
from a place on: the message and, behind it, what earlier lines left
there (`shown`). `act` is the handlers' answer in these terms.

A comparison that runs over the end of `parseBuffer` meets
`parseBufferLen`, which nothing ever stores to; that it is 0 there keeps
such a comparison from succeeding.
-/
import Pdtb.Proofs.Reply

namespace Pdtb.Asm

open Lib Irc

variable {img : Image} {msg : Msg} {m₀ m : Mem 16 Byte}

-- ==================================================== what is shown

/-- `parseBuffer` once `msg` is parsed, over memory `m₀`. -/
def shown (img : Image) (m₀ : Mem 16 Byte) (msg : Msg) : List Byte :=
  msg.bytes ++ m₀.read
    (img.parseBuffer + BitVec.ofNat 16 msg.bytes.length)
    (512 - msg.bytes.length)

/-- `pat` stands in `parseBuffer` at place `i`. -/
def Shows (img : Image) (m₀ : Mem 16 Byte) (msg : Msg) (i : Nat)
    (pat : List Byte) : Prop :=
  pat <+: (shown img m₀ msg).drop i

instance (i : Nat) (pat : List Byte) : Decidable (Shows img m₀ msg i pat) :=
  inferInstanceAs (Decidable (pat <+: (shown img m₀ msg).drop i))

theorem Parsed.read_buffer (h : Parsed img msg m₀ m) :
    m.read img.parseBuffer 512 = shown img m₀ msg := by
  have hfits := h.fits
  have hsum : 512 = msg.bytes.length + (512 - msg.bytes.length) := by omega
  rw [hsum, Mem.read_add, h.copied, shown]
  congr 1
  refine List.ext_getElem (by simp) fun i hi hi' => ?_
  rw [Mem.read_getElem _ _ hi, Mem.read_getElem _ _ hi', BitVec.add_assoc,
    ← BitVec.ofNat_add]
  rw [Mem.length_read] at hi
  exact h.stale _ (by omega) (by omega)

/-- What is at place `i` of `parseBuffer` is what it shows there. -/
theorem shows_iff (h : Parsed img msg m₀ m)
    (hzero : m img.parseBufferLen = 0) {i : Nat} (hi : i ≤ 512)
    {pat : List Byte} (hpat : (0 : Byte) ∉ pat) :
    m.read (img.parseBuffer + BitVec.ofNat 16 i) pat.length = pat
      ↔ Shows img m₀ msg i pat := by
  rw [Shows, List.prefix_iff_eq_take, ← h.read_buffer, Mem.drop_read,
    Mem.take_read]
  rcases Nat.lt_or_ge (512 - i) pat.length with hover | hin
  · -- the comparison runs into `parseBufferLen`
    constructor
    · intro heq
      have hcell : pat[512 - i] = 0 := by
        rw [← hzero]
        have hget := Mem.read_getElem m
          (img.parseBuffer + BitVec.ofNat 16 i) (n := pat.length)
          (i := 512 - i) (by rwa [Mem.length_read])
        rw [BitVec.add_assoc, ← BitVec.ofNat_add,
          show i + (512 - i) = 512 by omega] at hget
        rw [show img.parseBufferLen = img.parseBuffer + BitVec.ofNat 16 512
          from rfl, ← hget]
        exact getElem_congr_coll heq.symm
      exact absurd (hcell ▸ List.getElem_mem hover) hpat
    · intro heq
      have hlen := congrArg List.length heq
      rw [Mem.length_read] at hlen
      omega
  · rw [Nat.min_eq_left hin]
    exact eq_comm

variable (img) in
/-- What is shown from the command on. -/
theorem shown_cmd (m₀ : Mem 16 Byte) (msg : Msg) :
    ∃ ys, (shown img m₀ msg).drop (msg.tags ++ msg.pfx).length
      = msg.cmd ++ ys := by
  refine ⟨msg.params.flatten ++ m₀.read
    (img.parseBuffer + BitVec.ofNat 16 msg.bytes.length)
    (512 - msg.bytes.length), ?_⟩
  have hsplit : shown img m₀ msg = (msg.tags ++ msg.pfx) ++ (msg.cmd ++
      (msg.params.flatten ++ m₀.read
        (img.parseBuffer + BitVec.ofNat 16 msg.bytes.length)
        (512 - msg.bytes.length))) := by
    rw [shown]
    simp only [Msg.bytes, List.append_assoc]
  rw [hsplit, List.drop_left]

variable (img) in
/-- What is shown from parameter `i` on. -/
theorem shown_param (m₀ : Mem 16 Byte) {msg : Msg} {i : Nat}
    (hi : i < msg.params.length) :
    ∃ ys, (shown img m₀ msg).drop (msg.before i).length
      = msg.params[i] ++ ys := by
  refine ⟨(msg.params.drop (i + 1)).flatten ++ m₀.read
    (img.parseBuffer + BitVec.ofNat 16 msg.bytes.length)
    (512 - msg.bytes.length), ?_⟩
  have hsplit : shown img m₀ msg = msg.before i ++ (msg.params[i] ++
      ((msg.params.drop (i + 1)).flatten ++ m₀.read
        (img.parseBuffer + BitVec.ofNat 16 msg.bytes.length)
        (512 - msg.bytes.length))) := by
    rw [shown]
    conv => enter [1, 1]; rw [msg.bytes_split hi]
    simp only [List.append_assoc]
  rw [hsplit, List.drop_left]

-- ==================================================== the answer

/-- `startState` sees a 004. -/
def Starts (img : Image) (m₀ : Mem 16 Byte) (msg : Msg) : Prop :=
  Shows img m₀ msg (msg.tags ++ msg.pfx).length (ascii "004")

/-- `idleState` sees a PING. -/
def Pings (img : Image) (m₀ : Mem 16 Byte) (msg : Msg) : Prop :=
  Shows img m₀ msg (msg.tags ++ msg.pfx).length (ascii "PI")

/-- `idleState` sees a greeting: in the second parameter, or behind the
null pointer if there is none. -/
def Hails (img : Image) (m₀ : Mem 16 Byte) (msg : Msg) : Prop :=
  if 1 < msg.params.length then
    Shows img m₀ msg (msg.before 1).length greeting
  else m₀.read 0 greeting.length = greeting

instance : Decidable (Starts img m₀ msg) :=
  inferInstanceAs (Decidable (Shows img m₀ msg _ _))

instance : Decidable (Pings img m₀ msg) :=
  inferInstanceAs (Decidable (Shows img m₀ msg _ _))

instance : Decidable (Hails img m₀ msg) :=
  inferInstanceAs (Decidable (if 1 < msg.params.length then
    Shows img m₀ msg (msg.before 1).length greeting
    else m₀.read 0 greeting.length = greeting))

theorem starts_of_cmd (hcmd : msg.cmd = ascii "004") :
    Starts img m₀ msg := by
  obtain ⟨ys, hys⟩ := shown_cmd img m₀ msg
  rw [Starts, Shows, hys, hcmd]
  exact List.prefix_append _ _

theorem pings_of_cmd (hcmd : msg.cmd = ascii "PING") :
    Pings img m₀ msg := by
  obtain ⟨ys, hys⟩ := shown_cmd img m₀ msg
  rw [Pings, Shows, hys, hcmd]
  exact (show ascii "PI" <+: ascii "PING" by decide).trans
    (List.prefix_append _ _)

/-- A greeting is no PING, and it is seen. -/
theorem hails_of_greets (h : msg.Greets) :
    ¬ Pings img m₀ msg ∧ Hails img m₀ msg := by
  obtain ⟨hcmd, p, hp, hgreet⟩ := h
  refine ⟨?_, ?_⟩
  · obtain ⟨ys, hys⟩ := shown_cmd img m₀ msg
    rw [Pings, Shows, hys, hcmd]
    intro hprefix
    have hcut := List.prefix_of_prefix_length_le hprefix
      (List.prefix_append (ascii "PRIVMSG") ys) (by decide)
    exact absurd hcut (by decide)
  · obtain ⟨hlt, hget⟩ := List.getElem?_eq_some_iff.mp hp
    obtain ⟨ys, hys⟩ := shown_param img m₀ hlt
    rw [Hails, if_pos hlt, Shows, hys, hget]
    exact hgreet.trans (List.prefix_append _ _)

/-- The reply of the handlers, empty for none, and the state they leave
the bot in. -/
def act (img : Image) (m₀ : Mem 16 Byte) :
    BotState → Msg → List Byte × BotState
  | .start, msg =>
      if Starts img m₀ msg then (Text.startCmd.bytes, .idle)
      else ([], .start)
  | .idle, msg =>
      if Pings img m₀ msg then (pong msg.target, .idle)
      else if Hails img m₀ msg then (hello msg.target, .idle)
      else ([], .idle)

/-- The handler of a state. -/
def handler (img : Image) : BotState → Word
  | .start => img.startState
  | .idle => img.idleState

theorem handler_inj {st st' : BotState}
    (h : handler img st = handler img st') : st = st' := by
  have hne := img.handlers_ne
  cases st <;> cases st' <;> first
    | rfl
    | exact absurd h hne
    | exact absurd h.symm hne

-- ==================================================== the comparisons

theorem read_two (m : Mem 16 Byte) (a : Word) {c d : Byte} :
    m.word a = chars c d ↔ m.read a 2 = [c, d] := by
  rw [chars, Mem.word_eq_iff]
  simp [Mem.read]

/-- `cmp [si], word '00'` and `cmp [si+2], byte '4'`. -/
theorem is004_iff (m : Mem 16 Byte) (a : Word) :
    m.word a = chars 0x30 0x30 ∧ m (a + 2) = 0x34
      ↔ m.read a (ascii "004").length = ascii "004" := by
  have hstep : a + 2 = a + 1 + 1 := by
    rw [BitVec.add_assoc]
    rfl
  rw [read_two, hstep]
  simp [Mem.read, ascii, and_assoc]

/-- `cmp [si], word 'PI'` -/
theorem isPI_iff (m : Mem 16 Byte) (a : Word) :
    m.word a = chars 0x50 0x49
      ↔ m.read a (ascii "PI").length = ascii "PI" := by
  rw [read_two]
  simp [Mem.read, ascii]

/-- The three comparisons with `>HELLO`. -/
theorem isHello_iff (m : Mem 16 Byte) (a : Word) :
    m.word a = chars 0x3E 0x48 ∧ m.word (a + 2) = chars 0x45 0x4C
        ∧ m.word (a + 4) = chars 0x4C 0x4F
      ↔ m.read a greeting.length = greeting := by
  have hstep2 : a + 2 = a + 1 + 1 := by
    rw [BitVec.add_assoc]
    rfl
  have hstep4 : a + 4 = a + 1 + 1 + 1 + 1 := by
    rw [BitVec.add_assoc, BitVec.add_assoc, BitVec.add_assoc]
    rfl
  rw [read_two, read_two, read_two, hstep2, hstep4]
  simp [Mem.read, greeting, ascii, and_assoc]

-- ==================================================== the handlers

/-- What a handler leaves of the processor it was called with: the reply
written, and `botState` stored if the state changed. -/
def Answered (img : Image) (b : Bot) (reply : List Byte)
    (st st' : BotState) (s : Bot) : Prop :=
  ∃ ax bx si, s = { b.emit reply with
    ax := ax
    bx := bx
    si := si
    mem := if st' = st then (b.emit reply).mem
      else (b.emit reply).mem.setWord img.botState (handler img st') }

variable (img) in
theorem Wrote.answered {b s : Bot} {reply : List Byte}
    (h : Wrote b reply s) (st : BotState) :
    Answered img b reply st st s := by
  obtain ⟨ax, bx, si, rfl⟩ := h
  exact ⟨ax, bx, si, by rw [if_pos rfl]⟩

/-- What the handlers read besides the message. -/
structure Calm (img : Image) (m₀ m : Mem 16 Byte) : Prop where
  zero : m img.parseBufferLen = 0
  null : m.read 0 greeting.length = m₀.read 0 greeting.length

/-- What is at the command's place. -/
theorem cmd_shows {b : Bot} (hb : Ready img msg m₀ b)
    (hcalm : Calm img m₀ b.mem) {pat : List Byte}
    (hpat : (0 : Byte) ∉ pat) :
    b.mem.read (b.mem.word (img.varAt 4)) pat.length = pat
      ↔ Shows img m₀ msg (msg.tags ++ msg.pfx).length pat := by
  have hfits := hb.parsed.fits
  rw [Msg.length_bytes] at hfits
  have hcmd : (msg.tags ++ msg.pfx).length ≤ 512 := by
    rw [List.length_append]
    omega
  rw [show b.mem.word (img.varAt 4) = _ from hb.parsed.cmd]
  exact shows_iff hb.parsed hcalm.zero hcmd hpat

/-- `fetchParam` for the second parameter, and what is at its place. -/
theorem fetch_second {b : Bot} (hb : Ready img msg m₀ b)
    (hcalm : Calm img m₀ b.mem) (p : Word) :
    ∃ ax bx q, fetchParam img 1 { b with si := p }
        = { b with ax := ax, bx := bx, si := q }
      ∧ (b.mem.read q greeting.length = greeting ↔ Hails img m₀ msg) := by
  unfold Hails
  by_cases hn : 1 < msg.params.length
  · have hfits := hb.parsed.fits
    rw [msg.bytes_split hn, List.length_append,
      List.length_append] at hfits
    have hfetch := fetchParam_lt (s := { b with si := p }) hb.parsed hn
    refine ⟨_, _, _, hfetch, ?_⟩
    rw [if_pos hn]
    exact shows_iff hb.parsed hcalm.zero (by omega) (by decide)
  · have hfetch := fetchParam_ge (s := { b with si := p }) (i := 1)
      hb.parsed (by omega) (by omega)
    refine ⟨_, _, _, hfetch, ?_⟩
    rw [if_neg hn, hcalm.null]

theorem startState_spec {b : Bot} (hb : Ready img msg m₀ b)
    (hcalm : Calm img m₀ b.mem) :
    Answered img b (act img m₀ .start msg).1 .start
      (act img m₀ .start msg).2 (startState img b) := by
  obtain ⟨p, hp⟩ : ∃ p, p = b.mem.word img.cmdBuffer := ⟨_, rfl⟩
  have hseen : b.mem.word p = chars 0x30 0x30 ∧ b.mem (p + 2) = 0x34
      ↔ Starts img m₀ msg := by
    rw [is004_iff, hp, img.cmdBuffer_eq]
    exact cmd_shows hb hcalm (by decide)
  have hmoved : Wrote b [] { b with si := p } :=
    Wrote.start b b.ax b.bx p
  rw [startState, ← hp]
  simp only [act]
  by_cases hstarts : Starts img m₀ msg
  · obtain ⟨h00, h4⟩ := hseen.mpr hstarts
    rw [if_neg (not_not.mpr h00), if_neg (not_not.mpr h4), if_pos hstarts]
    have hput := putText_wrote hb hmoved .startCmd (by decide)
    rw [List.nil_append] at hput
    obtain ⟨ax, bx, si, hs⟩ := hput
    refine ⟨ax, bx, si, ?_⟩
    rw [hs, if_neg (by decide)]
    rfl
  · rw [if_neg hstarts]
    have hstay := hmoved.answered img .start
    by_cases h00 : b.mem.word p = chars 0x30 0x30
    · have h4 : b.mem (p + 2) ≠ 0x34 := fun h4 => hstarts (hseen.mp ⟨h00, h4⟩)
      rw [if_neg (not_not.mpr h00), if_pos h4]
      exact hstay
    · rw [if_pos h00]
      exact hstay

theorem idleState_spec {b : Bot} (hb : Ready img msg m₀ b)
    (hcalm : Calm img m₀ b.mem) (hne : 0 < msg.params.length)
    (hlen : msg.target.length ≤ 510) :
    Answered img b (act img m₀ .idle msg).1 .idle
      (act img m₀ .idle msg).2 (idleState img b) := by
  obtain ⟨p, hp⟩ : ∃ p, p = b.mem.word img.cmdBuffer := ⟨_, rfl⟩
  have hpings : b.mem.word p = chars 0x50 0x49 ↔ Pings img m₀ msg := by
    rw [isPI_iff, hp, img.cmdBuffer_eq]
    exact cmd_shows hb hcalm (by decide)
  have hmoved : Wrote b [] { b with si := p } :=
    Wrote.start b b.ax b.bx p
  rw [idleState, ← hp]
  simp only [act]
  by_cases hping : Pings img m₀ msg
  · rw [if_pos (hpings.mpr hping), if_pos hping]
    exact (writePong_wrote hb hmoved hne hlen).answered img .idle
  · rw [if_neg (fun h => hping (hpings.mp h)), if_neg hping]
    -- the second parameter, or the null pointer
    obtain ⟨ax, bx, q, hfetch, hq⟩ := fetch_second hb hcalm p
    rw [hfetch]
    have hgreets : b.mem.word q = chars 0x3E 0x48
        ∧ b.mem.word (q + 2) = chars 0x45 0x4C
        ∧ b.mem.word (q + 4) = chars 0x4C 0x4F ↔ Hails img m₀ msg := by
      rw [isHello_iff, hq]
    have hfetched : Wrote b [] { b with ax := ax, bx := bx, si := q } :=
      Wrote.start b ax bx q
    have hstay := hfetched.answered img .idle
    simp only
    by_cases hhails : Hails img m₀ msg
    · obtain ⟨h1, h2, h3⟩ := hgreets.mpr hhails
      rw [if_neg (not_not.mpr h1), if_neg (not_not.mpr h2), if_pos h3,
        if_pos hhails]
      exact (writeHello_wrote hb hfetched hne hlen).answered img .idle
    · rw [if_neg hhails]
      by_cases h1 : b.mem.word q = chars 0x3E 0x48
      · rw [if_neg (not_not.mpr h1)]
        by_cases h2 : b.mem.word (q + 2) = chars 0x45 0x4C
        · rw [if_neg (not_not.mpr h2),
            if_neg fun h3 => hhails (hgreets.mp ⟨h1, h2, h3⟩)]
          exact hstay
        · rw [if_pos h2]
          exact hstay
      · rw [if_pos h1]
        exact hstay

/-- `call [botState]`, with one of the two handlers there. -/
theorem callBotState_spec {b : Bot} {st : BotState}
    (hb : Ready img msg m₀ b) (hcalm : Calm img m₀ b.mem)
    (hstate : b.mem.word img.botState = handler img st)
    (hne : 0 < msg.params.length) (hlen : msg.target.length ≤ 510) :
    ∃ s, callBotState img b = some s
      ∧ Answered img b (act img m₀ st msg).1 st (act img m₀ st msg).2 s := by
  rw [callBotState, hstate]
  cases st with
  | start =>
      exact ⟨startState img b, if_pos rfl, startState_spec hb hcalm⟩
  | idle =>
      refine ⟨idleState img b, ?_, idleState_spec hb hcalm hne hlen⟩
      simp only [handler, if_neg img.handlers_ne.symm, ↓reduceIte]

end Pdtb.Asm
