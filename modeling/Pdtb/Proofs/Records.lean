/-
Log records as lines of the log. A record is cut to the 512 bytes of
`logBuffer`, and what is cut first is the CR LF at its end. So a record
ends a line as long as the logged line leaves room for the two bytes
(`logIncoming_separated_iff`), or where the cut happens to fall behind a
CR LF of the logged line itself, which no line of the framer has.
-/
import Pdtb.Proofs.Decimal
import Pdtb.Proofs.Session

namespace Pdtb.Asm

open Lib Dos

variable {img : Image} {s : Bot} {inp : List Byte}

-- ==================================================== time stamps

/-- A reading of the DOS clock. -/
structure Clock.Valid (c : Clock) : Prop where
  year : 1980 ≤ c.year.toNat ∧ c.year.toNat ≤ 2099
  month : 1 ≤ c.month.toNat ∧ c.month.toNat ≤ 12
  day : 1 ≤ c.day.toNat ∧ c.day.toNat ≤ 31
  hour : c.hour.toNat < 24
  minute : c.minute.toNat < 60
  second : c.second.toNat < 60

/-- A number that needs no more digits than it is padded to has just
these. -/
theorem numText_padded {n pad : Word} (hpad : pad.toNat ≤ 5)
    (hpos : 1 ≤ pad.toNat) (hn : n.toNat < 10 ^ pad.toNat) :
    numText n pad = decimal pad.toNat n.toNat
      ∧ (numText n pad).length = pad.toNat := by
  have hplain : Plain 10 pad.toNat n.toNat := by
    intro j hj hle hzero
    by_contra hjp
    have : 10 ^ pad.toNat ≤ 10 ^ (j + 1) :=
      Nat.pow_le_pow_right (by decide) (by omega)
    omega
  have htext := (numText_eq_iff n hpad).mpr hplain
  refine ⟨htext, ?_⟩
  rw [htext, decimal, List.length_map, Nat.max_eq_left hpos,
    length_numeral (by decide) hn]

theorem field_toNat (b : Byte) : (mkWord 0 b).toNat = b.toNat := by
  rw [mkWord_toNat]
  exact Nat.zero_add _

/-- A field of the time stamp. -/
theorem length_field {b : Byte} (hb : b.toNat < 100) :
    (numText (mkWord 0 b) 2).length = 2 := by
  have hn : (mkWord 0 b).toNat < 10 ^ (2 : Word).toNat := by
    rw [field_toNat]
    exact hb
  exact (numText_padded (by decide) (by decide) hn).2

theorem length_timestamp {t d : Clock} (ht : Clock.Valid t)
    (hd : Clock.Valid d) : (timestamp t d).length = 19 := by
  have hyear : (numText d.year 4).length = 4 := by
    have hn : d.year.toNat < 10 ^ (4 : Word).toNat := by
      have := hd.year.2
      change _ < 10000
      omega
    exact (numText_padded (by decide) (by decide) hn).2
  have hmonth : d.month.toNat < 100 := by have := hd.month.2; omega
  have hday : d.day.toNat < 100 := by have := hd.day.2; omega
  have hhour : t.hour.toNat < 100 := by have := ht.hour; omega
  have hminute : t.minute.toNat < 100 := by have := ht.minute; omega
  have hsecond : t.second.toNat < 100 := by have := ht.second; omega
  simp only [timestamp, List.length_append, hyear, length_field hmonth,
    length_field hday, length_field hhour, length_field hminute,
    length_field hsecond, List.length_singleton]

/-- No reading makes more than five digits a field. -/
theorem length_timestamp_le (t d : Clock) :
    (timestamp t d).length ≤ 35 := by
  have hfield : ∀ n pad : Word, pad.toNat ≤ 5 →
      (numText n pad).length ≤ 5 := by
    intro n pad hpad
    rw [numText_eq n hpad, List.length_map]
    exact suppressed_length_le 10 _ 4 _
  have hyear := hfield d.year 4 (by decide)
  have hmonth := hfield (mkWord 0 d.month) 2 (by decide)
  have hday := hfield (mkWord 0 d.day) 2 (by decide)
  have hhour := hfield (mkWord 0 t.hour) 2 (by decide)
  have hminute := hfield (mkWord 0 t.minute) 2 (by decide)
  have hsecond := hfield (mkWord 0 t.second) 2 (by decide)
  simp only [timestamp, List.length_append, List.length_singleton]
  omega

-- ==================================================== the end of a record

/-- What ends in CR LF does so whatever stands before it. -/
theorem crlf_suffix_append (pre : List Byte) {xs : List Byte}
    (hlen : 2 ≤ xs.length) : crlf <:+ pre ++ xs ↔ crlf <:+ xs := by
  constructor
  · intro h
    exact List.suffix_of_suffix_length_le h (List.suffix_append pre xs) hlen
  · intro h
    exact h.trans (List.suffix_append pre xs)

/-- Whether a line behind which CR LF is put still ends in CR LF when it
is cut. -/
theorem crlf_cut_iff (line : List Byte) (room : Nat) :
    crlf <:+ (line ++ crlf).take room ↔
      line.length + 2 ≤ room
        ∨ room ≤ line.length ∧ crlf <:+ line.take room := by
  have hcrlf : crlf.length = 2 := rfl
  rcases Nat.lt_or_ge room (line.length + 2) with hlt | hge
  · rw [or_iff_right (by omega)]
    rcases Nat.lt_or_ge line.length room with hcut | hcut
    · -- the LF alone is cut
      have htake : (line ++ crlf).take room = line ++ [cr] := by
        rw [List.take_append, List.take_of_length_le (by omega),
          show room - line.length = 1 by omega]
        rfl
      rw [htake]
      apply iff_of_false
      · intro hsuffix
        obtain ⟨pre, hpre⟩ := hsuffix
        have hlast := congrArg List.getLast? hpre
        rw [List.getLast?_append, List.getLast?_append] at hlast
        change some lf = some cr at hlast
        exact absurd hlast (by decide)
      · omega
    · rw [List.take_append_of_le_length hcut]
      exact (and_iff_right hcut).symm
  · rw [List.take_of_length_le (by rw [List.length_append]; omega)]
    exact iff_of_true (List.suffix_append line crlf) (Or.inl hge)

/-- How much of the line and the CR LF behind it a record has room for:
what a time stamp, two spaces and the tag leave of `logBuffer`. -/
def lineRoom (s : Bot) : Nat :=
  512 - ((timestamp (s.dev.clock s.dev.now)
    (s.dev.clock (s.dev.now + 1))).length + 1
      + Text.incomingTag.bytes.length + 1)

theorem lineRoom_valid (ht : Clock.Valid (s.dev.clock s.dev.now))
    (hd : Clock.Valid (s.dev.clock (s.dev.now + 1))) :
    lineRoom s = 483 := by
  rw [lineRoom, length_timestamp ht hd]
  rfl

/-- A record as `logIncoming` has it written: of the line, all but the
last byte is in it. -/
theorem logIncoming_written (h : AtLine img inp s) :
    ∃ pre, (logIncoming img s).dev.written = s.dev.written
        ++ [(s.mem.word img.logHandle,
            pre ++ (inp.dropLast ++ crlf).take (lineRoom s)),
          (1, pre ++ (inp.dropLast ++ crlf).take (lineRoom s))] := by
  obtain ⟨a, ha⟩ : ∃ a : Bot, a = { s with
    ax := img.text .incomingTag
    bx := BitVec.ofNat 16 Text.incomingTag.bytes.length
    cx := s.cx - 1
    stack := s.bx :: s.ax :: s.cx :: s.stack } := ⟨_, rfl⟩
  have hlog := logGeneral_eq img a
    (by rw [ha]; exact tag_disjoint img .incomingTag)
    (by rw [ha]; exact h.log_disjoint)
  have hstack : a.stack = s.bx :: s.ax :: s.cx :: s.stack := by rw [ha]
  have hwritten : (logIncoming img s).dev.written = s.dev.written
      ++ [(s.mem.word img.logHandle, logged a), (1, logged a)] := by
    simp only [logIncoming, logLine, Cpu.push, ← ha, hlog, Cpu.pop,
      Cpu.top, hstack, List.headD_cons, List.tail_cons]
    rw [ha]
  -- the line, cut by a byte
  have hcx : (s.cx - 1).toNat = inp.length - 1 := by
    have := h.cx
    have := h.pos
    bv_omega
  have hline : a.mem.read a.si a.cx.toNat = inp.dropLast := by
    rw [ha]
    simp only
    rw [hcx, h.si, List.dropLast_eq_take]
    calc s.mem.read img.lineBuffer (inp.length - 1)
        = (s.mem.read img.lineBuffer inp.length).take (inp.length - 1) := by
          rw [Mem.take_read, Nat.min_eq_left (Nat.sub_le _ _)]
      _ = inp.take (inp.length - 1) := by rw [h.input]
  obtain ⟨pre, hpre⟩ : ∃ pre, pre = timestamp (s.dev.clock s.dev.now)
      (s.dev.clock (s.dev.now + 1)) ++ [space]
      ++ a.mem.read a.ax a.bx.toNat ++ [space] := ⟨_, rfl⟩
  have hlen : pre.length = 512 - lineRoom s := by
    have hle := length_timestamp_le (s.dev.clock s.dev.now)
      (s.dev.clock (s.dev.now + 1))
    have htag : Text.incomingTag.bytes.length = 8 := by decide
    have hbx : a.bx.toNat = 8 := by
      rw [ha]
      rfl
    rw [hpre, lineRoom, htag]
    simp only [List.length_append, List.length_singleton, Mem.length_read,
      hbx]
    omega
  refine ⟨pre, ?_⟩
  have hrec : logged a
      = pre ++ (inp.dropLast ++ crlf).take (lineRoom s) := by
    have hle : lineRoom s ≤ 512 := Nat.sub_le _ _
    rw [logged, logRecord, hline, ha]
    simp only
    rw [ha] at hpre
    rw [← hpre, List.append_assoc, List.take_append, hlen,
      List.take_of_length_le (by omega),
      show 512 - (512 - lineRoom s) = lineRoom s by omega]
  rw [hwritten, hrec]

/-- What `logIncoming` has written for a line ends with CR LF exactly if
the line leaves room for that, or has a CR LF of its own where it is
cut; with a valid clock the room is 483 bytes. -/
theorem logIncoming_separated_iff (h : AtLine img inp s) :
    ((∃ bs, (logIncoming img s).dev.written = s.dev.written
          ++ [(s.mem.word img.logHandle, bs), (1, bs)] ∧ crlf <:+ bs) ↔
        inp.length + 1 ≤ lineRoom s
          ∨ lineRoom s < inp.length ∧ crlf <:+ inp.take (lineRoom s))
      ∧ (Clock.Valid (s.dev.clock s.dev.now) →
        Clock.Valid (s.dev.clock (s.dev.now + 1)) → lineRoom s = 483) := by
  refine ⟨?_, lineRoom_valid⟩
  obtain ⟨pre, hwritten⟩ := logIncoming_written h
  obtain ⟨xs, hxs⟩ : ∃ xs, xs = (inp.dropLast ++ crlf).take (lineRoom s) :=
    ⟨_, rfl⟩
  rw [← hxs] at hwritten
  have hroom : 2 ≤ lineRoom s := by
    have hle := length_timestamp_le (s.dev.clock s.dev.now)
      (s.dev.clock (s.dev.now + 1))
    have htag : Text.incomingTag.bytes.length = 8 := by decide
    rw [lineRoom, htag]
    omega
  have hpos := h.pos
  have hlen : inp.dropLast.length = inp.length - 1 := List.length_dropLast
  have hcut := crlf_cut_iff inp.dropLast (lineRoom s)
  rw [← hxs, hlen] at hcut
  have hends : (∃ bs, (logIncoming img s).dev.written = s.dev.written
      ++ [(s.mem.word img.logHandle, bs), (1, bs)] ∧ crlf <:+ bs) ↔
      crlf <:+ xs := by
    have htwo : 2 ≤ xs.length := by
      have hcrlf : crlf.length = 2 := rfl
      rw [hxs, List.length_take, List.length_append]
      omega
    rw [← crlf_suffix_append pre htwo]
    constructor
    · intro hex
      obtain ⟨bs, hbs, hsuffix⟩ := hex
      rw [hwritten] at hbs
      have hpair := List.append_cancel_left hbs
      rw [List.cons.injEq, Prod.mk.injEq] at hpair
      rw [hpair.1.2]
      exact hsuffix
    · intro hsuffix
      exact ⟨_, hwritten, hsuffix⟩
  rw [hends, hcut]
  apply or_congr
  · omega
  · constructor
    · intro hand
      obtain ⟨hle, hsuffix⟩ := hand
      rw [List.dropLast_eq_take, List.take_take, Nat.min_eq_left hle]
        at hsuffix
      exact ⟨by omega, hsuffix⟩
    · intro hand
      obtain ⟨hlt, hsuffix⟩ := hand
      have hle : lineRoom s ≤ inp.length - 1 := by omega
      rw [List.dropLast_eq_take, List.take_take, Nat.min_eq_left hle]
      exact ⟨hle, hsuffix⟩

/-- 2024-01-02T03:04:05 -/
def demoClock : Clock where
  year := 2024
  month := 1
  day := 2
  weekday := 2
  hour := 3
  minute := 4
  second := 5
  hundredths := 6

theorem demoClock_valid : Clock.Valid demoClock where
  year := by decide
  month := by decide
  day := by decide
  hour := by decide
  minute := by decide
  second := by decide

/-- The bot with that clock and a line to log. -/
def clocked (inp : List Byte) : Bot :=
  withLine default
    { (default : Bot) with
      dev := { (default : Dos) with clock := fun _ => demoClock } } inp

/-- A record of a line of 512 bytes has no CR LF. -/
theorem logIncoming_not_separated :
    ¬ ∀ (inp : List Byte) (s : Bot), AtLine default inp s →
      Clock.Valid (s.dev.clock s.dev.now) →
      Clock.Valid (s.dev.clock (s.dev.now + 1)) →
      ∃ bs, (logIncoming default s).dev.written = s.dev.written
          ++ [(s.mem.word (Image.logHandle default), bs), (1, bs)]
        ∧ crlf <:+ bs := by
  intro hall
  obtain ⟨inp, hinp⟩ : ∃ inp, inp = List.replicate 512 (0x61 : Byte) :=
    ⟨_, rfl⟩
  have hlen : inp.length = 512 := by rw [hinp, List.length_replicate]
  have hline : AtLine default inp (clocked inp) :=
    atLine_withLine _ (by omega) (by omega)
  obtain ⟨hiff, hvalid⟩ := logIncoming_separated_iff hline
  have hroom : lineRoom (clocked inp) = 483 :=
    hvalid demoClock_valid demoClock_valid
  have hcond := hiff.mp (hall inp _ hline demoClock_valid demoClock_valid)
  rw [hroom] at hcond
  rcases hcond with hfits | ⟨-, hsuffix⟩
  · omega
  · have hcr : cr ∈ inp :=
      List.mem_of_mem_take (hsuffix.subset List.mem_cons_self)
    rw [hinp] at hcr
    exact absurd (List.eq_of_mem_replicate hcr) (by decide)

theorem logIncoming_separated_ping :
    ∃ bs, (logIncoming default (clocked pingLine)).dev.written
        = (clocked pingLine).dev.written
          ++ [((clocked pingLine).mem.word (Image.logHandle default), bs),
            (1, bs)]
      ∧ crlf <:+ bs := by
  have hline : AtLine default pingLine (clocked pingLine) :=
    atLine_withLine _ (by decide) (by decide)
  obtain ⟨hiff, hvalid⟩ := logIncoming_separated_iff hline
  have hroom : lineRoom (clocked pingLine) = 483 :=
    hvalid demoClock_valid demoClock_valid
  apply hiff.mpr
  rw [hroom]
  exact Or.inl (by decide)

end Pdtb.Asm
