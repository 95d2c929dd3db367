/-
The time stamps and what a log record is made of. A stamp is a `Moment`
of the clock in decimal columns, so it reads back (`Moment.ofText_text`)
and stamps sort as the readings do (`Moment.compare_text`). Both rest on
`writeNum` padding: a number below `10 ^ p` padded to `p` digits has just
these.

A record is a stamp, a tag and a line, as much of them as `logBuffer` has
room for (`logGeneral_record`).
-/
import Pdtb.Lib.Lexical
import Pdtb.Proofs.Records

namespace Pdtb.Asm

open Lib Dos

-- ==================================================== padded numbers

section

variable {p m n : Nat}

theorem length_decimal (hp : 1 ≤ p) (hn : n < 10 ^ p) :
    (decimal p n).length = p := by
  rw [decimal, List.length_map, Nat.max_eq_left hp,
    length_numeral (by decide) hn]

theorem compare_digitByte {a b : Nat} (ha : a < 10) (hb : b < 10) :
    compare (digitByte a) (digitByte b) = compare a b := by
  have hbyte : ∀ d < 10, (digitByte d).toNat = 0x30 + d := by
    intro d hd
    rw [digitByte, BitVec.toNat_ofNat]
    omega
  change compareOfLessAndEq _ _ = compareOfLessAndEq a b
  simp only [compareOfLessAndEq, BitVec.lt_def, ← BitVec.toNat_inj,
    hbyte a ha, hbyte b hb, Nat.add_lt_add_iff_left,
    Nat.add_left_cancel_iff]

/-- Numbers padded to the same width sort as they are written. -/
theorem compare_decimal (hp : 1 ≤ p) (hm : m < 10 ^ p) (hn : n < 10 ^ p) :
    compare (decimal p m) (decimal p n) = compare m n := by
  have hten : 1 < 10 := by decide
  unfold decimal
  rw [Nat.max_eq_left hp, compare_map]
  · exact compare_numeral hten hm hn
  · rw [length_numeral hten hm, length_numeral hten hn]
  · intro a ha b hb
    exact compare_digitByte (numeral_lt hten ha) (numeral_lt hten hb)

/-- A text with every digit made a zero. -/
def picture (bs : List Byte) : List Byte :=
  bs.map fun b => if 0x30 ≤ b ∧ b ≤ 0x39 then 0x30 else b

theorem picture_append (xs ys : List Byte) :
    picture (xs ++ ys) = picture xs ++ picture ys :=
  List.map_append

theorem picture_decimal (hp : 1 ≤ p) (hn : n < 10 ^ p) :
    picture (decimal p n) = List.replicate p 0x30 := by
  have hdigit : ∀ d < 10,
      (if 0x30 ≤ digitByte d ∧ digitByte d ≤ 0x39 then 0x30
        else digitByte d) = (0x30 : Byte) := by
    decide
  apply List.eq_replicate_iff.mpr
  constructor
  · rw [picture, List.length_map, length_decimal hp hn]
  · intro b hb
    obtain ⟨c, hc, rfl⟩ := List.mem_map.mp hb
    obtain ⟨d, hd, rfl⟩ := List.mem_map.mp hc
    exact hdigit d (numeral_lt (by decide) hd)

/-- `writeNum` writes as many digits as it is told to pad to, if the
number has no more. -/
theorem writeNum_padded {u : Bot} (hpos : 1 ≤ u.bx.toNat)
    (hpad : u.bx.toNat ≤ 5) (hn : u.ax.toNat < 10 ^ u.bx.toNat)
    (hroom : u.bx.toNat ≤ u.cx.toNat) :
    written u (writeNum u) = decimal u.bx.toNat u.ax.toNat := by
  obtain ⟨htext, hlen⟩ := numText_padded hpad hpos hn
  rw [writeNum_eq, ← htext]
  apply written_emit
  rw [hlen]
  exact hroom

end

-- ==================================================== readings

/-- A reading of the clock. -/
structure Moment where
  year : Nat
  month : Nat
  day : Nat
  hour : Nat
  minute : Nat
  second : Nat
  deriving DecidableEq, Repr

namespace Moment

/-- The units, the biggest first. -/
def fields (r : Moment) : List Nat :=
  [r.year, r.month, r.day, r.hour, r.minute, r.second]

/-- Readings in time: the biggest unit that differs decides. -/
instance : Ord Moment where
  compare r r' := compare r.fields r'.fields

/-- `YYYY-MM-DDTHH:MM:SS` -/
def text (r : Moment) : List Byte :=
  decimal 4 r.year ++ [0x2D] ++ decimal 2 r.month ++ [0x2D]
    ++ decimal 2 r.day ++ [0x54] ++ decimal 2 r.hour ++ [0x3A]
    ++ decimal 2 r.minute ++ [0x3A] ++ decimal 2 r.second

/-- The reading a stamp shows. -/
def ofText (bs : List Byte) : Moment where
  year := readNum (bs.take 4)
  month := readNum ((bs.drop 5).take 2)
  day := readNum ((bs.drop 8).take 2)
  hour := readNum ((bs.drop 11).take 2)
  minute := readNum ((bs.drop 14).take 2)
  second := readNum ((bs.drop 17).take 2)

/-- Every unit has room in its column. -/
structure Fits (r : Moment) : Prop where
  year : r.year < 10 ^ 4
  month : r.month < 10 ^ 2
  day : r.day < 10 ^ 2
  hour : r.hour < 10 ^ 2
  minute : r.minute < 10 ^ 2
  second : r.second < 10 ^ 2

variable {r r' : Moment}

theorem length_two {n : Nat} (hn : n < 10 ^ 2) : (decimal 2 n).length = 2 :=
  length_decimal (by decide) hn

theorem length_year (h : r.Fits) : (decimal 4 r.year).length = 4 :=
  length_decimal (by decide) h.year

theorem length_text (h : r.Fits) : r.text.length = 19 := by
  simp only [text, List.length_append, List.length_singleton,
    length_year h, length_two h.month, length_two h.day, length_two h.hour,
    length_two h.minute, length_two h.second]

theorem picture_text (h : r.Fits) :
    picture r.text = ascii "0000-00-00T00:00:00" := by
  have htwo : ∀ n < 10 ^ 2, picture (decimal 2 n) = [0x30, 0x30] :=
    fun n hn => picture_decimal (by decide) hn
  have hfour : picture (decimal 4 r.year) = [0x30, 0x30, 0x30, 0x30] :=
    picture_decimal (by decide) h.year
  simp only [text, picture_append, hfour, htwo _ h.month, htwo _ h.day,
    htwo _ h.hour, htwo _ h.minute, htwo _ h.second]
  decide

/-- A stamp shows the reading it is of. -/
theorem ofText_text (h : r.Fits) : ofText r.text = r := by
  have hyear : ∃ a b c d, decimal 4 r.year = [a, b, c, d] := by
    have hlen := length_year h
    generalize decimal 4 r.year = ds at hlen
    match ds, hlen with
    | [a, b, c, d], _ => exact ⟨a, b, c, d, rfl⟩
  obtain ⟨a, b, c, d, hyear⟩ := hyear
  obtain ⟨e, f, hmonth⟩ := List.length_eq_two.mp (length_two h.month)
  obtain ⟨g, i, hday⟩ := List.length_eq_two.mp (length_two h.day)
  obtain ⟨j, k, hhour⟩ := List.length_eq_two.mp (length_two h.hour)
  obtain ⟨l, m, hminute⟩ := List.length_eq_two.mp (length_two h.minute)
  obtain ⟨n, o, hsecond⟩ := List.length_eq_two.mp (length_two h.second)
  -- the columns, one after another
  have htext : r.text = [a, b, c, d, 0x2D, e, f, 0x2D, g, i, 0x54, j, k,
      0x3A, l, m, 0x3A, n, o] := by
    rw [text, hyear, hmonth, hday, hhour, hminute, hsecond]
    rfl
  have hof : ofText r.text = ⟨readNum [a, b, c, d], readNum [e, f],
      readNum [g, i], readNum [j, k], readNum [l, m], readNum [n, o]⟩ := by
    rw [htext]
    rfl
  rw [hof, ← hyear, ← hmonth, ← hday, ← hhour, ← hminute, ← hsecond]
  simp only [readNum_decimal]

/-- Stamps sort as the readings they are of: each column decides if the
ones before it agree. -/
theorem compare_text (h : r.Fits) (h' : r'.Fits) :
    compare r.text r'.text = compare r r' := by
  have hyear : compare (decimal 4 r.year) (decimal 4 r'.year)
      = compare r.year r'.year :=
    compare_decimal (by decide) h.year h'.year
  have htwo : ∀ {m n : Nat}, m < 10 ^ 2 → n < 10 ^ 2 →
      compare (decimal 2 m) (decimal 2 n) = compare m n :=
    fun hm hn => compare_decimal (by decide) hm hn
  have hcolumn : ∀ {m n : Nat}, m < 10 ^ 2 → n < 10 ^ 2 →
      ∀ xs ys : List Byte, compare (decimal 2 m ++ xs) (decimal 2 n ++ ys)
        = (compare m n).then (compare xs ys) := by
    intro m n hm hn xs ys
    rw [compare_append ((length_two hm).trans (length_two hn).symm),
      htwo hm hn]
  change _ = compare r.fields r'.fields
  simp only [text, fields, List.append_assoc]
  rw [compare_append ((length_year h).trans (length_year h').symm), hyear,
    compare_append_left, hcolumn h.month h'.month, compare_append_left,
    hcolumn h.day h'.day, compare_append_left, hcolumn h.hour h'.hour,
    compare_append_left, hcolumn h.minute h'.minute, compare_append_left,
    htwo h.second h'.second]
  simp only [List.compare_cons_cons, List.compare_nil_nil,
    Ordering.then_eq]

end Moment

-- ==================================================== the stamp written

/-- The time and the date DOS tells next are valid. -/
structure ClockValid (s : Bot) : Prop where
  time : Clock.Valid (s.dev.clock s.dev.now)
  date : Clock.Valid (s.dev.clock (s.dev.now + 1))

/-- What DOS tells next: the time, and then the date. -/
def reading (s : Bot) : Moment where
  year := (s.dev.clock (s.dev.now + 1)).year.toNat
  month := (s.dev.clock (s.dev.now + 1)).month.toNat
  day := (s.dev.clock (s.dev.now + 1)).day.toNat
  hour := (s.dev.clock s.dev.now).hour.toNat
  minute := (s.dev.clock s.dev.now).minute.toNat
  second := (s.dev.clock s.dev.now).second.toNat

variable {s s' t : Bot}

theorem ClockValid.fits (h : ClockValid s) : (reading s).Fits := by
  have hyear := h.date.year.2
  have hmonth := h.date.month.2
  have hday := h.date.day.2
  have hhour := h.time.hour
  have hminute := h.time.minute
  have hsecond := h.time.second
  apply Moment.Fits.mk <;> simp only [reading] <;> omega

/-- A field of two digits. -/
theorem field_text {b : Byte} (hb : b.toNat < 100) :
    numText (mkWord 0 b) 2 = decimal 2 b.toNat := by
  have hn : (mkWord 0 b).toNat < 10 ^ (2 : Word).toNat := by
    rw [field_toNat]
    exact hb
  have htext := (numText_padded (by decide) (by decide) hn).1
  rw [field_toNat] at htext
  exact htext

theorem ClockValid.timestamp_eq (h : ClockValid s) :
    timestamp (s.dev.clock s.dev.now) (s.dev.clock (s.dev.now + 1))
      = (reading s).text := by
  have hfits := h.fits
  have hwidth : (s.dev.clock (s.dev.now + 1)).year.toNat
      < 10 ^ (4 : Word).toNat := hfits.year
  have hyear : numText (s.dev.clock (s.dev.now + 1)).year 4
      = decimal 4 (s.dev.clock (s.dev.now + 1)).year.toNat :=
    (numText_padded (by decide) (by decide) hwidth).1
  rw [timestamp, hyear, field_text hfits.month, field_text hfits.day,
    field_text hfits.hour, field_text hfits.minute,
    field_text hfits.second]
  rfl

/-- A stamp was written from `s` to `t`, the one of what DOS told. -/
structure Stamped (s t : Bot) : Prop where
  length : (written s t).length = 19
  form : picture (written s t) = ascii "0000-00-00T00:00:00"
  back : Moment.ofText (written s t) = reading s
  di : t.di = s.di + 19
  cx : t.cx.toNat = s.cx.toNat - 19
  mem : Set.EqOn t.mem s.mem (region s.di 19)ᶜ

theorem createTimestamp_written (h : ClockValid s)
    (hroom : 19 ≤ s.cx.toNat) :
    written s (createTimestamp s) = (reading s).text := by
  rw [createTimestamp_eq, h.timestamp_eq]
  apply written_emit
  rw [Moment.length_text h.fits]
  exact hroom

theorem createTimestamp_stamped (h : ClockValid s)
    (hroom : 19 ≤ s.cx.toNat) : Stamped s (createTimestamp s) := by
  have hlen := Moment.length_text h.fits
  have hwritten := createTimestamp_written h hroom
  have htake : (reading s).text.take s.cx.toNat = (reading s).text :=
    List.take_of_length_le (by omega)
  have heq := createTimestamp_eq s
  rw [h.timestamp_eq] at heq
  refine ⟨?_, ?_, ?_, ?_, ?_, ?_⟩
  · rw [hwritten, hlen]
  · rw [hwritten]
    exact Moment.picture_text h.fits
  · rw [hwritten]
    exact Moment.ofText_text h.fits
  · rw [heq]
    simp only [Cpu.emit, htake, hlen]
    rfl
  · rw [heq]
    simp only [Cpu.emit_cx_toNat, hlen]
  · rw [heq]
    simp only [Cpu.emit, htake]
    rw [← hlen]
    exact Mem.write_eqOn _ _ _

/-- Time stamps have 19 bytes in the form `YYYY-MM-DDTHH:MM:SS`, show
what the clock said, and sort bytewise as the clock went. For a field it
is enough that `writeNum` pads it to its width. -/
theorem createTimestamp_sorts (h : ClockValid s) (h' : ClockValid s')
    (hroom : 19 ≤ s.cx.toNat) (hroom' : 19 ≤ s'.cx.toNat) :
    Stamped s (createTimestamp s) ∧ Stamped s' (createTimestamp s')
      ∧ compare (written s (createTimestamp s))
          (written s' (createTimestamp s'))
        = compare (reading s) (reading s')
      ∧ ∀ u : Bot, 1 ≤ u.bx.toNat → u.bx.toNat ≤ 5 →
          u.ax.toNat < 10 ^ u.bx.toNat → u.bx.toNat ≤ u.cx.toNat →
          (written u (writeNum u)).length = u.bx.toNat
            ∧ picture (written u (writeNum u))
              = List.replicate u.bx.toNat 0x30
            ∧ readNum (written u (writeNum u)) = u.ax.toNat := by
  refine ⟨createTimestamp_stamped h hroom,
    createTimestamp_stamped h' hroom', ?_, ?_⟩
  · rw [createTimestamp_written h hroom, createTimestamp_written h' hroom']
    exact Moment.compare_text h.fits h'.fits
  · intro u hpos hpad hn hfits
    rw [writeNum_padded hpos hpad hn hfits]
    exact ⟨length_decimal hpos hn, picture_decimal hpos hn,
      readNum_decimal _ _⟩

/-- A call of `createTimestamp` when the clock shows `c`. -/
def stampCall (c : Clock) : Bot :=
  { (default : Bot) with
    cx := 19
    dev := { (default : Dos) with clock := fun _ => c } }

/-- Two stamps a second apart. -/
theorem createTimestamp_sorts_second :
    compare
      (written (stampCall demoClock)
        (createTimestamp (stampCall demoClock)))
      (written (stampCall { demoClock with second := 6 })
        (createTimestamp (stampCall { demoClock with second := 6 })))
      = .lt := by
  have hlater : Clock.Valid { demoClock with second := 6 } :=
    { demoClock_valid with second := by decide }
  have hfirst : ClockValid (stampCall demoClock) :=
    ⟨demoClock_valid, demoClock_valid⟩
  have hsecond : ClockValid (stampCall { demoClock with second := 6 }) :=
    ⟨hlater, hlater⟩
  have h := createTimestamp_sorts hfirst hsecond (by decide) (by decide)
  rw [h.2.2.1]
  decide

-- ==================================================== the record written

/-- What the record has room for of tag and line does not lie in
`logBuffer`: behind a stamp of 19 bytes and a space there are 492 bytes,
and a space follows the tag. -/
structure Sources (img : Image) (s : Bot) : Prop where
  tag : Disjoint (region s.ax (min s.bx.toNat 492))
    (region img.logBuffer 512)
  line : Disjoint (region s.si (min s.cx.toNat (491 - s.bx.toNat)))
    (region img.logBuffer 512)

variable {img : Image}

theorem ClockValid.tagRoom (h : ClockValid s) : tagRoom s = 492 := by
  rw [Asm.tagRoom, h.timestamp_eq, Moment.length_text h.fits]

theorem ClockValid.logGeneral_eq (h : ClockValid s) (hapart : Sources img s) :
    ∃ dx : Word, logGeneral img s = { s with
      dx := dx
      cf := false
      mem := s.mem.write img.logBuffer (logged s)
      dev := { s.dev with
        now := s.dev.now + 2
        written := s.dev.written
          ++ [(s.mem.word img.logHandle, logged s), (1, logged s)] } } := by
  have hroom := h.tagRoom
  refine ⟨_, logGeneral_apart img s ?_ ?_⟩
  · rw [hroom]
    exact hapart.tag
  · rw [hroom, show 492 - (s.bx.toNat + 1) = 491 - s.bx.toNat by omega]
    exact hapart.line

/-- A log record is the first 512 bytes of the stamp, the tag and the
line with a space between them and CR LF behind them; it goes to the log
and to the screen, and logging changes `logBuffer` only and gives the
arguments back. -/
theorem logGeneral_record (h : ClockValid s) (hapart : Sources img s)
    {bs : List Byte}
    (hbs : bs = ((reading s).text ++ [space] ++ s.mem.read s.ax s.bx.toNat
      ++ [space] ++ s.mem.read s.si s.cx.toNat ++ crlf).take 512) :
    (reading s).text.length = 19
      ∧ picture (reading s).text = ascii "0000-00-00T00:00:00"
      ∧ (logGeneral img s).dev.written = s.dev.written
        ++ [(s.mem.word img.logHandle, bs), (1, bs)]
      ∧ Set.EqOn (logGeneral img s).mem s.mem (region img.logBuffer 512)ᶜ
      ∧ (logGeneral img s).ax = s.ax ∧ (logGeneral img s).bx = s.bx
      ∧ (logGeneral img s).cx = s.cx ∧ (logGeneral img s).si = s.si
      ∧ (logGeneral img s).di = s.di := by
  have hrecord : logged s = bs := by
    rw [logged, logRecord, h.timestamp_eq, hbs]
  have hlen : bs.length ≤ 512 := by
    rw [hbs]
    exact List.length_take_le _ _
  obtain ⟨dx, heq⟩ := h.logGeneral_eq hapart
  rw [hrecord] at heq
  rw [heq]
  refine ⟨Moment.length_text h.fits, Moment.picture_text h.fits, rfl,
    ?_, rfl, rfl, rfl, rfl, rfl⟩
  intro x hx
  apply Mem.write_of_notMem
  intro hx'
  exact hx (region_mono hlen hx')

/-- A line of 65535 bytes is cut where `logBuffer` ends. -/
theorem logGeneral_record_long :
    ∃ (s : Bot) (bs : List Byte), s.cx = 0xFFFF ∧ bs.length = 512
      ∧ (logGeneral default s).dev.written = s.dev.written
        ++ [(s.mem.word (Image.logHandle default), bs), (1, bs)] := by
  obtain ⟨s, hs⟩ : ∃ s : Bot, s = { clocked pingLine with
    ax := Image.text default .incomingTag
    bx := BitVec.ofNat 16 Text.incomingTag.bytes.length
    cx := 0xFFFF } := ⟨_, rfl⟩
  have hclock : ClockValid s := by
    rw [hs]
    exact ⟨demoClock_valid, demoClock_valid⟩
  have hbx : s.bx.toNat = 8 := by
    rw [hs]
    rfl
  have hcx : s.cx.toNat = 65535 := by
    rw [hs]
    rfl
  have hsources : Sources default s := by
    have htag := tag_disjoint default .incomingTag
    have hline := (default : Image).line_disjoint_log.mono_right
      (default : Image).logBuffer_subset
    refine ⟨?_, ?_⟩
    · rw [hs]
      exact htag.mono_left (region_mono (Nat.min_le_left _ _))
    · rw [hbx, hcx]
      rw [hs]
      exact hline.mono_left (region_mono (by decide))
  have hrecord := logGeneral_record hclock hsources rfl
  refine ⟨s, _, by rw [hs], ?_, hrecord.2.2.1⟩
  simp only [List.length_take, List.length_append, Mem.length_read,
    List.length_singleton, Moment.length_text hclock.fits, hbx, hcx]
  omega

end Pdtb.Asm
