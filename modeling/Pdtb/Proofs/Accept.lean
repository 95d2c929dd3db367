/-
Which lines `doParse` accepts, and what it makes of a rendered message.
Both are about one call: its argument is a string anywhere in memory
outside `parse.nas`'s own data (`Given`).
-/
import Pdtb.Irc.Render
import Pdtb.Proofs.Fields

namespace Pdtb.Asm

open Lib

variable {img : Image}

-- ==================================================== the language

/-- `doParse` accepts the lines of the grammar with fewer than
`paramsListMax` slots and at most `parseBufferLenMax` bytes to copy. -/
theorem doParse_accepts_iff {inp : List Byte} {s : Bot}
    (h : Given img inp s) :
    (doParse img s).cf = false ↔
      Irc.Accepted paramsListMax.toNat parseBufferLenMax.toNat inp := by
  change _ ↔ Irc.Accepted Irc.slotMax 512 inp
  rw [(doParse_spec h).1, Irc.accepted_iff]
  cases Irc.parse 512 inp <;> simp

theorem doParse_accepts_ping :
    (doParse default
      (withLine default default (ascii "PING :x" ++ crlf))).cf = false :=
  (doParse_accepts_iff (given_withLine default (by decide))).mpr
    (Irc.accepted_iff.mpr
      ⟨⟨[], [], ascii "PING", [ascii "x"]⟩, by decide +kernel⟩)

-- ==================================================== the round trip

/-- `paramAt` on the processor `doParse` left, for parameter `i`. -/
def paramOf (img : Image) (i : Word) (s : Bot) : Bot :=
  paramAt img { s with ax := i }

section

variable {msg : Irc.Msg} {m₀ : Mem 16 Byte} {t : Bot}

theorem Parsed.listed (h : Parsed img msg m₀ t.mem) :
    (t.mem.word img.paramsListLen).toNat = msg.params.length := by
  rw [img.paramsListLen_eq]
  exact h.count

/-- What `paramAt` finds is the parameter. -/
theorem Parsed.read_paramOf (h : Parsed img msg m₀ t.mem) {i : Nat}
    (hi : i < msg.params.length) :
    (paramOf img (BitVec.ofNat 16 i) t).mem.read
        (paramOf img (BitVec.ofNat 16 i) t).si
        (paramOf img (BitVec.ofNat 16 i) t).cx.toNat
      = msg.params[i] := by
  have hfew := h.few
  have hax : (BitVec.ofNat 16 i).toNat = i := by
    rw [BitVec.toNat_ofNat]
    unfold Irc.slotMax at hfew
    omega
  unfold paramOf
  rw [paramAt_lt (s := { t with ax := BitVec.ofNat 16 i }) h hax hi]
  exact h.deref_param hi

/-- Behind the last parameter it finds a null pointer. -/
theorem Parsed.paramOf_beyond (h : Parsed img msg m₀ t.mem) {i : Word}
    (hi : (msg.params.length : Int) ≤ i.toInt) :
    (paramOf img i t).si = 0 ∧ (paramOf img i t).cx = 0 := by
  unfold paramOf
  rw [paramAt_ge (s := { t with ax := i }) h hi]
  exact ⟨rfl, rfl⟩

end

/-- A rendered message is read back: its parts are what the pointers and
lengths denote, and `paramAt` finds its parameters and no others. The
parameter's number is an `int`, as `paramAt` compares it. -/
theorem doParse_render (d : Irc.Draft) {s : Bot}
    (h : Given img d.render s)
    (hfits : d.msg.bytes.length ≤ parseBufferLenMax.toNat) :
    let t := doParse img s
    t.cf = false
      ∧ deref t.mem img.tagsBuffer img.tagsBufferLen
        = (d.tags.map (·.word)).getD []
      ∧ deref t.mem img.prefixBuffer img.prefixBufferLen
        = (d.pfx.map (·.word)).getD []
      ∧ deref t.mem img.cmdBuffer img.cmdBufferLen = d.cmd
      ∧ (t.mem.word img.paramsListLen).toNat = d.params.length
      ∧ (∀ (i : Nat) (hi : i < d.params.length),
        let u := paramOf img (BitVec.ofNat 16 i) t
        u.mem.read u.si u.cx.toNat = d.params[i])
      ∧ ∀ i : Word, (d.params.length : Int) ≤ i.toInt →
        (paramOf img i t).si = 0 ∧ (paramOf img i t).cx = 0 := by
  obtain ⟨hcf, hmsg, -⟩ := doParse_spec h
  have hparse : Irc.parse 512 d.render = some d.msg := d.parse_render hfits
  have hparsed := hmsg d.msg hparse
  rw [hparse] at hcf
  refine ⟨hcf, hparsed.deref_tags, hparsed.deref_pfx, hparsed.deref_cmd,
    hparsed.listed, ?_, ?_⟩
  · intro i hi
    exact hparsed.read_paramOf hi
  · intro i hi
    exact hparsed.paramOf_beyond hi

/-- `:p  PRIVMSG #c :a b` -/
def privmsgDraft : Irc.Draft where
  tags := none
  pfx := some ⟨ascii "p", 2, by decide, by decide⟩
  cmd := ascii "PRIVMSG"
  cmd_ne := by decide
  cmd_isWord := by decide
  cmd_tags := by decide
  cmd_pfx := by decide
  middle := [⟨⟨ascii "#c", 1, by decide, by decide⟩, by decide, by decide⟩]
  few := by decide
  last := ascii "a b"
  last_cr := by decide
  lastSpaces := 1
  lastSpaces_pos := by decide
  marked := true
  mark_needed := fun _ => rfl

theorem doParse_render_privmsg :
    let t := doParse default (withLine default default privmsgDraft.render)
    t.cf = false ∧ deref t.mem (Image.cmdBuffer default)
      (Image.cmdBufferLen default) = ascii "PRIVMSG" :=
  have hgiven : Given default privmsgDraft.render
      (withLine default default privmsgDraft.render) :=
    given_withLine default (by decide)
  have h := doParse_render privmsgDraft hgiven (by decide)
  ⟨h.1, h.2.2.2.1⟩

-- ==================================================== counting

/-- A message was received as it was sent: it is accepted, its parts are
what the pointers and lengths denote, the count is the number of its
parameters, and `paramAt` finds these and no others. -/
structure Received (img : Image) (m : Irc.Sent) (t : Bot) : Prop where
  accepted : t.cf = false
  tags : deref t.mem img.tagsBuffer img.tagsBufferLen = m.msg.tags
  pfx : deref t.mem img.prefixBuffer img.prefixBufferLen = m.msg.pfx
  cmd : deref t.mem img.cmdBuffer img.cmdBufferLen = m.cmd
  count : (t.mem.word img.paramsListLen).toNat = m.params.length
  param : ∀ (i : Nat) (hi : i < m.params.length),
    let u := paramOf img (BitVec.ofNat 16 i) t
    u.mem.read u.si u.cx.toNat = m.params[i]
  beyond : ∀ i : Word, (m.params.length : Int) ≤ i.toInt →
    (paramOf img i t).si = 0 ∧ (paramOf img i t).cx = 0

/-- Which messages are accepted. -/
theorem sent_accepted_iff {m : Irc.Sent} {s : Bot}
    (h : Given img m.render s) :
    (doParse img s).cf = false ↔
      m.msg.params.length < paramsListMax.toNat
        ∧ m.kept.length ≤ parseBufferLenMax.toNat := by
  have hmax : paramsListMax.toNat = Irc.slotMax := rfl
  have hroom : parseBufferLenMax.toNat = 512 := rfl
  rw [(doParse_spec h).1, hmax, hroom]
  constructor
  · intro hnone
    cases hparse : Irc.parse 512 m.render with
    | none =>
        rw [hparse] at hnone
        cases hnone
    | some msg => exact (m.parse_render.mp hparse).2
  · intro hfits
    rw [m.parse_render.mpr ⟨rfl, hfits⟩]
    rfl

/-- A message is received as it was sent when it has parameters and no
spaces behind them, there are fewer than `paramsListMax`, and it fits. -/
theorem received_iff {m : Irc.Sent} {s : Bot} (h : Given img m.render s) :
    Received img m (doParse img s) ↔
      (m.params ≠ [] ∧ m.ending.padding = [])
        ∧ m.params.length < paramsListMax.toNat
        ∧ m.kept.length ≤ parseBufferLenMax.toNat := by
  have hparsed : (doParse img s).cf = false →
      Parsed img m.msg s.mem (doParse img s).mem := by
    intro hcf
    obtain ⟨hcount, hkept⟩ := (sent_accepted_iff h).mp hcf
    exact (doParse_spec h).2.1 _ (m.parse_render.mpr ⟨rfl, hcount, hkept⟩)
  constructor
  · intro hrec
    obtain ⟨hfew, hkept⟩ := (sent_accepted_iff h).mp hrec.accepted
    have hsame := (hparsed hrec.accepted).listed.symm.trans hrec.count
    change (Irc.slotsOf m.groups m.ending).length < _ at hfew
    change (Irc.slotsOf m.groups m.ending).length = _ at hsame
    rcases m.slots_eq with ⟨hslots, hone⟩ | ⟨hslots, -⟩
    · rw [hslots] at hfew
      exact ⟨hone, hfew, hkept⟩
    · rw [hslots, List.length_append, List.length_singleton] at hsame
      omega
  · intro hand
    obtain ⟨hone, hfew, hkept⟩ := hand
    have hslots : m.msg.params = m.params := by
      rcases m.slots_eq with ⟨hslots, -⟩ | ⟨-, hno⟩
      · exact hslots
      · exact absurd hone hno
    have hcf := (sent_accepted_iff h).mpr ⟨hslots ▸ hfew, hkept⟩
    have hp := hparsed hcf
    have hlen : m.msg.params.length = m.params.length := by rw [hslots]
    refine ⟨hcf, hp.deref_tags, hp.deref_pfx, hp.deref_cmd,
      hp.listed.trans hlen, ?_, ?_⟩
    · intro i hi
      have hi' : i < m.msg.params.length := hlen ▸ hi
      exact (hp.read_paramOf hi').trans (getElem_congr_coll hslots)
    · intro i hi
      exact hp.paramOf_beyond (hlen ▸ hi)

/-- With up to three parameters, a message is received as it was sent
exactly when it has some, no spaces stand behind them, and it fits. -/
theorem received_iff_unpadded {m : Irc.Sent} {s : Bot}
    (h : Given img m.render s) (hfew : m.params.length ≤ 3) :
    Received img m (doParse img s) ↔
      m.params ≠ [] ∧ m.ending.padding = []
        ∧ m.kept.length ≤ parseBufferLenMax.toNat := by
  have hmax : paramsListMax.toNat = 4 := rfl
  rw [received_iff h]
  constructor
  · intro hand
    obtain ⟨⟨hne, hpad⟩, -, hkept⟩ := hand
    exact ⟨hne, hpad, hkept⟩
  · intro hand
    obtain ⟨hne, hpad, hkept⟩ := hand
    exact ⟨⟨hne, hpad⟩, by omega, hkept⟩

/-- `COMMAND` -/
def bareCommand : Irc.Sent where
  tags := none
  pfx := none
  cmd := ascii "COMMAND"
  cmd_ne := by decide
  cmd_isWord := by decide
  cmd_tags := by decide
  cmd_pfx := by decide
  groups := []
  ending := .nothing

theorem not_received_bare :
    ¬ ∀ (m : Irc.Sent) (s : Bot), Given default m.render s →
      m.params.length ≤ 3 → m.kept.length ≤ parseBufferLenMax.toNat →
      Received default m (doParse default s) := by
  intro hall
  have hgiven : Given default bareCommand.render
      (withLine default default bareCommand.render) :=
    given_withLine default (by decide)
  have hrec := hall bareCommand _ hgiven (by decide) (by decide)
  exact ((received_iff_unpadded hgiven (by decide)).mp hrec).1 rfl

/-- A word behind one space. -/
def oneSpace (w : List Byte) (hne : w ≠ []) (hw : Irc.IsWord w)
    (hmark : w.head? ≠ some colon) : Irc.Group where
  spaces := Irc.spaces 1
  word := w
  spaces_ne := by decide
  isSpaces := Irc.isSpaces_spaces 1
  word_ne := hne
  isWord := hw
  unmarked := hmark

/-- `PRIVMSG #c :a b` -/
def privmsgSent : Irc.Sent where
  tags := none
  pfx := none
  cmd := ascii "PRIVMSG"
  cmd_ne := by decide
  cmd_isWord := by decide
  cmd_tags := by decide
  cmd_pfx := by decide
  groups := [oneSpace (ascii "#c") (by decide) (by decide) (by decide)]
  ending := .trailing (Irc.spaces 1) (ascii "a b") (by decide)
    (Irc.isSpaces_spaces 1) (by decide)

theorem received_privmsg :
    Received default privmsgSent (doParse default
      (withLine default default privmsgSent.render)) :=
  (received_iff_unpadded (given_withLine default (by decide))
    (by decide)).mpr ⟨by decide, by decide, by decide⟩

/-- The parameters of a message were received: it is accepted, and
`paramAt` finds them. -/
structure Found (img : Image) (m : Irc.Sent) (t : Bot) : Prop where
  accepted : t.cf = false
  param : ∀ (i : Nat) (hi : i < m.params.length),
    let u := paramOf img (BitVec.ofNat 16 i) t
    u.mem.read u.si u.cx.toNat = m.params[i]

/-- The parameters are the first slots. -/
theorem found_of_accepted {m : Irc.Sent} {s : Bot}
    (h : Given img m.render s) (hcf : (doParse img s).cf = false) :
    Found img m (doParse img s) := by
  obtain ⟨hfew, hkept⟩ := (sent_accepted_iff h).mp hcf
  have hp : Parsed img m.msg s.mem (doParse img s).mem :=
    (doParse_spec h).2.1 _ (m.parse_render.mpr ⟨rfl, hfew, hkept⟩)
  refine ⟨hcf, fun i hi => ?_⟩
  obtain ⟨hi', hslot⟩ : ∃ hi' : i < m.msg.params.length,
      m.msg.params[i] = m.params[i] := by
    change ∃ hi' : i < (Irc.slotsOf m.groups m.ending).length, _
    rcases m.slots_eq with ⟨hslots, -⟩ | ⟨hslots, -⟩
    · exact ⟨hslots ▸ hi, getElem_congr_coll hslots⟩
    · have hlen : i < (m.params ++ [[]]).length := by
        rw [List.length_append]
        omega
      refine ⟨hslots ▸ hlen, ?_⟩
      have hget : (m.params ++ [[]])[i] = m.params[i] :=
        List.getElem_append_left hi
      exact (getElem_congr_coll hslots).trans hget
  exact (hp.read_paramOf hi').trans hslot

/-- Of the messages that fit, those are accepted, and their parameters
found, that have fewer than `paramsListMax` parameters, where spaces
behind the last count as one more. -/
theorem found_iff_few {m : Irc.Sent} {s : Bot} (h : Given img m.render s)
    (hfits : m.kept.length ≤ parseBufferLenMax.toNat) :
    (Found img m (doParse img s) ↔
        m.params.length + (if m.ending.padding = [] then 0 else 1)
          < paramsListMax.toNat)
      ∧ ((doParse img s).cf = true ↔
        paramsListMax.toNat
          ≤ m.params.length + (if m.ending.padding = [] then 0 else 1)) := by
  have hmax : paramsListMax.toNat = 4 := rfl
  -- a message without parameters has room either way
  have hslots : m.msg.params.length < paramsListMax.toNat ↔
      m.params.length + (if m.ending.padding = [] then 0 else 1)
        < paramsListMax.toNat := by
    change (Irc.slotsOf m.groups m.ending).length < _ ↔ _
    rcases m.slots_eq with ⟨hslots, -, hpad⟩ | ⟨hslots, hno⟩
    · rw [hslots, if_pos hpad, Nat.add_zero]
    · rw [hslots, List.length_append, List.length_singleton]
      split
      · next hpad =>
          have hnil : m.params = [] := by
            by_contra hne
            exact hno ⟨hne, hpad⟩
          rw [hnil, hmax]
          decide
      · rfl
  have haccepted := sent_accepted_iff h
  rw [hslots, and_iff_left hfits] at haccepted
  constructor
  · rw [← haccepted]
    exact ⟨fun hfound => hfound.accepted, found_of_accepted h⟩
  · rw [← Bool.not_eq_false, haccepted]
    exact Nat.not_lt

/-- `353 a = c :d` -/
def namesReply : Irc.Sent where
  tags := none
  pfx := none
  cmd := ascii "353"
  cmd_ne := by decide
  cmd_isWord := by decide
  cmd_tags := by decide
  cmd_pfx := by decide
  groups := [oneSpace (ascii "a") (by decide) (by decide) (by decide),
    oneSpace (ascii "=") (by decide) (by decide) (by decide),
    oneSpace (ascii "c") (by decide) (by decide) (by decide)]
  ending := .trailing (Irc.spaces 1) (ascii "d") (by decide)
    (Irc.isSpaces_spaces 1) (by decide)

theorem not_found_four :
    ¬ ∀ (m : Irc.Sent) (s : Bot), Given default m.render s →
      m.kept.length ≤ parseBufferLenMax.toNat → m.params ≠ [] →
      m.params.length ≤ paramsListMax.toNat →
      Found default m (doParse default s) := by
  intro hall
  have hgiven : Given default namesReply.render
      (withLine default default namesReply.render) :=
    given_withLine default (by decide)
  have hfound := hall namesReply _ hgiven (by decide) (by decide)
    (by decide)
  have hfew := (found_iff_few hgiven (by decide)).1.mp hfound
  exact absurd hfew (by decide)

theorem found_privmsg :
    Found default privmsgSent (doParse default
      (withLine default default privmsgSent.render)) :=
  (found_iff_few (given_withLine default (by decide))
    (by decide)).1.mpr (by decide)

end Pdtb.Asm
