/-
Rendering a message, the other way round. A `Draft` is a message together
with the choices a writer has: how many spaces to put between the parts,
and whether to mark the last parameter where nothing forces it. Its
fields carry what makes it readable, so every draft renders to a line of
the grammar, and to the line of its own message.
-/
import Pdtb.Irc.Grammar

namespace Pdtb.Irc

open Lib

/-- A word and the number of spaces next to it. -/
structure Spaced where
  word : List Byte
  spaces : Nat
  isWord : IsWord word
  spaces_pos : 0 < spaces

/-- A parameter that is not the last. -/
structure Middle extends Spaced where
  word_ne : word ≠ []
  unmarked : word.head? ≠ some colon

/-- What is in front of the parameters. -/
structure Head where
  /-- the tags and the spaces behind them -/
  tags : Option Spaced
  /-- the prefix and the spaces behind it -/
  pfx : Option Spaced
  cmd : List Byte
  cmd_ne : cmd ≠ []
  cmd_isWord : IsWord cmd
  cmd_tags : tags = none → pfx = none → cmd.head? ≠ some atSign
  cmd_pfx : pfx = none → cmd.head? ≠ some colon

/-- A message to be written, and how. -/
structure Draft extends Head where
  /-- all parameters but the last, each with the spaces in front of it -/
  middle : List Middle
  few : middle.length ≤ 2
  last : List Byte
  last_cr : cr ∉ last
  /-- the spaces in front of the last parameter -/
  lastSpaces : Nat
  lastSpaces_pos : 0 < lastSpaces
  /-- whether the last parameter is written with a `:` -/
  marked : Bool
  mark_needed :
    last = [] ∨ space ∈ last ∨ last.head? = some colon → marked = true

/-- `n` spaces. -/
def spaces (n : Nat) : List Byte := List.replicate n space

theorem isSpaces_spaces (n : Nat) : IsSpaces (spaces n) :=
  fun _ hb => List.eq_of_mem_replicate hb

theorem spaces_ne_nil {n : Nat} (h : 0 < n) : spaces n ≠ [] := by
  intro h0
  have := congrArg List.length h0
  rw [spaces, List.length_replicate] at this
  exact absurd this (by simp; omega)

theorem spaces_append_head {n : Nat} (h : 0 < n) (xs : List Byte) :
    (spaces n ++ xs).head? = some space := by
  obtain ⟨k, rfl⟩ := Nat.exists_eq_succ_of_ne_zero (Nat.pos_iff_ne_zero.mp h)
  rfl

namespace Draft

variable (d : Draft)

/-- The parameters, in order. -/
def params : List (List Byte) := d.middle.map (·.word) ++ [d.last]

/-- The message a draft is of. -/
def msg : Msg where
  tags := (d.tags.map Spaced.word).getD []
  pfx := (d.pfx.map Spaced.word).getD []
  cmd := d.cmd
  params := d.params

/-- A part with a marker, if it is there. -/
def markedText (mark : Byte) : Option Spaced → List Byte
  | none => []
  | some p => mark :: (p.word ++ spaces p.spaces)

/-- The last parameter as it is written. -/
def lastText : List Byte :=
  spaces d.lastSpaces ++ (if d.marked then colon :: d.last else d.last)

/-- The line. -/
def render : List Byte :=
  markedText atSign d.tags ++ (markedText colon d.pfx ++ (d.cmd
    ++ (d.middle.flatMap (fun p => spaces p.spaces ++ p.word)
      ++ d.lastText ++ crlf)))

-- ==================================================== it is a line

/-- A parameter as a group of the grammar. -/
def group (p : Middle) : Group where
  spaces := spaces p.spaces
  word := p.word
  spaces_ne := spaces_ne_nil p.spaces_pos
  isSpaces := isSpaces_spaces _
  word_ne := p.word_ne
  isWord := p.isWord
  unmarked := p.unmarked

theorem marked_markedText {mark : Byte} {p : Option Spaced}
    {rest : List Byte} (hspace : rest.head? ≠ some space)
    (habsent : p = none → rest.head? ≠ some mark) :
    Marked mark ((p.map Spaced.word).getD []) (markedText mark p) rest := by
  cases p with
  | none => exact .absent (habsent rfl)
  | some p =>
      refine .present p.isWord (isSpaces_spaces p.spaces) ?_ hspace
      exact startsWith_endsWord.mpr
        (Or.inl (spaces_append_head p.spaces_pos rest))

/-- The parameters of a draft, as the grammar has them: an unmarked last
one is one more group. -/
theorem exists_slots : ∃ gs e,
    d.middle.flatMap (fun p => spaces p.spaces ++ p.word) ++ d.lastText
        = paramsText gs e
      ∧ d.params = slotsOf gs e := by
  have hgroups : (d.middle.map group).flatMap Group.text
      = d.middle.flatMap fun p => spaces p.spaces ++ p.word := by
    rw [List.flatMap_map]
    rfl
  have hwords : (d.middle.map group).map Group.word
      = d.middle.map (·.word) := by
    rw [List.map_map]
    rfl
  cases hmarked : d.marked with
  | true =>
      refine ⟨d.middle.map group, .trailing (spaces d.lastSpaces) d.last
        (spaces_ne_nil d.lastSpaces_pos) (isSpaces_spaces _) d.last_cr,
        ?_, ?_⟩
      · rw [paramsText, hgroups, lastText, hmarked]
        rfl
      · rw [slotsOf, hwords]
        rfl
  | false =>
      have hneeded : ¬ (d.last = [] ∨ space ∈ d.last
          ∨ d.last.head? = some colon) := by
        intro h
        rw [d.mark_needed h] at hmarked
        cases hmarked
      push Not at hneeded
      obtain ⟨hne, hspace, hcolon⟩ := hneeded
      let g : Group := {
        spaces := spaces d.lastSpaces
        word := d.last
        spaces_ne := spaces_ne_nil d.lastSpaces_pos
        isSpaces := isSpaces_spaces _
        word_ne := hne
        isWord := by
          intro b hb
          refine ⟨?_, ?_⟩
          · intro heq
            subst heq
            exact hspace hb
          · intro heq
            subst heq
            exact d.last_cr hb
        unmarked := hcolon }
      refine ⟨d.middle.map group ++ [g], .nothing, ?_, ?_⟩
      · rw [paramsText, List.flatMap_append, hgroups, lastText, hmarked]
        simp [Group.text, Ending.text, g]
      · rw [slotsOf, List.map_append, hwords, List.length_append]
        simp [Ending.slots, params, g]

end Draft

namespace Head

variable (h : Head)

/-- A head with something behind it. -/
def render (rest : List Byte) : List Byte :=
  Draft.markedText atSign h.tags
    ++ (Draft.markedText colon h.pfx ++ (h.cmd ++ rest))

/-- A head with parameters. -/
def msg (params : List (List Byte)) : Msg where
  tags := (h.tags.map Spaced.word).getD []
  pfx := (h.pfx.map Spaced.word).getD []
  cmd := h.cmd
  params := params

theorem cmd_head {xs : List Byte} : (h.cmd ++ xs).head? = h.cmd.head? := by
  obtain ⟨b, w, hw⟩ := List.exists_cons_of_ne_nil h.cmd_ne
  rw [hw]
  rfl

theorem cmd_head_ne_space : h.cmd.head? ≠ some space := by
  obtain ⟨b, w, hw⟩ := List.exists_cons_of_ne_nil h.cmd_ne
  have hb := h.cmd_isWord b (by rw [hw]; exact List.mem_cons_self)
  rw [hw]
  simpa using hb.1

/-- A head, parameters and CR LF are a line. -/
theorem line (gs : List Group) (e : Ending) :
    Line (h.render (paramsText gs e ++ crlf)) (h.msg (slotsOf gs e)) := by
  refine ⟨Draft.markedText atSign h.tags, Draft.markedText colon h.pfx, gs,
    e, rfl, ?_, ?_, h.cmd_isWord, rfl⟩
  · -- behind the tags comes the prefix or the command
    refine Draft.marked_markedText ?_ ?_
    · cases hp : h.pfx with
      | none =>
          rw [Draft.markedText, List.nil_append]
          change (h.cmd ++ _).head? ≠ _
          rw [h.cmd_head]
          exact h.cmd_head_ne_space
      | some p => simp [Draft.markedText, colon, space]
    · intro htags
      cases hp : h.pfx with
      | none =>
          rw [Draft.markedText, List.nil_append]
          change (h.cmd ++ _).head? ≠ _
          rw [h.cmd_head]
          exact h.cmd_tags htags hp
      | some p => simp [Draft.markedText, colon, atSign]
  · refine Draft.marked_markedText ?_ ?_
    · change (h.cmd ++ _).head? ≠ _
      rw [h.cmd_head]
      exact h.cmd_head_ne_space
    · intro hp
      change (h.cmd ++ _).head? ≠ _
      rw [h.cmd_head]
      exact h.cmd_pfx hp

end Head

namespace Draft

variable (d : Draft)

/-- A draft renders to a line of its message. -/
theorem line_render : Line d.render d.msg := by
  obtain ⟨gs, e, htext, hslots⟩ := d.exists_slots
  have hline := d.toHead.line gs e
  rw [← hslots] at hline
  rw [render, htext]
  exact hline

/-- What is read back from a rendered draft is its message. -/
theorem parse_render {room : Nat} (h : d.msg.bytes.length ≤ room) :
    parse room d.render = some d.msg := by
  refine parse_complete d.line_render ?_ h
  have := d.few
  simp only [msg, params, List.length_append, List.length_map,
    List.length_singleton, slotMax]
  omega

end Draft

-- ==================================================== as it is sent

/-- The spaces that stand behind all parameters. -/
def Ending.padding : Ending → List Byte
  | nothing => []
  | spaces sp _ _ => sp
  | trailing _ _ _ _ _ => []

/-- The parameter in the `:` form, if there is one. -/
def Ending.long : Ending → List (List Byte)
  | nothing => []
  | spaces _ _ _ => []
  | trailing _ t _ _ _ => [t]

/-- A message as it is sent: any number of parameters, and spaces at the
end if the last is not in the `:` form. -/
structure Sent extends Head where
  groups : List Group
  ending : Ending

namespace Sent

variable (m : Sent)

/-- The line. -/
def render : List Byte :=
  m.toHead.render (paramsText m.groups m.ending ++ crlf)

/-- The parameters that are sent. -/
def params : List (List Byte) :=
  m.groups.map Group.word ++ m.ending.long

/-- The message with the slots the parser makes. -/
def msg : Msg := m.toHead.msg (slotsOf m.groups m.ending)

/-- The bytes that are kept of it. -/
def kept : List Byte := (m.toHead.msg m.params).bytes

/-- The slots are the parameters and perhaps an empty one. -/
theorem slots_eq :
    slotsOf m.groups m.ending = m.params
        ∧ m.params ≠ [] ∧ m.ending.padding = []
      ∨ slotsOf m.groups m.ending = m.params ++ [[]]
        ∧ ¬ (m.params ≠ [] ∧ m.ending.padding = []) := by
  rw [params]
  cases he : m.ending with
  | nothing =>
      cases hgs : m.groups with
      | nil => exact Or.inr ⟨rfl, fun h => h.1 rfl⟩
      | cons g gs => exact Or.inl ⟨rfl, List.cons_ne_nil _ _, rfl⟩
  | spaces sp hne hsp =>
      refine Or.inr ⟨?_, fun h => hne h.2⟩
      rw [slotsOf, Ending.long, List.append_nil]
      rfl
  | trailing sp t hne hsp ht =>
      refine Or.inl ⟨rfl, ?_, rfl⟩
      exact List.append_ne_nil_of_right_ne_nil _ (List.cons_ne_nil _ _)

/-- Empty slots are nothing to keep. -/
theorem bytes_msg : m.msg.bytes = m.kept := by
  have hflat : (slotsOf m.groups m.ending).flatten = m.params.flatten := by
    rcases m.slots_eq with ⟨h, -⟩ | ⟨h, -⟩
    · rw [h]
    · rw [h, List.flatten_append]
      exact List.append_nil _
  simp only [msg, kept, Msg.bytes, Head.msg, hflat]

/-- What there is to a parse of a message as it is sent. -/
theorem parse_render {room : Nat} {msg : Msg} :
    parse room m.render = some msg ↔ msg = m.msg
      ∧ m.msg.params.length < slotMax ∧ m.kept.length ≤ room := by
  have hline : Line m.render m.msg := m.toHead.line m.groups m.ending
  rw [parse_eq_some, ← m.bytes_msg]
  constructor
  · intro h
    obtain ⟨hline', hcount, hroom⟩ := h
    cases hline'.unique hline
    exact ⟨rfl, hcount, hroom⟩
  · intro h
    obtain ⟨rfl, hcount, hroom⟩ := h
    exact ⟨hline, hcount, hroom⟩

end Sent

end Pdtb.Irc
