/-
The language of accepted lines, as a grammar: tags, prefix, command,
parameters, CR LF. The grammar says which strings split into such parts;
`parse_eq_some` says that the parse of a string is the message of its
split, so there is at most one.

A word is a whole one throughout: a space or CR comes behind it.
-/
import Pdtb.Irc.Message

namespace Pdtb.Irc

open Lib

-- ==================================================== the parts

/-- A possibly empty string without space and CR. -/
def IsWord (w : List Byte) : Prop := ∀ b ∈ w, b ≠ space ∧ b ≠ cr

instance (w : List Byte) : Decidable (IsWord w) :=
  inferInstanceAs (Decidable (∀ b ∈ w, b ≠ space ∧ b ≠ cr))

/-- Possibly no spaces. -/
def IsSpaces (sp : List Byte) : Prop := ∀ b ∈ sp, b = space

/-- A part with a marker, as it stands in front of `rest`: the marker, a
word and all the spaces that come next, or nothing, if the marker does
not come next. -/
inductive Marked (mark : Byte) : (word text rest : List Byte) → Prop where
  | absent {rest : List Byte} (h : rest.head? ≠ some mark) :
      Marked mark [] [] rest
  | present {w sp rest : List Byte} (hw : IsWord w) (hsp : IsSpaces sp)
      (hend : StartsWith endsWord (sp ++ rest))
      (hrest : rest.head? ≠ some space) :
      Marked mark w (mark :: (w ++ sp)) rest

/-- A parameter that is not the last: spaces and a word. -/
structure Group where
  spaces : List Byte
  word : List Byte
  spaces_ne : spaces ≠ []
  isSpaces : IsSpaces spaces
  word_ne : word ≠ []
  isWord : IsWord word
  unmarked : word.head? ≠ some colon

def Group.text (g : Group) : List Byte := g.spaces ++ g.word

/-- What may follow the groups. -/
inductive Ending where
  | nothing
  | spaces (sp : List Byte) (hne : sp ≠ []) (hsp : IsSpaces sp)
  | trailing (sp text : List Byte) (hne : sp ≠ []) (hsp : IsSpaces sp)
      (htext : cr ∉ text)

namespace Ending

def text : Ending → List Byte
  | nothing => []
  | spaces sp _ _ => sp
  | trailing sp t _ _ _ => sp ++ colon :: t

/-- The slots the ending makes behind `k` groups: none of its own if it
is nothing, but there is always one. -/
def slots : Ending → Nat → List (List Byte)
  | nothing, 0 => [[]]
  | nothing, _ + 1 => []
  | spaces _ _ _, _ => [[]]
  | trailing _ t _ _ _, _ => [t]

/-- How many slots there are with `k` groups. -/
def slotCount : Ending → Nat → Nat
  | nothing, k => max k 1
  | spaces _ _ _, k => k + 1
  | trailing _ _ _ _ _, k => k + 1

theorem length_slots (e : Ending) (k : Nat) :
    k + (e.slots k).length = e.slotCount k := by
  cases e with
  | nothing =>
      cases k with
      | zero => rfl
      | succ k => simp [slots, slotCount]
  | spaces sp hne hsp => rfl
  | trailing sp t hne hsp htext => rfl

end Ending

/-- The parameters as they stand in the line. -/
def paramsText (gs : List Group) (e : Ending) : List Byte :=
  gs.flatMap Group.text ++ e.text

/-- The contents of the slots. -/
def slotsOf (gs : List Group) (e : Ending) : List (List Byte) :=
  gs.map Group.word ++ e.slots gs.length

theorem length_slotsOf (gs : List Group) (e : Ending) :
    (slotsOf gs e).length = e.slotCount gs.length := by
  rw [slotsOf, List.length_append, List.length_map, e.length_slots]

/-- `inp` is a line with message `m`. -/
def Line (inp : List Byte) (m : Msg) : Prop :=
  ∃ (T P : List Byte) (gs : List Group) (e : Ending),
    inp = T ++ (P ++ (m.cmd ++ (paramsText gs e ++ crlf)))
      ∧ Marked atSign m.tags T (P ++ (m.cmd ++ (paramsText gs e ++ crlf)))
      ∧ Marked colon m.pfx P (m.cmd ++ (paramsText gs e ++ crlf))
      ∧ IsWord m.cmd
      ∧ m.params = slotsOf gs e

/-- `inp` is tags, prefix, command, parameters and CR LF, with fewer than
`max` slots and no more than `room` bytes to keep. -/
def Accepted (max room : Nat) (inp : List Byte) : Prop :=
  ∃ (T t P p C : List Byte) (gs : List Group) (e : Ending),
    inp = T ++ (P ++ (C ++ (paramsText gs e ++ crlf)))
      ∧ Marked atSign t T (P ++ (C ++ (paramsText gs e ++ crlf)))
      ∧ Marked colon p P (C ++ (paramsText gs e ++ crlf))
      ∧ IsWord C
      ∧ e.slotCount gs.length < max
      ∧ (t ++ p ++ C ++ (slotsOf gs e).flatten).length ≤ room

-- ==================================================== words and spaces

theorem isWord_iff {w : List Byte} :
    IsWord w ↔ ∀ b ∈ w, endsWord b = false := by
  simp [IsWord, endsWord]

theorem isSpaces_iff {sp : List Byte} :
    IsSpaces sp ↔ ∀ b ∈ sp, notSpace b = false := by
  simp [IsSpaces, notSpace]

theorem startsWith_notSpace {xs : List Byte} :
    StartsWith notSpace xs ↔ xs ≠ [] ∧ xs.head? ≠ some space := by
  cases xs with
  | nil => simp [not_startsWith_nil]
  | cons x xs => simp [startsWith_cons, notSpace]

theorem startsWith_isCR {xs : List Byte} :
    StartsWith isCR xs ↔ xs.head? = some cr := by
  cases xs with
  | nil => simp [not_startsWith_nil]
  | cons x xs => simp [startsWith_cons, isCR]

theorem startsWith_endsWord {xs : List Byte} :
    StartsWith endsWord xs ↔ xs.head? = some space ∨ xs.head? = some cr := by
  cases xs with
  | nil => simp [not_startsWith_nil]
  | cons x xs => simp [startsWith_cons, endsWord]

-- ==================================================== marked parts

theorem wordIf_eq_some {mark : Byte} {room : Nat}
    {inp w rest : List Byte} :
    wordIf mark room inp = some (w, rest) ↔
      ∃ text, inp = text ++ rest ∧ Marked mark w text rest
        ∧ rest ≠ [] ∧ w.length ≤ room := by
  cases inp with
  | nil =>
      constructor
      · intro h
        cases h
      · intro hex
        obtain ⟨text, hsplit, -, hne, -⟩ := hex
        exact absurd (List.append_eq_nil_iff.mp hsplit.symm).2 hne
  | cons b inp =>
      rw [wordIf]
      by_cases hb : b = mark
      · subst hb
        rw [if_pos rfl]
        simp only [Option.bind_eq_some_iff, Option.map_eq_some_iff,
          Prod.exists, Prod.mk.injEq]
        constructor
        · intro hex
          obtain ⟨v, mid, hscan, rest', hskip, rfl, rfl⟩ := hex
          obtain ⟨rfl, hw, hend, hlen⟩ := scan_eq_some.mp hscan
          obtain ⟨sp, rfl, hsp, hstart⟩ := skip_eq_some.mp hskip
          obtain ⟨hne, hhead⟩ := startsWith_notSpace.mp hstart
          refine ⟨b :: (v ++ sp), by simp, ?_, hne, hlen⟩
          exact .present (isWord_iff.mpr hw) (isSpaces_iff.mpr hsp) hend
            hhead
        · intro hex
          obtain ⟨text, hsplit, hmarked, hne, hlen⟩ := hex
          cases hmarked with
          | absent h =>
              rw [List.nil_append] at hsplit
              rw [← hsplit] at h
              exact absurd rfl h
          | @present _ sp _ hw hsp hend hrest =>
              refine ⟨w, sp ++ rest, scan_eq_some.mpr
                ⟨?_, isWord_iff.mp hw, hend, hlen⟩, rest,
                skip_eq_some.mpr ⟨sp, rfl, isSpaces_iff.mp hsp,
                  startsWith_notSpace.mpr ⟨hne, hrest⟩⟩, rfl, rfl⟩
              simpa using hsplit
      · rw [if_neg hb, Option.some.injEq, Prod.mk.injEq]
        constructor
        · intro hand
          obtain ⟨rfl, rfl⟩ := hand
          refine ⟨[], rfl, .absent ?_, by simp, by simp⟩
          simpa using hb
        · intro hex
          obtain ⟨text, hsplit, hmarked, hne, hlen⟩ := hex
          cases hmarked with
          | absent h => exact ⟨rfl, hsplit⟩
          | present hw hsp hend hrest =>
              rw [List.cons_append] at hsplit
              exact absurd (List.cons.inj hsplit).1 hb

-- ==================================================== the parameters

/-- The parameters start with a space, unless there is nothing of
them. -/
theorem paramsText_head (gs : List Group) (e : Ending) :
    (gs = [] ∧ e = .nothing)
      ∨ ∀ xs, (paramsText gs e ++ xs).head? = some space := by
  have hspaces : ∀ {sp : List Byte}, sp ≠ [] → IsSpaces sp →
      ∀ xs, (sp ++ xs).head? = some space := by
    intro sp hne hsp xs
    obtain ⟨x, sp, rfl⟩ := List.exists_cons_of_ne_nil hne
    rw [List.cons_append, List.head?_cons, hsp x List.mem_cons_self]
  cases gs with
  | nil =>
      cases e with
      | nothing => exact Or.inl ⟨rfl, rfl⟩
      | spaces sp hne hsp => exact Or.inr (hspaces hne hsp)
      | trailing sp t hne hsp htext =>
          refine Or.inr fun xs => ?_
          simp only [paramsText, List.flatMap_nil, List.nil_append,
            Ending.text, List.append_assoc]
          exact hspaces hne hsp _
  | cons g gs =>
      refine Or.inr fun xs => ?_
      simp only [paramsText, List.flatMap_cons, Group.text,
        List.append_assoc]
      exact hspaces g.spaces_ne g.isSpaces _

/-- Behind a word comes a space or CR, whatever the rest of the
parameters is. -/
theorem startsWith_paramsText {gs : List Group} {e : Ending}
    {rest : List Byte} (hrest : StartsWith isCR rest) :
    StartsWith endsWord (paramsText gs e ++ rest) := by
  rcases paramsText_head gs e with ⟨rfl, rfl⟩ | hhead
  · exact startsWith_endsWord.mpr (Or.inr (startsWith_isCR.mp hrest))
  · exact startsWith_endsWord.mpr (Or.inl (hhead rest))

/-- The slot in front of a rest that starts with CR or a space. -/
theorem slot_eq_some_of_word {room : Nat} {w rest : List Byte}
    (hw : IsWord w) (hmark : (w ++ rest).head? ≠ some colon)
    (hrest : StartsWith endsWord rest) (hlen : w.length ≤ room) :
    slot room (w ++ rest) = some (w, rest) := by
  obtain ⟨b, inp, hinp⟩ : ∃ b inp, w ++ rest = b :: inp := by
    obtain ⟨x, xs, rfl, -⟩ := hrest
    cases w with
    | nil => exact ⟨x, xs, rfl⟩
    | cons y w => exact ⟨y, w ++ x :: xs, rfl⟩
  have hb : b ≠ colon := by
    rw [hinp] at hmark
    simpa using hmark
  rw [hinp, slot, if_neg hb, ← hinp]
  exact scan_eq_some.mpr ⟨rfl, isWord_iff.mp hw, hrest, hlen⟩

theorem slot_eq_some_of_trailing {room : Nat} {t rest : List Byte}
    (ht : cr ∉ t) (hrest : StartsWith isCR rest)
    (hlen : t.length ≤ room) :
    slot room (colon :: t ++ rest) = some (t, rest) := by
  rw [List.cons_append, slot, if_pos rfl]
  refine scan_eq_some.mpr ⟨rfl, ?_, hrest, hlen⟩
  intro b hb
  simp only [isCR, beq_eq_false_iff_ne]
  intro heq
  subst heq
  exact ht hb

theorem skip_spaces {sp xs : List Byte} (hsp : IsSpaces sp)
    (hne : xs ≠ []) (hhead : xs.head? ≠ some space) :
    skip notSpace (sp ++ xs) = some xs :=
  skip_eq_some.mpr ⟨sp, rfl, isSpaces_iff.mp hsp,
    startsWith_notSpace.mpr ⟨hne, hhead⟩⟩

/-- The last slot: CR comes next. -/
theorem slots_last {n room : Nat} {inp mid p rest : List Byte}
    (hskip : skip notSpace inp = some mid)
    (hslot : slot room mid = some (p, rest))
    (hrest : rest.head? = some cr) :
    slots (n + 1) room inp = some ([p], rest) := by
  simp only [slots, hskip, hslot, Option.bind_some]
  rw [if_pos hrest]

/-- A slot with others behind it. -/
theorem slots_more {n room : Nat} {inp mid p rest rest' : List Byte}
    {ps : List (List Byte)} (hskip : skip notSpace inp = some mid)
    (hslot : slot room mid = some (p, rest))
    (hrest : rest.head? ≠ some cr)
    (hmore : slots n (room - p.length) rest = some (ps, rest')) :
    slots (n + 1) room inp = some (p :: ps, rest') := by
  simp only [slots, hskip, hslot, Option.bind_some]
  rw [if_neg hrest, hmore]
  rfl

/-- One more group in front, when the rest is more than nothing. -/
theorem slotsOf_cons (g : Group) {gs : List Group} {e : Ending}
    (h : ¬ (gs = [] ∧ e = .nothing)) :
    slotsOf (g :: gs) e = g.word :: slotsOf gs e := by
  simp only [slotsOf, List.map_cons, List.cons_append, List.length_cons]
  cases e with
  | nothing =>
      cases gs with
      | nil => exact absurd ⟨rfl, rfl⟩ h
      | cons g' gs => rfl
  | spaces sp hne hsp => rfl
  | trailing sp t hne hsp htext => rfl

/-- There is always a slot. -/
theorem slotsOf_ne_nil (gs : List Group) (e : Ending) :
    slotsOf gs e ≠ [] := by
  cases gs <;> cases e <;> simp [slotsOf, Ending.slots]

theorem exists_succ {α : Type} {xs : List α} {n : Nat} (hne : xs ≠ [])
    (hn : xs.length ≤ n) : ∃ k, n = k + 1 := by
  have := List.length_pos_iff.mpr hne
  exact ⟨n - 1, by omega⟩

/-- A line that splits into slots is read as these slots. -/
theorem slots_complete {gs : List Group} {e : Ending} {n room : Nat}
    {rest : List Byte} (hrest : StartsWith isCR rest)
    (hn : (slotsOf gs e).length ≤ n)
    (hroom : (slotsOf gs e).flatten.length ≤ room) :
    slots n room (paramsText gs e ++ rest) = some (slotsOf gs e, rest) := by
  have hcr : rest.head? = some cr := startsWith_isCR.mp hrest
  have hne : rest ≠ [] := by
    intro heq
    subst heq
    cases hcr
  have hnospace : rest.head? ≠ some space := by
    rw [hcr]
    decide
  have hempty : ∀ room, slot room rest = some ([], rest) := by
    intro room
    refine slot_eq_some_of_word (w := []) (by simp [IsWord]) ?_
      (startsWith_endsWord.mpr (Or.inr hcr)) (Nat.zero_le _)
    rw [List.nil_append, hcr]
    decide
  induction gs generalizing n room with
  | nil =>
      obtain ⟨n, rfl⟩ := exists_succ (slotsOf_ne_nil _ _) hn
      cases e with
      | nothing =>
          exact slots_last (skip_spaces (show IsSpaces [] by simp [IsSpaces]) hne
            hnospace) (hempty room) hcr
      | spaces sp hspne hsp =>
          exact slots_last (skip_spaces hsp hne hnospace) (hempty room) hcr
      | trailing sp t hspne hsp htext =>
          have hlen : t.length ≤ room := by
            simpa [slotsOf, Ending.slots] using hroom
          have hskip : skip notSpace (paramsText [] (.trailing sp t hspne hsp
              htext) ++ rest) = some (colon :: t ++ rest) := by
            simp only [paramsText, List.flatMap_nil, List.nil_append,
              Ending.text, List.append_assoc]
            exact skip_spaces hsp (by simp) (by simp [colon, space])
          exact slots_last hskip (slot_eq_some_of_trailing htext hrest hlen)
            hcr
  | cons g gs ih =>
      obtain ⟨n, rfl⟩ := exists_succ (slotsOf_ne_nil _ _) hn
      obtain ⟨b, w, hw⟩ := List.exists_cons_of_ne_nil g.word_ne
      have hb := g.isWord b (by rw [hw]; exact List.mem_cons_self)
      have hskip : skip notSpace (paramsText (g :: gs) e ++ rest)
          = some (g.word ++ (paramsText gs e ++ rest)) := by
        simp only [paramsText, List.flatMap_cons, Group.text,
          List.append_assoc]
        refine skip_spaces g.isSpaces (by simp [hw]) ?_
        simpa [hw] using hb.1
      have hmark : (g.word ++ (paramsText gs e ++ rest)).head?
          ≠ some colon := by
        have hun := g.unmarked
        rw [hw] at hun ⊢
        exact hun
      have hlen : g.word.length ≤ room := by
        simp only [slotsOf, List.map_cons, List.cons_append,
          List.flatten_cons, List.length_append] at hroom
        omega
      have hslot := slot_eq_some_of_word g.isWord hmark
        (startsWith_paramsText hrest) hlen
      by_cases hlast : gs = [] ∧ e = .nothing
      · obtain ⟨rfl, rfl⟩ := hlast
        exact slots_last hskip hslot hcr
      · have hhead : (paramsText gs e ++ rest).head? ≠ some cr := by
          rw [(paramsText_head gs e).resolve_left hlast rest]
          decide
        rw [slotsOf_cons g hlast] at hn hroom ⊢
        rw [List.flatten_cons, List.length_append] at hroom
        refine slots_more hskip hslot hhead (ih ?_ ?_)
        · exact Nat.le_of_succ_le_succ hn
        · omega

/-- What is read as slots splits into them. -/
theorem slots_sound {n room : Nat} {inp rest : List Byte}
    {ps : List (List Byte)} (h : slots n room inp = some (ps, rest))
    (hinp : StartsWith endsWord inp) :
    ∃ gs e, inp = paramsText gs e ++ rest ∧ StartsWith isCR rest
      ∧ ps = slotsOf gs e ∧ ps.length ≤ n ∧ ps.flatten.length ≤ room := by
  induction n generalizing room inp ps with
  | zero => cases h
  | succ n ih =>
      simp only [slots, Option.bind_eq_some_iff] at h
      obtain ⟨mid, hskip, ⟨p, rest'⟩, hslot, h⟩ := h
      obtain ⟨sp, rfl, hsp, hmid⟩ := skip_eq_some.mp hskip
      rw [← isSpaces_iff] at hsp
      obtain ⟨b, mid, rfl, hb⟩ := hmid
      -- without spaces in front of it, the slot is empty
      have hspaces : endsWord b = false → sp ≠ [] := by
        intro hword heq
        subst heq
        rw [List.nil_append, startsWith_cons, hword] at hinp
        cases hinp
      rw [slot] at hslot
      by_cases hcolon : b = colon
      · rw [if_pos hcolon] at hslot
        obtain ⟨rfl, hp, hrest', hlen⟩ := scan_eq_some.mp hslot
        have hcr := startsWith_isCR.mp hrest'
        change (if rest'.head? = some cr then _ else _) = _ at h
        rw [if_pos hcr] at h
        cases h
        have hne : sp ≠ [] := hspaces (by rw [hcolon]; decide)
        have htext : cr ∉ p := by
          intro hmem
          have := hp cr hmem
          simp [isCR] at this
        refine ⟨[], .trailing sp p hne hsp htext, ?_, hrest', rfl, ?_, ?_⟩
        · simp [paramsText, Ending.text, hcolon]
        · simp
        · simpa using hlen
      · rw [if_neg hcolon] at hslot
        obtain ⟨hsplit, hp, hrest', hlen⟩ := scan_eq_some.mp hslot
        rw [← isWord_iff] at hp
        change (if rest'.head? = some cr then _ else _) = _ at h
        cases p with
        | nil =>
            -- an empty slot: `b` is CR, as it is no space
            rw [List.nil_append] at hsplit
            have hcr : rest'.head? = some cr := by
              rw [← hsplit, startsWith_cons] at hrest'
              rw [← hsplit, List.head?_cons]
              simp only [endsWord, notSpace, Bool.or_eq_true,
                beq_iff_eq, bne_iff_ne] at hrest' hb
              rw [hrest'.resolve_left hb]
            rw [if_pos hcr] at h
            cases h
            by_cases hne : sp = []
            · refine ⟨[], .nothing, ?_, startsWith_isCR.mpr hcr, rfl, ?_, ?_⟩
              · rw [hne, hsplit]
                rfl
              · simp
              · simp
            · refine ⟨[], .spaces sp hne hsp, ?_, startsWith_isCR.mpr hcr,
                rfl, ?_, ?_⟩
              · rw [hsplit]
                rfl
              · simp
              · simp
        | cons c p =>
            obtain ⟨rfl, rfl⟩ := List.cons.inj hsplit
            have hword : endsWord b = false :=
              isWord_iff.mp hp b List.mem_cons_self
            let g : Group := {
              spaces := sp
              word := b :: p
              spaces_ne := hspaces hword
              isSpaces := hsp
              word_ne := by simp
              isWord := hp
              unmarked := by simpa using hcolon }
            by_cases hcr : rest'.head? = some cr
            · rw [if_pos hcr] at h
              cases h
              refine ⟨[g], .nothing, ?_, startsWith_isCR.mpr hcr, rfl, ?_, ?_⟩
              · simp [paramsText, Group.text, Ending.text, g]
              · simp
              · simpa using hlen
            · rw [if_neg hcr, Option.map_eq_some_iff] at h
              obtain ⟨⟨qs, rest''⟩, hqs, hps⟩ := h
              cases hps
              obtain ⟨gs, e, rfl, hrest, rfl, hcount, hroom⟩ :=
                ih hqs hrest'
              have hmore : ¬ (gs = [] ∧ e = .nothing) := by
                intro hand
                obtain ⟨rfl, rfl⟩ := hand
                exact hcr (startsWith_isCR.mp hrest)
              refine ⟨g :: gs, e, ?_, hrest, ?_, ?_, ?_⟩
              · simp [paramsText, Group.text, g]
              · rw [slotsOf_cons g hmore]
              · exact Nat.succ_le_succ hcount
              · simp only [List.flatten_cons, List.length_append] at hroom ⊢
                omega

-- ==================================================== the line

theorem lineEnd_eq_nil {inp : List Byte} :
    lineEnd inp = some [] ↔ inp = crlf := by
  constructor
  · intro h
    match inp, h with
    | b :: c :: rest, h =>
        rw [lineEnd] at h
        split at h
        next hbc =>
          cases h
          rw [hbc.1, hbc.2]
          rfl
        next => cases h
  · intro heq
    subst heq
    rfl

theorem parse_sound {room : Nat} {inp : List Byte} {m : Msg}
    (h : parse room inp = some m) :
    Line inp m ∧ m.params.length < slotMax ∧ m.bytes.length ≤ room := by
  simp only [parse, message, Option.bind_eq_some_iff,
    Option.map_eq_some_iff] at h
  obtain ⟨⟨_, rest⟩, ⟨⟨tags, inp₁⟩, htags, ⟨pfx, inp₂⟩, hpfx,
    ⟨cmd, inp₃⟩, hcmd, ⟨ps, inp₄⟩, hps, rest, hend, hmsg⟩, hlast⟩ := h
  cases hmsg
  change (if rest = [] then _ else _) = _ at hlast
  split at hlast
  next hnil =>
    cases hlast
    subst hnil
    obtain ⟨T, rfl, hT, -, htlen⟩ := wordIf_eq_some.mp htags
    obtain ⟨P, rfl, hP, -, hplen⟩ := wordIf_eq_some.mp hpfx
    obtain ⟨rfl, hC, hstart, hclen⟩ := scan_eq_some.mp hcmd
    obtain ⟨gs, e, rfl, -, rfl, hcount, hslen⟩ := slots_sound hps hstart
    rw [lineEnd_eq_nil] at hend
    subst hend
    refine ⟨⟨T, P, gs, e, rfl, hT, hP, isWord_iff.mpr hC, rfl⟩,
      Nat.lt_succ_of_le hcount, ?_⟩
    rw [Msg.length_bytes]
    simp only at htlen hplen hclen hslen ⊢
    omega
  next => cases hlast

theorem parse_complete {room : Nat} {inp : List Byte} {m : Msg}
    (hline : Line inp m) (hcount : m.params.length < slotMax)
    (hroom : m.bytes.length ≤ room) : parse room inp = some m := by
  obtain ⟨T, P, gs, e, rfl, hT, hP, hC, hps⟩ := hline
  obtain ⟨tags, pfx, cmd, params⟩ := m
  simp only at hT hP hC hps hcount
  subst hps
  rw [Msg.length_bytes] at hroom
  simp only at hroom
  have hcrlf : StartsWith isCR crlf := startsWith_isCR.mpr rfl
  have htags : wordIf atSign room
      (T ++ (P ++ (cmd ++ (paramsText gs e ++ crlf)))) = some (tags, _) :=
    wordIf_eq_some.mpr ⟨T, rfl, hT, by simp [crlf], by omega⟩
  have hpfx : wordIf colon (room - tags.length)
      (P ++ (cmd ++ (paramsText gs e ++ crlf))) = some (pfx, _) :=
    wordIf_eq_some.mpr ⟨P, rfl, hP, by simp [crlf], by omega⟩
  have hcmd : scan endsWord (room - tags.length - pfx.length)
      (cmd ++ (paramsText gs e ++ crlf)) = some (cmd, _) :=
    scan_eq_some.mpr ⟨rfl, isWord_iff.mp hC, startsWith_paramsText hcrlf,
      by omega⟩
  have hslots : slots (slotMax - 1)
      (room - tags.length - pfx.length - cmd.length)
      (paramsText gs e ++ crlf) = some (slotsOf gs e, crlf) :=
    slots_complete hcrlf (Nat.le_pred_of_lt hcount) (by omega)
  simp only [parse, message, htags, hpfx, hcmd, hslots, Option.bind_some,
    lineEnd_eq_nil.mpr rfl, Option.map_some, ↓reduceIte]

theorem parse_eq_some {room : Nat} {inp : List Byte} {m : Msg} :
    parse room inp = some m ↔
      Line inp m ∧ m.params.length < slotMax ∧ m.bytes.length ≤ room :=
  ⟨parse_sound, fun h => parse_complete h.1 h.2.1 h.2.2⟩

/-- A line has one message. -/
theorem Line.unique {inp : List Byte} {m m' : Msg} (h : Line inp m)
    (h' : Line inp m') : m = m' := by
  -- with room for everything both are what the scanners find
  have hscan : ∀ {m : Msg}, Line inp m →
      ∀ N, m.bytes.length ≤ N → m.params.length ≤ N →
        ∃ inp₁ inp₂ inp₃, wordIf atSign N inp = some (m.tags, inp₁)
          ∧ wordIf colon N inp₁ = some (m.pfx, inp₂)
          ∧ scan endsWord N inp₂ = some (m.cmd, inp₃)
          ∧ slots N N inp₃ = some (m.params, crlf) := by
    intro m hex N hN hcount
    obtain ⟨T, P, gs, e, hinp, hT, hP, hC, hps⟩ := hex
    rw [Msg.length_bytes] at hN
    have hcrlf : StartsWith isCR crlf := startsWith_isCR.mpr rfl
    refine ⟨_, _, _, wordIf_eq_some.mpr ⟨T, hinp, hT, by simp [crlf],
        by omega⟩,
      wordIf_eq_some.mpr ⟨P, rfl, hP, by simp [crlf], by omega⟩,
      scan_eq_some.mpr ⟨rfl, isWord_iff.mp hC,
        startsWith_paramsText hcrlf, by omega⟩, ?_⟩
    rw [hps] at hN hcount ⊢
    exact slots_complete hcrlf hcount (by omega)
  obtain ⟨N, hN⟩ : ∃ N, N = m.bytes.length + m.params.length
    + m'.bytes.length + m'.params.length := ⟨_, rfl⟩
  obtain ⟨inp₁, inp₂, inp₃, htags, hpfx, hcmd, hps⟩ :=
    hscan h N (by omega) (by omega)
  obtain ⟨inp₁', inp₂', inp₃', htags', hpfx', hcmd', hps'⟩ :=
    hscan h' N (by omega) (by omega)
  obtain ⟨htag, rfl⟩ := Prod.mk.inj (Option.some.inj (htags.symm.trans htags'))
  obtain ⟨hpf, rfl⟩ := Prod.mk.inj (Option.some.inj (hpfx.symm.trans hpfx'))
  obtain ⟨hcm, rfl⟩ := Prod.mk.inj (Option.some.inj (hcmd.symm.trans hcmd'))
  obtain ⟨hp, -⟩ := Prod.mk.inj (Option.some.inj (hps.symm.trans hps'))
  obtain ⟨tags, pfx, cmd, params⟩ := m
  obtain ⟨tags', pfx', cmd', params'⟩ := m'
  simp only at htag hpf hcm hp
  rw [htag, hpf, hcm, hp]

/-- The accepted lines are those there is a parse of. -/
theorem accepted_iff {room : Nat} {inp : List Byte} :
    Accepted slotMax room inp ↔ ∃ m, parse room inp = some m := by
  constructor
  · intro h
    obtain ⟨T, t, P, p, C, gs, e, hinp, hT, hP, hC, hcount, hroom⟩ := h
    refine ⟨⟨t, p, C, slotsOf gs e⟩, parse_complete
      ⟨T, P, gs, e, hinp, hT, hP, hC, rfl⟩ ?_ hroom⟩
    rwa [length_slotsOf]
  · intro h
    obtain ⟨m, hm⟩ := h
    obtain ⟨⟨T, P, gs, e, hinp, hT, hP, hC, hps⟩, hcount, hroom⟩ :=
      parse_sound hm
    rw [hps, length_slotsOf] at hcount
    rw [Msg.bytes, hps] at hroom
    exact ⟨T, m.tags, P, m.pfx, m.cmd, gs, e, hinp, hT, hP, hC, hcount,
      hroom⟩

-- ==================================================== lengths

theorem Marked.length_le {mark : Byte} {w text rest : List Byte}
    (h : Marked mark w text rest) : w.length ≤ text.length := by
  cases h with
  | absent h => exact Nat.le_refl _
  | present hw hsp hend hrest =>
      simp only [List.length_cons, List.length_append]
      omega

theorem Ending.length_le (e : Ending) (k : Nat) :
    (e.slots k).flatten.length ≤ e.text.length := by
  cases e with
  | nothing => cases k <;> simp [slots]
  | spaces sp hne hsp => simp [slots]
  | trailing sp t hne hsp htext =>
      simp only [slots, text, List.flatten_cons, List.flatten_nil,
        List.append_nil, List.length_append, List.length_cons]
      omega

theorem groups_length_le (gs : List Group) :
    (gs.map Group.word).flatten.length
      ≤ (gs.flatMap Group.text).length := by
  induction gs with
  | nil => simp
  | cons g gs ih =>
      simp only [List.map_cons, List.flatten_cons, List.length_append,
        List.flatMap_cons, Group.text]
      omega

/-- CR LF is not kept, so less is kept than was read. -/
theorem parse_length {room : Nat} {inp : List Byte} {m : Msg}
    (h : parse room inp = some m) : m.bytes.length + 2 ≤ inp.length := by
  obtain ⟨⟨T, P, gs, e, rfl, hT, hP, -, hps⟩, -, -⟩ := parse_sound h
  have hT := hT.length_le
  have hP := hP.length_le
  have hgs := groups_length_le gs
  have he := e.length_le gs.length
  rw [Msg.length_bytes, hps]
  simp only [slotsOf, paramsText, crlf, List.flatten_append,
    List.length_append, List.length_cons, List.length_nil] at *
  omega

/-- There is always a first parameter. -/
theorem parse_params_pos {room : Nat} {inp : List Byte} {m : Msg}
    (h : parse room inp = some m) : 0 < m.params.length := by
  obtain ⟨⟨T, P, gs, e, -, -, -, -, hps⟩, -, -⟩ := parse_sound h
  rw [hps]
  exact List.length_pos_iff.mpr (slotsOf_ne_nil gs e)

/-- What is in the slots has no CR and is in the text. -/
theorem slotsOf_text {gs : List Group} {e : Ending} {p : List Byte}
    (h : p ∈ slotsOf gs e) : cr ∉ p ∧ p ⊆ paramsText gs e := by
  rw [slotsOf, List.mem_append, List.mem_map] at h
  rcases h with ⟨g, hg, rfl⟩ | h
  · refine ⟨fun hcr => (g.isWord cr hcr).2 rfl, fun b hb => ?_⟩
    refine List.mem_append_left _ (List.mem_flatMap_of_mem hg ?_)
    exact List.mem_append_right _ hb
  · cases e with
    | nothing =>
        have hp : p = [] := by
          cases hgs : gs.length with
          | zero =>
              rw [hgs] at h
              exact List.mem_singleton.mp h
          | succ k =>
              rw [hgs] at h
              exact absurd h List.not_mem_nil
        rw [hp]
        exact ⟨List.not_mem_nil, List.nil_subset _⟩
    | spaces sp hne hsp =>
        rw [List.mem_singleton.mp h]
        exact ⟨List.not_mem_nil, List.nil_subset _⟩
    | trailing sp t hne hsp ht =>
        rw [List.mem_singleton.mp h]
        refine ⟨ht, fun b hb => ?_⟩
        refine List.mem_append_right _ (List.mem_append_right _ ?_)
        exact List.mem_cons_of_mem _ hb

/-- No parameter has a CR, and none has bytes that are not in front of
the line's end. -/
theorem parse_params {room : Nat} {inp : List Byte} {m : Msg}
    (h : parse room inp = some m) :
    ∃ u, inp = u ++ crlf ∧ ∀ p ∈ m.params, cr ∉ p ∧ p ⊆ u := by
  obtain ⟨⟨T, P, gs, e, rfl, -, -, -, hps⟩, -⟩ := parse_sound h
  refine ⟨T ++ (P ++ (m.cmd ++ paramsText gs e)), ?_, fun p hp => ?_⟩
  · simp only [List.append_assoc]
  · rw [hps] at hp
    obtain ⟨hcr, hsub⟩ := slotsOf_text hp
    refine ⟨hcr, fun b hb => ?_⟩
    refine List.mem_append_right _ (List.mem_append_right _ ?_)
    exact List.mem_append_right _ (hsub hb)

theorem Marked.scattered {mark : Byte} {w T rest : List Byte}
    (h : Marked mark w T rest) : Scattered [w] T := by
  cases h with
  | absent => exact scattered_single [] [] []
  | @present _ sp _ _ _ _ _ => exact scattered_single [mark] w sp

theorem Ending.scattered (e : Ending) (k : Nat) :
    Scattered (e.slots k) e.text := by
  cases e with
  | nothing =>
      cases k with
      | zero => exact scattered_single [] [] []
      | succ k => trivial
  | spaces sp hne hsp => exact scattered_single [] [] sp
  | trailing sp t hne hsp ht =>
      have h := scattered_single (sp ++ [colon]) t []
      rw [List.append_nil, List.append_assoc] at h
      exact h

theorem scattered_groups (gs : List Group) :
    Scattered (gs.map Group.word) (gs.flatMap Group.text) := by
  induction gs with
  | nil => trivial
  | cons g gs ih =>
      have h := scattered_single g.spaces g.word []
      rw [List.append_nil] at h
      exact h.append ih

/-- The parts of a message are in its line, in their order. -/
theorem Line.scattered {inp : List Byte} {m : Msg} (h : Line inp m) :
    Scattered ([m.tags] ++ ([m.pfx] ++ ([m.cmd] ++ m.params))) inp := by
  obtain ⟨T, P, gs, e, rfl, hT, hP, -, hps⟩ := h
  have hcmd := scattered_single [] m.cmd []
  rw [List.append_nil, List.nil_append] at hcmd
  have hparams : Scattered m.params (paramsText gs e ++ crlf) := by
    have h := ((scattered_groups gs).append (e.scattered gs.length)).append
      (show Scattered [] crlf from trivial)
    rw [List.append_nil] at h
    rw [hps]
    exact h
  exact hT.scattered.append (hP.scattered.append (hcmd.append hparams))

end Pdtb.Irc
