/-
What an answer depends on. `parseBuffer` is never cleared and the
handlers do not look at lengths, so a comparison that runs over the end
of the message goes on in what an earlier line left there. `Sensitive`
says of a line that one of its comparisons does; the answer to any other
line is the same after every history.
-/
import Pdtb.Proofs.Session

namespace Pdtb.Asm

open Lib Irc

variable {img : Image} {m₀ m m' : Mem 16 Byte} {inp : List Byte}
  {ls : List (List Byte)} {s t : Bot} {st : BotState} {msg : Msg}

-- ==================================================== comparisons

/-- Comparing with `pat` at place `i`, the message ends first, so what is
behind it decides. A comparison that would run over the end of
`parseBuffer` fails whatever is there. -/
def Undecided (msg : Msg) (i : Nat) (pat : List Byte) : Prop :=
  (msg.bytes.drop i).length < pat.length ∧ msg.bytes.drop i <+: pat
    ∧ i + pat.length ≤ 512

instance (i : Nat) (pat : List Byte) : Decidable (Undecided msg i pat) :=
  inferInstanceAs (Decidable (_ ∧ _ ∧ _))

/-- A decided comparison sees the message only. -/
theorem shows_decided {i : Nat} {pat : List Byte} (m₀ : Mem 16 Byte)
    (hi : i ≤ msg.bytes.length) (hfits : msg.bytes.length ≤ 512)
    (h : ¬ Undecided msg i pat) :
    Shows img m₀ msg i pat ↔ pat <+: msg.bytes.drop i := by
  rw [Shows, shown, List.drop_append_of_le_length hi]
  refine ⟨fun hpre => ?_, fun hpre => hpre.trans (List.prefix_append _ _)⟩
  have hlen := hpre.length_le
  rw [List.length_append, Mem.length_read, List.length_drop] at hlen
  rcases Nat.lt_or_ge (msg.bytes.drop i).length pat.length with hlt | hge
  · refine absurd ⟨hlt, ?_, by omega⟩ h
    exact List.prefix_of_prefix_length_le (List.prefix_append _ _) hpre
      (Nat.le_of_lt hlt)
  · exact List.prefix_of_prefix_length_le hpre (List.prefix_append _ _) hge

-- ==================================================== sensitive lines

/-- The answer to the line may depend on what earlier lines left. -/
def Sensitive (st : BotState) (inp : List Byte) : Prop :=
  ∃ msg, parse 512 inp = some msg ∧
    match st with
    | .start => Undecided msg (msg.tags ++ msg.pfx).length (ascii "004")
    | .idle =>
        Undecided msg (msg.tags ++ msg.pfx).length (ascii "PI")
          ∨ (¬ ascii "PI" <+: msg.bytes.drop (msg.tags ++ msg.pfx).length
            ∧ 1 < msg.params.length
            ∧ Undecided msg (msg.before 1).length greeting)

/-- Where the command stands is not behind the message. -/
theorem cmd_le (msg : Msg) :
    (msg.tags ++ msg.pfx).length ≤ msg.bytes.length := by
  rw [msg.length_bytes, List.length_append]
  omega

/-- What the handlers make of a message that is not sensitive. -/
theorem act_decided (hparse : parse 512 inp = some msg)
    (hfits : msg.bytes.length ≤ 512) (h : ¬ Sensitive st inp)
    (hnull : Set.EqOn m m' img.nullData) :
    act img m st msg = act img m' st msg := by
  cases st with
  | start =>
      have hcmd : ¬ Undecided msg (msg.tags ++ msg.pfx).length
          (ascii "004") := fun hu => h ⟨msg, hparse, hu⟩
      have hstarts : Starts img m msg ↔ Starts img m' msg :=
        (shows_decided m (cmd_le msg) hfits hcmd).trans
          (shows_decided m' (cmd_le msg) hfits hcmd).symm
      simp only [act, hstarts]
  | idle =>
      have hcmd : ¬ Undecided msg (msg.tags ++ msg.pfx).length
          (ascii "PI") := fun hu => h ⟨msg, hparse, Or.inl hu⟩
      have hping : Pings img m msg ↔ _ :=
        shows_decided m (cmd_le msg) hfits hcmd
      have hping' : Pings img m' msg ↔ _ :=
        shows_decided m' (cmd_le msg) hfits hcmd
      have hread : m.read 0 greeting.length = m'.read 0 greeting.length :=
        Mem.read_congr (by decide) hnull
      by_cases hpre : ascii "PI"
          <+: msg.bytes.drop (msg.tags ++ msg.pfx).length
      · rw [act, act, if_pos (hping.mpr hpre), if_pos (hping'.mpr hpre)]
      · have hhails : Hails img m msg ↔ Hails img m' msg := by
          unfold Hails
          split
          · next hn =>
              have hbefore : (msg.before 1).length ≤ msg.bytes.length := by
                rw [msg.bytes_split hn, List.length_append,
                  List.length_append]
                omega
              have hgreet : ¬ Undecided msg (msg.before 1).length greeting :=
                fun hu => h ⟨msg, hparse, Or.inr ⟨hpre, hn, hu⟩⟩
              exact (shows_decided m hbefore hfits hgreet).trans
                (shows_decided m' hbefore hfits hgreet).symm
          · rw [hread]
        have hno : ¬ Pings img m msg := fun hp => hpre (hping.mp hp)
        have hno' : ¬ Pings img m' msg := fun hp => hpre (hping'.mp hp)
        rw [act, act, if_neg hno, if_neg hno']
        simp only [hhails]

-- ==================================================== the answer

/-- What a dispatch shows of itself: the reply, empty for none, and
`botState` after it. -/
def answered (img : Image) (s : Bot) : Option (List Byte × Word) :=
  (dispatchLine img s).map fun t =>
    (t.mem.read t.si t.cx.toNat, t.mem.word img.botState)

theorem answered_reject (h : AtLine img inp s)
    (hparse : parse 512 inp = none) :
    answered img s = some ([], s.mem.word img.botState) := by
  obtain ⟨t, ht, hcx, -, hmem⟩ := dispatchLine_reject h hparse
  rw [answered, ht, Option.map_some, hcx,
    Mem.word_congr (hmem.mono (botState_subset.trans out_subset))]
  rfl

/-- An accepted line is answered by `act`. -/
theorem answered_accept (h : AtLine img inp s)
    (halive : Alive img st s.mem) (hparse : parse 512 inp = some msg) :
    answered img s = some (sent img (act img s.mem st msg).1,
      (replied img s.mem (act img s.mem st msg).1 st
        (act img s.mem st msg).2).word img.botState) := by
  obtain ⟨t, ht, hd⟩ := dispatchLine_accept h halive hparse
  have hspill := act_length_le img s.mem st (h.target_le hparse)
  rw [answered, ht, Option.map_some, hd.reply hspill,
    Mem.word_congr (hd.mem.mono (botState_subset.trans out_subset))]

/-- Words that are equal are so byte for byte. -/
theorem eqOn_of_word {a : Word} (h : m.word a = m'.word a) :
    Set.EqOn m m' (region a 2) := by
  intro x hx
  rw [Mem.word, Mem.word, mkWord_inj] at h
  have hoff : off a x < 2 := hx
  have hx' : a + BitVec.ofNat 16 (off a x) = x := add_off a x
  rcases (by omega : off a x = 0 ∨ off a x = 1) with h0 | h1
  · rw [h0, BitVec.add_zero] at hx'
    exact hx' ▸ h.2
  · rw [h1] at hx'
    exact hx' ▸ h.1

/-- Two bots that have the same handler answer a line that is not
sensitive in the same way, whatever lines they were handed before. -/
theorem answered_eq {C C' : Mem 16 Byte → List Byte → Prop}
    {ls' : List (List Byte)} {s' : Bot}
    (h : Session img C m₀ ls m) (h' : Session img C' m₀ ls' m')
    (hs : Set.EqOn s.mem m (own img)) (hs' : Set.EqOn s'.mem m' (own img))
    (hline : AtLine img inp s) (hline' : AtLine img inp s')
    (hst : m.word img.botState = handler img st)
    (hst' : m'.word img.botState = handler img st)
    (hsens : ¬ Sensitive st inp) :
    ∃ a, answered img s = some a ∧ answered img s' = some a := by
  have hsane := h.sane.congr hs
  have hsane' := h'.sane.congr hs'
  have hstate := (Mem.word_congr (hs.mono botState_subset_own)).trans hst
  have hstate' := (Mem.word_congr (hs'.mono botState_subset_own)).trans hst'
  cases hparse : parse 512 inp with
  | none =>
      refine ⟨_, answered_reject hline hparse, ?_⟩
      rw [answered_reject hline' hparse, hstate, hstate']
  | some msg =>
      have hfits : msg.bytes.length ≤ 512 := by
        have := parse_length hparse
        have := hline.short
        omega
      have hact : act img s.mem st msg = act img s'.mem st msg :=
        act_decided hparse hfits hsens
          (hsane.null.trans hsane'.null.symm)
      obtain ⟨r, hr⟩ : ∃ r, r = act img s.mem st msg := ⟨_, rfl⟩
      have hword : (replied img s'.mem r.1 st r.2).word img.botState
          = (replied img s.mem r.1 st r.2).word img.botState :=
        Mem.word_congr (replied_congr
          (eqOn_of_word (hstate'.trans hstate.symm)) _ _ _)
      refine ⟨_, answered_accept hline (hsane.alive hstate) hparse, ?_⟩
      rw [answered_accept hline' (hsane'.alive hstate') hparse, ← hact, ← hr,
        hword]

-- ==================================================== a sensitive line

/-- The start of a 004. -/
def halfStart : List Byte := ascii "00" ++ crlf

theorem halfStart_parse :
    parse 512 halfStart = some ⟨[], [], ascii "00", [[]]⟩ := by
  decide +kernel

/-- What comes behind it. -/
theorem starts_halfStart (m : Mem 16 Byte) :
    Starts img m ⟨[], [], ascii "00", [[]]⟩
      ↔ m (img.parseBuffer + 2) = 0x34 := by
  have hbytes : (Msg.bytes ⟨[], [], ascii "00", [[]]⟩) = ascii "00" := by
    decide
  obtain ⟨a, ha⟩ : ∃ a, a = img.parseBuffer + 2 := ⟨_, rfl⟩
  have hread : m.read a 510 = m a :: m.read (a + 1) 509 := rfl
  rw [Starts, Shows, shown, hbytes, ← ha]
  change ascii "004" <+: ascii "00" ++ m.read (img.parseBuffer + 2) 510 ↔ _
  rw [← ha, hread]
  simp [ascii]
  exact eq_comm

/-- A line that leaves a 4 in the third place. -/
def staleLine : List Byte := ascii "xx4" ++ crlf

theorem staleLine_parse :
    parse 512 staleLine = some ⟨[], [], ascii "xx4", [[]]⟩ := by
  decide +kernel

theorem not_starts_stale (m : Mem 16 Byte) :
    ¬ Starts img m ⟨[], [], ascii "xx4", [[]]⟩ := by
  obtain ⟨ys, hys⟩ := shown_cmd img m
    ⟨[], [], ascii "xx4", [[]]⟩
  rw [Starts, Shows, hys]
  intro hpre
  have hcut := List.prefix_of_prefix_length_le hpre
    (List.prefix_append (ascii "xx4") ys) (by decide)
  exact absurd hcut (by decide)

/-- A bot that was handed it, and waits for its 004. -/
theorem boot_stale (img : Image) :
    ∃ m, Session img (fun _ _ => True) (boot img).mem [staleLine] m
      ∧ m.word img.botState = handler img .start
      ∧ m (img.parseBuffer + 2) = 0x34 := by
  obtain ⟨a, hsession, hstart, -⟩ := boot_start img fun _ _ => True
  obtain ⟨s, hown, hline, halive⟩ :=
    hsession.handed staleLine hstart (by decide) (by decide)
  obtain ⟨t, ht, hd⟩ := dispatchLine_accept hline halive staleLine_parse
  have hact : act img s.mem .start ⟨[], [], ascii "xx4", [[]]⟩
      = ([], .start) := by
    rw [act, if_neg (not_starts_stale s.mem)]
  have hfour : t.mem (img.parseBuffer + 2) = 0x34 := by
    have hcopied : t.mem.read img.parseBuffer 3 = ascii "xx4" :=
      hd.parsed.copied
    have hget := Mem.read_getElem t.mem img.parseBuffer
      (n := 3) (i := 2) (by rw [Mem.length_read]; omega)
    rw [getElem_congr_coll hcopied] at hget
    exact hget.symm
  refine ⟨t.mem, .line hsession hown hline trivial ht, ?_, hfour⟩
  rw [hd.state halive.state (by rw [hact]; exact Nat.zero_le _), hact]

theorem answered_not_eq :
    ¬ ∀ (m₀ : Mem 16 Byte) (ls ls' : List (List Byte)) (m m' : Mem 16 Byte)
        (inp : List Byte) (s s' : Bot),
      Session default (fun _ _ => True) m₀ ls m →
      Session default (fun _ _ => True) m₀ ls' m' →
      Set.EqOn s.mem m (own default) → Set.EqOn s'.mem m' (own default) →
      AtLine default inp s → AtLine default inp s' →
      m.word (Image.botState default) = m'.word (Image.botState default) →
      answered default s = answered default s' := by
  intro hall
  obtain ⟨m, hsession, hstate, hzero⟩ := boot_start default fun _ _ => True
  obtain ⟨m', hsession', hstate', hfour⟩ := boot_stale default
  obtain ⟨s, hown, hline, halive⟩ :=
    hsession.handed halfStart hstate (by decide) (by decide)
  obtain ⟨s', hown', hline', halive'⟩ :=
    hsession'.handed halfStart hstate' (by decide) (by decide)
  have heq := hall _ _ _ _ _ _ _ _ hsession hsession' hown hown' hline
    hline' (hstate.trans hstate'.symm)
  have hthird : Image.parseBuffer default + 2 ∈ Image.parseData default :=
    region_subset (i := 2) (n := 1) (k := parseSize) (by decide)
      (base_mem_region (by omega))
  have hstart := answered_accept hline halive halfStart_parse
  have hstart' := answered_accept hline' halive' halfStart_parse
  -- the third place is 0 in the one and 4 in the other
  have hno : ¬ Starts default s.mem ⟨[], [], ascii "00", [[]]⟩ := by
    rw [starts_halfStart, hown (parse_subset_own hthird),
      hzero _ hthird]
    decide
  have hyes : Starts default s'.mem ⟨[], [], ascii "00", [[]]⟩ := by
    rw [starts_halfStart, hown' (parse_subset_own hthird), hfour]
  rw [act, if_neg hno] at hstart
  rw [act, if_pos hyes] at hstart'
  rw [hstart, hstart', Option.some_inj, Prod.mk.injEq] at heq
  have hlen := congrArg List.length heq.1
  rw [sent_eq _ (by decide), sent_eq _ (by rw [length_startCmd]; omega),
    length_startCmd] at hlen
  cases hlen

theorem answered_eq_ping :
    ∃ s s' a, AtLine default pingLine s ∧ AtLine default pingLine s'
      ∧ answered default s = some a ∧ answered default s' = some a := by
  obtain ⟨m, hsession, hstate, -⟩ := boot_start default fun _ _ => True
  obtain ⟨m', hsession', hstate', -⟩ := boot_stale default
  obtain ⟨s, hown, hline, -⟩ :=
    hsession.handed pingLine hstate (by decide) (by decide)
  obtain ⟨s', hown', hline', -⟩ :=
    hsession'.handed pingLine hstate' (by decide) (by decide)
  have hsens : ¬ Sensitive .start pingLine := by
    intro h
    obtain ⟨msg, hparse, hu⟩ := h
    rw [pingLine_parse] at hparse
    cases hparse
    exact absurd hu (by decide)
  obtain ⟨a, hans, hans'⟩ := answered_eq hsession hsession' hown hown'
    hline hline' hstate hstate' hsens
  exact ⟨_, _, a, hline, hline', hans, hans'⟩

end Pdtb.Asm
