/-
How far a reply reaches. `buildBuffer` gives the handlers the address of
`outBufferLen` for the room in `outBuffer`, so it is the length of the
line that bounds a reply and not the buffer: 533 bytes where there are
512. Behind them stand `outBufferLen` and then `botState`, and a reply of
515 bytes is the first to reach the latter.

`Short` is the condition under which a line's reply fits, on the line and
the memory it finds.
-/
import Pdtb.Proofs.Session

namespace Pdtb.Asm

open Lib Irc

variable {img : Image} {m₀ m m' : Mem 16 Byte} {inp : List Byte}
  {ls : List (List Byte)} {s t : Bot} {st : BotState} {msg : Msg}
  {C : Mem 16 Byte → List Byte → Prop} {N : Nat}

-- ==================================================== short replies

/-- The reply to `inp`, if there is one, has at most `N` bytes: a PONG is
8 bytes longer than the first parameter, a greeting 23. -/
def Short (img : Image) (N : Nat) (m : Mem 16 Byte) (inp : List Byte) :
    Prop :=
  m.word img.botState = img.idleState →
    ∀ msg, parse 512 inp = some msg →
      (Pings img m msg → msg.target.length + 8 ≤ N)
        ∧ (¬ Pings img m msg → Hails img m msg →
          msg.target.length + 23 ≤ N)

theorem Short.mono {N' : Nat} (h : Short img N m inp) (hN : N ≤ N') :
    Short img N' m inp := fun hstate msg hparse =>
  have hmsg := h hstate msg hparse
  ⟨fun hping => Nat.le_trans (hmsg.1 hping) hN,
    fun hping hhails => Nat.le_trans (hmsg.2 hping hhails) hN⟩

/-- Without a parse there is no reply. -/
theorem short_of_none (h : parse 512 inp = none) : Short img N m inp := by
  intro _ msg hparse
  rw [h] at hparse
  cases hparse

/-- The condition is about the length of what the handlers answer. -/
theorem short_iff (hN : 80 ≤ N)
    (hstate : m.word img.botState = handler img st)
    (hparse : parse 512 inp = some msg) :
    Short img N m inp ↔ (act img m st msg).1.length ≤ N := by
  cases st with
  | start =>
      have hlen : (act img m .start msg).1.length ≤ N := by
        rw [act]
        split
        · rw [length_startCmd]
          exact hN
        · exact Nat.zero_le _
      refine iff_of_true (fun hidle => ?_) hlen
      exact absurd (hstate.symm.trans hidle) img.handlers_ne
  | idle =>
      have hunfold : Short img N m inp ↔
          (Pings img m msg → msg.target.length + 8 ≤ N)
            ∧ (¬ Pings img m msg → Hails img m msg →
              msg.target.length + 23 ≤ N) := by
        refine ⟨fun h => h hstate msg hparse, fun h _ msg' hparse' => ?_⟩
        rw [hparse] at hparse'
        cases hparse'
        exact h
      rw [hunfold, act]
      split
      · next hping => simp [hping, length_pong]
      · next hping =>
          split
          · next hhails => simp [hping, hhails, length_hello]
          · next hhails => simp [hping, hhails]

/-- As long as no reply reaches `botState`, it holds a handler. -/
theorem Session.handler (h : Session img C m₀ ls m)
    (hC : ∀ m inp, C m inp → Short img 514 m inp) :
    ∃ st, m.word img.botState = handler img st := by
  induction h with
  | init hfresh hs hax =>
      obtain ⟨cs, -, hbegun⟩ := begun_of_ax hax
      exact ⟨.start, hbegun.state⟩
  | @line ls m inp s t hsession hs hline hshort hdispatch ih =>
      obtain ⟨st, hst⟩ := ih
      have hstate : s.mem.word img.botState = Asm.handler img st := by
        rw [← hst]
        exact Mem.word_congr (hs.mono botState_subset_own)
      have hd := hsession.next hs hline
      rw [hdispatch] at hd
      cases hd with
      | reject _ _ _ hmem =>
          refine ⟨st, ?_⟩
          rw [← hstate]
          exact Mem.word_congr
            (hmem.mono (botState_subset.trans out_subset))
      | accept hst' hparse hd =>
          have hlen := (short_iff (by omega) hst' hparse).mp (hC _ _ hshort)
          exact ⟨_, hd.state hst' hlen⟩

-- ==================================================== in bounds

/-- A dispatch whose reply stays where it belongs. -/
structure InBounds (img : Image) (s t : Bot) : Prop where
  length : t.cx.toNat ≤ outBufferMax.toNat
  /-- only `outBuffer`, `botState` and scratch data change -/
  stores : Set.EqOn t.mem s.mem (region img.outBuffer 512
    ∪ region img.botState 2 ∪ scratch img)ᶜ
  outBufferLen : t.mem.word img.outBufferLen
    = s.mem.word img.outBufferLen
  botState : ∃ st, t.mem.word img.botState = handler img st

theorem outBufferLen_subset_compl :
    region img.outBufferLen 2 ⊆ (region img.outBuffer 512
      ∪ region img.botState 2 ∪ scratch img)ᶜ := by
  intro x hx
  rw [Set.mem_compl_iff, Set.mem_union, Set.mem_union, not_or, not_or]
  refine ⟨⟨?_, ?_⟩, ?_⟩
  · exact Set.disjoint_right.mp
      (outBuffer_disjoint_outBufferLen (Nat.le_refl _)) hx
  · exact Set.disjoint_left.mp outBufferLen_disjoint_botState hx
  · exact out_subset (img.outData_subset_outReach (outBufferLen_subset hx))

theorem inBounds_of_eqOn (hcx : t.cx.toNat ≤ 512)
    (hmem : Set.EqOn t.mem s.mem (region img.outBuffer 512
      ∪ region img.botState 2 ∪ scratch img)ᶜ)
    (hstate : ∃ st, t.mem.word img.botState = handler img st) :
    InBounds img s t :=
  ⟨hcx, hmem, Mem.word_congr (hmem.mono outBufferLen_subset_compl), hstate⟩

/-- Where a short reply is written. -/
theorem replied_eqOn_short {reply : List Byte} (h : reply.length ≤ 512)
    (st st' : BotState) :
    Set.EqOn (replied img m reply st st') m
      (region img.outBuffer 512 ∪ region img.botState 2)ᶜ := by
  intro x hx
  rw [Set.mem_compl_iff, Set.mem_union, not_or] at hx
  have hwrite : m.write img.outBuffer (sent img reply) x = m x := by
    refine Mem.write_of_notMem fun hx' => hx.1 (region_mono ?_ hx')
    rw [sent, List.length_take]
    omega
  unfold replied
  split
  · exact hwrite
  · exact (Mem.setWord_eqOn _ _ _ hx.2).trans hwrite

/-- The reply of a handler is in bounds when it is short. -/
theorem Dispatched.inBounds_iff (h : Dispatched img st msg s t)
    (hstate : s.mem.word img.botState = handler img st) :
    InBounds img s t ↔ (act img s.mem st msg).1.length ≤ 512 := by
  constructor
  · intro hin
    have hcx := hin.length
    have hmax : outBufferMax.toNat = 512 := rfl
    have hroom := room_gt img
    rw [h.cx, hmax, sent, List.length_take] at hcx
    omega
  · intro hlen
    refine inBounds_of_eqOn ?_ (fun x hx => ?_)
      ⟨_, h.state hstate (by omega)⟩
    · rw [h.cx, sent, List.length_take]
      omega
    · rw [Set.mem_compl_iff, Set.mem_union, not_or] at hx
      exact (h.mem hx.2).trans (replied_eqOn_short hlen _ _ hx.1)

/-- While all replies fit `outBuffer`, `botState` holds a handler, and
the next reply stays inside exactly when it fits too. -/
theorem dispatchLine_inBounds_iff
    (h : Session img (Short img 512) m₀ ls m)
    (hs : Set.EqOn s.mem m (own img)) (hline : AtLine img inp s) :
    (∃ st, s.mem.word img.botState = handler img st)
      ∧ ((∃ t, dispatchLine img s = some t ∧ InBounds img s t)
        ↔ Short img 512 s.mem inp) := by
  obtain ⟨st, hst⟩ := h.handler fun m inp hshort =>
    hshort.mono (by omega)
  have hstate : s.mem.word img.botState = handler img st := by
    rw [← hst]
    exact Mem.word_congr (hs.mono botState_subset_own)
  refine ⟨⟨st, hstate⟩, ?_⟩
  have hd := h.next hs hline
  generalize hans : dispatchLine img s = answer at hd
  cases hd with
  | @reject t hparse hcx hret hmem =>
      refine iff_of_true ⟨t, rfl, inBounds_of_eqOn ?_ ?_ ⟨st, ?_⟩⟩
        (short_of_none hparse)
      · rw [hcx]
        exact Nat.zero_le _
      · exact hmem.mono (Set.compl_subset_compl.mpr Set.subset_union_right)
      · rw [← hstate]
        exact Mem.word_congr (hmem.mono (botState_subset.trans out_subset))
  | @accept st' msg t hst' hparse hd =>
      rw [short_iff (by omega) hst' hparse, ← hd.inBounds_iff hst']
      refine ⟨?_, fun hin => ⟨t, rfl, hin⟩⟩
      intro hex
      obtain ⟨u, hu, hin⟩ := hex
      cases hu
      exact hin
  | astray hno _ => exact absurd hstate (hno st)

/-- A PING of 512 bytes: its PONG has 513. -/
def longPing : List Byte :=
  ascii "PING " ++ List.replicate 505 0x78 ++ crlf

theorem length_longPing : longPing.length = 512 := by decide +kernel

theorem longPing_parse : parse 512 longPing
    = some ⟨[], [], ascii "PING", [List.replicate 505 0x78]⟩ := by
  decide +kernel

theorem dispatchLine_not_inBounds :
    ¬ ∀ (m₀ : Mem 16 Byte) (ls : List (List Byte)) (m : Mem 16 Byte)
        (inp : List Byte) (s : Bot),
      Session default (fun _ _ => True) m₀ ls m →
      Set.EqOn s.mem m (own default) → AtLine default inp s →
      ∃ t, dispatchLine default s = some t ∧ InBounds default s t := by
  intro hall
  have hlong := length_longPing
  obtain ⟨m, s, hsession, hown, hline, halive⟩ :=
    boot_handed default longPing (C := fun _ _ => True)
      (fun _ _ => trivial) (by omega) (by omega)
  obtain ⟨t, ht, hin⟩ := hall _ _ _ _ _ hsession hown hline
  have hd := hsession.next hown hline
  rw [ht] at hd
  cases hd with
  | reject hparse =>
      rw [longPing_parse] at hparse
      cases hparse
  | accept hst hparse hd =>
      rw [longPing_parse] at hparse
      cases hparse
      cases handler_inj (halive.state.symm.trans hst)
      have hlen := (hd.inBounds_iff hst).mp hin
      rw [act, if_pos (pings_of_cmd (by rfl)), length_pong, Msg.target,
        List.headD_cons, List.length_replicate] at hlen
      omega

theorem dispatchLine_inBounds_ping :
    ∃ m, m.word (Image.botState default) = Image.idleState default
      ∧ ∃ t, dispatchLine default
          (withLine default { boot default with mem := m } pingLine) = some t
        ∧ InBounds default
          (withLine default { boot default with mem := m } pingLine) t := by
  obtain ⟨m, hsession, hidle⟩ :=
    boot_idle default (C := Short default 512) fun m hm hidle =>
      absurd (hm.symm.trans hidle) (Image.handlers_ne default)
  refine ⟨m, hidle, (dispatchLine_inBounds_iff hsession
    (withLine_own _ (by decide)) (atLine_withLine _ (by decide)
      (by decide))).2.mpr fun _ msg hparse => ?_⟩
  rw [pingLine_parse] at hparse
  cases hparse
  exact ⟨fun _ => by decide, fun hping => absurd (pings_of_cmd (by rfl)) hping⟩

end Pdtb.Asm
