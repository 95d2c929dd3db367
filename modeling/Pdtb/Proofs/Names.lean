/-
Names in a response. `Spells` is what the format says a name is: labels
with their lengths up to a zero, and a pointer wherever the rest of the
name has been before.

`decodeName` reads what is spelled, and finds where the name ends
(`decodeName_spec`). It has a result if and only if a name is spelled or
the labels become too many; else it follows pointers for ever
(`decodeName_isSome_iff`). Whether it has one or not, it stays within its
buffer, but for the zero it writes when a pointer goes to the empty name
(`decodeName_inBounds`).
-/
import Pdtb.Net.Dns
import Mathlib.Data.List.GetD
import Mathlib.Data.Fintype.Prod

namespace Pdtb.Net

open Lib

variable {qr : DnsPacket} {o o' e : Word} {ls ls' : List (List Byte)}
  {buf : CharArray}

-- ==================================================== what a name is

namespace DnsPacket

variable (qr) in
/-- The label at an offset. -/
def label (o : Word) : List Byte :=
  (List.range (qr o).toNat).map fun i => qr (o + 1 + BitVec.ofNat 16 i)

variable (qr) in
/-- What is behind it. -/
def behind (o : Word) : Word := o + 1 + (qr o).setWidth 16

variable (qr) in
/-- Where the pointer at an offset goes. -/
def pointee (o : Word) : Word :=
  (qr (o + 1)).setWidth 16 + ((qr o &&& 0x3F).setWidth 16 <<< 8)

variable (qr) in
/-- The way from an offset to another one, and the labels on it. -/
inductive Leads : Word → List (List Byte) → Word → Prop
  | refl (o : Word) : Leads o [] o
  | label {o o' : Word} {ls : List (List Byte)} (hne : qr o ≠ 0)
      (hle : ¬ 191 < qr o) (hrest : Leads (qr.behind o) ls o') :
      Leads o (qr.label o :: ls) o'
  | pointer {o o' : Word} {ls : List (List Byte)} (hlt : 191 < qr o)
      (hrest : Leads (qr.pointee o) ls o') : Leads o ls o'

variable (qr) in
/-- These labels are spelled at an offset. -/
def Spells (o : Word) (ls : List (List Byte)) : Prop :=
  ∃ o', Leads qr o ls o' ∧ qr o' = 0

variable (qr) in
/-- The name that begins at an offset ends there. -/
inductive Ends : Word → Word → Prop
  | root {o : Word} (hroot : qr o = 0) : Ends o (o + 1)
  | label {o e : Word} (hne : qr o ≠ 0) (hle : ¬ 191 < qr o)
      (hrest : Ends (qr.behind o) e) : Ends o e
  | pointer {o : Word} (hlt : 191 < qr o) : Ends o (o + 2)

theorem Leads.push_label (h : Leads qr o ls o') (hne : qr o' ≠ 0)
    (hle : ¬ 191 < qr o') :
    Leads qr o (ls ++ [qr.label o']) (qr.behind o') := by
  induction h with
  | refl o => exact .label hne hle (.refl _)
  | label hne' hle' _ ih => exact .label hne' hle' (ih hne hle)
  | pointer hlt _ ih => exact .pointer hlt (ih hne hle)

theorem Leads.push_pointer (h : Leads qr o ls o') (hlt : 191 < qr o') :
    Leads qr o ls (qr.pointee o') := by
  induction h with
  | refl o => exact .pointer hlt (.refl _)
  | label hne hle _ ih => exact .label hne hle (ih hlt)
  | pointer hlt' _ ih => exact .pointer hlt' (ih hlt)

theorem ne_zero_of_pointer (hlt : 191 < qr o) : qr o ≠ 0 := by
  intro heq
  rw [heq] at hlt
  exact absurd hlt (by decide)

/-- From an offset there is one way only. -/
theorem Leads.linear {o₁ o₂ : Word} (h₁ : Leads qr o ls o₁)
    (h₂ : Leads qr o ls' o₂) :
    (∃ rest, Leads qr o₁ rest o₂ ∧ ls' = ls ++ rest)
      ∨ ∃ rest, Leads qr o₂ rest o₁ ∧ ls = ls' ++ rest := by
  induction h₁ generalizing ls' with
  | refl o => exact .inl ⟨ls', h₂, rfl⟩
  | label hne hle hrest ih =>
      cases h₂ with
      | refl => exact .inr ⟨_, .label hne hle hrest, rfl⟩
      | label _ _ hrest' =>
          rcases ih hrest' with ⟨rest, hr, heq⟩ | ⟨rest, hr, heq⟩
          · exact .inl ⟨rest, hr, by rw [heq]; rfl⟩
          · exact .inr ⟨rest, hr, by rw [heq]; rfl⟩
      | pointer hlt => exact absurd hlt hle
  | pointer hlt hrest ih =>
      cases h₂ with
      | refl => exact .inr ⟨_, .pointer hlt hrest, rfl⟩
      | label _ hle => exact absurd hlt hle
      | pointer _ hrest' => exact ih hrest'

theorem Leads.eq_nil_of_root (h : Leads qr o ls o') (hroot : qr o = 0) :
    ls = [] ∧ o' = o := by
  cases h with
  | refl => exact ⟨rfl, rfl⟩
  | label hne => exact absurd hroot hne
  | pointer hlt => exact absurd hroot (ne_zero_of_pointer hlt)

/-- A name is spelled in one way only. -/
theorem Spells.unique (h₁ : Spells qr o ls) (h₂ : Spells qr o ls') :
    ls = ls' := by
  obtain ⟨o₁, hl₁, hroot₁⟩ := h₁
  obtain ⟨o₂, hl₂, hroot₂⟩ := h₂
  rcases hl₁.linear hl₂ with ⟨rest, hr, heq⟩ | ⟨rest, hr, heq⟩
  · rw [heq, (hr.eq_nil_of_root hroot₁).1, List.append_nil]
  · rw [heq, (hr.eq_nil_of_root hroot₂).1, List.append_nil]

end DnsPacket

-- ==================================================== the buffer

/-- The labels, each with a dot behind it. -/
def dotted (ls : List (List Byte)) : List Byte := ls.flatMap (· ++ [dot])

theorem dotted_append : dotted (ls ++ ls') = dotted ls ++ dotted ls' :=
  List.flatMap_append

theorem dotted_cons (l : List Byte) :
    dotted (l :: ls) = l ++ [dot] ++ dotted ls := List.flatMap_cons

namespace CharArray

variable {xs ys : List Byte}

@[simp] theorem copyTo_nil (i : Int) : buf.copyTo i [] = buf := by
  funext j
  unfold copyTo
  refine if_neg fun hin => ?_
  have hlt := hin.2
  rw [List.length_nil] at hlt
  omega

/-- One piece after the other. -/
theorem copyTo_append (xs ys : List Byte) :
    (buf.copyTo 0 xs).copyTo xs.length ys = buf.copyTo 0 (xs ++ ys) := by
  funext j
  unfold copyTo
  rw [List.length_append]
  by_cases hlo : j < 0
  · rw [if_neg (by omega), if_neg (by omega), if_neg (by omega)]
  · obtain ⟨k, rfl⟩ := Int.eq_ofNat_of_zero_le (Int.not_lt.mp hlo)
    by_cases hk : k < xs.length
    · rw [if_neg (by omega), if_pos (by omega), if_pos (by omega)]
      have hsub : ((k : Int) - 0).toNat = k := by omega
      rw [hsub, List.getD_append _ _ _ _ hk]
    · by_cases hk' : k < xs.length + ys.length
      · rw [if_pos (by omega), if_pos (by omega)]
        have hsub : ((k : Int) - 0).toNat = k := by omega
        have hsub' : ((k : Int) - xs.length).toNat = k - xs.length := by omega
        rw [hsub, hsub', List.getD_append_right _ _ _ _ (by omega)]
      · rw [if_neg (by omega), if_neg (by omega), if_neg (by omega)]

/-- Outside of what is copied nothing changes. -/
theorem copyTo_outside {j : Int} (hj : j < 0 ∨ xs.length ≤ j) :
    buf.copyTo 0 xs j = buf j :=
  if_neg (by omega)

/-- A byte is put behind what was copied. -/
theorem put_copyTo (xs : List Byte) (c : Byte) :
    Function.update (buf.copyTo 0 xs) xs.length c
      = buf.copyTo 0 (xs ++ [c]) := by
  rw [← copyTo_append]
  funext j
  unfold copyTo
  by_cases hj : j = xs.length
  · subst hj
    rw [Function.update_self, if_pos (by simp), Int.sub_self]
    rfl
  · rw [Function.update_of_ne hj]
    refine (if_neg fun hin => hj ?_).symm
    have hlt := hin.2
    rw [List.length_singleton] at hlt
    omega

/-- Or over the last byte of it. -/
theorem update_copyTo (xs : List Byte) (x y : Byte) :
    Function.update (buf.copyTo 0 (xs ++ [x])) xs.length y
      = buf.copyTo 0 (xs ++ [y]) := by
  rw [← put_copyTo xs x, Function.update_idem, put_copyTo]

theorem copyTo_getElem {i : Nat} (hi : i < xs.length) :
    buf.copyTo 0 xs i = xs[i] := by
  unfold copyTo
  have hsub : ((i : Int) - 0).toNat = i := by omega
  rw [if_pos (by omega), hsub, List.getD_eq_getElem _ _ hi]

/-- The string is what was copied, up to a zero in it. -/
theorem string_copyTo (hlen : xs.length < dnsMaxNameLen) :
    (buf.copyTo 0 (xs ++ [0])).string = xs.takeWhile (· ≠ 0) := by
  obtain ⟨k, hk⟩ := Nat.exists_eq_add_of_lt hlen
  have hcopied : (List.range xs.length).map
      (fun i : Nat => buf.copyTo 0 (xs ++ [0]) i) = xs := by
    apply List.ext_getElem
    · rw [List.length_map, List.length_range]
    · intro i hi hi'
      rw [List.getElem_map, List.getElem_range, copyTo_getElem
        (by rw [List.length_append]; omega), List.getElem_append_left hi']
  have hzero : buf.copyTo 0 (xs ++ [0]) ((xs.length + 0 : Nat) : Int) = 0 := by
    have hlt : xs.length + 0 < (xs ++ [(0 : Byte)]).length := by
      rw [List.length_append]
      exact Nat.lt_succ_self _
    rw [copyTo_getElem hlt]
    exact List.getElem_concat_length rfl _
  unfold string
  rw [hk, Nat.add_assoc, List.range_add, List.map_append, hcopied,
    List.range_succ_eq_map, List.map_cons, List.map_cons, hzero,
    List.takeWhile_append, List.takeWhile_cons_of_neg (by decide),
    List.append_nil]
  split
  · next hall => exact ((List.takeWhile_prefix _).eq_of_length hall).symm
  · rfl

end CharArray

-- ==================================================== the loop

namespace NameDecoder

/-- What holds in the loop: the labels up to here are in the buffer. -/
structure Reading (qr : DnsPacket) (o : Word) (buf : CharArray)
    (s : NameDecoder) (ls : List (List Byte)) : Prop where
  leads : qr.Leads o ls s.current
  nameBuf : s.nameBuf = buf.copyTo 0 (dotted ls)
  index : s.tmpNameIndex.toNat = (dotted ls).length
  fits : (dotted ls).length ≤ dnsMaxNameLen
  here : s.ptrHit = false → ∀ e, qr.Ends s.current e → qr.Ends o e
  before : s.ptrHit = true → qr.Ends o (s.prePtrCurrent + 1)

/-- And where it is left: at the end of the name, or because there is no
room for the next label. -/
inductive Left (qr : DnsPacket) (o : Word) (buf : CharArray)
    (s : NameDecoder) : Prop
  | name {ls : List (List Byte)} (hs : Reading qr o buf s ls)
      (hroot : qr s.current = 0) : Left qr o buf s
  | tooBig {ls : List (List Byte)} {o' : Word} (hleads : qr.Leads o ls o')
      (hlong : dnsMaxNameLen < (dotted ls).length)
      (hbuf : ∃ xs : List Byte, xs.length ≤ dnsMaxNameLen
        ∧ s.nameBuf = (buf.copyTo 0 xs).copyTo 0 (ascii "!TOO_BIG" ++ [0]))
      (hindex : s.tmpNameIndex = 9) : Left qr o buf s

variable {s t : NameDecoder}

theorem length_label (o : Word) : (qr.label o).length = (qr o).toNat := by
  unfold DnsPacket.label
  rw [List.length_map, List.length_range]

theorem length_dotted_push (o' : Word) :
    (dotted (ls ++ [qr.label o'])).length
      = (dotted ls).length + (qr o').toNat + 1 := by
  rw [dotted_append, List.length_append, dotted_cons, List.length_append,
    List.length_append, length_label]
  rfl

/-- What a round can do. -/
theorem step_cases (qr : DnsPacket) (s : NameDecoder) :
    (qr s.current = 0 ∧ step qr s = .inr s)
      ∨ (191 < qr s.current ∧ ∃ pre, step qr s = .inl
        ⟨qr.pointee s.current, s.nameBuf, s.tmpNameIndex, pre, true⟩
        ∧ pre = if s.ptrHit then s.prePtrCurrent else s.current + 1)
      ∨ ((qr s.current ≠ 0 ∧ ¬ 191 < qr s.current
          ∧ dnsMaxNameLen ≤ s.tmpNameIndex.toNat + (qr s.current).toNat)
        ∧ step qr s = .inr { s with
          current := s.current + 1
          nameBuf := s.nameBuf.copyTo 0 (ascii "!TOO_BIG" ++ [0])
          tmpNameIndex := 9 })
      ∨ ((qr s.current ≠ 0 ∧ ¬ 191 < qr s.current
          ∧ s.tmpNameIndex.toNat + (qr s.current).toNat < dnsMaxNameLen)
        ∧ step qr s = .inl { s with
          current := qr.behind s.current
          nameBuf := s.nameBuf.copyTo s.tmpNameIndex.toNat
            (qr.label s.current ++ [dot])
          tmpNameIndex := s.tmpNameIndex + qr s.current + 1 }) := by
  unfold step
  simp only
  split
  · next hroot => exact .inl ⟨hroot, rfl⟩
  · next hne =>
      split
      · next hlt => exact .inr (.inl ⟨hlt, _, rfl, rfl⟩)
      · next hle =>
          split
          · next hbig => exact .inr (.inr (.inl ⟨⟨hne, hle, hbig⟩, rfl⟩))
          · next hfits =>
              exact .inr (.inr (.inr ⟨⟨hne, hle, not_le.mp hfits⟩, rfl⟩))

theorem Reading.step {ls : List (List Byte)} (hs : Reading qr o buf s ls)
    (hgoes : NameDecoder.step qr s = .inl t) :
    ∃ ls', Reading qr o buf t ls' := by
  rcases step_cases qr s with ⟨-, heq⟩ | ⟨hlt, pre, heq, hpre⟩
    | ⟨-, heq⟩ | ⟨⟨hne, hle, hfits⟩, heq⟩
  · rw [heq] at hgoes
    cases hgoes
  · rw [heq] at hgoes
    cases hgoes
    refine ⟨ls, hs.leads.push_pointer hlt, hs.nameBuf, hs.index, hs.fits,
      (nomatch ·), fun _ => ?_⟩
    simp only [hpre]
    split
    · next hhit => exact hs.before hhit
    · next hhit =>
        have hends := hs.here (Bool.eq_false_iff.mpr hhit) _ (.pointer hlt)
        rw [BitVec.add_assoc]
        exact hends
  · rw [heq] at hgoes
    cases hgoes
  · rw [heq] at hgoes
    cases hgoes
    have hlen : (dotted (ls ++ [qr.label s.current])).length = _ :=
      length_dotted_push s.current
    have hindex := hs.index
    unfold dnsMaxNameLen at hfits
    refine ⟨ls ++ [qr.label s.current], hs.leads.push_label hne hle, ?_, ?_, ?_,
      fun hhit e he => hs.here hhit e (.label hne hle he), hs.before⟩
    · simp only
      rw [hs.nameBuf, hindex, CharArray.copyTo_append, dotted_append,
        dotted_cons]
      exact congrArg _ (congrArg _ (List.append_nil _).symm)
    · simp only
      rw [hlen, ← hindex, BitVec.toNat_add, BitVec.toNat_add]
      show (_ + 1) % _ = _
      omega
    · rw [hlen]
      unfold dnsMaxNameLen
      omega

theorem Reading.leaves {ls : List (List Byte)} (hs : Reading qr o buf s ls)
    (hleaves : NameDecoder.step qr s = .inr t) : Left qr o buf t := by
  rcases step_cases qr s with ⟨hroot, heq⟩ | ⟨-, pre, heq, -⟩
    | ⟨⟨hne, hle, hbig⟩, heq⟩ | ⟨-, heq⟩
  · rw [heq] at hleaves
    cases hleaves
    exact .name hs hroot
  · rw [heq] at hleaves
    cases hleaves
  · rw [heq] at hleaves
    cases hleaves
    refine .tooBig (hs.leads.push_label hne hle) ?_ ⟨dotted ls, hs.fits, ?_⟩ rfl
    · rw [length_dotted_push, ← hs.index]
      omega
    · simp only
      rw [hs.nameBuf]
  · rw [heq] at hleaves
    cases hleaves

variable (qr o buf) in
/-- Before the first round nothing was read. -/
theorem reading_start : Reading qr o buf ⟨o, buf, 0, o, false⟩ [] :=
  ⟨.refl o, (CharArray.copyTo_nil 0).symm, rfl, Nat.zero_le _,
    fun _ _ he => he, fun hno => nomatch hno⟩

variable (qr o buf) in
/-- So far nothing was written but labels, and there was room for them. -/
theorem reading_after (n : Nat) : ∃ ls, Reading qr o buf
    (stateAfter (NameDecoder.step qr) n ⟨o, buf, 0, o, false⟩) ls := by
  refine stateAfter_induct (I := fun s => ∃ ls, Reading qr o buf s ls)
    (fun s t hs hgoes => ?_) ⟨[], reading_start qr o buf⟩ n
  obtain ⟨ls, hs⟩ := hs
  exact hs.step hgoes

/-- The loop is left as it should be. -/
theorem left_of_loop {n : Nat} (h : runLoop (NameDecoder.step qr) n
    ⟨o, buf, 0, o, false⟩ = some s) : Left qr o buf s := by
  refine loop_induct (I := fun s => ∃ ls, Reading qr o buf s ls)
    (Q := Left qr o buf) (fun s t hs hgoes => ?_)
    (fun s t hs hleaves => ?_) ?_ h
  · obtain ⟨ls, hs⟩ := hs
    exact hs.step hgoes
  · obtain ⟨ls, hs⟩ := hs
    exact hs.leaves hleaves
  · exact ⟨[], reading_start qr o buf⟩

theorem Reading.outside {ls : List (List Byte)} (hs : Reading qr o buf s ls)
    {j : Int} (hj : j < 0 ∨ dnsMaxNameLen ≤ j) : s.nameBuf j = buf j := by
  have hfits := hs.fits
  rw [hs.nameBuf]
  exact CharArray.copyTo_outside (hj.imp_right fun hge => by omega)

/-- The zero goes over the last dot. -/
theorem Reading.put {ls : List (List Byte)} (hs : Reading qr o buf s ls)
    (hne : dotted ls ≠ []) :
    Function.update s.nameBuf ((s.tmpNameIndex.toNat : Int) - 1) 0
      = buf.copyTo 0 ((dotted ls).dropLast ++ [0]) := by
  have hindex : (s.tmpNameIndex.toNat : Int) - 1
      = ((dotted ls).dropLast.length : Nat) := by
    rw [hs.index, List.length_dropLast]
    have hpos := List.length_pos_iff.mpr hne
    omega
  have hover : _ = buf.copyTo 0 ((dotted ls).dropLast ++ [0]) :=
    CharArray.update_copyTo _ ((dotted ls).getLast hne) 0
  rw [List.dropLast_append_getLast hne] at hover
  rw [hs.nameBuf, hindex, hover]

/-- It goes before the buffer, if there is none. -/
theorem Reading.put_nil (hs : Reading qr o buf s []) :
    Function.update s.nameBuf ((s.tmpNameIndex.toNat : Int) - 1) 0
      = Function.update buf (-1) 0 := by
  have hindex : s.tmpNameIndex.toNat = 0 := hs.index
  have hbuf : s.nameBuf = buf := hs.nameBuf.trans (CharArray.copyTo_nil 0)
  rw [hindex, hbuf]
  rfl

/-- It is left at the end of a name, and when the labels are too many. -/
theorem loop_ends (h : qr.Leads o ls o') : ∀ s : NameDecoder, s.current = o →
    s.tmpNameIndex.toNat ≤ dnsMaxNameLen →
    (qr o' = 0 ∨ dnsMaxNameLen < s.tmpNameIndex.toNat + (dotted ls).length) →
    ∃ n r, runLoop (step qr) n s = some r := by
  induction h with
  | refl o =>
      intro s hcur hfits hend
      have hroot : qr s.current = 0 := by
        rw [hcur]
        refine hend.resolve_right fun hlong => ?_
        exact absurd hlong (Nat.not_lt.mpr hfits)
      have hleaves : step qr s = .inr s := by
        unfold step
        exact if_pos hroot
      exact ⟨1, s, loop_leaves hleaves⟩
  | @label o o' ls hne hle _ ih =>
      intro s hcur hfits hend
      subst hcur
      rcases step_cases qr s with ⟨hroot, -⟩ | ⟨hlt, -⟩
        | ⟨-, heq⟩ | ⟨⟨-, -, hroom⟩, heq⟩
      · exact absurd hroot hne
      · exact absurd hlt hle
      · exact ⟨1, _, loop_leaves heq⟩
      · have hindex : (s.tmpNameIndex + qr s.current + 1).toNat
            = s.tmpNameIndex.toNat + (qr s.current).toNat + 1 := by
          unfold dnsMaxNameLen at hroom
          rw [BitVec.toNat_add, BitVec.toNat_add]
          show (_ + 1) % _ = _
          omega
        obtain ⟨t, ht, hcur', hidx⟩ : ∃ t, step qr s = .inl t
            ∧ t.current = qr.behind s.current
            ∧ t.tmpNameIndex.toNat
              = s.tmpNameIndex.toNat + (qr s.current).toNat + 1 :=
          ⟨_, heq, rfl, hindex⟩
        obtain ⟨n, r, hrest⟩ := ih t hcur' (by omega)
          (hend.imp_right fun hlong => by
            rw [dotted_cons, List.length_append, List.length_append,
              length_label, List.length_singleton] at hlong
            omega)
        exact ⟨n + 1, r, (loop_goes ht).trans hrest⟩
  | pointer hlt _ ih =>
      intro s hcur hfits hend
      subst hcur
      rcases step_cases qr s with ⟨hroot, -⟩ | ⟨-, pre, heq, -⟩
        | ⟨⟨-, hle, -⟩, -⟩ | ⟨⟨-, hle, -⟩, -⟩
      · exact absurd hroot (DnsPacket.ne_zero_of_pointer hlt)
      · obtain ⟨n, r, hrest⟩ := ih ⟨qr.pointee s.current, s.nameBuf,
          s.tmpNameIndex, pre, true⟩ rfl hfits hend
        exact ⟨n + 1, r, (loop_goes heq).trans hrest⟩
      · exact absurd hlt hle
      · exact absurd hlt hle

/-- Where it is and how long the name is decide how it goes on. -/
theorem step_controls : Controls (step qr) fun s =>
    (s.current.toFin, s.tmpNameIndex.toFin) := by
  intro s s' t hsame hgoes
  have hcur : s'.current = s.current := by
    have h₁ := congrArg Prod.fst hsame
    exact BitVec.eq_of_toFin_eq h₁
  have hindex : s'.tmpNameIndex = s.tmpNameIndex := by
    have h₂ := congrArg Prod.snd hsame
    exact BitVec.eq_of_toFin_eq h₂
  unfold step at hgoes ⊢
  simp only at hgoes ⊢
  rw [hcur, hindex]
  split at hgoes
  · cases hgoes
  · next hne =>
      rw [if_neg hne]
      split at hgoes
      · next hlt =>
          cases hgoes
          rw [if_pos hlt]
          exact ⟨_, rfl, rfl⟩
      · next hle =>
          rw [if_neg hle]
          split at hgoes
          · cases hgoes
          · next hfits =>
              cases hgoes
              rw [if_neg hfits]
              exact ⟨_, rfl, rfl⟩

theorem loop_rounds {n : Nat} {r : NameDecoder}
    (h : runLoop (step qr) n s = some r) :
    runLoop (step qr) decodeRounds s = some r := by
  have hcard := loop_within step_controls h
  rwa [Fintype.card_prod, Fintype.card_fin, Fintype.card_fin] at hcard

end NameDecoder

-- ==================================================== decodeName

open DnsPacket NameDecoder

theorem decodeName_isSome (buf : CharArray)
    (hname : (∃ ls, qr.Spells o ls)
      ∨ ∃ ls o', qr.Leads o ls o' ∧ dnsMaxNameLen < (dotted ls).length) :
    (decodeName qr o buf).isSome = true := by
  unfold decodeName
  split
  · rfl
  · unfold decodeLoop
    have hends : ∃ n r, runLoop (NameDecoder.step qr) n
        ⟨o, buf, 0, o, false⟩ = some r := by
      rcases hname with ⟨ls, o', hleads, hroot⟩ | ⟨ls, o', hleads, hlong⟩
      · exact loop_ends hleads _ rfl (Nat.zero_le _) (.inl hroot)
      · refine loop_ends hleads _ rfl (Nat.zero_le _) (.inr ?_)
        exact hlong.trans_eq (Nat.zero_add _).symm
    obtain ⟨n, r, hr⟩ := hends
    rw [loop_rounds hr]
    rfl

/-- The result is what the loop has left. -/
theorem left_of_decodeName {buf' : CharArray} (hroot : qr o ≠ 0)
    (h : decodeName qr o buf = some (e, buf')) :
    ∃ s, decodeLoop qr o buf = some s ∧ Left qr o buf s
      ∧ (if s.ptrHit then s.prePtrCurrent else s.current) + 1 = e
      ∧ Function.update s.nameBuf ((s.tmpNameIndex.toNat : Int) - 1) 0
        = buf' := by
  unfold decodeName at h
  rw [if_neg hroot] at h
  obtain ⟨s, hs, heq⟩ := Option.map_eq_some_iff.mp h
  cases heq
  exact ⟨s, hs, left_of_loop hs, rfl, rfl⟩

/-- There is a result if the response spells a name, and if the labels are
too many for `nameBuf`; else the loop does not end in any number of
rounds. -/
theorem decodeName_isSome_iff (qr : DnsPacket) (o : Word) (buf : CharArray) :
    ((decodeName qr o buf).isSome = true ↔
      (∃ ls, qr.Spells o ls)
        ∨ ∃ ls o', qr.Leads o ls o' ∧ dnsMaxNameLen < (dotted ls).length)
    ∧ (¬ ((∃ ls, qr.Spells o ls)
        ∨ ∃ ls o', qr.Leads o ls o' ∧ dnsMaxNameLen < (dotted ls).length) →
      ∀ n, runLoop (NameDecoder.step qr) n ⟨o, buf, 0, o, false⟩ = none) := by
  have hnamed : ∀ n s, runLoop (NameDecoder.step qr) n ⟨o, buf, 0, o, false⟩
      = some s → (∃ ls, qr.Spells o ls)
        ∨ ∃ ls o', qr.Leads o ls o' ∧ dnsMaxNameLen < (dotted ls).length := by
    intro n s hs
    cases left_of_loop hs with
    | name hread hroot => exact .inl ⟨_, _, hread.leads, hroot⟩
    | tooBig hleads hlong => exact .inr ⟨_, _, hleads, hlong⟩
  refine ⟨⟨fun hsome => ?_, decodeName_isSome buf⟩, fun hno n => ?_⟩
  · by_cases hroot : qr o = 0
    · exact .inl ⟨[], o, .refl o, hroot⟩
    · unfold decodeName at hsome
      rw [if_neg hroot, Option.isSome_map] at hsome
      obtain ⟨s, hs⟩ := Option.isSome_iff_exists.mp hsome
      exact hnamed decodeRounds s hs
  · cases hs : runLoop (NameDecoder.step qr) n ⟨o, buf, 0, o, false⟩ with
    | none => rfl
    | some s => exact absurd (hnamed n s hs) hno

theorem decodeName_root (hroot : qr o = 0) :
    decodeName qr o buf = some (o + 1, buf.copyTo 0 [0]) := by
  have hput : Function.update (buf.copyTo 0 []) 0 0 = buf.copyTo 0 [0] :=
    CharArray.put_copyTo [] 0
  rw [CharArray.copyTo_nil] at hput
  unfold decodeName
  rw [if_pos hroot, hput]

theorem DnsPacket.Ends.unique {e' : Word} (h : qr.Ends o e)
    (h' : qr.Ends o e') : e = e' := by
  induction h with
  | root hroot =>
      cases h' with
      | root => rfl
      | label hne => exact absurd hroot hne
      | pointer hlt => exact absurd hroot (ne_zero_of_pointer hlt)
  | label hne hle _ ih =>
      cases h' with
      | root hroot => exact absurd hroot hne
      | label _ _ hrest => exact ih hrest
      | pointer hlt => exact absurd hlt hle
  | pointer hlt =>
      cases h' with
      | root hroot => exact absurd hroot (ne_zero_of_pointer hlt)
      | label _ hle => exact absurd hlt hle
      | pointer => rfl

/-- A name that is spelled is not too long as well. -/
theorem DnsPacket.Spells.le {o' : Word} (h : qr.Spells o ls)
    (hleads : qr.Leads o ls' o') :
    (dotted ls').length ≤ (dotted ls).length := by
  obtain ⟨o₁, hl, hroot⟩ := h
  rcases hl.linear hleads with ⟨rest, hr, heq⟩ | ⟨rest, hr, heq⟩
  · rw [heq, (hr.eq_nil_of_root hroot).1, List.append_nil]
  · rw [heq, dotted_append, List.length_append]
    exact Nat.le_add_right _ _

theorem dotted_eq_nil_iff : dotted ls = [] ↔ ls = [] := by
  cases ls with
  | nil => exact iff_of_true rfl rfl
  | cons l ls =>
      refine iff_of_false (fun hnil => ?_) (List.cons_ne_nil l ls)
      have hlen := congrArg List.length hnil
      rw [dotted_cons, List.length_append, List.length_append] at hlen
      exact absurd hlen (by rw [List.length_singleton, List.length_nil]; omega)

/-- What the loop was left with when a name was spelled. -/
theorem reading_of_spells (hspells : qr.Spells o ls) (hends : qr.Ends o e)
    (hlen : (dotted ls).length ≤ dnsMaxNameLen) (hroot : qr o ≠ 0)
    (buf : CharArray) :
    ∃ s, Reading qr o buf s ls ∧ decodeName qr o buf = some (e,
      Function.update s.nameBuf ((s.tmpNameIndex.toNat : Int) - 1) 0) := by
  obtain ⟨⟨e', buf'⟩, hr⟩ := Option.isSome_iff_exists.mp
    (decodeName_isSome buf (.inl ⟨ls, hspells⟩))
  obtain ⟨s, -, hleft, he, hbuf⟩ := left_of_decodeName hroot hr
  rw [hr, ← he, ← hbuf]
  cases hleft with
  | @name ls' hread hroot' =>
      have hsame : ls' = ls :=
        Spells.unique ⟨_, hread.leads, hroot'⟩ hspells
      subst hsame
      have hend : (if s.ptrHit then s.prePtrCurrent else s.current) + 1
          = e := by
        split
        · next hhit => exact (hread.before hhit).unique hends
        · next hhit =>
            exact (hread.here (Bool.eq_false_iff.mpr hhit) _
              (.root hroot')).unique hends
      exact ⟨s, hread, by rw [hend]⟩
  | tooBig hleads hlong =>
      exact absurd (hlong.trans_le (hspells.le hleads)) (Nat.not_lt.mpr hlen)

/-- What is in the buffer when a name was spelled. -/
theorem decodeName_eq (hspells : qr.Spells o ls) (hends : qr.Ends o e)
    (hlen : (dotted ls).length ≤ dnsMaxNameLen) (hname : ls = [] → qr o = 0)
    (buf : CharArray) :
    decodeName qr o buf
      = some (e, buf.copyTo 0 ((dotted ls).dropLast ++ [0])) := by
  by_cases hroot : qr o = 0
  · have hnil := hspells.unique ⟨o, .refl o, hroot⟩
    rw [decodeName_root hroot, hnil, hends.unique (.root hroot)]
    rfl
  · obtain ⟨s, hread, hr⟩ := reading_of_spells hspells hends hlen hroot buf
    have hne : dotted ls ≠ [] := fun hnil =>
      hroot (hname (dotted_eq_nil_iff.mp hnil))
    rw [hr, hread.put hne]

/-- What is there when a pointer goes to the empty name. -/
theorem decodeName_nil (hspells : qr.Spells o []) (hends : qr.Ends o e)
    (hroot : qr o ≠ 0) (buf : CharArray) :
    decodeName qr o buf = some (e, Function.update buf (-1) 0) := by
  obtain ⟨s, hread, hr⟩ :=
    reading_of_spells hspells hends (Nat.zero_le _) hroot buf
  rw [hr, hread.put_nil]

theorem dotted_eq_intercalate (hne : ls ≠ []) :
    dotted ls = [dot].intercalate ls ++ [dot] := by
  induction ls with
  | nil => exact absurd rfl hne
  | cons l ls ih =>
      cases ls with
      | nil =>
          rw [List.intercalate_singleton, dotted_cons]
          exact List.append_nil _
      | cons k ls =>
          rw [dotted_cons, ih (List.cons_ne_nil k ls),
            List.intercalate_cons_cons]
          simp only [List.append_assoc]

theorem dropLast_dotted (ls : List (List Byte)) :
    (dotted ls).dropLast = [dot].intercalate ls := by
  by_cases hnil : ls = []
  · rw [hnil]
    rfl
  · rw [dotted_eq_intercalate hnil, List.dropLast_concat]

/-- A name that is spelled and fits: the labels are in the buffer with
dots between them and a zero behind, and it goes on where the name ends.
If a pointer goes to the empty name the buffer is left as it was, and the
zero is before it. -/
theorem decodeName_spec (hspells : qr.Spells o ls) (hends : qr.Ends o e)
    (hlen : (dotted ls).length ≤ dnsMaxNameLen) (buf : CharArray) :
    (ls ≠ [] ∨ qr o = 0 → decodeName qr o buf
        = some (e, buf.copyTo 0 ([dot].intercalate ls ++ [0])))
      ∧ (ls = [] → qr o ≠ 0 →
        decodeName qr o buf = some (e, Function.update buf (-1) 0)) := by
  refine ⟨fun hname => ?_, fun hnil hroot => ?_⟩
  · rw [← dropLast_dotted]
    exact decodeName_eq hspells hends hlen
      (fun hnil => hname.resolve_left (not_not.mpr hnil)) buf
  · subst hnil
    exact decodeName_nil hspells hends hroot buf

/-- The name `a`, and the name `b.a` behind it with a pointer to the other. -/
def twoNames : DnsPacket := fun o =>
  ([0, 0, 0, 0, 0, 0, 0, 0, 0, 0, 0, 0, 1, 0x61, 0, 1, 0x62, 0xC0, 12] :
    List Byte).getD o.toNat 0

theorem decodeName_spec_twoNames :
    decodeName twoNames 15 (fun _ => 1)
      = some (19, CharArray.copyTo (fun _ => 1) 0 (ascii "b.a" ++ [0])) := by
  have hb : twoNames.label 15 = [0x62] := by decide
  have ha : twoNames.label 12 = [0x61] := by decide
  have hspells : twoNames.Spells 15 [[0x62], [0x61]] :=
    ⟨14, hb ▸ .label (by decide) (by decide) (.pointer (by decide)
      (ha ▸ .label (by decide) (by decide) (.refl _))), by decide⟩
  have hends : twoNames.Ends 15 19 :=
    .label (by decide) (by decide) (.pointer (by decide))
  exact (decodeName_spec hspells hends (by decide) fun _ => 1).1
    (.inl (List.cons_ne_nil _ _))

/-- Whatever the response, and whether it ever ends: in no round does the
loop write outside of the buffer. Nor is there anything written at the end,
but for a zero before it when a pointer goes to the empty name. -/
theorem decodeName_inBounds (qr : DnsPacket) (o : Word) (buf : CharArray) :
    (∀ n (j : Int), j < 0 ∨ dnsMaxNameLen ≤ j →
      (stateAfter (NameDecoder.step qr) n ⟨o, buf, 0, o, false⟩).nameBuf j
        = buf j)
    ∧ ∀ e buf', decodeName qr o buf = some (e, buf') →
      (¬ (qr o ≠ 0 ∧ qr.Spells o []) →
        ∀ j : Int, j < 0 ∨ dnsMaxNameLen ≤ j → buf' j = buf j)
      ∧ (qr o ≠ 0 ∧ qr.Spells o [] → buf' = Function.update buf (-1) 0) := by
  refine ⟨fun n j hj => ?_, fun e buf' hr => ⟨fun hempty j hj => ?_, ?_⟩⟩
  · obtain ⟨ls, hread⟩ := reading_after qr o buf n
    exact hread.outside hj
  · by_cases hroot : qr o = 0
    · rw [decodeName_root hroot] at hr
      cases hr
      exact CharArray.copyTo_outside (hj.imp_right fun hge => by
        rw [List.length_singleton]
        unfold dnsMaxNameLen at hge
        omega)
    · obtain ⟨s, -, hleft, -, hbuf⟩ := left_of_decodeName hroot hr
      rw [← hbuf]
      cases hleft with
      | @name ls hread hroot' =>
          have hne : dotted ls ≠ [] := fun hnil => hempty ⟨hroot, by
            rw [dotted_eq_nil_iff] at hnil
            exact ⟨_, hnil ▸ hread.leads, hroot'⟩⟩
          rw [hread.put hne]
          have hfits := hread.fits
          exact CharArray.copyTo_outside (hj.imp_right fun hge => by
            rw [List.length_append, List.length_dropLast, List.length_singleton]
            have hpos := List.length_pos_iff.mpr hne
            omega)
      | tooBig _ _ hbuf' hindex =>
          obtain ⟨xs, hlen, hbuf'⟩ := hbuf'
          have hlast : ((9 : Byte).toNat : Int) - 1 = 8 := rfl
          unfold dnsMaxNameLen at hj hlen
          rw [hbuf', hindex, hlast, Function.update_of_ne (by omega),
            CharArray.copyTo_outside, CharArray.copyTo_outside]
          · omega
          · have hnine : (ascii "!TOO_BIG" ++ [0]).length = 9 := rfl
            omega
  · intro hempty
    obtain ⟨hroot, hspells⟩ := hempty
    obtain ⟨s, -, hleft, -, hbuf⟩ := left_of_decodeName hroot hr
    cases hleft with
    | @name ls hread hroot' =>
        have hnil : ls = [] := Spells.unique ⟨_, hread.leads, hroot'⟩ hspells
        subst hnil
        rw [← hbuf, hread.put_nil]
    | tooBig hleads hlong =>
        exact absurd (hspells.le hleads) (by
          have hnil : (dotted []).length = 0 := rfl
          omega)

end Pdtb.Net
