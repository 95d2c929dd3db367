/-
What is sent to the name server. A request holds the labels of the name,
each behind its length (`dnsRequest_eq`), so `decodeName` reads the name
from it again, unless a label is empty: then it stops there
(`request_roundtrip_iff`).
-/
import Pdtb.Proofs.Names
import Mathlib.Data.List.TakeWhile

namespace Pdtb.Net

open Lib DnsPacket

variable {qr : DnsPacket} {o : Word} {name l : List Byte}
  {ls : List (List Byte)} {data : Nat → Byte}

-- ==================================================== the format

/-- The labels, each behind its length. -/
def wire (ls : List (List Byte)) : List Byte :=
  ls.flatMap fun l => BitVec.ofNat 8 l.length :: l

theorem wire_cons (l : List Byte) :
    wire (l :: ls) = BitVec.ofNat 8 l.length :: l ++ wire ls :=
  List.flatMap_cons

theorem wire_push (l : List Byte) :
    wire (ls ++ [l]) = wire ls ++ BitVec.ofNat 8 l.length :: l := by
  unfold wire
  rw [List.flatMap_append, List.flatMap_singleton]

theorem length_wire : (wire ls).length = (dotted ls).length := by
  induction ls with
  | nil => rfl
  | cons l ls ih =>
      rw [wire_cons, dotted_cons, List.length_append, List.length_append, ih,
        List.length_cons, List.length_append, List.length_singleton]

theorem dotted_push (l : List Byte) :
    dotted (ls ++ [l]) = dotted ls ++ l ++ [dot] := by
  rw [dotted_append, List.append_assoc]
  exact congrArg (dotted ls ++ ·) (List.append_nil _)

/-- Where there is no dot in them, the labels are what the dots split. -/
theorem splitOn_dotted (hls : ∀ k ∈ ls, dot ∉ k) (hl : dot ∉ l) :
    (dotted ls ++ l).splitOn dot = ls ++ [l] := by
  induction ls with
  | nil => exact List.splitOn_eq_singleton hl
  | cons k ls ih =>
      rw [dotted_cons, List.append_assoc, List.append_assoc,
        List.singleton_append, List.splitOn_append_cons_self_of_not_mem
          (hls k List.mem_cons_self),
        ih fun k' hk' => hls k' (List.mem_cons_of_mem _ hk')]
      rfl

/-- A name, and what is behind the dots of it. -/
theorem dotted_splitOn (name : List Byte) :
    dotted (name.splitOn dot) = name ++ [dot] := by
  rw [dotted_eq_intercalate (List.splitOn_ne_nil dot name),
    List.intercalate_splitOn]

-- ==================================================== writing it

/-- Where nothing was copied, what was there before is. -/
theorem copied_append_old (bs : List Byte) (data : Nat → Byte) :
    copied (bs ++ [data bs.length]) data = copied bs data := by
  funext i
  unfold copied
  rcases Nat.lt_or_ge i bs.length with hi | hi
  · exact List.getD_append _ _ _ _ hi
  · rw [List.getD_append_right _ _ _ _ hi, List.getD_eq_default _ _ hi]
    rcases Nat.eq_or_lt_of_le hi with heq | hlt
    · rw [← heq, Nat.sub_self]
      rfl
    · exact List.getD_eq_default _ _ (Nat.le_sub_of_add_le' hlt)

theorem copied_set (xs ys : List Byte) (x c : Byte) :
    Function.update (copied (xs ++ x :: ys) data) xs.length c
      = copied (xs ++ c :: ys) data := by
  funext i
  unfold copied
  rcases Nat.lt_trichotomy i xs.length with hi | hi | hi
  · rw [Function.update_of_ne (Nat.ne_of_lt hi), List.getD_append _ _ _ _ hi,
      List.getD_append _ _ _ _ hi]
  · rw [hi, Function.update_self, List.getD_append_right _ _ _ _ le_rfl,
      Nat.sub_self, List.getD_cons_zero]
  · obtain ⟨k, rfl⟩ := Nat.exists_eq_add_of_lt hi
    rw [Function.update_of_ne (Nat.ne_of_gt hi),
      List.getD_append_right _ _ _ _ hi.le,
      List.getD_append_right _ _ _ _ hi.le, Nat.add_assoc,
      Nat.add_sub_cancel_left, List.getD_cons_succ, List.getD_cons_succ]

theorem copied_push (bs : List Byte) (c : Byte) :
    Function.update (copied bs data) bs.length c = copied (bs ++ [c]) data := by
  rw [← copied_append_old, copied_set]

theorem take_copied (bs : List Byte) {n : Nat} (hn : bs.length ≤ n) :
    ((List.range n).map (copied bs data)).take bs.length = bs := by
  apply List.ext_getElem
  · rw [List.length_take, List.length_map, List.length_range,
      Nat.min_eq_left hn]
  · intro i hi hi'
    rw [List.getElem_take, List.getElem_map, List.getElem_range]
    exact List.getD_eq_getElem _ _ hi'

namespace Encoding

/-- Where the loop is: these labels are written, and so much of the next
one, but its length is not. -/
structure Written (data : Nat → Byte) (ls : List (List Byte))
    (l : List Byte) (e : Encoding) : Prop where
  data_eq : ∃ x, e.data = copied (wire ls ++ x :: l) data
  lenByte : e.lenByte = (wire ls).length
  target : e.target = (wire ls ++ 0 :: l).length
  sublen : e.sublen = BitVec.ofNat 8 l.length

variable {e : Encoding}

theorem Written.start (data : Nat → Byte) :
    Written data [] [] ⟨data, 0, 1, 0⟩ where
  data_eq := ⟨data 0, (copied_append_old [] data).symm⟩
  lenByte := rfl
  target := rfl
  sublen := rfl

/-- The length is put before its label. -/
theorem Written.close (h : Written data ls l e) :
    Function.update e.data e.lenByte e.sublen
      = copied (wire (ls ++ [l])) data := by
  obtain ⟨x, hdata⟩ := h.data_eq
  rw [hdata, h.lenByte, h.sublen, copied_set, wire_push]

theorem length_wire_push (l : List Byte) :
    (wire (ls ++ [l])).length = (wire ls ++ 0 :: l).length := by
  rw [wire_push, List.length_append, List.length_append, List.length_cons,
    List.length_cons]

theorem Written.dot (h : Written data ls l e) :
    Written data (ls ++ [l]) [] (e.step dot) := by
  unfold step
  rw [if_pos rfl]
  refine ⟨⟨data (wire (ls ++ [l])).length, ?_⟩, ?_, ?_, rfl⟩
  · exact h.close.trans (copied_append_old _ _).symm
  · exact h.target.trans (length_wire_push l).symm
  · rw [List.length_append, length_wire_push, h.target]
    rfl

theorem Written.char {c : Byte} (h : Written data ls l e) (hc : c ≠ Net.dot) :
    Written data ls (l ++ [c]) (e.step c) := by
  obtain ⟨x, hdata⟩ := h.data_eq
  have hlen : (wire ls ++ 0 :: l).length = (wire ls ++ x :: l).length := by
    rw [List.length_append, List.length_append]
    rfl
  unfold step
  rw [if_neg hc]
  refine ⟨⟨x, ?_⟩, h.lenByte, ?_, ?_⟩
  · simp only
    rw [hdata, h.target, hlen, copied_push, List.append_assoc]
    rfl
  · simp only
    rw [h.target]
    simp only [List.length_append, List.length_cons, List.length_nil]
    rfl
  · simp only
    rw [h.sublen, List.length_append, List.length_singleton, BitVec.ofNat_add]
    rfl

/-- The loop over a name. -/
theorem written (name : List Byte) (data : Nat → Byte) :
    ∃ ls l, Written data ls l (name.foldl step ⟨data, 0, 1, 0⟩)
      ∧ (∀ k ∈ ls, Net.dot ∉ k) ∧ Net.dot ∉ l ∧ name = dotted ls ++ l := by
  induction name using List.reverseRecOn with
  | nil => exact ⟨[], [], .start data, nofun, nofun, rfl⟩
  | append_singleton name c ih =>
      obtain ⟨ls, l, hw, hls, hl, hname⟩ := ih
      rw [List.foldl_concat]
      by_cases hc : c = Net.dot
      · subst hc
        refine ⟨ls ++ [l], [], hw.dot, fun k hk => ?_, nofun, ?_⟩
        · rcases List.mem_append.mp hk with hk | hk
          · exact hls k hk
          · rw [List.mem_singleton.mp hk]
            exact hl
        · rw [hname, dotted_push, List.append_nil]
      · refine ⟨ls, l ++ [c], hw.char hc, hls, fun hmem => ?_, ?_⟩
        · rcases List.mem_append.mp hmem with hmem | hmem
          · exact hl hmem
          · exact hc (List.mem_singleton.mp hmem).symm
        · rw [hname, List.append_assoc]

/-- These bytes are in the array, and the next one goes behind them. -/
def Filled (data : Nat → Byte) (bs : List Byte) (e : Encoding) : Prop :=
  e.data = copied bs data ∧ e.target = bs.length

theorem Filled.put {bs : List Byte} (h : Filled data bs e) (c : Byte) :
    Filled data (bs ++ [c]) (e.put c) := by
  obtain ⟨hdata, htarget⟩ := h
  unfold Encoding.put
  refine ⟨?_, ?_⟩
  · simp only
    rw [hdata, htarget, copied_push]
  · simp only
    rw [htarget, List.length_append]
    rfl

/-- What is in the array in the end. -/
theorem question_eq (name : List Byte) (data : Nat → Byte) :
    (question name data).data
      = copied (wire (name.splitOn Net.dot) ++ [0, 0, 1, 0, 1]) data := by
  obtain ⟨ls, l, hw, hls, hl, hname⟩ := written name data
  have hsplit : name.splitOn Net.dot = ls ++ [l] := by
    rw [hname, splitOn_dotted hls hl]
  have hfilled : Filled data (wire (ls ++ [l]))
      { name.foldl step ⟨data, 0, 1, 0⟩ with
        data := Function.update (name.foldl step ⟨data, 0, 1, 0⟩).data
          (name.foldl step ⟨data, 0, 1, 0⟩).lenByte
          (name.foldl step ⟨data, 0, 1, 0⟩).sublen } :=
    ⟨hw.close, hw.target.trans (length_wire_push l).symm⟩
  have hput := ((((hfilled.put 0).put 0).put 1).put 0).put 1
  unfold question
  simp only
  rw [hput.1, hsplit]
  simp only [List.append_assoc, List.cons_append, List.nil_append]

end Encoding

theorem length_wire_splitOn (name : List Byte) :
    (wire (name.splitOn dot)).length = name.length + 1 := by
  rw [length_wire, dotted_splitOn, List.length_append]
  rfl

/-- A request is a header, the labels of the name with their lengths, a zero,
and type and class of the question. -/
theorem dnsRequest_eq (hlen : name.length ≤ 237) (ident : Word)
    (data : Nat → Byte) :
    dnsRequest name ident data
      = wordBytes (htons ident) ++ [1, 0, 0, 1, 0, 0, 0, 0, 0, 0]
        ++ (wire (name.splitOn dot) ++ [0, 0, 1, 0, 1]) := by
  have hbytes : (wire (name.splitOn dot) ++ [0, 0, 1, 0, 1]).length
      = name.length + 6 := by
    rw [List.length_append, length_wire_splitOn]
    rfl
  have hhead : (wordBytes (htons ident)
      ++ ([1, 0, 0, 1, 0, 0, 0, 0, 0, 0] : List Byte)).length = 12 := rfl
  have hreq : ((12 : Byte) + BitVec.ofNat 8 name.length + 2 + 4).toNat
      = 12 + (name.length + 6) := by
    rw [BitVec.toNat_add, BitVec.toNat_add, BitVec.toNat_add,
      BitVec.toNat_ofNat]
    show (((12 + _ % 256) % 256 + 2) % 256 + 4) % 256 = _
    omega
  unfold dnsRequest
  simp only
  rw [hreq, Encoding.question_eq, ← hhead, List.take_append,
    List.take_of_length_le (Nat.le_add_right _ _), Nat.add_sub_cancel_left,
    ← hbytes, take_copied]
  omega

-- ==================================================== reading it again

theorem read_split {a : Word} {xs ys : List Byte}
    (h : Mem.read qr a (xs ++ ys).length = xs ++ ys) :
    Mem.read qr a xs.length = xs
      ∧ Mem.read qr (a + BitVec.ofNat 16 xs.length) ys.length = ys := by
  rw [List.length_append, Mem.read_add] at h
  exact List.append_inj h (Mem.length_read qr a xs.length)

theorem word_of_read {a : Word} {hi lo : Byte}
    (h : Mem.read qr a 2 = [hi, lo]) : qr.word a = mkWord hi lo := by
  have hhi : qr a = hi := List.head_eq_of_cons_eq h
  have hlo : qr (a + 1) = lo :=
    List.head_eq_of_cons_eq (List.tail_eq_of_cons_eq h)
  unfold DnsPacket.word
  rw [hhi, hlo]

theorem label_eq_read (o : Word) :
    qr.label o = Mem.read qr (o + 1) (qr o).toNat := by
  unfold label
  apply List.ext_getElem
  · rw [List.length_map, List.length_range, Mem.length_read]
  · intro i hi hi'
    rw [Mem.read_getElem, List.getElem_map, List.getElem_range]

/-- The labels that lie at an offset are spelled there, up to an empty one. -/
theorem spells_of_read {bs : List Byte}
    (hshort : ∀ l ∈ ls, l.length ≤ 191)
    (h : Mem.read qr o (wire ls ++ 0 :: bs).length = wire ls ++ 0 :: bs) :
    qr.Spells o (ls.takeWhile (· ≠ []))
      ∧ qr.Ends o (o + BitVec.ofNat 16
        ((wire (ls.takeWhile (· ≠ []))).length + 1))
      ∧ (ls.takeWhile (· ≠ []) = [] → qr o = 0) := by
  induction ls generalizing o with
  | nil =>
      have hroot : qr o = 0 := List.head_eq_of_cons_eq h
      exact ⟨⟨o, .refl o, hroot⟩, .root hroot, fun _ => hroot⟩
  | cons l ls ih =>
      rw [wire_cons, List.append_assoc, List.cons_append] at h
      have hlen : qr o = BitVec.ofNat 8 l.length := List.head_eq_of_cons_eq h
      have hrest : Mem.read qr (o + 1) (l ++ (wire ls ++ 0 :: bs)).length
          = l ++ (wire ls ++ 0 :: bs) := List.tail_eq_of_cons_eq h
      obtain ⟨hl, hls⟩ := read_split hrest
      by_cases hnil : l = []
      · subst hnil
        rw [List.takeWhile_cons_of_neg (by decide)]
        exact ⟨⟨o, .refl o, hlen⟩, .root hlen, fun _ => hlen⟩
      · have hle := hshort l List.mem_cons_self
        have hpos := List.length_pos_iff.mpr hnil
        have htoNat : (qr o).toNat = l.length := by
          rw [hlen, BitVec.toNat_ofNat]
          omega
        have hne : qr o ≠ 0 := fun hzero => by
          rw [hzero] at htoNat
          exact absurd htoNat.symm (Nat.ne_of_gt hpos)
        have hlabel : ¬ 191 < qr o := fun hlt => by
          have hgt : 191 < (qr o).toNat := hlt
          omega
        have hbehind : qr.behind o = o + 1 + BitVec.ofNat 16 l.length := by
          unfold behind
          rw [← htoNat, ← BitVec.ofNat_toNat]
        have hl' : qr.label o = l := by
          rw [label_eq_read, htoNat, hl]
        obtain ⟨⟨o', hleads, hroot⟩, hends, -⟩ := ih
          (fun k hk => hshort k (List.mem_cons_of_mem l hk)) hls
        have hgood : (l :: ls).takeWhile (· ≠ [])
            = l :: ls.takeWhile (· ≠ []) :=
          List.takeWhile_cons_of_pos (decide_eq_true hnil)
        rw [hgood]
        rw [← hbehind] at hleads hends
        refine ⟨⟨o', hl' ▸ .label hne hlabel hleads, hroot⟩, ?_,
          fun hno => absurd hno (List.cons_ne_nil _ _)⟩
        have hsum : o + BitVec.ofNat 16
            ((wire (l :: ls.takeWhile (· ≠ []))).length + 1)
            = qr.behind o + BitVec.ofNat 16
              ((wire (ls.takeWhile (· ≠ []))).length + 1) := by
          rw [hbehind, wire_cons, List.length_append, List.length_cons,
            BitVec.ofNat_add, BitVec.ofNat_add, BitVec.ofNat_add,
            BitVec.ofNat_add]
          ac_rfl
        exact hsum ▸ .label hne hlabel hends

theorem length_le_of_mem_splitOn (h : l ∈ name.splitOn dot) :
    l.length ≤ name.length := by
  obtain ⟨xs, ys, hsplit⟩ := List.append_of_mem h
  have hlen := congrArg List.length (dotted_splitOn name)
  rw [hsplit, dotted_append, dotted_cons] at hlen
  simp only [List.length_append, List.length_singleton] at hlen
  omega

/-- The name in a request is read from it again, with the type and the class
behind it, if and only if all its labels have a length. -/
theorem request_roundtrip_iff (hne : name ≠ []) (hzero : 0 ∉ name)
    (hlen : name.length < dnsMaxNameLen) (ident : Word) (data : Nat → Byte)
    (buf : CharArray)
    (hqr : Mem.read qr 0 (dnsRequest name ident data).length
      = dnsRequest name ident data) :
    (∃ e buf', decodeName qr 12 buf = some (e, buf') ∧ buf'.string = name
      ∧ qr.word e = 1 ∧ qr.word (e + 2) = 1)
    ↔ [] ∉ name.splitOn dot := by
  unfold dnsMaxNameLen at hlen
  rw [dnsRequest_eq (by omega)] at hqr
  have hread : Mem.read qr 12
      (wire (name.splitOn dot) ++ 0 :: [0, 1, 0, 1]).length
      = wire (name.splitOn dot) ++ 0 :: [0, 1, 0, 1] := (read_split hqr).2
  have hdotted := dotted_splitOn name
  have hshort : ∀ l ∈ name.splitOn dot, l.length ≤ 191 := fun l hl =>
    (length_le_of_mem_splitOn hl).trans (by omega)
  generalize name.splitOn dot = ls at hread hdotted hshort
  obtain ⟨hspells, hends, hroot⟩ := spells_of_read hshort hread
  have hparts : dotted (ls.takeWhile (· ≠ []))
      ++ dotted (ls.dropWhile (· ≠ [])) = name ++ [dot] := by
    rw [← dotted_append, List.takeWhile_append_dropWhile, hdotted]
  have hsum := congrArg List.length hparts
  rw [List.length_append, List.length_append, List.length_singleton] at hsum
  have hdecode := decodeName_eq hspells hends
    (by unfold dnsMaxNameLen; omega) hroot buf
  have hstring : (buf.copyTo 0
      ((dotted (ls.takeWhile (· ≠ []))).dropLast ++ [0])).string
      = (dotted (ls.takeWhile (· ≠ []))).dropLast := by
    have hroom : (dotted (ls.takeWhile (· ≠ []))).dropLast.length
        < dnsMaxNameLen := by
      rw [List.length_dropLast]
      unfold dnsMaxNameLen
      omega
    rw [CharArray.string_copyTo hroom]
    refine List.takeWhile_eq_self_iff.mpr fun c hc => decide_eq_true ?_
    intro heq
    have hmem : c ∈ name ++ [dot] := by
      rw [← hparts]
      exact List.mem_append_left _ (List.mem_of_mem_dropLast hc)
    rcases List.mem_append.mp hmem with hmem | hmem
    · exact hzero (heq ▸ hmem)
    · rw [List.mem_singleton.mp hmem] at heq
      exact absurd heq (by decide)
  constructor
  · intro hback hempty
    obtain ⟨e, buf', hsome, hsame, -⟩ := hback
    rw [hdecode] at hsome
    cases hsome
    rw [hstring] at hsame
    have hlen' := congrArg List.length hsame
    rw [List.length_dropLast] at hlen'
    have hpos := List.length_pos_iff.mpr hne
    have hrest : ls.dropWhile (· ≠ []) = [] :=
      dotted_eq_nil_iff.mp (List.eq_nil_of_length_eq_zero (by omega))
    have hall := List.dropWhile_eq_nil_iff.mp hrest [] hempty
    exact of_decide_eq_true hall rfl
  · intro hempty
    have hgood : ls.takeWhile (· ≠ []) = ls :=
      List.takeWhile_eq_self_iff.mpr fun l hl =>
        decide_eq_true fun hnil => hempty (hnil ▸ hl)
    rw [hgood] at hdecode hstring
    have hsplit : wire ls ++ 0 :: [0, 1, 0, 1]
        = wire ls ++ [0] ++ ([0, 1] ++ [0, 1]) := by
      rw [List.append_assoc]
      rfl
    rw [hsplit] at hread
    have hfields := (read_split hread).2
    rw [List.length_append] at hfields
    obtain ⟨htype, hclass⟩ := read_split hfields
    refine ⟨_, _, hdecode, ?_, ?_, ?_⟩
    · rw [hstring, hdotted, List.dropLast_concat]
    · exact word_of_read htype
    · exact word_of_read hclass

theorem request_roundtrip_iff_demo :
    let qr : DnsPacket := fun o =>
      ([0, 7, 1, 0, 0, 1, 0, 0, 0, 0, 0, 0, 1, 0x62, 1, 0x61, 0, 0, 1, 0, 1] :
        List Byte).getD o.toNat 0
    ∃ e buf', decodeName qr 12 (fun _ => 0) = some (e, buf')
      ∧ buf'.string = ascii "b.a" ∧ qr.word e = 1 ∧ qr.word (e + 2) = 1 := by
  intro qr
  have hqr : Mem.read qr 0 (dnsRequest (ascii "b.a") 7 fun _ => 0).length
      = dnsRequest (ascii "b.a") 7 fun _ => 0 := by
    rw [dnsRequest_eq (by decide)]
    decide
  exact (request_roundtrip_iff (by decide) (by decide) (by decide) 7
    (fun _ => 0) (fun _ => 0) hqr).mpr (by decide)

end Pdtb.Net
