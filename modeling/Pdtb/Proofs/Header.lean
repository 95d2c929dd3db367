/-
The IP header: what `set` puts in, the accessors take out, and the
receiver's check passes on it.

A header is 20 bytes and is read back from them (`ofRaw_copied`), whatever
follows. The flags word is dealt with as a number in host order: `setFlags`
writes the three upper bits, `setFragOffset` the thirteen others, in units
of eight bytes.
-/
import Pdtb.Net.Ip
import Pdtb.Proofs.Checksum
import Mathlib.Data.List.GetD
import Mathlib.Tactic.IntervalCases

namespace Pdtb.Net

open Lib

-- ================================================== bytes and fields

@[simp] theorem htons_htons (v : Word) : htons (htons v) = v := xchg_xchg v

theorem copied_getElem {bs : List Byte} {old : Nat → Byte} {i : Nat}
    (hi : i < bs.length) : copied bs old i = bs[i] := by
  rw [copied, List.getD_eq_getElem _ _ hi]

theorem IpHeader.length_bytes (h : IpHeader) : h.bytes.length = 20 := by
  simp [IpHeader.bytes, wordBytes]

/-- Memory after a header and more, as a header. -/
theorem IpHeader.ofRaw_copied (h : IpHeader) (xs : List Byte)
    (old : Nat → Byte) :
    IpHeader.ofRaw (copied (h.bytes ++ xs) old) = h := by
  obtain ⟨versHlen, serviceType, totalLength, ident, flags, ttl, protocol,
    chksum, ipSrc, ipDest⟩ := h
  have hsrc : ipSrc.toList.length = 4 := by simp
  have hdest : ipDest.toList.length = 4 := by simp
  have htail : ∀ i, copied ((IpHeader.mk versHlen serviceType totalLength
      ident flags ttl protocol chksum ipSrc ipDest).bytes ++ xs) old (12 + i)
      = (ipSrc.toList ++ ipDest.toList ++ xs).getD i (old (12 + i)) := by
    intro i
    have hsplit : (IpHeader.mk versHlen serviceType totalLength ident flags
        ttl protocol chksum ipSrc ipDest).bytes ++ xs
        = [versHlen, serviceType, loByte totalLength, hiByte totalLength,
            loByte ident, hiByte ident, loByte flags, hiByte flags, ttl,
            protocol, loByte chksum, hiByte chksum]
          ++ (ipSrc.toList ++ ipDest.toList ++ xs) := by
      simp [IpHeader.bytes, wordBytes]
    rw [copied, hsplit, List.getD_append_right _ _ _ _ (by simp)]
    simp
  have hs : ∀ i : Fin 4, copied ((IpHeader.mk versHlen serviceType totalLength
      ident flags ttl protocol chksum ipSrc ipDest).bytes ++ xs) old (12 + i)
      = ipSrc[i] := by
    intro i
    rw [htail, List.append_assoc, List.getD_append _ _ _ _ (by omega),
      List.getD_eq_getElem _ _ (by omega)]
    simp
  have hd : ∀ i : Fin 4, copied ((IpHeader.mk versHlen serviceType totalLength
      ident flags ttl protocol chksum ipSrc ipDest).bytes ++ xs) old (16 + i)
      = ipDest[i] := by
    intro i
    have hplus : 16 + i.val = 12 + (4 + i.val) := by omega
    rw [hplus, htail, List.getD_append _ _ _ _ (by simp; omega),
      List.getD_append_right _ _ _ _ (by omega), hsrc,
      List.getD_eq_getElem _ _ (by omega)]
    simp
  unfold IpHeader.ofRaw
  simp only [hs, hd]
  congr 1
  all_goals first
    | exact mkWord_hi_lo _
    | (ext i hi; simp)

-- ================================================== the flags word

/-- `xchg` as a rotation. -/
theorem xchg_eq_or (v : Word) : xchg v = v <<< 8 ||| v >>> 8 := by
  have hv := v.isLt
  have hlow : v.toNat / 256 < 2 ^ 8 := by omega
  have hshl : v.toNat <<< 8 % 2 ^ 16 = 2 ^ 8 * (v.toNat % 256) := by
    rw [Nat.shiftLeft_eq]
    omega
  apply BitVec.eq_of_toNat_eq
  rw [xchg_toNat, BitVec.toNat_or, BitVec.toNat_shiftLeft, hshl,
    BitVec.toNat_ushiftRight, Nat.shiftRight_eq_div_pow,
    ← Nat.two_pow_add_eq_or_of_lt hlow]
  omega

/-- The flags in host order, as `set` leaves them: what was there goes. -/
def hostFlags (moreFrags : Byte) (fragOffset : Word) : Word :=
  (moreFrags &&& 0x7).setWidth 16 <<< 13 ||| fragOffset >>> 3

theorem flags_set (moreFrags : Byte) (fragOffset : Word) (h : IpHeader) :
    ((h.setFlags moreFrags).setFragOffset fragOffset).flags
      = htons (hostFlags moreFrags fragOffset) := by
  unfold IpHeader.setFragOffset IpHeader.setFlags hostFlags
  simp only [htons_htons]
  congr 1
  apply BitVec.eq_of_getLsbD_eq
  intro i hi
  interval_cases i <;> simp

theorem fragmentOffset_flags {moreFrags : Byte} {fragOffset : Word}
    {h : IpHeader} (hflags : h.flags = htons (hostFlags moreFrags fragOffset))
    (halign : fragOffset &&& 7 = 0) : h.fragmentOffset = fragOffset := by
  unfold IpHeader.fragmentOffset
  rw [hflags, htons_htons, hostFlags]
  have hbit := fun i => congrArg (fun v : Word => v.getLsbD i) halign
  have hlow : fragOffset[0] = false ∧ fragOffset[1] = false
      ∧ fragOffset[2] = false :=
    ⟨by simpa using hbit 0, by simpa using hbit 1, by simpa using hbit 2⟩
  apply BitVec.eq_of_getLsbD_eq
  intro i hi
  interval_cases i <;> simp [hlow]

theorem isLastFragment_flags {moreFrags : Byte} {fragOffset : Word}
    {h : IpHeader} (hflags : h.flags = htons (hostFlags moreFrags fragOffset)) :
    h.isLastFragment = !moreFrags.getLsbD 0 := by
  have hmask : (0x0020 : Word) = BitVec.twoPow 16 5 := rfl
  have hbit : (htons (hostFlags moreFrags fragOffset)).getLsbD 5
      = moreFrags.getLsbD 0 := by
    simp [htons, xchg_eq_or, hostFlags]
  unfold IpHeader.isLastFragment
  rw [hflags, hmask, BitVec.and_twoPow, hbit]
  cases moreFrags.getLsbD 0 <;> rfl

theorem xchg_and (a b : Word) : xchg (a &&& b) = xchg a &&& xchg b := by
  simp only [xchg_eq_or]
  apply BitVec.eq_of_getLsbD_eq
  intro i hi
  interval_cases i <;> simp

/-- What is no fragment has neither flag nor offset. -/
theorem isFragment_flags {moreFrags : Byte} {fragOffset : Word}
    {h : IpHeader} (hflags : h.flags = htons (hostFlags moreFrags fragOffset))
    (halign : fragOffset &&& 7 = 0) :
    h.isFragment = (moreFrags.getLsbD 0 || fragOffset ≠ 0) := by
  have hmask : h.flags &&& 0xFF3F = 0
      ↔ hostFlags moreFrags fragOffset &&& 0x3FFF = 0 := by
    have hex : (0xFF3F : Word) = xchg 0x3FFF := rfl
    have hzero : (0 : Word) = xchg 0 := rfl
    rw [hflags, hex, htons, ← xchg_and]
    conv_lhs => rw [hzero]
    exact xchg_inj
  have hbit := fun i => congrArg (fun v : Word => v.getLsbD i) halign
  have hlow : fragOffset[0] = false ∧ fragOffset[1] = false
      ∧ fragOffset[2] = false :=
    ⟨by simpa using hbit 0, by simpa using hbit 1, by simpa using hbit 2⟩
  have hiff : hostFlags moreFrags fragOffset &&& 0x3FFF = 0
      ↔ moreFrags.getLsbD 0 = false ∧ fragOffset = 0 := by
    constructor
    · intro h0
      have hbits := fun i => congrArg (fun v : Word => v.getLsbD i) h0
      constructor
      · simpa [hostFlags] using hbits 13
      · apply BitVec.eq_of_getLsbD_eq
        intro i hi
        have hi3 := hbits (i - 3)
        interval_cases i <;> simp [hlow] <;> simpa [hostFlags] using hi3
    · intro hand
      obtain ⟨hmf, hoff⟩ := hand
      rw [hoff]
      apply BitVec.eq_of_getLsbD_eq
      intro i hi
      rw [BitVec.getLsbD_eq_getElem (by decide)] at hmf
      interval_cases i <;> simp [hostFlags, hmf]
  unfold IpHeader.isFragment
  rw [Bool.eq_iff_iff]
  simp only [decide_not, Bool.not_eq_true', decide_eq_false_iff_not,
    Bool.or_eq_true, hmask, hiff]
  cases moreFrags.getLsbD 0 <;> simp

-- ================================================== the header as set

/-- The check of `Ip::process` is a checksum. -/
theorem chksumOf_eq_checksum (raw : Nat → Byte) {len : Word}
    (hlen : 2 ≤ len.toNat) :
    IpHeader.chksumOf raw len
      = xchg (checksum ((List.range len.toNat).map raw)) := by
  have hbytes : FarMem.bytes (fun _ a => raw a.toNat) ⟨0, 0⟩ len.toNat
      = (List.range len.toNat).map raw := by
    have hlt := len.isLt
    unfold FarMem.bytes
    apply List.ext_getElem
    · simp
    · intro i hi hi'
      rw [Mem.read_getElem]
      rw [Mem.length_read] at hi
      have hsmall : i % 65536 = i := Nat.mod_eq_of_lt (by omega)
      simp [hsmall]
  unfold IpHeader.chksumOf
  rw [ipchksum_eq_checksum _ _ _ _ hlen, hbytes]

theorem range_map_copied (h : IpHeader) (xs : List Byte)
    (old : Nat → Byte) :
    (List.range 20).map (copied (h.bytes ++ xs) old) = h.bytes := by
  have hlen := h.length_bytes
  apply List.ext_getElem
  · simp [hlen]
  · intro i hi hi'
    rw [List.getElem_map, List.getElem_range,
      copied_getElem (by simp; omega), List.getElem_append_left hi']

/-- The fields before the checksum. -/
def IpHeader.before (h : IpHeader) : List Byte :=
  [h.versHlen, h.serviceType] ++ wordBytes h.totalLength ++ wordBytes h.ident
    ++ wordBytes h.flags ++ [h.ttl, h.protocol]

theorem IpHeader.bytes_eq (h : IpHeader) :
    h.bytes = h.before ++ wordBytes h.chksum
      ++ (h.ipSrc.toList ++ h.ipDest.toList) := by
  simp [IpHeader.bytes, IpHeader.before]

theorem range_map_getD (bs : List Byte) :
    (List.range bs.length).map (fun i => bs.getD i 0) = bs := by
  apply List.ext_getElem
  · simp
  · intro i hi hi'
    rw [List.getElem_map, List.getElem_range, List.getD_eq_getElem _ _ hi']

/-- A header with its checksum filled in as `set` does passes the check. -/
theorem chksumOf_filled (h : IpHeader) (xs : List Byte) (old : Nat → Byte)
    (hc : h.chksum = IpHeader.chksumOf (fun i =>
      ({ h with chksum := 0 } : IpHeader).bytes.getD i 0) sizeofIpHeader) :
    IpHeader.chksumOf (copied (h.bytes ++ xs) old) sizeofIpHeader = 0 := by
  have hzero : wordBytes 0 = [0, 0] := by decide
  have hbytes₀ : ({ h with chksum := 0 } : IpHeader).bytes
      = h.before ++ [0, 0] ++ (h.ipSrc.toList ++ h.ipDest.toList) := by
    rw [IpHeader.bytes_eq, hzero]
    rfl
  have hlen₀ := IpHeader.length_bytes { h with chksum := 0 }
  have heven : h.before.length % 2 = 0 := by
    simp [IpHeader.before, wordBytes]
  have hrange := range_map_getD ({ h with chksum := 0 } : IpHeader).bytes
  have hsize : sizeofIpHeader.toNat = 20 := rfl
  rw [hlen₀] at hrange
  rw [chksumOf_eq_checksum _ (by decide), hsize, hrange, hbytes₀] at hc
  rw [chksumOf_eq_checksum _ (by decide), hsize, range_map_copied,
    IpHeader.bytes_eq, hc, wordBytes_xchg, checksum_filled _ heven]
  rfl

theorem getIpHlen_of_versHlen {h : IpHeader} (hv : h.versHlen = 0x45) :
    h.getIpHlen = sizeofIpHeader := by
  unfold IpHeader.getIpHlen
  rw [hv]
  rfl

/-- A header that `set` made passes the check of `Ip::process` and is read
as what it was set to, wherever it lies and whatever follows it. -/
theorem header_roundtrip (protocol : Byte) (myIpAddr dstHost : IpAddr)
    (payloadLen : Word) (moreFrags : Byte) (fragOffset ipIdent : Word)
    (h₀ : IpHeader) (xs : List Byte) (old : Nat → Byte)
    (halign : fragOffset &&& 7 = 0) :
    let h := (h₀.set protocol myIpAddr dstHost payloadLen moreFrags
      fragOffset ipIdent).1
    let ip := IpHeader.ofRaw (copied (h.bytes ++ xs) old)
    IpHeader.chksumOf (copied (h.bytes ++ xs) old) ip.getIpHlen = 0
      ∧ ip.payloadLen = payloadLen
      ∧ ip.fragmentOffset = fragOffset
      ∧ ip.isLastFragment = !moreFrags.getLsbD 0
      ∧ ip.isFragment = (moreFrags.getLsbD 0 || fragOffset ≠ 0)
      ∧ ip.protocol = protocol
      ∧ ip.ipSrc = myIpAddr
      ∧ ip.ipDest = dstHost
      ∧ ip.ident = (if moreFrags = 0 then htons ipIdent else h₀.ident) := by
  intro h ip
  have hip : ip = h := IpHeader.ofRaw_copied h xs old
  have hlen : h.getIpHlen = sizeofIpHeader := by
    apply getIpHlen_of_versHlen
    show (ite _ _ _ : IpHeader × Word).1.versHlen = _
    split <;> rfl
  have hflags : h.flags = htons (hostFlags moreFrags fragOffset) := by
    show (((ite _ _ _ : IpHeader × Word).1.setFlags
      moreFrags).setFragOffset fragOffset).flags = _
    exact flags_set moreFrags fragOffset _
  rw [hip, hlen]
  refine ⟨chksumOf_filled h xs old rfl, ?_, fragmentOffset_flags hflags halign,
    isLastFragment_flags hflags, isFragment_flags hflags halign, rfl, rfl, rfl,
    ?_⟩
  · unfold IpHeader.payloadLen
    rw [hlen]
    show htons (htons (sizeofIpHeader + payloadLen)) - sizeofIpHeader = _
    rw [htons_htons, BitVec.add_comm, BitVec.add_sub_cancel]
  · show (ite _ _ _ : IpHeader × Word).1.ident = _
    split <;> rfl

theorem header_roundtrip_demo :
    let h := ((default : IpHeader).set 6 #v[10, 0, 0, 1] #v[10, 0, 0, 2] 1480 1
      1480 7).1
    let ip := IpHeader.ofRaw (copied (h.bytes ++ [1, 2, 3]) fun _ => 0)
    IpHeader.chksumOf (copied (h.bytes ++ [1, 2, 3]) fun _ => 0) ip.getIpHlen
        = 0
      ∧ ip.payloadLen = 1480 ∧ ip.fragmentOffset = 1480
      ∧ ip.isLastFragment = false ∧ ip.isFragment = true := by
  intro h ip
  have hback := header_roundtrip 6 #v[10, 0, 0, 1] #v[10, 0, 0, 2] 1480 1 1480 7
    default ([1, 2, 3]) (fun _ => 0) (by decide)
  exact ⟨hback.1, hback.2.1, hback.2.2.1, hback.2.2.2.1, hback.2.2.2.2.1⟩
end Pdtb.Net
