/-
What the checksum routines compute.

The routines load words low byte first, so what they sum is the packet
with the bytes of each word exchanged. Exchanging the bytes of a word is
multiplying by 256 modulo 65535, which commutes with everything a ones'
complement sum does; so the result is the checksum with its bytes
exchanged, and stored low byte first it stands in the packet high byte
first.

`Holds r n` is the state between two chains of additions: the carry is put
back and `bx` stands for `n`. `chain` is the one lemma about a chain, and
each part of a routine adds its bytes' words to `n`, once the bytes before
are an even number.
-/
import Pdtb.Net.Checksum
import Mathlib.Tactic.Ring

namespace Pdtb.Net

open Lib IpAsm

-- ================================================== the words as loaded

/-- The words of a packet as `lodsw` loads them, a last odd byte alone. -/
def loaded : List Byte → List Word
  | [] => []
  | [b] => [mkWord 0 b]
  | b :: c :: bs => mkWord c b :: loaded bs

/-- What they come to. -/
def loadedSum (bs : List Byte) : Nat := ((loaded bs).map BitVec.toNat).sum

theorem loaded_append {xs : List Byte} (ys : List Byte)
    (h : xs.length % 2 = 0) : loaded (xs ++ ys) = loaded xs ++ loaded ys := by
  induction xs using loaded.induct with
  | case1 => rfl
  | case2 b => simp at h
  | case3 b c bs ih =>
      have h' : bs.length % 2 = 0 := by
        simp only [List.length_cons] at h
        omega
      simp only [List.cons_append, loaded, ih h']

theorem loadedSum_append {xs : List Byte} (ys : List Byte)
    (h : xs.length % 2 = 0) :
    loadedSum (xs ++ ys) = loadedSum xs + loadedSum ys := by
  unfold loadedSum
  rw [loaded_append ys h, List.map_append, List.sum_append]

/-- The words of the packet are the loaded ones, moved up by a byte. -/
theorem loadedSum_modEq (bs : List Byte) :
    256 * loadedSum bs ≡ (netWords bs).sum [MOD 2 ^ 16 - 1] := by
  induction bs using netWords.induct with
  | case1 => rfl
  | case2 b =>
      have hb : loadedSum [b] = b.toNat := by
        simp [loadedSum, loaded, mkWord_toNat]
      rw [hb, netWords, List.sum_singleton, Nat.mul_comm]
  | case3 b c bs ih =>
      have hword : loadedSum (b :: c :: bs)
          = c.toNat * 256 + b.toNat + loadedSum bs := by
        simp [loadedSum, loaded, mkWord_toNat]
      rw [hword, netWords, List.sum_cons, Nat.mul_add]
      refine Nat.ModEq.add ?_ ih
      calc 256 * (c.toNat * 256 + b.toNat)
          = b.toNat * 256 + c.toNat + (2 ^ 16 - 1) * c.toNat := by ring
        _ ≡ b.toNat * 256 + c.toNat [MOD 2 ^ 16 - 1] := by simp [Nat.ModEq]

theorem loadedSum_eq_zero (bs : List Byte) :
    loadedSum bs = 0 ↔ (netWords bs).sum = 0 := by
  induction bs using netWords.induct with
  | case1 => exact Iff.rfl
  | case2 b => simp [loadedSum, loaded, netWords, mkWord_toNat]
  | case3 b c bs ih =>
      have hword : loadedSum (b :: c :: bs)
          = c.toNat * 256 + b.toNat + loadedSum bs := by
        simp [loadedSum, loaded, mkWord_toNat]
      rw [hword, netWords, List.sum_cons]
      omega

-- ================================================== bytes exchanged

theorem xchg_toNat (v : Word) :
    (xchg v).toNat = v.toNat % 256 * 256 + v.toNat / 256 := by
  rw [xchg, mkWord_toNat, loByte_toNat, hiByte_toNat]

@[simp] theorem xchg_xchg (v : Word) : xchg (xchg v) = v := by
  simp [xchg]

theorem xchg_inj {v v' : Word} : xchg v = xchg v' ↔ v = v' := by
  constructor
  · intro h
    rw [← xchg_xchg v, h, xchg_xchg]
  · intro h
    rw [h]

theorem xchg_zero : xchg 0 = 0 := rfl

/-- In memory the exchanged word is the word high byte first. -/
theorem wordBytes_xchg (v : Word) :
    wordBytes (xchg v) = [hiByte v, loByte v] := by
  simp [wordBytes, xchg]

theorem not_xchg (v : Word) : ~~~ xchg v = xchg (~~~ v) := by
  have hv := v.isLt
  apply BitVec.eq_of_toNat_eq
  rw [BitVec.toNat_not, xchg_toNat, xchg_toNat, BitVec.toNat_not]
  omega

/-- Exchanging the bytes is multiplying by 256. -/
theorem xchg_fold (n : Nat) : xchg (fold 16 n) = fold 16 (256 * n) := by
  have hv := (fold 16 n).isLt
  apply eq_fold (by decide)
  · rw [xchg_toNat]
    calc (fold 16 n).toNat % 256 * 256 + (fold 16 n).toNat / 256
        ≡ (fold 16 n).toNat % 256 * 256 + (fold 16 n).toNat / 256
            + (2 ^ 16 - 1) * ((fold 16 n).toNat / 256) [MOD 2 ^ 16 - 1] := by
          simp [Nat.ModEq]
      _ = 256 * (fold 16 n).toNat := by omega
      _ ≡ 256 * n [MOD 2 ^ 16 - 1] :=
          (fold_modEq (by decide) n).mul_left 256
  · have hz := fold_eq_zero_iff (w := 16) (n := n) (by decide)
    rw [← xchg_inj (v := fold 16 n)] at hz
    have hzero : xchg 0 = 0 := rfl
    rw [hzero] at hz
    rw [hz]
    omega

/-- A sum of loaded words is the sum of the packet's, exchanged. -/
theorem fold_loadedSum (bs : List Byte) :
    fold 16 (loadedSum bs) = xchg (fold 16 (netWords bs).sum) := by
  rw [← xchg_inj, xchg_xchg, xchg_fold]
  apply fold_congr (by decide)
  · exact loadedSum_modEq bs
  · have hz := loadedSum_eq_zero bs
    omega

-- ================================================== chains

/-- The word and the carry of the routine are those of the chain. -/
structure Carries (r : IpAsm) (a : Carrying 16) : Prop where
  bx : r.bx = a.word
  cf : r.cf = a.carry

theorem Carries.adc {r : IpAsm} {a : Carrying 16} (h : Carries r a)
    (v : Word) : Carries (r.adc v) (a.adc v) := by
  refine ⟨?_, ?_⟩
  · show r.bx + v + BitVec.ofNat 16 r.cf.toNat = _
    rw [h.bx, h.cf]
    rfl
  · show decide (2 ^ 16 ≤ r.bx.toNat + v.toNat + r.cf.toNat) = _
    rw [h.bx, h.cf]
    rfl

/-- The carry is put back, and `bx` stands for `n`. -/
structure Holds (r : IpAsm) (n : Nat) : Prop where
  bx : r.bx = fold 16 n
  cf : r.cf = false

theorem Holds.carries {r : IpAsm} {n : Nat} (h : Holds r n) :
    Carries r (.ofWord (fold 16 n)) := ⟨h.bx, h.cf⟩

/-- `adc bx, 0` leaves no carry. -/
theorem Carries.settle {r : IpAsm} {n : Nat} {ws : List Word}
    (h : Carries r ((Carrying.ofWord (fold 16 n)).sum ws)) :
    Holds (r.adc 0) (n + (ws.map BitVec.toNat).sum) := by
  have hv := ((Carrying.ofWord (fold 16 n)).sum ws).value_lt
  unfold Carrying.value at hv
  constructor
  · show r.bx + 0#16 + BitVec.ofNat 16 r.cf.toNat = _
    rw [h.bx, h.cf, BitVec.add_zero]
    have hsum := Carrying.settle_sum (by decide) (.ofWord (fold 16 n)) ws
    rw [Carrying.value_ofWord, fold_fold_add (by decide)] at hsum
    exact hsum
  · show decide (2 ^ 16 ≤ r.bx.toNat + (0 : Word).toNat + r.cf.toNat) = false
    rw [h.bx, h.cf]
    have hzero : (0 : Word).toNat = 0 := rfl
    rw [hzero]
    exact decide_eq_false (by omega)

/-- A single word added where there is no carry, and the carry put
back. -/
theorem Holds.add {r : IpAsm} {n : Nat} (h : Holds r n) (v : Word) :
    Holds ((r.add v).adc 0) (n + v.toNat) := by
  have hr : r.clc = r := by
    rw [IpAsm.clc, ← h.cf]
  have hc : Holds _ (n + ([v].map BitVec.toNat).sum) :=
    (h.carries.adc v).settle
  rw [IpAsm.add, hr]
  simpa using hc

-- ================================================== words from memory

/-- Where the routine reads next. -/
def IpAsm.ptr (r : IpAsm) : FarPtr := ⟨r.ds, r.si⟩

/-- A far pointer further on. -/
def FarPtr.skip (p : FarPtr) (n : Nat) : FarPtr :=
  ⟨p.seg, p.off + BitVec.ofNat 16 n⟩

theorem FarMem.bytes_add (far : FarMem) (p : FarPtr) (i j : Nat) :
    far.bytes p (i + j) = far.bytes p i ++ far.bytes (p.skip i) j :=
  Mem.read_add _ _ i j

@[simp] theorem FarMem.length_bytes (far : FarMem) (p : FarPtr) (n : Nat) :
    (far.bytes p n).length = n := Mem.length_read _ _ n

theorem FarPtr.skip_skip (p : FarPtr) (i j : Nat) :
    (p.skip i).skip j = p.skip (i + j) := by
  simp only [FarPtr.skip, BitVec.ofNat_add, BitVec.add_assoc]

theorem loaded_bytes_succ (far : FarMem) (p : FarPtr) (n : Nat) :
    loaded (far.bytes p (2 * (n + 1)))
      = (far p.seg).word p.off :: loaded (far.bytes (p.skip 2) (2 * n)) := by
  have hlen : 2 * (n + 1) = 2 + 2 * n := by omega
  rw [hlen, FarMem.bytes_add, loaded_append _ (by simp)]
  rfl

/-- What a run of `takeWord` leaves as it was. -/
structure Reads (r r' : IpAsm) (n : Nat) : Prop where
  ptr : r'.ptr = r.ptr.skip n
  dx : r'.dx = r.dx

theorem Reads.trans {r r' r'' : IpAsm} {i j : Nat} (h : Reads r r' i)
    (h' : Reads r' r'' j) : Reads r r'' (i + j) := by
  refine ⟨?_, h'.dx.trans h.dx⟩
  rw [h'.ptr, h.ptr, FarPtr.skip_skip]

theorem takeWord_reads (far : FarMem) (r : IpAsm) :
    Reads r (takeWord far r) 2 := ⟨rfl, rfl⟩

theorem takeWord_carries (far : FarMem) {r : IpAsm} {a : Carrying 16}
    (h : Carries r a) :
    Carries (takeWord far r) (a.adc ((far r.ptr.seg).word r.ptr.off)) :=
  Carries.adc (r := r.lodsw far) ⟨h.bx, h.cf⟩ _

/-- So many words read and added. -/
theorem takeWord_iterate (far : FarMem) (n : Nat) {r : IpAsm}
    {a : Carrying 16} (h : Carries r a) :
    Carries ((takeWord far)^[n] r)
        (a.sum (loaded (far.bytes r.ptr (2 * n))))
      ∧ Reads r ((takeWord far)^[n] r) (2 * n) := by
  induction n generalizing r a with
  | zero =>
      refine ⟨h, ?_, rfl⟩
      simp [FarPtr.skip, IpAsm.ptr]
  | succ n ih =>
      have hone := takeWord_reads far r
      obtain ⟨hc, hr⟩ := ih (takeWord_carries far h)
      rw [Function.iterate_succ_apply, loaded_bytes_succ, Carrying.sum_cons]
      rw [hone.ptr] at hc
      refine ⟨hc, ?_⟩
      have hlen : 2 * (n + 1) = 2 + 2 * n := by omega
      rw [hlen]
      exact hone.trans hr

-- ================================================== loops

/-- A body run `n` times: `cx` counts, and the body does not see it. -/
theorem loop_eq {f : IpAsm → IpAsm}
    (hf : ∀ r c, f { r with cx := c } = { f r with cx := c }) :
    ∀ (n fuel : Nat) (r : IpAsm), n + 1 ≤ fuel → n + 1 < 2 ^ 16 →
      r.cx = BitVec.ofNat 16 (n + 1) →
      loop f fuel r = { f^[n + 1] r with cx := 0 } := by
  intro n
  induction n with
  | zero =>
      intro fuel r hfuel _ hcx
      obtain ⟨fuel, rfl⟩ := Nat.exists_eq_add_of_le' hfuel
      have hbody : (f r).cx = 1 := by
        have hkeep : f r = { f r with cx := r.cx } := hf r r.cx
        rw [hkeep]
        exact hcx
      simp only [loop, hbody]
      rfl
  | succ n ih =>
      intro fuel r hfuel hlt hcx
      obtain ⟨fuel, rfl⟩ := Nat.exists_eq_add_of_le' hfuel
      have hbody : (f r).cx = BitVec.ofNat 16 (n + 1) + 1 := by
        have hkeep : f r = { f r with cx := r.cx } := hf r r.cx
        rw [hkeep]
        exact hcx.trans (BitVec.ofNat_add _ _)
      have hsub : (f r).cx - 1 = BitVec.ofNat 16 (n + 1) := by
        rw [hbody, BitVec.add_sub_cancel]
      have hne : BitVec.ofNat 16 (n + 1) ≠ 0 := by
        intro h0
        have := congrArg BitVec.toNat h0
        rw [BitVec.toNat_ofNat, Nat.mod_eq_of_lt (by omega)] at this
        simp at this
      have hrest := ih (fuel + n + 1)
        { f r with cx := BitVec.ofNat 16 (n + 1) } (by omega) (by omega) rfl
      show loop f (fuel + (n + 1) + 1) r = _
      rw [loop]
      simp only [hsub, if_neg hne]
      rw [show fuel + (n + 1) = fuel + n + 1 from rfl, hrest,
        Function.iterate_succ_apply f (n + 1)]
      have hiter : ∀ (k : Nat) (s : IpAsm) (c : Word),
          f^[k] { s with cx := c } = { f^[k] s with cx := c } := by
        intro k
        induction k with
        | zero => intro s c; rfl
        | succ k ihk =>
            intro s c
            rw [Function.iterate_succ_apply, hf, ihk,
              Function.iterate_succ_apply]
      rw [hiter]

theorem takeWord_cx (far : FarMem) (k : Nat) (r : IpAsm) (c : Word) :
    (takeWord far)^[k] { r with cx := c }
      = { (takeWord far)^[k] r with cx := c } := by
  induction k generalizing r with
  | zero => rfl
  | succ k ih =>
      rw [Function.iterate_succ_apply, Function.iterate_succ_apply, ← ih]
      rfl

/-- A loop of `k` words in a turn over `n` turns, and the carry put back:
the words of `2 * k * n` bytes are added. -/
theorem chain (far : FarMem) {k n m : Nat} {r : IpAsm} (h : Holds r m)
    (hcx : r.cx = BitVec.ofNat 16 n) (hpos : 0 < n) (hlt : n < 2 ^ 16) :
    Holds ((loop (takeWord far)^[k] 65536 r).adc 0)
        (m + loadedSum (far.bytes r.ptr (2 * (k * n))))
      ∧ Reads r ((loop (takeWord far)^[k] 65536 r).adc 0) (2 * (k * n)) := by
  obtain ⟨n, rfl⟩ := Nat.exists_eq_add_of_le' hpos
  rw [loop_eq (takeWord_cx far k) n 65536 r (by omega) hlt hcx,
    ← Function.iterate_mul]
  obtain ⟨hc, hr⟩ := takeWord_iterate far (k * (n + 1)) h.carries
  constructor
  · exact Carries.settle ⟨hc.bx, hc.cf⟩
  · exact ⟨hr.ptr, hr.dx⟩

-- ================================================== parts of a routine

theorem Holds.keep {r r' : IpAsm} {n : Nat} (h : Holds r n)
    (hbx : r'.bx = r.bx) (hcf : r'.cf = false) : Holds r' n :=
  ⟨hbx.trans h.bx, hcf⟩

theorem shiftRight_word (v : Word) (k : Nat) :
    v >>> k = BitVec.ofNat 16 (v.toNat / 2 ^ k) := by
  apply BitVec.eq_of_toNat_eq
  have hlt := v.isLt
  have hle := Nat.div_le_self v.toNat (2 ^ k)
  rw [BitVec.toNat_ushiftRight, Nat.shiftRight_eq_div_pow,
    BitVec.toNat_ofNat, Nat.mod_eq_of_lt (Nat.lt_of_le_of_lt hle hlt)]

theorem and_low_bits (v : Word) (k : Nat) (hk : k ≤ 16) :
    v &&& BitVec.ofNat 16 (2 ^ k - 1)
      = BitVec.ofNat 16 (v.toNat % 2 ^ k) := by
  have hpow : 2 ^ k ≤ 2 ^ 16 := Nat.pow_le_pow_right (by omega) hk
  have hpos := Nat.two_pow_pos k
  have hmod := Nat.mod_lt v.toNat hpos
  have hmask : (2 ^ k - 1) % 2 ^ 16 = 2 ^ k - 1 :=
    Nat.mod_eq_of_lt (by omega)
  have hsmall : v.toNat % 2 ^ k % 2 ^ 16 = v.toNat % 2 ^ k :=
    Nat.mod_eq_of_lt (by omega)
  apply BitVec.eq_of_toNat_eq
  rw [BitVec.toNat_and, BitVec.toNat_ofNat, BitVec.toNat_ofNat, hmask,
    Nat.and_two_pow_sub_one_eq_mod, hsmall]

theorem ofNat_eq_zero_iff {n : Nat} (hn : n < 2 ^ 16) :
    BitVec.ofNat 16 n = 0 ↔ n = 0 := by
  constructor
  · intro h
    have h' := congrArg BitVec.toNat h
    rw [BitVec.toNat_ofNat, Nat.mod_eq_of_lt hn] at h'
    exact h'
  · intro h
    rw [h]
    rfl

theorem addWord_eq (far : FarMem) {r : IpAsm} (h : r.cf = false) :
    r.addWord far = takeWord far r := by
  show (r.lodsw far).clc.adc _ = (r.lodsw far).adc _
  rw [show (r.lodsw far).clc = r.lodsw far from by rw [clc, ← h]; rfl]

/-- The words of both addresses are summed. -/
theorem addresses_holds (far : FarMem) (src target : FarPtr) {r : IpAsm}
    (h : Holds r 0) :
    Holds (addresses far src target r)
        (loadedSum (far.bytes src 4 ++ far.bytes target 4))
      ∧ (addresses far src target r).dx = r.dx := by
  have hsrc : Holds (r.lds src) 0 := ⟨h.bx, h.cf⟩
  obtain ⟨hc, hr⟩ := takeWord_iterate far 2 hsrc.carries
  have htarget : Carries (((takeWord far)^[2] (r.lds src)).lds target) _ :=
    ⟨hc.bx, hc.cf⟩
  obtain ⟨hc', hr'⟩ := takeWord_iterate far 2 htarget
  rw [← Carrying.sum_append, ← loaded_append _ (by simp)] at hc'
  have hsettle := hc'.settle
  rw [Nat.zero_add] at hsettle
  have hadd := addWord_eq far (r := r.lds src) h.cf
  unfold addresses
  simp only [hadd]
  exact ⟨hsettle, hr'.dx.trans hr.dx⟩

/-- The protocol and the length are summed. -/
theorem protocolLen_holds (protocol : Byte) {r : IpAsm} {n : Nat}
    (h : Holds r n) :
    Holds (protocolLen protocol r)
        (n + loadedSum [0, protocol, hiByte r.dx, loByte r.dx])
      ∧ (protocolLen protocol r).dx = r.dx := by
  have hstart : Carries { r with cx := mkWord protocol 0, cf := false }
      (.ofWord (fold 16 n)) := ⟨h.bx, rfl⟩
  have hprotocol : Carries ({ r with
      cx := mkWord protocol 0, cf := false }.add (mkWord protocol 0)) _ :=
    hstart.adc (mkWord protocol 0)
  have hlen : Carries { { r with cx := mkWord protocol 0, cf := false }.add
      (mkWord protocol 0) with dx := xchg r.dx } _ :=
    ⟨hprotocol.bx, hprotocol.cf⟩
  have hsettle : Holds _ (n + ([mkWord protocol 0, xchg r.dx].map
      BitVec.toNat).sum) := (hlen.adc (xchg r.dx)).settle
  exact ⟨⟨hsettle.bx, hsettle.cf⟩, xchg_xchg r.dx⟩

/-- So the pseudo header is. -/
theorem pseudoHeader_holds (far : FarMem) (src target : FarPtr)
    (protocol : Byte) (r : IpAsm) :
    Holds (pseudoHeader far src target protocol r)
        (loadedSum (pseudo (far.bytes src 4) (far.bytes target 4) protocol
          r.dx.toNat))
      ∧ (pseudoHeader far src target protocol r).dx = r.dx := by
  have hstart : Holds { r with bx := 0 }.clc 0 := ⟨rfl, rfl⟩
  obtain ⟨haddr, hdx⟩ := addresses_holds far src target hstart
  obtain ⟨hlen, hdx'⟩ := protocolLen_holds protocol haddr
  refine ⟨?_, hdx'.trans hdx⟩
  rw [hdx] at hlen
  have hdx0 : ({ r with bx := 0 }.clc).dx = r.dx := rfl
  rw [hdx0, ← loadedSum_append _ (by simp)] at hlen
  have hdef : pseudoHeader far src target protocol r
      = protocolLen protocol (addresses far src target
          { r with bx := 0 }.clc) := by
    rw [pseudoHeader]
  rw [hdef]
  unfold pseudo
  rw [BitVec.ofNat_toNat, BitVec.setWidth_eq]
  simpa using hlen

/-- Eight bytes and more: four words in a turn. -/
theorem unrolled_holds (far : FarMem) {r : IpAsm} {n : Nat} (h : Holds r n)
    (hdx : 8 ≤ r.dx.toNat) :
    Holds (unrolled far r)
        (n + loadedSum (far.bytes r.ptr (8 * (r.dx.toNat / 8))))
      ∧ Reads r (unrolled far r) (8 * (r.dx.toNat / 8)) := by
  have hlt := r.dx.isLt
  have hcx : r.dx >>> 3 = BitVec.ofNat 16 (r.dx.toNat / 8) :=
    shiftRight_word r.dx 3
  have hchain := chain far (k := 4) (n := r.dx.toNat / 8)
    (r := { r with cx := r.dx >>> 3, cf := false }) ⟨h.bx, rfl⟩ hcx
    (by omega) (by omega)
  have hlen : 2 * (4 * (r.dx.toNat / 8)) = 8 * (r.dx.toNat / 8) := by omega
  rw [hlen] at hchain
  exact ⟨hchain.1, hchain.2.ptr, hchain.2.dx⟩

/-- Up to three words more. -/
theorem leftOver_holds (far : FarMem) {r : IpAsm} {n : Nat} (h : Holds r n) :
    Holds (leftOver far r)
        (n + loadedSum (far.bytes r.ptr (2 * (r.dx.toNat / 2 % 4))))
      ∧ Reads r (leftOver far r) (2 * (r.dx.toNat / 2 % 4)) := by
  have hcx : r.dx >>> 1 &&& 3 = BitVec.ofNat 16 (r.dx.toNat / 2 % 4) := by
    have hhalf : (r.dx >>> 1).toNat = r.dx.toNat / 2 := by
      rw [BitVec.toNat_ushiftRight, Nat.shiftRight_eq_div_pow]
    rw [← hhalf]
    exact and_low_bits (r.dx >>> 1) 2 (by decide)
  unfold leftOver
  by_cases hz : r.dx.toNat / 2 % 4 = 0
  · have hcx0 : r.dx >>> 1 &&& 3 = 0 := by
      rw [hcx, hz]
      rfl
    simp only [if_pos hcx0, hz]
    refine ⟨⟨h.bx, rfl⟩, ?_, rfl⟩
    simp [IpAsm.ptr, FarPtr.skip]
  · have hcx0 : r.dx >>> 1 &&& 3 ≠ 0 := by
      rw [hcx, Ne, ofNat_eq_zero_iff (by omega)]
      exact hz
    simp only [if_neg hcx0]
    have hchain := chain far (k := 1) (n := r.dx.toNat / 2 % 4)
      (r := { r with cx := r.dx >>> 1 &&& 3, cf := false }.clc)
      ⟨h.bx, rfl⟩ hcx (by omega) (by omega)
    rw [Nat.one_mul, Function.iterate_one] at hchain
    exact ⟨hchain.1, hchain.2.ptr, hchain.2.dx⟩

/-- The odd byte, and the complement. -/
theorem finish_eq (far : FarMem) {r : IpAsm} {n : Nat} (h : Holds r n) :
    finish far r
      = ~~~ fold 16 (n + loadedSum (far.bytes r.ptr (r.dx.toNat % 2))) := by
  have hand : r.dx &&& 1 = BitVec.ofNat 16 (r.dx.toNat % 2) :=
    and_low_bits r.dx 1 (by decide)
  unfold finish
  by_cases hz : r.dx.toNat % 2 = 0
  · have hand0 : r.dx &&& 1 = 0 := by
      rw [hand, hz]
      rfl
    simp only [if_pos hand0, hz]
    rw [h.bx]
    rfl
  · have hand0 : r.dx &&& 1 ≠ 0 := by
      rw [hand, Ne, ofNat_eq_zero_iff (by omega)]
      exact hz
    have hone : r.dx.toNat % 2 = 1 := by omega
    simp only [if_neg hand0, hone]
    have hlow : loByte ((far r.ds).word r.si) = far r.ds r.si := by
      simp [Mem.word]
    have hadd := Holds.add (r := { r.lodsw far with
      ax := mkWord 0 (loByte (r.lodsw far).ax), cf := false })
      ⟨h.bx, rfl⟩ (mkWord 0 (far r.ds r.si))
    have hbyte : loadedSum (far.bytes r.ptr 1)
        = (mkWord 0 (far r.ds r.si)).toNat := by
      simp [loadedSum, loaded, FarMem.bytes, Mem.read, IpAsm.ptr]
    rw [hbyte]
    have hrun : r.lastByte far = ({ r.lodsw far with
        ax := mkWord 0 (loByte (r.lodsw far).ax), cf := false }.add
          (mkWord 0 (far r.ds r.si))).adc 0 := by
      rw [← hlow]
      rfl
    rw [hrun, hadd.bx]

/-- What both routines end with, once the length is in `dx`. -/
theorem rest_eq (far : FarMem) {r : IpAsm} {n : Nat} (h : Holds r n)
    (hdx : 8 ≤ r.dx.toNat) :
    finish far (leftOver far (unrolled far r))
      = ~~~ fold 16 (n + loadedSum (far.bytes r.ptr r.dx.toNat)) := by
  obtain ⟨h1, hr1⟩ := unrolled_holds far h hdx
  obtain ⟨h2, hr2⟩ := leftOver_holds far h1
  have hr := hr1.trans hr2
  rw [finish_eq far h2, hr.dx, hr.ptr, hr1.dx, hr1.ptr]
  have hlen : r.dx.toNat = 8 * (r.dx.toNat / 8)
      + (2 * (r.dx.toNat / 2 % 4) + r.dx.toNat % 2) := by omega
  conv_rhs => rw [hlen]
  rw [FarMem.bytes_add, FarMem.bytes_add,
    loadedSum_append _ (by simp; omega), loadedSum_append _ (by simp),
    FarPtr.skip_skip, ← Nat.add_assoc, ← Nat.add_assoc]

/-- The same for a few bytes, which skip the unrolled loop. -/
theorem rest_short_eq (far : FarMem) {r : IpAsm} {n : Nat} (h : Holds r n)
    (hdx : r.dx.toNat < 8) :
    finish far (leftOver far r)
      = ~~~ fold 16 (n + loadedSum (far.bytes r.ptr r.dx.toNat)) := by
  obtain ⟨h2, hr2⟩ := leftOver_holds far h
  rw [finish_eq far h2, hr2.dx, hr2.ptr]
  have hlen : r.dx.toNat = 2 * (r.dx.toNat / 2 % 4) + r.dx.toNat % 2 := by
    omega
  conv_rhs => rw [hlen]
  rw [FarMem.bytes_add, loadedSum_append _ (by simp), ← Nat.add_assoc]

-- ================================================== the routines

/-- A routine that sums a packet in loaded words gives its checksum, to
be stored low byte first. -/
theorem not_fold_loadedSum (bs : List Byte) :
    ~~~ fold 16 (loadedSum bs) = xchg (checksum bs) := by
  rw [fold_loadedSum, not_xchg, checksum]

/-- `ipchksum` over two bytes or more is the checksum. -/
theorem ipchksum_eq_checksum (far : FarMem) (data : FarPtr) (len : Word)
    (r : IpAsm) (hlen : 2 ≤ len.toNat) :
    ipchksum far data len r = xchg (checksum (far.bytes data len.toNat)) := by
  have hlt := len.isLt
  have hcx : len >>> 1 = BitVec.ofNat 16 (len.toNat / 2) :=
    shiftRight_word len 1
  have hchain := chain far (k := 1) (n := len.toNat / 2) (m := 0)
    (r := ({ r with dx := len, cx := len >>> 1, bx := 0 }.lds data).clc)
    ⟨rfl, rfl⟩ hcx (by omega) (by omega)
  rw [Nat.one_mul, Function.iterate_one, Nat.zero_add] at hchain
  obtain ⟨h, hr⟩ := hchain
  have hfin := finish_eq far h
  rw [hr.dx, hr.ptr] at hfin
  unfold ipchksum
  refine hfin.trans ?_
  rw [← not_fold_loadedSum]
  have hsplit : len.toNat = 2 * (len.toNat / 2) + len.toNat % 2 := by omega
  conv_rhs => rw [hsplit]
  rw [FarMem.bytes_add, loadedSum_append _ (by simp)]
  rfl

/-- `ip_p_chksum` over eight bytes or more, unrolled as it is, is the
checksum of the pseudo header and the packet. -/
theorem ipPChksum_eq_checksum (far : FarMem) (src target data : FarPtr)
    (protocol : Byte) (len : Word) (r : IpAsm) (hlen : 8 ≤ len.toNat) :
    ipPChksum far src target data protocol len r
      = xchg (checksum (pseudo (far.bytes src 4) (far.bytes target 4) protocol
          len.toNat ++ far.bytes data len.toNat)) := by
  obtain ⟨h, hdx⟩ :=
    pseudoHeader_holds far src target protocol { r with dx := len }
  have hrest := rest_eq far (r := (pseudoHeader far src target protocol
    { r with dx := len }).lds data) ⟨h.bx, h.cf⟩ (hdx ▸ hlen)
  unfold ipPChksum
  refine hrest.trans ?_
  have hdx' : ((pseudoHeader far src target protocol
      { r with dx := len }).lds data).dx = len := hdx
  rw [← not_fold_loadedSum, loadedSum_append _ (by simp [pseudo]), hdx']
  rfl

/-- The header of `ip_p_chksum2`, which comes in blocks of four bytes. -/
theorem headerWords_holds (far : FarMem) {len : Word} {r : IpAsm} {n : Nat}
    (h : Holds r n) (hpos : 0 < len.toNat) (hfour : len.toNat % 4 = 0) :
    Holds (headerWords far len r)
        (n + loadedSum (far.bytes r.ptr len.toNat))
      ∧ (headerWords far len r).dx = r.dx := by
  have hlt := len.isLt
  have hcx : len >>> 2 = BitVec.ofNat 16 (len.toNat / 4) :=
    shiftRight_word len 2
  have hchain := chain far (k := 2) (n := len.toNat / 4)
    (r := { r with cx := len >>> 2, cf := false }) ⟨h.bx, rfl⟩ hcx
    (by omega) (by omega)
  have hlen : 2 * (2 * (len.toNat / 4)) = len.toNat := by omega
  rw [hlen] at hchain
  exact ⟨hchain.1, hchain.2.dx⟩

/-- `ip_p_chksum2` over a header and data apart from it is the checksum
over both in one piece. -/
theorem ipPChksum2_eq_checksum (far : FarMem) (src target data : FarPtr)
    (protocol : Byte) (len : Word) (data2 : FarPtr) (len2 : Word) (r : IpAsm)
    (hpos : 0 < len.toNat) (hfour : len.toNat % 4 = 0)
    (hfit : len.toNat + len2.toNat < 2 ^ 16) :
    ipPChksum2 far src target data protocol len data2 len2 r
      = xchg (checksum (pseudo (far.bytes src 4) (far.bytes target 4) protocol
          (len.toNat + len2.toNat)
        ++ (far.bytes data len.toNat ++ far.bytes data2 len2.toNat))) := by
  have hsum : (len + len2).toNat = len.toNat + len2.toNat := by
    rw [BitVec.toNat_add, Nat.mod_eq_of_lt hfit]
  obtain ⟨h, _⟩ :=
    pseudoHeader_holds far src target protocol { r with dx := len + len2 }
  obtain ⟨h', _⟩ := headerWords_holds far (r := (pseudoHeader far src target
    protocol { r with dx := len + len2 }).lds data) ⟨h.bx, h.cf⟩ hpos hfour
  have hstart : Holds { (headerWords far len ((pseudoHeader far src target
      protocol { r with dx := len + len2 }).lds data)).lds data2 with
        cx := len2, dx := len2 } _ := ⟨h'.bx, h'.cf⟩
  have hdx : ({ r with dx := len + len2 } : IpAsm).dx.toNat
      = len.toNat + len2.toNat := hsum
  rw [hdx] at hstart
  rw [← not_fold_loadedSum, loadedSum_append _ (by simp [pseudo]),
    loadedSum_append _ (by simp; omega), ← Nat.add_assoc]
  unfold ipPChksum2
  by_cases hshort : len2 < 8
  · simp only [if_pos hshort]
    exact rest_short_eq far hstart hshort
  · simp only [if_neg hshort]
    exact rest_eq far hstart (BitVec.not_lt.mp hshort)

-- ================================================== sent and checked

theorem netWords_append {xs : List Byte} (ys : List Byte)
    (h : xs.length % 2 = 0) :
    netWords (xs ++ ys) = netWords xs ++ netWords ys := by
  induction xs using netWords.induct with
  | case1 => rfl
  | case2 b => simp at h
  | case3 b c bs ih =>
      have h' : bs.length % 2 = 0 := by
        simp only [List.length_cons] at h
        omega
      simp only [List.cons_append, netWords, ih h']

/-- One word of a packet, and what is around it. -/
theorem sum_netWords {xs : List Byte} (v : Word) (ys : List Byte)
    (h : xs.length % 2 = 0) :
    (netWords (xs ++ [hiByte v, loByte v] ++ ys)).sum
      = (netWords xs).sum + (netWords ys).sum + v.toNat := by
  have hword : (netWords [hiByte v, loByte v]).sum = v.toNat := by
    have hv := congrArg BitVec.toNat (mkWord_hi_lo v)
    rw [mkWord_toNat] at hv
    simpa [netWords] using hv
  rw [netWords_append ys (by simp; omega), netWords_append _ h,
    List.sum_append, List.sum_append, hword]
  omega

theorem checksum_eq_zero_iff (bs : List Byte) :
    checksum bs = 0 ↔ fold 16 (netWords bs).sum = BitVec.allOnes 16 := by
  unfold checksum
  constructor
  · intro h
    rw [← BitVec.not_not (b := fold 16 (netWords bs).sum), h]
    rfl
  · intro h
    rw [h]
    rfl

/-- With the checksum put where a zero was, the packet sums to nothing. -/
theorem checksum_filled {xs : List Byte} (ys : List Byte)
    (h : xs.length % 2 = 0) :
    checksum (xs ++ [hiByte (checksum (xs ++ [0, 0] ++ ys)),
      loByte (checksum (xs ++ [0, 0] ++ ys))] ++ ys) = 0 := by
  have hzero : (netWords (xs ++ [0, 0] ++ ys)).sum
      = (netWords xs).sum + (netWords ys).sum := sum_netWords 0 ys h
  rw [checksum_eq_zero_iff, sum_netWords _ ys h, checksum, hzero]
  exact fold_add_not (by decide) _

/-- A word of a packet that passes is replaced, and it passes again: the
words are the same, or one is zero and the other all ones. -/
theorem checksum_replaced_iff {xs : List Byte} {v v' : Word} {ys : List Byte}
    (h : xs.length % 2 = 0)
    (hv : checksum (xs ++ [hiByte v, loByte v] ++ ys) = 0)
    (hpos : (netWords xs).sum ≠ 0) :
    checksum (xs ++ [hiByte v', loByte v'] ++ ys) = 0
      ↔ v' = v ∨ (v' = 0 ∧ v = BitVec.allOnes 16)
        ∨ (v' = BitVec.allOnes 16 ∧ v = 0) := by
  rw [checksum_eq_zero_iff, sum_netWords _ ys h] at hv ⊢
  constructor
  · intro hv'
    exact eq_or_zero_allOnes (fold_add_eq_allOnes (by decide) hv' hv)
  · intro hsame
    have hones : (BitVec.allOnes 16).toNat = 65535 := by decide
    have hnone : (0 : Word).toNat = 0 := rfl
    rw [fold_eq_allOnes_iff (by decide)] at hv ⊢
    unfold Nat.ModEq at hv ⊢
    rcases hsame with heq | ⟨heq, heq'⟩ | ⟨heq, heq'⟩
    · rw [heq]
      exact hv
    · rw [heq', hones] at hv
      rw [heq, hnone]
      omega
    · rw [heq', hnone] at hv
      rw [heq, hones]
      omega

/-- The length in the pseudo header is not nothing. -/
theorem sum_pseudo_ne_zero {src target : List Byte} (protocol : Byte)
    {len : Nat} (hsrc : src.length = 4) (htarget : target.length = 4)
    (hlen : 0 < len) (hlt : len < 2 ^ 16) (us : List Byte) :
    (netWords (pseudo src target protocol len ++ us)).sum ≠ 0 := by
  unfold pseudo
  rw [sum_netWords _ us (by simp [hsrc, htarget]), BitVec.toNat_ofNat,
    Nat.mod_eq_of_lt hlt]
  omega

-- ==================================================== both ends

/-- What each routine computes, where it is called with enough to sum. -/
theorem checksum_routines (far : FarMem) (src target data data2 : FarPtr)
    (protocol : Byte) (len len2 : Word) (r : IpAsm) :
    (2 ≤ len.toNat → ipchksum far data len r
      = xchg (checksum (far.bytes data len.toNat)))
    ∧ (8 ≤ len.toNat → ipPChksum far src target data protocol len r
      = xchg (checksum (pseudo (far.bytes src 4) (far.bytes target 4) protocol
        len.toNat ++ far.bytes data len.toNat)))
    ∧ (0 < len.toNat → len.toNat % 4 = 0 → len.toNat + len2.toNat < 2 ^ 16 →
      ipPChksum2 far src target data protocol len data2 len2 r
        = xchg (checksum (pseudo (far.bytes src 4) (far.bytes target 4)
            protocol (len.toNat + len2.toNat)
          ++ (far.bytes data len.toNat ++ far.bytes data2 len2.toNat)))) :=
  ⟨ipchksum_eq_checksum far data len r,
    ipPChksum_eq_checksum far src target data protocol len r,
    ipPChksum2_eq_checksum far src target data protocol len data2 len2 r⟩

theorem checksum_routines_demo :
    let far : FarMem := fun seg a => (seg + a).setWidth 8
    let r : IpAsm := ⟨0, 0, 0, 0, 0, 0, true⟩
    ipchksum far ⟨0, 0⟩ 3 r = xchg (checksum (far.bytes ⟨0, 0⟩ 3))
      ∧ ipPChksum far ⟨0, 0⟩ ⟨0, 4⟩ ⟨0, 8⟩ 6 9 r
        = xchg (checksum (pseudo (far.bytes ⟨0, 0⟩ 4) (far.bytes ⟨0, 4⟩ 4) 6 9
          ++ far.bytes ⟨0, 8⟩ 9))
      ∧ ipPChksum2 far ⟨0, 0⟩ ⟨0, 4⟩ ⟨0, 8⟩ 17 8 ⟨1, 0⟩ 5 r
        = xchg (checksum (pseudo (far.bytes ⟨0, 0⟩ 4) (far.bytes ⟨0, 4⟩ 4) 17 13
          ++ (far.bytes ⟨0, 8⟩ 8 ++ far.bytes ⟨1, 0⟩ 5))) := by
  intro far r
  exact ⟨(checksum_routines far ⟨0, 0⟩ ⟨0, 4⟩ ⟨0, 0⟩ ⟨1, 0⟩ 17 3 5 r).1
      (by decide),
    (checksum_routines far ⟨0, 0⟩ ⟨0, 4⟩ ⟨0, 8⟩ ⟨1, 0⟩ 6 9 5 r).2.1
      (by decide),
    (checksum_routines far ⟨0, 0⟩ ⟨0, 4⟩ ⟨0, 8⟩ ⟨1, 0⟩ 17 8 5 r).2.2 (by decide)
      (by decide) (by decide)⟩

/-- A segment is sent with what `ip_p_chksum` gives for it put where a zero
was, and a word of it is another one when it comes: its checksum is zero if
and only if the words are the same, or one zero and the other all ones. -/
theorem segment_check_iff (far far' : FarMem)
    (src target data src' target' data' : FarPtr) (protocol : Byte)
    (len : Word) (r r' : IpAsm) {xs ys us vs : List Byte} {w w' : Word}
    (hlen : 8 ≤ len.toNat) (heven : xs.length % 2 = 0)
    (hzero : far.bytes data len.toNat = xs ++ [0, 0] ++ ys)
    (hsrc : far'.bytes src' 4 = far.bytes src 4)
    (htarget : far'.bytes target' 4 = far.bytes target 4)
    (hsent : xs ++ wordBytes (ipPChksum far src target data protocol len r)
      ++ ys = us ++ [hiByte w, loByte w] ++ vs)
    (heven' : us.length % 2 = 0)
    (hcame : far'.bytes data' len.toNat = us ++ [hiByte w', loByte w'] ++ vs) :
    ipPChksum far' src' target' data' protocol len r' = 0
      ↔ w' = w ∨ (w' = 0 ∧ w = BitVec.allOnes 16)
        ∨ (w' = BitVec.allOnes 16 ∧ w = 0) := by
  have hsize : ∀ (m : FarMem) (p : FarPtr), (m.bytes p 4).length = 4 :=
    fun m p => Mem.length_read _ _ 4
  have hhead : ∀ zs : List Byte, zs.length % 2 = 0 →
      (pseudo (far.bytes src 4) (far.bytes target 4) protocol len.toNat
        ++ zs).length % 2 = 0 := by
    intro zs hzs
    unfold pseudo
    simp only [List.length_append, hsize, List.length_cons, List.length_nil]
    omega
  have hpasses : checksum (pseudo (far.bytes src 4) (far.bytes target 4)
      protocol len.toNat ++ us ++ [hiByte w, loByte w] ++ vs) = 0 := by
    rw [ipPChksum_eq_checksum far src target data protocol len r hlen, hzero,
      wordBytes_xchg] at hsent
    rw [List.append_assoc, List.append_assoc, ← List.append_assoc us, ← hsent]
    simp only [← List.append_assoc]
    exact checksum_filled ys (hhead xs heven)
  rw [ipPChksum_eq_checksum far' src' target' data' protocol len r' hlen, hsrc,
    htarget, hcame, ← xchg_zero, xchg_inj, ← List.append_assoc,
    ← List.append_assoc]
  exact checksum_replaced_iff (hhead us heven') hpasses
    (sum_pseudo_ne_zero protocol (hsize _ _) (hsize _ _) (by omega) len.isLt us)

theorem segment_check_iff_demo :
    let r : IpAsm := ⟨0, 0, 0, 0, 0, 0, true⟩
    let v := ipPChksum (fun _ _ => 0) ⟨0, 0⟩ ⟨0, 4⟩ ⟨0, 8⟩ 6 8 r
    let far' : FarMem := fun _ a => ([0, 0, 0, 0, 0, 0, 0, 0] ++ wordBytes v
      ++ [0xFF, 0xFF] ++ [0, 0, 0, 0] : List Byte).getD a.toNat 0
    ipPChksum far' ⟨0, 0⟩ ⟨0, 4⟩ ⟨0, 8⟩ 6 8 r = 0 := by
  intro r v far'
  have hcame : far'.bytes ⟨0, 8⟩ (8 : Word).toNat = wordBytes v
      ++ [hiByte (BitVec.allOnes 16), loByte (BitVec.allOnes 16)]
      ++ [0, 0, 0, 0] := rfl
  have hsent : [] ++ wordBytes v ++ [0, 0, 0, 0, 0, 0]
      = wordBytes v ++ [hiByte (0 : Word), loByte (0 : Word)]
        ++ [0, 0, 0, 0] := rfl
  exact (segment_check_iff (fun _ _ => 0) far' ⟨0, 0⟩ ⟨0, 4⟩ ⟨0, 8⟩ ⟨0, 0⟩
    ⟨0, 4⟩ ⟨0, 8⟩ 6 8 r r (by decide) rfl rfl rfl rfl hsent
    (Nat.mod_self 2) hcame).mpr
    (.inr (.inr ⟨rfl, rfl⟩))

end Pdtb.Net
