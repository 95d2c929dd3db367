/-
The checksum routines of `IPASM.ASM`, instruction by instruction, and the
checksum they are for: the complement of the ones' complement sum of the
16-bit words as they stand in the packet, high byte first, where a last
odd byte is followed by a zero.

A routine only reads, so what a segment register points at is a memory of
its own here, and it does not matter whether two segments overlap. What
is saved on entry and restored before `ret` is left out; what the routine
gives back is `ax`.
-/
import Pdtb.Lib.Cpu
import Pdtb.Lib.Ones

namespace Pdtb.Net

open Lib

-- ==================================================== the registers

/-- Every segment's bytes. -/
abbrev FarMem := Word → Mem 16 Byte

/-- A far pointer. -/
structure FarPtr where
  seg : Word
  off : Word

/-- The bytes behind a far pointer, round the segment. -/
def FarMem.bytes (far : FarMem) (p : FarPtr) (n : Nat) : List Byte :=
  (far p.seg).read p.off n

/-- What the routines use of the processor. -/
structure IpAsm where
  ax : Word
  bx : Word
  cx : Word
  dx : Word
  si : Word
  ds : Word
  cf : Bool

namespace IpAsm

/-- `lds si, [p]` -/
def lds (r : IpAsm) (p : FarPtr) : IpAsm := { r with ds := p.seg, si := p.off }

/-- `lodsw` -/
def lodsw (far : FarMem) (r : IpAsm) : IpAsm :=
  { r with ax := (far r.ds).word r.si, si := r.si + 2 }

/-- `adc bx, v` -/
def adc (v : Word) (r : IpAsm) : IpAsm :=
  { r with
    bx := r.bx + v + BitVec.ofNat 16 r.cf.toNat
    cf := decide (2 ^ 16 ≤ r.bx.toNat + v.toNat + r.cf.toNat) }

/-- `clc` -/
def clc (r : IpAsm) : IpAsm := { r with cf := false }

/-- `add bx, v` -/
def add (v : Word) (r : IpAsm) : IpAsm := r.clc.adc v

/-- `lodsw` and `adc bx, ax` -/
def takeWord (far : FarMem) (r : IpAsm) : IpAsm :=
  (r.lodsw far).adc (r.lodsw far).ax

/-- `lodsw` and `add bx, ax` -/
def addWord (far : FarMem) (r : IpAsm) : IpAsm :=
  (r.lodsw far).add (r.lodsw far).ax

/-- `loop`, at the end of a body: neither it nor `lodsw` touches the
carry. It runs at most 65536 times, which is what `cx = 0` asks for. -/
def loop (body : IpAsm → IpAsm) : Nat → IpAsm → IpAsm
  | 0, r => r
  | n + 1, r =>
      let r := body r
      let r := { r with cx := r.cx - 1 }
      if r.cx = 0 then r else loop body n r

/-- `lodsw`, `xor ah, ah`, `add bx, ax` and `adc bx, 0` -/
def lastByte (far : FarMem) (r : IpAsm) : IpAsm :=
  let r := r.lodsw far
  let r := { r with ax := mkWord 0 (loByte r.ax), cf := false }
  (r.add r.ax).adc 0

/-- The tail all three have: the odd byte if `dx` counts one, and the
complement in `ax`. -/
def finish (far : FarMem) (r : IpAsm) : Word :=
  let r := if r.dx &&& 1 = 0 then r else r.lastByte far
  ~~~ r.bx

end IpAsm

/-- `xchg dl, dh` -/
def xchg (v : Word) : Word := mkWord (loByte v) (hiByte v)

-- ==================================================== the routines

open IpAsm

/-- `_ipchksum` -/
def ipchksum (far : FarMem) (data : FarPtr) (len : Word) (r : IpAsm) : Word :=
  let r := { r with dx := len, cx := len >>> 1, bx := 0 }
  let r := (r.lds data).clc
  let r := loop (takeWord far) 65536 r
  let r := r.adc 0
  finish far r

/-- The words of the two addresses. -/
def addresses (far : FarMem) (src target : FarPtr) (r : IpAsm) : IpAsm :=
  let r := r.lds src
  let r := r.addWord far
  let r := r.takeWord far
  let r := r.lds target
  let r := r.takeWord far
  let r := r.takeWord far
  r.adc 0

/-- The protocol and the length, which `dx` has. -/
def protocolLen (protocol : Byte) (r : IpAsm) : IpAsm :=
  let r := { r with cx := mkWord protocol 0, cf := false }
  let r := r.add r.cx
  let r := { r with dx := xchg r.dx }
  let r := r.adc r.dx
  let r := r.adc 0
  { r with dx := xchg r.dx }

/-- What `_ip_p_chksum` and `_ip_p_chksum2` begin with. -/
def pseudoHeader (far : FarMem) (src target : FarPtr) (protocol : Byte)
    (r : IpAsm) : IpAsm :=
  let r := { r with bx := 0 }.clc
  let r := addresses far src target r
  protocolLen protocol r

/-- `top2_1` and `top3_2`: four words in a turn. -/
def unrolled (far : FarMem) (r : IpAsm) : IpAsm :=
  let r := loop (takeWord far)^[4] 65536 { r with cx := r.dx >>> 3, cf := false }
  r.adc 0

/-- `top2_2` and `top3_3`: the words that are left over. -/
def leftOver (far : FarMem) (r : IpAsm) : IpAsm :=
  let r := { r with cx := r.dx >>> 1 &&& 3, cf := false }
  if r.cx = 0 then r else
    let r := loop (takeWord far) 65536 r.clc
    r.adc 0

/-- `_ip_p_chksum` -/
def ipPChksum (far : FarMem) (src target data : FarPtr) (protocol : Byte)
    (len : Word) (r : IpAsm) : Word :=
  let r := { r with dx := len }
  let r := pseudoHeader far src target protocol r
  let r := r.lds data
  let r := unrolled far r
  let r := leftOver far r
  finish far r

/-- `top3_1`: the header, two words in a turn. -/
def headerWords (far : FarMem) (len : Word) (r : IpAsm) : IpAsm :=
  let r := { r with cx := len >>> 2, cf := false }
  (loop (takeWord far)^[2] 65536 r).adc 0

/-- `_ip_p_chksum2`; `len2` bytes of `data2` follow the header. -/
def ipPChksum2 (far : FarMem) (src target data : FarPtr) (protocol : Byte)
    (len : Word) (data2 : FarPtr) (len2 : Word) (r : IpAsm) : Word :=
  let r := { r with dx := len + len2 }
  let r := pseudoHeader far src target protocol r
  let r := headerWords far len (r.lds data)
  let r := r.lds data2
  let r := { r with cx := len2, dx := len2 }
  let r := if r.cx < 8 then r else unrolled far r
  let r := leftOver far r
  finish far r

-- ==================================================== the checksum

/-- The words of a packet, as it is sent. -/
def netWords : List Byte → List Nat
  | [] => []
  | [b] => [b.toNat * 256]
  | b :: c :: bs => (b.toNat * 256 + c.toNat) :: netWords bs

/-- The checksum of a packet. -/
def checksum (bs : List Byte) : Word := ~~~ fold 16 (netWords bs).sum

/-- What goes before the packet of a protocol over IP, to be summed only. -/
def pseudo (src target : List Byte) (protocol : Byte) (len : Nat) :
    List Byte :=
  src ++ target ++ [0, protocol]
    ++ [hiByte (BitVec.ofNat 16 len), loByte (BitVec.ofNat 16 len)]

end Pdtb.Net
