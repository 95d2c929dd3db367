/-
`IP.H` and `IP.CPP`: the header, and how fragments are put together again.

A packet is where its buffer lies and the bytes from the IP header on, as
far as anyone reads (`raw`); a length in it may be a lie, and what is
copied then comes from behind the packet. Lengths and offsets are 16-bit
words and their sums wrap, so that more may be copied into a big packet than
it has room for. What lies behind it is not modelled: from then on
`overrun` is set, and a state in which it is says nothing.

The fragments of a packet stay in their buffers until the last one is
there. Of a control structure's three arrays only the first `fragsRcvd`
entries mean anything, and those are `frags`.
-/
import Pdtb.Net.Checksum

namespace Pdtb.Net

open Lib

-- ==================================================== the header

/-- `IpAddr_t` -/
abbrev IpAddr := Vector Byte 4

/-- `htons` and `ntohs` -/
def htons (v : Word) : Word := xchg v

/-- The fields as they lie in memory: a word that was sent high byte first
is read with its bytes exchanged. -/
structure IpHeader where
  versHlen : Byte
  serviceType : Byte
  totalLength : Word
  ident : Word
  flags : Word
  ttl : Byte
  protocol : Byte
  chksum : Word
  ipSrc : IpAddr
  ipDest : IpAddr
  deriving DecidableEq, Inhabited

def sizeofIpHeader : Word := 20

namespace IpHeader

def bytes (h : IpHeader) : List Byte :=
  [h.versHlen, h.serviceType] ++ wordBytes h.totalLength ++ wordBytes h.ident
    ++ wordBytes h.flags ++ [h.ttl, h.protocol] ++ wordBytes h.chksum
    ++ h.ipSrc.toList ++ h.ipDest.toList

/-- The header that these bytes are. -/
def ofRaw (raw : Nat → Byte) : IpHeader where
  versHlen := raw 0
  serviceType := raw 1
  totalLength := mkWord (raw 3) (raw 2)
  ident := mkWord (raw 5) (raw 4)
  flags := mkWord (raw 7) (raw 6)
  ttl := raw 8
  protocol := raw 9
  chksum := mkWord (raw 11) (raw 10)
  ipSrc := Vector.ofFn fun i => raw (12 + i)
  ipDest := Vector.ofFn fun i => raw (16 + i)

def setIpHlen (len : Byte) (h : IpHeader) : IpHeader :=
  { h with versHlen := 0x40 ||| (len >>> 2) }

def getIpHlen (h : IpHeader) : Word := (h.versHlen &&& 0xF).setWidth 16 <<< 2

def isFragment (h : IpHeader) : Bool := h.flags &&& 0xFF3F ≠ 0

def isLastFragment (h : IpHeader) : Bool := h.flags &&& 0x0020 = 0

def fragmentOffset (h : IpHeader) : Word := (htons h.flags &&& 0x1FFF) <<< 3

def setFlags (flags : Byte) (h : IpHeader) : IpHeader :=
  let v := htons h.flags
  let v := ((flags &&& 0x7).setWidth 16 <<< 13) ||| (v &&& 0x1FFF)
  { h with flags := htons v }

def setFragOffset (offset : Word) (h : IpHeader) : IpHeader :=
  let v := htons h.flags
  let v := (v &&& 0xE000) ||| ((offset >>> 3) &&& 0x1FFF)
  { h with flags := htons v }

def payloadLen (h : IpHeader) : Word := htons h.totalLength - h.getIpHlen

/-- `ipchksum` over `len` bytes from the header on. -/
def chksumOf (raw : Nat → Byte) (len : Word) : Word :=
  ipchksum (fun _ a => raw a.toNat) ⟨0, 0⟩ len ⟨0, 0, 0, 0, 0, 0, false⟩

/-- `IpHeader::set`; `ipIdent` is `IpIdent`, and its new value is given
back. -/
def set (protocol : Byte) (myIpAddr dstHost : IpAddr) (payloadLen : Word)
    (moreFrags : Byte) (fragOffset ipIdent : Word) (h : IpHeader) :
    IpHeader × Word :=
  let h := { h.setIpHlen 20 with serviceType := 0 }
  let (h, ipIdent) :=
    if moreFrags = 0 then ({ h with ident := htons ipIdent }, ipIdent + 1)
    else (h, ipIdent)
  let h := (h.setFlags moreFrags).setFragOffset fragOffset
  let h := { h with
    ttl := 255
    protocol := protocol
    ipSrc := myIpAddr
    ipDest := dstHost
    totalLength := htons (sizeofIpHeader + payloadLen)
    chksum := 0 }
  ({ h with chksum := chksumOf (fun i => h.bytes.getD i 0) sizeofIpHeader },
    ipIdent)

end IpHeader

-- ==================================================== packets

/-- A packet in its buffer. -/
structure Frame where
  /-- where the buffer is -/
  buffer : Word
  /-- the Ethernet header -/
  eh : List Byte
  /-- the bytes from the IP header on -/
  raw : Nat → Byte
  deriving Inhabited

namespace Frame

def ip (f : Frame) : IpHeader := .ofRaw f.raw

/-- `n` bytes from `payloadPtr` on. -/
def payload (f : Frame) (n : Nat) : List Byte :=
  (List.range n).map fun i => f.raw (f.ip.getIpHlen.toNat + i)

end Frame

/-- Memory after these bytes were copied to its start. -/
def copied (bs : List Byte) (old : Nat → Byte) : Nat → Byte :=
  fun i => bs.getD i (old i)

-- ==================================================== reassembly

/-- `IP_MAX_FRAG_PACKETS` -/
abbrev ipMaxFragPackets : Nat := 4

/-- `IP_MAX_FRAGS_PER_PACKET` -/
def ipMaxFragsPerPacket : Nat := 10

/-- `IP_BIGPACKET_SIZE` -/
def ipBigPacketSize : Word := 2048

/-- `TIMER_MS_TO_TICKS(IP_FRAG_REASSEMBLY_TIMEOUT)` -/
def reassemblyTimeout : BitVec 32 := 4000 / 55

structure Fragment where
  offset : Word
  length : Word
  packet : Frame

/-- The entry that is made for a fragment. -/
def Frame.fragment (f : Frame) : Fragment :=
  ⟨f.ip.fragmentOffset, f.ip.payloadLen, f⟩

structure IpFragControl where
  inUse : Bool
  lastFragRcvd : Bool
  srcAddr : IpAddr
  ident : Word
  startTime : BitVec 32
  frags : List Fragment

/-- `lastFragRcvd` is set when a last fragment comes. -/
def IpFragControl.noteLast (last : Bool) (fc : IpFragControl) :
    IpFragControl :=
  { fc with lastFragRcvd := if last then true else fc.lastFragRcvd }

structure Reassembly where
  fragControl : Fin ipMaxFragPackets → IpFragControl
  /-- the first `BigPacketFreeIndex` entries, the last one first -/
  bigPacketFreeList : List Word
  /-- the bytes of a big packet from its IP header on -/
  bigPacket : Word → Nat → Byte
  fragsInReassembly : Byte
  /-- not a variable of the program: what was given to `Buffer_free` -/
  freed : List Word
  /-- nor is this: whether a `memcpy` has gone past the end of `data` -/
  overrun : Bool

namespace Reassembly

def findFragControl (src : IpAddr) (ident : Word) (s : Reassembly) :
    Option (Fin ipMaxFragPackets) :=
  (List.finRange ipMaxFragPackets).find? fun i =>
    (s.fragControl i).inUse && (s.fragControl i).srcAddr == src
      && (s.fragControl i).ident == ident

def findOpenFragControl (s : Reassembly) : Option (Fin ipMaxFragPackets) :=
  (List.finRange ipMaxFragPackets).find? fun i => !(s.fragControl i).inUse

/-- `Buffer_free`; what becomes of the buffer is not this part's
concern. -/
def bufferFree (packet : Word) (s : Reassembly) : Reassembly :=
  { s with freed := s.freed ++ [packet] }

/-- One of the control structures is written. -/
def setFragControl (i : Fin ipMaxFragPackets) (fc : IpFragControl)
    (s : Reassembly) : Reassembly :=
  { s with fragControl := Function.update s.fragControl i fc }

/-- The buffers of fragments. -/
def buffers (frags : List Fragment) : List Word :=
  frags.map fun g => g.packet.buffer

def killFragmentControl (i : Fin ipMaxFragPackets) (s : Reassembly) :
    Reassembly :=
  let fc := s.fragControl i
  let s := { s with freed := s.freed ++ buffers fc.frags }
  let s := s.setFragControl i { fc with inUse := false, frags := [] }
  { s with fragsInReassembly := s.fragsInReassembly - 1 }

/-- `memcpy` of each fragment's data, one behind the other. -/
def gathered (frags : List Fragment) : List Byte :=
  frags.flatMap fun g => g.packet.payload g.length.toNat

/-- `startOffset`, after the loop over the fragments. -/
def gatheredLen : List Fragment → Word
  | [] => 0
  | g :: gs => g.length + gatheredLen gs

/-- The header of a big packet, from the first fragment's: without
options, and no fragment. -/
def bigHeader (startOffset : Word) (h : IpHeader) : IpHeader :=
  { h.setIpHlen 20 with
    totalLength := htons (startOffset + sizeofIpHeader)
    flags := 0
    chksum := 0 }

/-- `makeBigPacket`. There is a first fragment when it is called. -/
def makeBigPacket (i : Fin ipMaxFragPackets) (s : Reassembly) :
    Option Frame × Reassembly :=
  match s.bigPacketFreeList with
  | [] => (none, s.killFragmentControl i)
  | bp :: rest =>
      let frags := (s.fragControl i).frags
      let first := (frags.map Fragment.packet).headI
      let ip := bigHeader (gatheredLen frags) first.ip
      let raw := copied (ip.bytes ++ gathered frags) (s.bigPacket bp)
      let s := { s with
        bigPacketFreeList := rest
        bigPacket := Function.update s.bigPacket bp raw
        overrun := s.overrun || ipBigPacketSize.toNat < (gathered frags).length }
      (some ⟨bp, first.eh, raw⟩, s.killFragmentControl i)

/-- Whether the fragments follow on each other from `startOffset` on. -/
def complete : Word → List Fragment → Bool
  | _, [] => true
  | startOffset, g :: gs =>
      startOffset = g.offset && complete (startOffset + g.length) gs

/-- `processFragment` from where the fragment goes into the list. -/
def insertFragment (i : Fin ipMaxFragPackets) (insertPos : Nat) (g : Fragment)
    (s : Reassembly) : Option Frame × Reassembly :=
  let fc := s.fragControl i
  let fc := { fc with frags := fc.frags.insertIdx insertPos g }
  let s := s.setFragControl i fc
  if fc.lastFragRcvd && complete 0 fc.frags then s.makeBigPacket i
  else if fc.frags.length = ipMaxFragsPerPacket then
    (none, s.killFragmentControl i)
  else (none, s)

/-- The branch of `processFragment` for a packet not seen before. -/
def startReassembly (now : BitVec 32) (f : Frame) (s : Reassembly) :
    Reassembly :=
  match s.findOpenFragControl with
  | none => s.bufferFree f.buffer
  | some i =>
      if ipBigPacketSize < f.ip.fragmentOffset + f.ip.payloadLen then
        s.bufferFree f.buffer
      else
        let s := { s with fragsInReassembly := s.fragsInReassembly + 1 }
        s.setFragControl i
          { inUse := true
            lastFragRcvd := f.ip.isLastFragment
            srcAddr := f.ip.ipSrc
            ident := f.ip.ident
            startTime := now
            frags := [f.fragment] }

/-- The branch for one that is being put together. -/
def continueReassembly (i : Fin ipMaxFragPackets) (f : Frame)
    (s : Reassembly) : Option Frame × Reassembly :=
  let fragmentOffset := f.ip.fragmentOffset
  let fragmentLength := f.ip.payloadLen
  if ipBigPacketSize < fragmentOffset + fragmentLength then
    (none, (s.bufferFree f.buffer).killFragmentControl i)
  else
    let fc := (s.fragControl i).noteLast f.ip.isLastFragment
    let s := s.setFragControl i fc
    let insertPos := fc.frags.findIdx fun g => fragmentOffset ≤ g.offset
    match fc.frags[insertPos]? with
    | none => s.insertFragment i insertPos f.fragment
    | some next =>
        if fragmentOffset = next.offset ∧ fragmentLength = next.length then
          (none, s.bufferFree f.buffer)
        else if next.offset < fragmentOffset + fragmentLength then
          (none, (s.bufferFree f.buffer).killFragmentControl i)
        else s.insertFragment i insertPos f.fragment

def processFragment (now : BitVec 32) (f : Frame) (s : Reassembly) :
    Option Frame × Reassembly :=
  match s.findFragControl f.ip.ipSrc f.ip.ident with
  | none => (none, s.startReassembly now f)
  | some i => s.continueReassembly i f

/-- `purgeOverdue`, for one control structure. -/
def purge (now : BitVec 32) (s : Reassembly) (i : Fin ipMaxFragPackets) :
    Reassembly :=
  if (s.fragControl i).inUse
      ∧ reassemblyTimeout < now - (s.fragControl i).startTime then
    s.killFragmentControl i
  else s

def purgeOverdue (now : BitVec 32) (s : Reassembly) : Reassembly :=
  (List.finRange ipMaxFragPackets).foldl (purge now) s

/-- `IP_FRAGS_CHECK_OVERDUE` -/
def fragsCheckOverdue (now : BitVec 32) (s : Reassembly) : Reassembly :=
  if s.fragsInReassembly ≠ 0 then s.purgeOverdue now else s

def returnBigPacket (bp : Word) (s : Reassembly) : Reassembly :=
  { s with bigPacketFreeList := bp :: s.bigPacketFreeList }

/-- `initForReassembly`, with the big packets that `malloc` gave. -/
def init (bigs : List Word) (bigPacket : Word → Nat → Byte) : Reassembly where
  fragControl := fun _ => ⟨false, false, default, 0, 0, []⟩
  bigPacketFreeList := bigs
  bigPacket := bigPacket
  fragsInReassembly := 0
  freed := []
  overrun := false

end Reassembly

/-- What happens to the table. -/
inductive IpEvent where
  /-- `processFragment` -/
  | fragment (now : BitVec 32) (f : Frame)
  | checkOverdue (now : BitVec 32)
  /-- a big packet is freed -/
  | returned (bp : Word)

def Reassembly.handle (s : Reassembly) : IpEvent → Option Frame × Reassembly
  | .fragment now f => s.processFragment now f
  | .checkOverdue now => (none, s.fragsCheckOverdue now)
  | .returned bp => (none, s.returnBigPacket bp)

/-- The table after these events. -/
def Reassembly.run (s : Reassembly) (evs : List IpEvent) : Reassembly :=
  evs.foldl (fun s e => (s.handle e).2) s

end Pdtb.Net
