/-
`DNS.CPP`: a name is looked up with one recursive query at a time, and the
answer is kept in a table.

A response is memory from its header on, the way a near pointer reads it:
an offset is a word, and lengths in the response may be lies. So
`decodeName` may follow pointers for ever, and then there is no result.
Nor is there one when a name is written out of its array: what the memory
around it is used for is not modelled.

What the clocks and `rand` give, and what is in the hosts file, comes as
an argument. The query gets through to the name server, or it is lost.
-/
import Pdtb.Lib.Loop
import Pdtb.Image
import Pdtb.Net.Ip

namespace Pdtb.Net

open Lib

-- ==================================================== strings

/-- `'.'` -/
def dot : Byte := 0x2E

def toLower (c : Byte) : Byte :=
  if 0x41 ≤ c ∧ c ≤ 0x5A then c + 0x20 else c

/-- Whether `stricmp` gives 0. -/
def stricmp (s t : List Byte) : Bool := s.map toLower = t.map toLower

def dnsMaxNameLen : Nat := 128

/-- A string that an array of `DNS_MAX_NAME_LEN` has room for. -/
abbrev DnsName := { s : List Byte // s.length < dnsMaxNameLen }

instance : Inhabited DnsName := ⟨⟨[], by decide⟩⟩

/-- `strcpy` to such an array, if it does not write past its end. -/
def strcpy (s : List Byte) : Option DnsName :=
  if h : s.length < dnsMaxNameLen then some ⟨s, h⟩ else none

/-- A `char` array; an index may be wrong. -/
abbrev CharArray := Int → Byte

/-- The string in an array of `DNS_MAX_NAME_LEN`. -/
def CharArray.string (a : CharArray) : List Byte :=
  ((List.range dnsMaxNameLen).map fun i : Nat => a (i : Int)).takeWhile
    (· ≠ 0)

/-- `memcpy` -/
def CharArray.copyTo (a : CharArray) (i : Int) (bs : List Byte) : CharArray :=
  fun j => if i ≤ j ∧ j < i + bs.length then bs.getD (j - i).toNat 0 else a j

-- ==================================================== a request

/-- The loop of `sendRequest` over the name. -/
structure Encoding where
  data : Nat → Byte
  lenByte : Nat
  target : Nat
  sublen : Byte

namespace Encoding

def step (e : Encoding) (c : Byte) : Encoding :=
  if c = dot then
    { data := Function.update e.data e.lenByte e.sublen
      lenByte := e.target
      target := e.target + 1
      sublen := 0 }
  else
    { e with
      data := Function.update e.data e.target c
      target := e.target + 1
      sublen := e.sublen + 1 }

/-- Bytes are put where `target` is. -/
def put (e : Encoding) (c : Byte) : Encoding :=
  { e with
    data := Function.update e.data e.target c
    target := e.target + 1 }

/-- The name, then type and class of the question. -/
def question (targetName : List Byte) (data : Nat → Byte) : Encoding :=
  let e := targetName.foldl step ⟨data, 0, 1, 0⟩
  let e := { e with data := Function.update e.data e.lenByte e.sublen }
  ((((e.put 0).put 0).put 1).put 0).put 1

end Encoding

/-- The message that `sendRequest` sends; `data` is what the array held
before. -/
def dnsRequest (targetName : List Byte) (ident : Word) (data : Nat → Byte) :
    List Byte :=
  let e := Encoding.question targetName data
  let reqLen : Byte := 12 + BitVec.ofNat 8 targetName.length + 2 + 4
  (wordBytes (htons ident) ++ [1, 0, 0, 1, 0, 0, 0, 0, 0, 0]
    ++ (List.range 512).map e.data).take reqLen.toNat

-- ==================================================== a name

/-- A response, from its header on. -/
abbrev DnsPacket := Word → Byte

/-- `ntohs` of the word that is there -/
def DnsPacket.word (qr : DnsPacket) (current : Word) : Word :=
  mkWord (qr current) (qr (current + 1))

/-- The four bytes that are there -/
def DnsPacket.address (qr : DnsPacket) (current : Word) : IpAddr :=
  #v[qr current, qr (current + 1), qr (current + 2), qr (current + 3)]

/-- The variables of `decodeName`. -/
structure NameDecoder where
  current : Word
  nameBuf : CharArray
  tmpNameIndex : Byte
  prePtrCurrent : Word
  ptrHit : Bool

/-- The body of its loop. -/
def NameDecoder.step (qr : DnsPacket) (s : NameDecoder) :
    NameDecoder ⊕ NameDecoder :=
  let nextLen := qr s.current
  if nextLen = 0 then .inr s
  else
    let current := s.current + 1
    if 191 < nextLen then
      .inl { s with
        prePtrCurrent := if s.ptrHit then s.prePtrCurrent else current
        ptrHit := true
        current := (qr current).setWidth 16
          + ((nextLen &&& 0x3F).setWidth 16 <<< 8) }
    else if dnsMaxNameLen ≤ s.tmpNameIndex.toNat + nextLen.toNat then
      .inr { s with
        current := current
        nameBuf := s.nameBuf.copyTo 0 (ascii "!TOO_BIG" ++ [0])
        tmpNameIndex := 9 }
    else
      .inl { s with
        nameBuf := s.nameBuf.copyTo s.tmpNameIndex.toNat
          ((List.range nextLen.toNat).map (fun i =>
            qr (current + BitVec.ofNat 16 i)) ++ [dot])
        tmpNameIndex := s.tmpNameIndex + nextLen + 1
        current := current + nextLen.setWidth 16 }

/-- In so many rounds its loop ends, or it never does. -/
def decodeRounds : Nat := 2 ^ 16 * 2 ^ 8

/-- The variables when its loop has ended. -/
def decodeLoop (qr : DnsPacket) (current : Word) (nameBuf : CharArray) :
    Option NameDecoder :=
  runLoop (NameDecoder.step qr) decodeRounds
    ⟨current, nameBuf, 0, current, false⟩

/-- Where the name ends, and `nameBuf`. -/
def decodeName (qr : DnsPacket) (current : Word) (nameBuf : CharArray) :
    Option (Word × CharArray) :=
  if qr current = 0 then some (current + 1, Function.update nameBuf 0 0)
  else
    (decodeLoop qr current nameBuf).map fun s =>
      ((if s.ptrHit then s.prePtrCurrent else s.current) + 1,
        Function.update s.nameBuf ((s.tmpNameIndex.toNat : Int) - 1) 0)

/-- The zero at the end goes before `nameBuf`. -/
def decodeUnder (qr : DnsPacket) (current : Word) (nameBuf : CharArray) :
    Bool :=
  qr current ≠ 0
    && (decodeLoop qr current nameBuf).any fun s => s.tmpNameIndex = 0

/-- `decodeName` in `udpHandler`, if it stays within the array. -/
def decodeLocal (qr : DnsPacket) (current : Word) (nameBuf : CharArray) :
    Option (Word × CharArray) :=
  if decodeUnder qr current nameBuf then none
  else decodeName qr current nameBuf

-- ==================================================== the table

/-- `DNS_Rec_t` -/
structure DnsRec where
  name : DnsName
  ipAddr : IpAddr
  updated : Nat
  deriving Inhabited

def dnsMaxEntries : Nat := 1

/-- `DNS_Pending_Rec_t` -/
structure PendingQuery where
  ident : Word
  originalTarget : DnsName
  targetName : DnsName

/-- The static variables; `entries` is the length of `dnsTable`. -/
structure Dns where
  dnsTable : List DnsRec
  queryPending : Bool
  lastQueryRc : Int
  pendingQuery : PendingQuery
  /-- not a variable of the program: the numbers of this query's requests -/
  idents : List Word

/-- `DNS_Response_Code_t`, the two that do not come from the server -/
def unknownError : Int := -2

def timeout : Int := -1

namespace Dns

/-- At startup everything is zero. -/
def init : Dns where
  dnsTable := []
  queryPending := false
  lastQueryRc := 0
  pendingQuery := ⟨0, default, default⟩
  idents := []

def find (name : List Byte) (d : Dns) : Option Nat :=
  d.dnsTable.findIdx? fun r => stricmp r.name.val name

/-- The address of the entry with this name. -/
def lookup (name : List Byte) (d : Dns) : Option IpAddr :=
  (d.find name).map fun i => (d.dnsTable.getD i default).ipAddr

/-- The entry that was updated first. -/
def oldest (table : List DnsRec) : Nat :=
  (List.range table.length).foldl (fun index i =>
    if (table.getD i default).updated < (table.getD index default).updated
    then i else index) 0

def addOrUpdate (targetName : DnsName) (addr : IpAddr) (now : Nat)
    (d : Dns) : Dns :=
  let table := d.dnsTable
  match d.find targetName.val with
  | some index =>
      let name := (table.getD index default).name
      { d with dnsTable := table.set index ⟨name, addr, now⟩ }
  | none =>
      if table.length < dnsMaxEntries then
        { d with dnsTable := table ++ [⟨targetName, addr, now⟩] }
      else
        { d with dnsTable := table.set (oldest table) ⟨targetName, addr, now⟩ }

-- ==================================================== resolve

/-- What does not change: the settings, and what `scanHostsFile` makes of
two names. -/
structure Config where
  nameServer : IpAddr
  domain : List Byte
  hosts : List Byte → List Byte → IpAddr

/-- A decimal number, as far as a byte holds it. -/
def readByte (digits : List Byte) : Byte :=
  digits.foldl (fun v c => v * 10 + (c - 0x30)) 0

/-- `sscanf` with `"%d.%d.%d.%d"`, for digits and dots -/
def readAddress (s : List Byte) : Option IpAddr :=
  match s.splitOn dot with
  | a :: b :: c :: d :: _ =>
      if a ≠ [] ∧ b ≠ [] ∧ c ≠ [] ∧ d ≠ [] then
        some #v[readByte a, readByte b, readByte c, readByte d]
      else none
  | _ => none

/-- The numeric address that the name may be. `len` is the length of the
string, in eight bits. -/
def numeric (serverName : List Byte) : Option IpAddr :=
  let len := serverName.length % 256
  if (serverName.take len).all fun c => (0x30 ≤ c && c ≤ 0x39) || c = dot then
    readAddress serverName
  else none

/-- What is put together in `fullServerName`. -/
def fullName (cfg : Config) (serverName : List Byte) : List Byte :=
  let len := serverName.length % 256
  if (serverName.take len).contains dot || cfg.domain = [] then serverName
  else serverName ++ [dot] ++ cfg.domain

/-- `resolve`: the return code, `target` if it was set, and the state. The
check of the length is no help if the domain is appended to the name, nor
if it has 256 bytes or more. -/
def resolve (cfg : Config) (serverName : List Byte) (sendReq : Bool)
    (rand : Word) (now : Nat) (d : Dns) :
    Option (Int × Option IpAddr × Dns) :=
  if serverName = [] then some (-3, none, d) else
  match numeric serverName with
  | some addr => some (0, some addr, d)
  | none =>
      if cfg.nameServer = #v[0, 0, 0, 0] then some (-2, none, d)
      else if dnsMaxNameLen - 1 ≤ serverName.length % 256 then
        some (-1, none, d)
      else
        match d.lookup serverName with
        | some addr => some (0, some addr, d)
        | none => (strcpy (fullName cfg serverName)).bind fun full =>
            match if full.val = serverName then none
              else d.lookup full.val with
            | some addr => some (0, some addr, d)
            | none =>
                let addr := cfg.hosts serverName full.val
                if addr[0] ≠ 0 then (strcpy serverName).map fun name =>
                  (0, some addr, d.addOrUpdate name addr now)
                else if d.queryPending then some (2, none, d)
                else if !sendReq then some (3, none, d)
                else
                  some (1, none, { d with
                    queryPending := true
                    lastQueryRc := 0
                    pendingQuery := ⟨rand, full, full⟩
                    idents := [rand] })

-- ==================================================== a response

/-- Where `udpHandler` is in a response. -/
structure Reader where
  dns : Dns
  current : Word
  tmpName : CharArray

/-- A question. -/
def question (qr : DnsPacket) (c : Word × CharArray) :
    Option (Word × CharArray) :=
  (decodeLocal qr c.1 c.2).map fun (current, name) => (current + 4, name)

/-- A record, in the answers (`j` is 1) or behind them. -/
def record (qr : DnsPacket) (now : Nat) (j : Nat) (w : Reader) :
    Option Reader := do
  let (current, tmpName) ← decodeLocal qr w.current w.tmpName
  let type := qr.word current
  let rdl := qr.word (current + 8)
  let current := current + 10
  if type = 1 then
    let q := w.dns.pendingQuery
    let dns :=
      if j = 1 ∧ stricmp q.targetName.val tmpName.string then
        { w.dns.addOrUpdate q.originalTarget (qr.address current) now with
          queryPending := false
          lastQueryRc := 0 }
      else w.dns
    some ⟨dns, current + rdl, tmpName⟩
  else if type = 2 then
    let (current, tmpName) ← decodeLocal qr current tmpName
    some ⟨w.dns, current, tmpName⟩
  else if type = 5 then
    let (current, tmpName) ← decodeLocal qr current tmpName
    let target ← strcpy tmpName.string
    some ⟨{ w.dns with pendingQuery :=
      { w.dns.pendingQuery with targetName := target } }, current, tmpName⟩
  else some ⟨w.dns, current + rdl, tmpName⟩

/-- So many times over. -/
def repeatM {α : Type} (f : α → Option α) : Nat → α → Option α
  | 0, a => some a
  | n + 1, a => (f a).bind (repeatM f n)

/-- What is done when all records were read. -/
def finish (responseCode : Byte) (d : Dns) : Dns :=
  if d.queryPending = false then d
  else if responseCode ≠ 0 then
    { d with queryPending := false, lastQueryRc := responseCode.toNat }
  else { d with queryPending := false, lastQueryRc := unknownError }

/-- `udpHandler`; `stale` is what its arrays hold when it is called. -/
def udpHandler (qr : DnsPacket) (stale : CharArray) (now : Nat) (d : Dns) :
    Option Dns :=
  if qr.word 0 ≠ d.pendingQuery.ident then some d
  else do
    let numQuestions := (qr.word 4).setWidth 8
    let numAnswers := (qr.word 6).setWidth 8
    let numAuthority := (qr.word 8).setWidth 8
    let numAdditional := (qr.word 10).setWidth 8
    let (current, _) ←
      repeatM (question qr) numQuestions.toNat (12, stale)
    let w ← repeatM (record qr now 1) numAnswers.toNat ⟨d, current, stale⟩
    let w ← repeatM (record qr now 2) numAuthority.toNat w
    let w ← repeatM (record qr now 3) numAdditional.toNat w
    some (w.dns.finish (qr 3 &&& 0xF))

/-- `drivePendingQuery`: whether it is time to try again, and whether it
was tried for too long. -/
def drivePendingQuery (again expired : Bool) (d : Dns) : Dns :=
  if d.queryPending = false ∨ again = false then d
  else if expired then
    { d with queryPending := false, lastQueryRc := timeout }
  else
    let ident := d.pendingQuery.ident + 1
    { d with
      pendingQuery := { d.pendingQuery with ident := ident }
      idents := d.idents ++ [ident] }

-- ==================================================== while it waits

/-- What happens in the loop of `setupSocket`. -/
inductive Event where
  | response (qr : DnsPacket) (stale : CharArray) (now : Nat)
  | drive (again expired : Bool)

def step (d : Dns) : Event → Option Dns
  | .response qr stale now => d.udpHandler qr stale now
  | .drive again expired => some (d.drivePendingQuery again expired)

/-- A run of the loop, if no response holds it up for ever or writes out of
an array. -/
def run (d : Dns) (evs : List Event) : Option Dns :=
  evs.foldlM step d

end Dns

end Pdtb.Net
