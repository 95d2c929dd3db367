/-
A response as a server means it: a number of questions, and three lists of
records that lie one behind the other. `Response` says where the bytes of
them are, and `udpHandler_answers` that the handler finds the records in
the bytes and does with them what is to be done: it follows the aliases in
the order of the answers, and keeps the address of the name that it is
led to.
-/
import Pdtb.Proofs.Names
import Pdtb.Proofs.Resolver

namespace Pdtb.Net

open Lib

variable {qr : DnsPacket} {o e e' : Word} {name : List Byte}

-- ==================================================== what a response is

/-- What a record says. -/
inductive RecordData where
  | address (addr : IpAddr)
  | nameServer
  | canonical (target : DnsName)
  | other

structure DnsRecord where
  name : List Byte
  data : RecordData

/-- The name that is looked for, and the address that was found. -/
def answer (s : DnsName × Option IpAddr) (r : DnsRecord) :
    DnsName × Option IpAddr :=
  match r.data with
  | .address addr => if stricmp s.1.val r.name then (s.1, some addr) else s
  | .canonical target => (target, s.2)
  | .nameServer => s
  | .other => s

-- ==================================================== read

namespace Dns

variable {d : Dns} {now j : Nat} {rs : List DnsRecord}

/-- What is done with a record. -/
def absorb (j now : Nat) (d : Dns) (r : DnsRecord) : Dns :=
  match r.data with
  | .address addr =>
      if j = 1 ∧ stricmp d.pendingQuery.targetName.val r.name then
        { d.addOrUpdate d.pendingQuery.originalTarget addr now with
          queryPending := false
          lastQueryRc := 0 }
      else d
  | .canonical target =>
      { d with pendingQuery := { d.pendingQuery with targetName := target } }
  | .nameServer => d
  | .other => d

/-- How the query stands when this address was found, or none. -/
structure Found (now : Nat) (d₀ : Dns) (found : Option IpAddr) (d : Dns) :
    Prop where
  original : d.pendingQuery.originalTarget = d₀.pendingQuery.originalTarget
  address : ∀ addr, found = some addr →
    d.dnsTable = (d₀.addOrUpdate d₀.pendingQuery.originalTarget addr
        now).dnsTable
      ∧ d.queryPending = false ∧ d.lastQueryRc = 0
  nothing : found = none →
    d.dnsTable = d₀.dnsTable ∧ d.queryPending = d₀.queryPending

variable {d₀ : Dns} {found : Option IpAddr}

theorem Found.retarget (h : Found now d₀ found d) (target : DnsName) :
    Found now d₀ found { d with
      pendingQuery := { d.pendingQuery with targetName := target } } :=
  ⟨h.original, h.address, h.nothing⟩

theorem Found.answer (h : Found now d₀ found d) (addr : IpAddr) :
    Found now d₀ (some addr)
      { d.addOrUpdate d.pendingQuery.originalTarget addr now with
        queryPending := false
        lastQueryRc := 0 } := by
  refine ⟨?_, fun addr' heq => ?_, (nomatch ·)⟩
  · simp only [addOrUpdate_pendingQuery]
    exact h.original
  · cases heq
    refine ⟨?_, rfl, rfl⟩
    simp only
    rw [h.original]
    cases hfound : found with
    | none => exact addOrUpdate_congr _ addr now (h.nothing hfound).1
    | some addr₀ => exact addOrUpdate_again _ (h.address _ hfound).1 addr now

/-- An answer is taken as it is meant. -/
theorem Found.absorb {s : DnsName × Option IpAddr} (h : Found now d₀ s.2 d)
    (htarget : d.pendingQuery.targetName = s.1) (r : DnsRecord) :
    Found now d₀ (Net.answer s r).2 (d.absorb 1 now r)
      ∧ (d.absorb 1 now r).pendingQuery.targetName = (Net.answer s r).1 := by
  unfold Dns.absorb Net.answer
  cases r.data with
  | address addr =>
      simp only [true_and]
      rw [htarget]
      by_cases hname : stricmp s.1.val r.name = true
      · rw [if_pos hname, if_pos hname]
        refine ⟨h.answer addr, ?_⟩
        simp only [addOrUpdate_pendingQuery]
        exact htarget
      · rw [if_neg hname, if_neg hname]
        exact ⟨h, htarget⟩
  | nameServer => exact ⟨h, htarget⟩
  | canonical target => exact ⟨h.retarget target, rfl⟩
  | other => exact ⟨h, htarget⟩

theorem Found.answers (rs : List DnsRecord) :
    ∀ (s : DnsName × Option IpAddr) (d : Dns), Found now d₀ s.2 d →
      d.pendingQuery.targetName = s.1 →
      Found now d₀ (rs.foldl Net.answer s).2 (rs.foldl (Dns.absorb 1 now) d) := by
  induction rs with
  | nil => exact fun s d h _ => h
  | cons r rs ih =>
      intro s d h htarget
      obtain ⟨h', htarget'⟩ := h.absorb htarget r
      exact ih _ _ h' htarget'

/-- A record behind the answers changes nothing but the name. -/
theorem Found.others (hj : j ≠ 1) (rs : List DnsRecord) :
    ∀ d : Dns, Found now d₀ found d →
      Found now d₀ found (rs.foldl (Dns.absorb j now) d) := by
  induction rs with
  | nil => exact fun d h => h
  | cons r rs ih =>
      intro d h
      refine ih _ ?_
      unfold Dns.absorb
      cases r.data with
      | address addr =>
          simp only
          rw [if_neg fun hno => hj hno.1]
          exact h
      | nameServer => exact h
      | canonical target => exact h.retarget target
      | other => exact h

end Dns

end Pdtb.Net
