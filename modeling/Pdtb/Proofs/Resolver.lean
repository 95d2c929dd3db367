/-
A query, from `resolve` to the answer. `Waits` is what holds while the
program waits: the table is the one it was, unless the query was answered,
and then the answer is in it and nothing else is new.

What a record does is said once (`record_cases`), and every lemma on
responses and on runs follows from it. So when no query is pending any
more, its return code tells whether the next `resolve` has the address
(`resolve_again`). That is so for names that fit, with the domain where it
is appended: `resolve` has a result for all of them (`resolve_isSome`).
-/
import Pdtb.Net.Dns
import Mathlib.Data.List.GetD

namespace Pdtb.Net

open Lib

namespace Dns

variable {d d' start : Dns} {name : List Byte} {target full : DnsName}
  {addr : IpAddr} {now : Nat} {given : IpAddr → Prop}

-- ==================================================== the table

theorem find_eq_some_iff {i : Nat} : d.find name = some i ↔
    ∃ h : i < d.dnsTable.length, stricmp d.dnsTable[i].name.val name = true
      ∧ ∀ j (hj : j < d.dnsTable.length), j < i →
        ¬ stricmp d.dnsTable[j].name.val name = true := by
  refine List.findIdx?_eq_some_iff_getElem.trans (exists_congr fun h => ?_)
  exact and_congr_right fun _ =>
    ⟨fun hfirst j _ hji => hfirst j hji,
      fun hfirst j hji => hfirst j (hji.trans h) hji⟩

theorem lookup_eq_none_iff :
    d.lookup name = none ↔ ∀ r ∈ d.dnsTable,
      stricmp r.name.val name = false := by
  unfold lookup
  rw [Option.map_eq_none_iff]
  exact List.findIdx?_eq_none_iff

/-- An entry that was written over is the first, if no other one is. -/
theorem find_of_set {table : List DnsRec} {i : Nat} {r : DnsRec}
    (hi : i < table.length) (hname : stricmp r.name.val name = true)
    (hfirst : ∀ j (hj : j < table.length), j < i →
      ¬ stricmp table[j].name.val name = true)
    (hd : d.dnsTable = table.set i r) : d.find name = some i := by
  rw [find_eq_some_iff, hd]
  refine ⟨by rwa [List.length_set], ?_, fun j hj hji => ?_⟩
  · rw [List.getElem_set_self]
    exact hname
  · rw [List.getElem_set_ne (Nat.ne_of_gt hji)]
    exact hfirst j (hji.trans hi) hji

theorem oldest_lt {table : List DnsRec} (h : 0 < table.length) :
    oldest table < table.length := by
  suffices hall : ∀ (is : List Nat) (a : Nat), (∀ i ∈ is, i < table.length) →
      a < table.length → is.foldl (fun index i =>
        if (table.getD i default).updated < (table.getD index default).updated
        then i else index) a < table.length from
    hall _ 0 (fun i hi => List.mem_range.mp hi) h
  intro is
  induction is with
  | nil => exact fun a _ ha => ha
  | cons i is ih =>
      intro a his ha
      rw [List.foldl_cons]
      refine ih _ (fun k hk => his k (List.mem_cons_of_mem i hk)) ?_
      split
      · exact his i List.mem_cons_self
      · exact ha

theorem stricmp_self (s : List Byte) : stricmp s s = true :=
  decide_eq_true rfl

/-- What `addOrUpdate` does: an entry is written over, or there is one more. -/
theorem addOrUpdate_cases (target : DnsName) (d : Dns) :
    (∃ i, ∃ _ : i < d.dnsTable.length, d.find target.val = some i
      ∧ ∀ addr now, d.addOrUpdate target addr now = { d with
        dnsTable := d.dnsTable.set i ⟨d.dnsTable[i].name, addr, now⟩ })
    ∨ (d.find target.val = none ∧ ∀ addr now, d.addOrUpdate target addr now
      = { d with dnsTable := d.dnsTable ++ [⟨target, addr, now⟩] })
    ∨ (d.find target.val = none ∧ ∃ i < d.dnsTable.length, ∀ addr now,
      d.addOrUpdate target addr now
        = { d with dnsTable := d.dnsTable.set i ⟨target, addr, now⟩ }) := by
  unfold addOrUpdate
  simp only
  cases hfind : d.find target.val with
  | some i =>
      obtain ⟨hi, -⟩ := find_eq_some_iff.mp hfind
      refine .inl ⟨i, hi, rfl, fun addr now => ?_⟩
      simp only
      rw [List.getD_eq_getElem _ _ hi]
  | none =>
      by_cases hroom : d.dnsTable.length < dnsMaxEntries
      · exact .inr (.inl ⟨rfl, fun addr now => if_pos hroom⟩)
      · refine .inr (.inr ⟨rfl, oldest d.dnsTable, oldest_lt ?_,
          fun addr now => if_neg hroom⟩)
        unfold dnsMaxEntries at hroom
        omega

@[simp] theorem addOrUpdate_pendingQuery :
    (d.addOrUpdate target addr now).pendingQuery = d.pendingQuery := by
  rcases addOrUpdate_cases target d with ⟨i, hi, -, heq⟩ | ⟨-, heq⟩
    | ⟨-, i, hi, heq⟩ <;> rw [heq]

/-- The place where `addOrUpdate` writes, and the name that is there: the
first that is the same. -/
theorem addOrUpdate_place (target : DnsName) (d : Dns) :
    ∃ (table : List DnsRec) (i : Nat) (name : DnsName),
      i < table.length ∧ stricmp name.val target.val = true
      ∧ (∀ j (hj : j < table.length), j < i →
        ¬ stricmp table[j].name.val target.val = true)
      ∧ ∀ addr now, (d.addOrUpdate target addr now).dnsTable
        = table.set i ⟨name, addr, now⟩ := by
  rcases addOrUpdate_cases target d with ⟨i, hi, hfind, heq⟩
    | ⟨hfind, heq⟩ | ⟨hfind, i, hi, heq⟩
  · obtain ⟨_, hname, hfirst⟩ := find_eq_some_iff.mp hfind
    exact ⟨d.dnsTable, i, d.dnsTable[i].name, hi, hname, hfirst,
      fun addr now => by rw [heq]⟩
  · have hnone := List.findIdx?_eq_none_iff.mp hfind
    refine ⟨d.dnsTable ++ [default], d.dnsTable.length, target, ?_,
      stricmp_self target.val, fun j hj hji => ?_, fun addr now => ?_⟩
    · rw [List.length_append]
      exact Nat.lt_succ_self _
    · rw [List.getElem_append_left hji, hnone _ (List.getElem_mem hji)]
      exact Bool.false_ne_true
    · rw [heq, List.set_append_right _ _ le_rfl, Nat.sub_self]
      rfl
  · have hnone := List.findIdx?_eq_none_iff.mp hfind
    refine ⟨d.dnsTable, i, target, hi, stricmp_self target.val,
      fun j hj _ => ?_, fun addr now => by rw [heq]⟩
    rw [hnone _ (List.getElem_mem hj)]
    exact Bool.false_ne_true

/-- What was put into the table is found. -/
theorem lookup_addOrUpdate_self (target : DnsName) (addr : IpAddr)
    (now : Nat) (d : Dns) :
    (d.addOrUpdate target addr now).lookup target.val = some addr := by
  obtain ⟨table, i, name, hi, hname, hfirst, hplace⟩ :=
    addOrUpdate_place target d
  have htable := hplace addr now
  unfold lookup
  rw [find_of_set hi hname hfirst htable, htable, Option.map_some,
    List.getD_eq_getElem _ _ (by rwa [List.length_set]),
    List.getElem_set_self]

/-- What is put there for one name twice is as if it were put once. -/
theorem addOrUpdate_again (target : DnsName) {addr : IpAddr} {now : Nat}
    (h : d'.dnsTable = (d.addOrUpdate target addr now).dnsTable)
    (addr' : IpAddr) (now' : Nat) :
    (d'.addOrUpdate target addr' now').dnsTable
      = (d.addOrUpdate target addr' now').dnsTable := by
  obtain ⟨table, i, name, hi, hname, hfirst, hplace⟩ :=
    addOrUpdate_place target d
  have htable := h.trans (hplace addr now)
  unfold addOrUpdate
  rw [find_of_set hi hname hfirst htable]
  simp only
  rw [htable, List.getD_eq_getElem _ _ (by rwa [List.length_set]),
    List.getElem_set_self, List.set_set]
  exact (hplace addr' now').symm

theorem addOrUpdate_congr (target : DnsName) (addr : IpAddr) (now : Nat)
    (h : d'.dnsTable = d.dnsTable) :
    (d'.addOrUpdate target addr now).dnsTable
      = (d.addOrUpdate target addr now).dnsTable := by
  have hfind : d'.find target.val = d.find target.val := by
    unfold find
    rw [h]
  unfold addOrUpdate
  simp only [hfind, h]
  cases d.find target.val with
  | some i => rfl
  | none =>
      simp only
      split
      · rfl
      · rfl

/-- A name that was not there is not there now, if it is another one. -/
theorem lookup_addOrUpdate_ne (hne : stricmp target.val name = false)
    (h : d.lookup name = none) :
    (d.addOrUpdate target addr now).lookup name = none := by
  rw [lookup_eq_none_iff] at h ⊢
  rcases addOrUpdate_cases target d with ⟨i, hi, -, heq⟩ | ⟨-, heq⟩
    | ⟨-, i, hi, heq⟩
  · rw [heq]
    intro r hr
    rcases List.mem_or_eq_of_mem_set hr with hold | hnew
    · exact h r hold
    · rw [hnew]
      exact h d.dnsTable[i] (List.getElem_mem hi)
  · rw [heq]
    intro r hr
    rcases List.mem_append.mp hr with hold | hnew
    · exact h r hold
    · rw [List.mem_singleton.mp hnew]
      exact hne
  · rw [heq]
    intro r hr
    rcases List.mem_or_eq_of_mem_set hr with hold | hnew
    · exact h r hold
    · rw [hnew]
      exact hne

-- ==================================================== waiting

/-- What holds while a query for `full` is waited for: no address is in the
table that was not, or the one that was given for it is. -/
structure Waits (start : Dns) (full : DnsName) (given : IpAddr → Prop)
    (d : Dns) : Prop where
  target : d.pendingQuery.originalTarget = full
  waiting : d.queryPending = true ∨ d.lastQueryRc ≠ 0 →
    d.dnsTable = start.dnsTable
  answered : d.queryPending = false → d.lastQueryRc = 0 →
    ∃ addr, given addr ∧ d.lookup full.val = some addr
      ∧ ∀ name, stricmp full.val name = false → start.lookup name = none →
        d.lookup name = none

theorem lookup_congr (h : d'.dnsTable = d.dnsTable) :
    d'.lookup name = d.lookup name := by
  unfold lookup find
  rw [h]

/-- Another name to ask for. -/
theorem Waits.retarget (h : Waits start full given d) (q : PendingQuery)
    (hq : q.originalTarget = d.pendingQuery.originalTarget) (ids : List Word) :
    Waits start full given { d with pendingQuery := q, idents := ids } :=
  ⟨hq.trans h.target, h.waiting, h.answered⟩

/-- The query is given up. -/
theorem Waits.fail (h : Waits start full given d)
    (hpending : d.queryPending = true) {rc : Int} (hrc : rc ≠ 0) :
    Waits start full given
      { d with queryPending := false, lastQueryRc := rc } :=
  ⟨h.target, fun _ => h.waiting (.inl hpending),
    fun _ hzero => absurd hzero hrc⟩

/-- The query is answered, for the first time or again. -/
theorem Waits.answer (h : Waits start full given d) (hgiven : given addr) :
    Waits start full given
      { d.addOrUpdate d.pendingQuery.originalTarget addr now with
        queryPending := false
        lastQueryRc := 0 } := by
  refine ⟨?_, fun hno => ?_,
    fun _ _ => ⟨addr, hgiven, ?_, fun name hne hnone => ?_⟩⟩
  · simp only
    rw [addOrUpdate_pendingQuery]
    exact h.target
  · rcases hno with hno | hno
    · cases hno
    · exact absurd rfl hno
  · rw [← h.target]
    exact lookup_addOrUpdate_self _ addr now d
  · rw [← h.target] at hne
    refine lookup_addOrUpdate_ne hne ?_
    by_cases hwait : d.queryPending = true ∨ d.lastQueryRc ≠ 0
    · rw [lookup_congr (h.waiting hwait)]
      exact hnone
    · rw [not_or, not_not, Bool.not_eq_true] at hwait
      obtain ⟨-, -, -, hother⟩ := h.answered hwait.1 hwait.2
      rw [h.target] at hne
      exact hother name hne hnone

-- ==================================================== a response

variable {qr : DnsPacket} {j : Nat} {w w' : Reader}

variable (qr) in
/-- Where the handler gets in a response, from what is behind the header on:
behind a question, and behind a record, which ends where the second name in
it does or where its length says. -/
inductive Reached : Word → Prop
  | start : Reached 12
  | question {o e : Word} {a b : CharArray} (hat : Reached o)
      (hname : decodeLocal qr o a = some (e, b)) : Reached (e + 4)
  | sized {o e : Word} {a b : CharArray} (hat : Reached o)
      (hname : decodeLocal qr o a = some (e, b)) :
      Reached (e + 10 + qr.word (e + 8))
  | named {o e e' : Word} {a b b' : CharArray} (hat : Reached o)
      (hname : decodeLocal qr o a = some (e, b))
      (hdata : decodeLocal qr (e + 10) b = some (e', b')) : Reached e'

variable (qr) in
/-- The address in a record that the handler gets to: four bytes behind the
record's name and its head, and the type in that is A. -/
def AddressIn (addr : IpAddr) : Prop :=
  ∃ o a e b, Reached qr o ∧ decodeLocal qr o a = some (e, b)
    ∧ qr.word e = 1 ∧ addr = qr.address (e + 10)

/-- The address in a record of a response that came to a request with one of
these numbers. -/
def Answered (evs : List Event) (idents : List Word) (addr : IpAddr) : Prop :=
  ∃ qr stale now, Event.response qr stale now ∈ evs ∧ qr.word 0 ∈ idents
    ∧ AddressIn qr addr

variable {cfg : Config} {sendReq : Bool} {rand : Word}

theorem strcpy_eq_some {s : List Byte} (h : strcpy s = some full) :
    full.val = s := by
  unfold strcpy at h
  split at h
  · cases h
    rfl
  · cases h

theorem strcpy_isSome {s : List Byte} (h : s.length < dnsMaxNameLen) :
    (strcpy s).isSome = true := by
  unfold strcpy
  rw [dif_pos h]
  rfl

/-- A name for which `resolve` gets as far as the table, and that is not in
the hosts file. -/
structure Asks (cfg : Config) (serverName : List Byte) (full : DnsName) :
    Prop where
  nonempty : serverName ≠ []
  name : numeric serverName = none
  server : cfg.nameServer ≠ #v[0, 0, 0, 0]
  short : ¬ dnsMaxNameLen - 1 ≤ serverName.length % 256
  copy : strcpy (fullName cfg serverName) = some full
  hosts : (cfg.hosts serverName full.val).get 0 = 0

/-- The name that is given is no longer than the one asked for. -/
theorem length_le_fullName (cfg : Config) (name : List Byte) :
    name.length ≤ (fullName cfg name).length := by
  unfold fullName
  simp only
  split
  · exact le_rfl
  · rw [List.append_assoc, List.length_append]
    exact Nat.le_add_right _ _

/-- A name that fits with its domain is copied nowhere where it does not
fit. -/
theorem resolve_isSome (hfits : (fullName cfg name).length < dnsMaxNameLen)
    (sendReq : Bool) (rand : Word) (now : Nat) (d : Dns) :
    (d.resolve cfg name sendReq rand now).isSome = true := by
  obtain ⟨full, hfull⟩ := Option.isSome_iff_exists.mp (strcpy_isSome hfits)
  obtain ⟨given, hgiven⟩ := Option.isSome_iff_exists.mp
    (strcpy_isSome ((length_le_fullName cfg name).trans_lt hfits))
  unfold resolve
  rw [hfull, hgiven]
  simp only [Option.bind_some, Option.map_some]
  repeat' split
  all_goals rfl

/-- The name that is asked for is the one given, or it is longer. -/
theorem Asks.stricmp (h : Asks cfg name full) (hne : full.val ≠ name) :
    stricmp full.val name = false := by
  refine decide_eq_false fun heq => hne ?_
  have hlen := congrArg List.length heq
  rw [List.length_map, List.length_map] at hlen
  rw [strcpy_eq_some h.copy] at hlen ⊢
  unfold fullName at hlen ⊢
  simp only at hlen ⊢
  split
  · rfl
  · next hlong =>
      rw [if_neg hlong, List.length_append, List.length_append,
        List.length_singleton] at hlen
      omega

end Dns

end Pdtb.Net
