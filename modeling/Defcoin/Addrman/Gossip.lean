import Defcoin.Addrman.SameIP

/-! # Gossiped addresses

  `CConnman::AddNewAddresses` adds a batch of addresses that a peer sent. On the main network only
  addresses with a preferred port are added, and each of them replaces an entry with the same
  address and another port. There are two preferred ports, so a batch can take a peer out of the
  tried table: this module says exactly which entries stay.
-/

namespace Defcoin.Addrman

open Outcome Succeeds

/-- `nDefaultPort` of the main network. -/
def defaultPort : Nat := 1337

def DEFCOIN_ALT_PORT : Nat := 10332

/-- `IsDefcoinPreferredPort` on the main network. -/
def isDefcoinPreferredPort (port : Nat) : Bool := port == defaultPort || port == DEFCOIN_ALT_PORT

namespace CAddrMan

/-- The body of the loop on the main network; `added` is whether an address was added before. -/
def addPreferred (h : Hashes) (addrFrom : CNetAddr) (nTimePenalty : Int) (state : Bool × CAddrMan)
    (addr : CAddress × AddDraws) : Except Fault (Bool × CAddrMan) :=
  if isDefcoinPreferredPort addr.1.port then
    (state.2.addReplacingSameIP h addr.1 addrFrom nTimePenalty addr.2).map fun r => (state.1 || r.1, r.2)
  else .ok state

/-- The body of the loop on another network. -/
def addAny (h : Hashes) (addrFrom : CNetAddr) (nTimePenalty : Int) (state : Bool × CAddrMan)
    (addr : CAddress × AddDraws) : Except Fault (Bool × CAddrMan) :=
  (state.2.add_ h addr.1 addrFrom nTimePenalty addr.2).map fun r => (state.1 || r.1, r.2)

/-- `AddNewAddresses`; each address comes with the clock readings and the draw of its turn. -/
def addNewAddresses (h : Hashes) (s : CAddrMan) (isDefcoinMainnet : Bool)
    (vAddr : List (CAddress × AddDraws)) (addrFrom : CNetAddr) (nTimePenalty : Int) :
    Except Fault (Bool × CAddrMan) :=
  if isDefcoinMainnet then vAddr.foldlM (addPreferred h addrFrom nTimePenalty) (false, s)
  else vAddr.foldlM (addAny h addrFrom nTimePenalty) (false, s)

variable {h : Hashes} {s : CAddrMan}

/-- The address takes the place of the service: same address, other port, and a preferred one. -/
def Displaces (addr : CAddress) (service : CService) : Prop :=
  isDefcoinPreferredPort addr.port = true ∧ addr.toCNetAddr = service.toCNetAddr ∧ addr.port ≠ service.port

theorem addPreferred_spec {state : Bool × CAddrMan} (hs : Consistent h ∅ 0 state.2) (addrFrom : CNetAddr)
    (nTimePenalty : Int) (addr : CAddress × AddDraws) :
    Succeeds (addPreferred h addrFrom nTimePenalty state addr) fun r => Consistent h ∅ 0 r.2 ∧
      ∀ service, r.2.InTried service ↔ state.2.InTried service ∧ ¬Displaces addr.1 service := by
  unfold addPreferred
  by_cases hport : isDefcoinPreferredPort addr.1.port = true
  · rw [if_pos hport]
    apply map (addReplacingSameIP_spec hs addr.1 addrFrom nTimePenalty addr.2)
    intro r hr
    obtain ⟨hr, htried, _⟩ := hr
    refine ⟨hr, fun service => ?_⟩
    have hiff : (service.toCNetAddr = addr.1.toCNetAddr → service.port = addr.1.port) ↔
        ¬Displaces addr.1 service := by
      constructor
      · intro hsame hdis
        exact hdis.2.2 (hsame hdis.2.1.symm).symm
      · intro hdis ha
        by_contra hne
        exact hdis ⟨hport, ha.symm, Ne.symm hne⟩
    rw [htried, hiff]
  · rw [if_neg hport]
    refine ok ⟨hs, fun service => ?_⟩
    have hdis : ¬Displaces addr.1 service := fun hdis => hport hdis.1
    rw [and_iff_left hdis]

/-- **A batch** takes exactly those peers out of the tried table that one of its addresses displaces. -/
theorem addNewAddresses_spec (hs : Consistent h ∅ 0 s) (vAddr : List (CAddress × AddDraws))
    (addrFrom : CNetAddr) (nTimePenalty : Int) :
    Succeeds (s.addNewAddresses h true vAddr addrFrom nTimePenalty) fun r => Consistent h ∅ 0 r.2 ∧
      ∀ service, r.2.InTried service ↔ s.InTried service ∧ ∀ addr ∈ vAddr, ¬Displaces addr.1 service := by
  apply foldlM (fun (done : List (CAddress × AddDraws)) (state : Bool × CAddrMan) => Consistent h ∅ 0 state.2 ∧
    ∀ service, state.2.InTried service ↔ s.InTried service ∧ ∀ addr ∈ done, ¬Displaces addr.1 service)
  · refine ⟨hs, fun service => (and_iff_left ?_).symm⟩
    intro addr hm
    exact absurd hm List.not_mem_nil
  · intro done addr rest state _ hinv
    obtain ⟨hstate, htried⟩ := hinv
    apply mono (addPreferred_spec hstate addrFrom nTimePenalty addr)
    intro r hr
    obtain ⟨hr, hstep⟩ := hr
    refine ⟨hr, fun service => ?_⟩
    rw [hstep, htried, and_assoc, List.forall_mem_append, List.forall_mem_singleton]

/-- **Gossip keeps verified peers** on preferred ports exactly if no address of the batch is the
    other preferred port of one of them. -/
theorem gossip_keeps_tried_iff (h : Hashes) (s : CAddrMan) (hs : Consistent h ∅ 0 s)
    (vAddr : List (CAddress × AddDraws)) (addrFrom : CNetAddr) (nTimePenalty : Int) :
    Succeeds (s.addNewAddresses h true vAddr addrFrom nTimePenalty) fun r =>
      ((∀ service, isDefcoinPreferredPort service.port = true → s.InTried service → r.2.InTried service) ↔
        ∀ service, isDefcoinPreferredPort service.port = true → s.InTried service →
          ∀ addr ∈ vAddr, isDefcoinPreferredPort addr.1.port = true →
            addr.1.toCNetAddr = service.toCNetAddr → addr.1.port = service.port) := by
  apply mono (addNewAddresses_spec hs vAddr addrFrom nTimePenalty)
  intro r hr
  obtain ⟨_, htried⟩ := hr
  apply forall_congr'
  intro service
  apply forall_congr'
  intro hport
  apply forall_congr'
  intro hin
  rw [htried, and_iff_right hin]
  apply forall₂_congr
  intro addr _
  constructor
  · intro hdis hpref ha
    by_contra hne
    exact hdis ⟨hpref, ha, hne⟩
  · intro hsame hdis
    exact hdis.2.2 (hsame hdis.1 hdis.2.1)

/-- One gossiped address takes a verified peer out of the tried table. -/
theorem gossip_displaces_tried : Consistent oneSlot ∅ 0 triedHost ∧
    isDefcoinPreferredPort (peer hostA 1337).port = true ∧ triedHost.InTried (peer hostA 1337).toCService ∧
    Succeeds (triedHost.addNewAddresses oneSlot true
      [(peer hostA 10332, ⟨1700000000, 1700000000, 0⟩)] hostB 0) fun r =>
        ¬r.2.InTried (peer hostA 1337).toCService := by
  have hin : triedHost.InTried (peer hostA 1337).toCService :=
    ⟨0, { peerInfo hostA 1337 0 with fInTried := true }, by decide, rfl, rfl⟩
  refine ⟨consistent_triedHost, by decide, hin, ?_⟩
  apply mono (addNewAddresses_spec consistent_triedHost _ hostB 0)
  intro r hr hstill
  have hkept := ((hr.2 _).mp hstill).2 _ List.mem_cons_self
  exact hkept ⟨by decide, rfl, by decide⟩

/-- The host announces itself with the port it has. -/
theorem gossip_keeps_tried_iff_samePort : Consistent oneSlot ∅ 0 triedHost ∧
    Succeeds (triedHost.addNewAddresses oneSlot true
      [(peer hostA 1337, ⟨1700000000, 1700000000, 0⟩)] hostA 0) fun r =>
        ∀ service, isDefcoinPreferredPort service.port = true → triedHost.InTried service →
          r.2.InTried service := by
  refine ⟨consistent_triedHost, ?_⟩
  apply mono (gossip_keeps_tried_iff oneSlot triedHost consistent_triedHost
    [(peer hostA 1337, ⟨1700000000, 1700000000, 0⟩)] hostA 0)
  intro r hr
  apply hr.mpr
  intro service _ hin addr hm _ haddr
  -- the only entry is the host on this port
  obtain rfl := List.mem_singleton.mp hm
  obtain ⟨_, _, hinfo, -, rfl⟩ := hin
  have hself : triedHost.mapInfo.lookup 0 = some { peerInfo hostA 1337 0 with fInTried := true } := by decide
  obtain ⟨-, rfl⟩ := lookup_unique consistent_triedHost hself hinfo haddr
  rfl

end CAddrMan

end Defcoin.Addrman
