import Oxyra.Lib.MultiIndex

/-!
# Peer lists (`net_peerlist.h`, `net_utils_base.cpp`)

A node remembers the peers it has talked to on its white list and those it has only
heard of on its gray list. Both are containers with one entry an address, in the
order of the time the peer was last seen, and both are bounded: where there are too
many entries those not seen for longest go.

The anchor list plays no part here, and the addresses are those a peer can have:
subnets, which only ban lists hold, are left out.
-/

namespace Oxyra

/-! ## Addresses -/

structure AddressV6 where
  bytes : Vector UInt8 16
  scopeId : UInt32
  deriving DecidableEq

/-- `network_address`. IPv4 addresses are in network byte order, so that the first
octet is the low byte; `i2p_address` has no port of its own. -/
inductive NetworkAddress
  | invalid
  | ipv4 (ip : UInt32) (port : UInt16)
  | ipv6 (ip : AddressV6) (port : UInt16)
  | i2p (host : String)
  | tor (host : String) (port : UInt16)
  deriving DecidableEq

namespace AddressV6

def isV4Mapped (a : AddressV6) : Bool :=
  a.bytes.toList.take 10 = List.replicate 10 0 && a.bytes[10] = 0xff && a.bytes[11] = 0xff

def isLoopback (a : AddressV6) : Bool :=
  a.bytes.toList = List.replicate 15 0 ++ [1]

def isLinkLocal (a : AddressV6) : Bool :=
  a.bytes[0] = 0xfe && a.bytes[1] &&& 0xc0 = 0x80

/-- `make_address_v4_from_v6`, the result in network byte order. -/
def toV4 (a : AddressV6) : UInt32 :=
  a.bytes[12].toUInt32 ||| (a.bytes[13].toUInt32 <<< 8) ||| (a.bytes[14].toUInt32 <<< 16)
    ||| (a.bytes[15].toUInt32 <<< 24)

end AddressV6

def isIpLocal (ip : UInt32) : Bool :=
  if ip ||| 0xffffff00 = 0xffffff0a then true
  else if ip ||| 0xffff0000 = 0xffffa8c0 then true
  else if ip ||| 0xffffff00 = 0xffffffac then
    let secondNum := (ip >>> 8) &&& 0xff
    16 ≤ secondNum && secondNum ≤ 31
  else false

def isIpLoopback (ip : UInt32) : Bool := ip ||| 0xffffff00 = 0xffffff7f

namespace NetworkAddress

/-- `network_address::is_same_host`: the port does not count, and an IPv6 address
that stands for an IPv4 one is taken for it. -/
def isSameHost : NetworkAddress → NetworkAddress → Bool
  | invalid, invalid => true
  | ipv4 a _, ipv4 b _ => a = b
  | ipv6 a _, ipv6 b _ => a = b
  | i2p a, i2p b => a = b
  | tor a _, tor b _ => a = b
  | ipv4 a _, ipv6 b _ => b.isV4Mapped && b.toV4 = a
  | ipv6 a _, ipv4 b _ => a.isV4Mapped && a.toV4 = b
  | _, _ => false

theorem isSameHost_comm (a b : NetworkAddress) : a.isSameHost b = b.isSameHost a := by
  cases a <;> cases b <;> simp [isSameHost, eq_comm]

def isLoopback : NetworkAddress → Bool
  | ipv4 ip _ => isIpLoopback ip
  | ipv6 ip _ => ip.isLoopback
  | _ => false

def isLocal : NetworkAddress → Bool
  | ipv4 ip _ => isIpLocal ip
  | ipv6 ip _ => ip.isLinkLocal
  | _ => false

end NetworkAddress

/-! ## The two lists -/

structure PeerlistEntry where
  adr : NetworkAddress
  id : UInt64
  lastSeen : Int64
  pruningSeed : UInt32
  rpcPort : UInt16
  rpcCreditsPerHash : UInt32
  deriving DecidableEq

/-- `peers_indexed`: one entry an address, in the order of `last_seen`. -/
abbrev PeersIndexed : Type := MultiIndex PeerlistEntry.adr fun e => e.lastSeen.toInt

def whitePeerlistLimit : Nat := 1000

def grayPeerlistLimit : Nat := 5000

structure PeerlistManager where
  allowLocalIp : Bool
  gray : PeersIndexed
  white : PeersIndexed

namespace PeerlistManager

/-- A manager that has not heard of any peer. -/
def init (allowLocalIp : Bool) : PeerlistManager := ⟨allowLocalIp, ∅, ∅⟩

def trimGrayPeerlist (m : PeerlistManager) : PeerlistManager :=
  { m with gray := m.gray.trim grayPeerlistLimit }

def trimWhitePeerlist (m : PeerlistManager) : PeerlistManager :=
  { m with white := m.white.trim whitePeerlistLimit }

def isHostAllowed (m : PeerlistManager) (address : NetworkAddress) : Bool :=
  if address.isLoopback then false
  else if !m.allowLocalIp && address.isLocal then false
  else true

/-- `filter(white, f)`: drops the entries `f` names. The source takes the gray list
where `white` is set and the white list where it is not. -/
def filter (m : PeerlistManager) (white : Bool) (f : PeerlistEntry → Bool) : PeerlistManager :=
  if white then { m with gray := m.gray.filter fun e => !f e }
  else { m with white := m.white.filter fun e => !f e }

def evictHostFromPeerlist (m : PeerlistManager) (useWhite : Bool) (pr : PeerlistEntry) :
    PeerlistManager :=
  m.filter useWhite fun pe => pe.adr.isSameHost pr.adr

/-- What an entry already on a list hands on to the one that replaces it: nodes that
do not pass the pruning seed or the RPC port around do not erase them. -/
def updated (old ple : PeerlistEntry) (trustLastSeen : Bool) : PeerlistEntry :=
  { ple with
    pruningSeed :=
      if old.pruningSeed ≠ 0 ∧ ple.pruningSeed = 0 then old.pruningSeed else ple.pruningSeed
    rpcPort := if old.rpcPort ≠ 0 ∧ ple.rpcPort = 0 then old.rpcPort else ple.rpcPort
    lastSeen := if trustLastSeen then ple.lastSeen else old.lastSeen }

/-- `append_with_peer_white`, up to where the peer is on the white list. -/
def enterWhite (m : PeerlistManager) (ple : PeerlistEntry) (trustLastSeen : Bool) :
    PeerlistManager :=
  match m.white.find? ple.adr with
  | none =>
    let m := m.evictHostFromPeerlist true ple
    { m with white := m.white.insert ple }.trimWhitePeerlist
  | some old => { m with white := m.white.replace (updated old ple trustLastSeen) }

def appendWithPeerWhite (m : PeerlistManager) (ple : PeerlistEntry) (trustLastSeen : Bool) :
    PeerlistManager :=
  if !m.isHostAllowed ple.adr then m
  else
    let m := m.enterWhite ple trustLastSeen
    { m with gray := m.gray.erase ple.adr }

def appendWithPeerGray (m : PeerlistManager) (ple : PeerlistEntry) : PeerlistManager :=
  if !m.isHostAllowed ple.adr then m
  else if (m.white.find? ple.adr).isSome then m
  else
    match m.gray.find? ple.adr with
    | none => { m with gray := m.gray.insert ple }.trimGrayPeerlist
    | some old => { m with gray := m.gray.replace (updated old ple false) }

/-- `set_peer_just_seen`, at the time `now`. -/
def setPeerJustSeen (m : PeerlistManager) (peer : UInt64) (addr : NetworkAddress)
    (pruningSeed : UInt32) (rpcPort : UInt16) (rpcCreditsPerHash : UInt32) (now : Int64) :
    PeerlistManager :=
  m.appendWithPeerWhite ⟨addr, peer, now, pruningSeed, rpcPort, rpcCreditsPerHash⟩ true

/-- `merge_peerlist`; without a filter `f` lets every entry through. -/
def mergePeerlist (m : PeerlistManager) (outerBs : List PeerlistEntry)
    (f : PeerlistEntry → Bool) : PeerlistManager :=
  (outerBs.foldl (fun m be => if f be then m.appendWithPeerGray be else m) m).trimGrayPeerlist

/-! ## Runs -/

/-- The calls that enter peers. -/
inductive Call
  | appendWhite (ple : PeerlistEntry) (trustLastSeen : Bool)
  | appendGray (ple : PeerlistEntry)
  | justSeen (peer : UInt64) (addr : NetworkAddress) (pruningSeed : UInt32) (rpcPort : UInt16)
      (rpcCreditsPerHash : UInt32) (now : Int64)
  | merge (outerBs : List PeerlistEntry) (f : PeerlistEntry → Bool)

/-- The effect of one call. -/
def call (m : PeerlistManager) : Call → PeerlistManager
  | .appendWhite ple trustLastSeen => m.appendWithPeerWhite ple trustLastSeen
  | .appendGray ple => m.appendWithPeerGray ple
  | .justSeen peer addr pruningSeed rpcPort rpcCreditsPerHash now =>
    m.setPeerJustSeen peer addr pruningSeed rpcPort rpcCreditsPerHash now
  | .merge outerBs f => m.mergePeerlist outerBs f

/-- The effect of a sequence of calls. -/
def calls (m : PeerlistManager) (cs : List Call) : PeerlistManager := cs.foldl call m

end PeerlistManager

end Oxyra
