import Concord.Identity

/-!
Which members answered when they were last spoken to. Members start offline. A count of those
online is kept beside the entries.
-/

namespace Concord.Transport

structure Peer where
  member : Member
  online : Bool
  seen : Bool
  /-- The number of failures in a row, which stops at the largest 32-bit number. -/
  failures : Nat
deriving DecidableEq, Inhabited

structure PeerTable where
  peers : List Peer
  onlineCount : Nat
deriving DecidableEq

namespace PeerTable

/-- Keeps the first of the members with the same key. -/
def firstByKey (seen : List PublicKey) : List Member → List Member
  | [] => []
  | m :: rest =>
    if m.key ∈ seen then firstByKey seen rest else m :: firstByKey (m.key :: seen) rest

def ofMembers (members : List Member) : PeerTable :=
  ⟨(firstByKey [] members).map fun m => ⟨m, false, false, 0⟩, 0⟩

def get? (t : PeerTable) (key : PublicKey) : Option Peer :=
  t.peers.find? fun p => p.member.key = key

def isOnline (t : PeerTable) (key : PublicKey) : Bool := (t.get? key).any Peer.online

def change (t : PeerTable) (key : PublicKey) (f : Peer → Peer) : List Peer :=
  t.peers.map fun p => if p.member.key = key then f p else p

def markOnline (t : PeerTable) (key : PublicKey) : PeerTable :=
  match t.get? key with
  | none => t
  | some peer =>
    ⟨t.change key fun p => { p with online := true, seen := true, failures := 0 },
      if peer.online then t.onlineCount else t.onlineCount + 1⟩

def markOffline (t : PeerTable) (key : PublicKey) : PeerTable :=
  match t.get? key with
  | none => t
  | some peer =>
    ⟨t.change key fun p =>
        { p with online := false, failures := min (p.failures + 1) (UInt32.size - 1) },
      if peer.online then t.onlineCount - 1 else t.onlineCount⟩

def members (t : PeerTable) : List Member := t.peers.map Peer.member

def onlineMembers (t : PeerTable) : List Member := (t.peers.filter Peer.online).map Peer.member

def size (t : PeerTable) : Nat := t.peers.length

end PeerTable

end Concord.Transport
