import Concord.Transport.PeerTable
import Concord.Transport.Server

/-!
The asking side of an exchange. Each exchange has a connection of its own, and tells whether the
member asked is online.
-/

namespace Concord.Transport

inductive Peering
  | refuses (reason : String)
  | answers (b : Bytes)

structure Client where
  me : PublicKey
  peers : PeerTable

namespace Client

def initial (me : PublicKey) (members : List Member) : Client := ⟨me, PeerTable.ofMembers members⟩

def converse (member : Member) (body : Bytes) : Peering → Except Fault Bytes × Option Bytes
  | .refuses reason => (.error (.unreachable member.address reason), none)
  | .answers b =>
    match Frame.write body with
    | .error fault => (.error fault, none)
    | .ok _ =>
      match Frame.read b with
      | .ok (reply, _) => (.ok reply, some body)
      | .error fault => (.error fault, some body)

def exchange (c : Client) (member : Member) (body : Bytes) (peering : Peering) :
    Except Fault Bytes × Option Bytes × Client :=
  let (result, heard) := converse member body peering
  let peers := match result with
    | .ok _ => c.peers.markOnline member.key
    | .error _ => c.peers.markOffline member.key
  (result, heard, { c with peers := peers })

def send (c : Client) (member : Member) (envelope : Envelope) (peering : Peering) :
    Except Fault (Option Envelope) × Option Bytes × Client :=
  if (c.peers.get? member.key).isNone then (.error (.unknownMember member.key), none, c)
  else
    let (result, heard, c) := c.exchange member envelope.toBytes peering
    let reply := match result with
      | .error fault => .error fault
      | .ok b =>
        match Server.replyCodec.read b with
        | .ok reply => .ok reply
        | .error fault => .error (.badReply fault)
    (reply, heard, c)

def targets (c : Client) : List Member := c.peers.members.filter fun m => m.key ≠ c.me

/-- Probes each of some members. Returns what each of them has read. -/
def probe (c : Client) : List (Member × Peering) → List (Option Bytes) × Client
  | [] => ([], c)
  | (member, peering) :: rest =>
    let (_, heard, c) := c.exchange member [] peering
    let (others, c) := probe c rest
    (heard :: others, c)

def isOnline (c : Client) (member : Member) : Bool :=
  member.key = c.me || c.peers.isOnline member.key

def linked (c : Client) : List Member := c.peers.onlineMembers.filter fun m => m.key ≠ c.me

end Client

end Concord.Transport
