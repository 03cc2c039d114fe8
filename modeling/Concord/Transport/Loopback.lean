import Concord.Transport.Client

/-!
Clients and servers on one host. While the host's loopback interface is down a server can still
listen, but no connection to it comes about.
-/

namespace Concord.Transport

inductive Loopback
  | up
  | down
deriving DecidableEq, Repr

namespace Loopback

def noRoute : String := "Network is unreachable (os error 101)"

/-- Serves clients one after the other. Each brings its bytes and takes the answer, and the first
failed connection ends the run. -/
def serve {σ : Type} (l : Loopback) (handle : σ → Envelope → Option Envelope × σ) (s : σ)
    (connections : List Bytes) : Except String (List Bytes × σ) :=
  if l = .down ∧ connections ≠ [] then .error noRoute
  else .ok (Server.answerAll handle s connections)

def peering (l : Loopback) (p : Peering) : Peering :=
  match l with
  | .up => p
  | .down => .refuses noRoute

end Loopback

end Concord.Transport
