import Concord.Message.Body

/-!
The messages that a core has logged and not yet used. Only the first message of a signer for a view
and phase is kept, by an index of the keys seen.
-/

namespace Concord.Core

structure LogKey where
  signer : PublicKey
  view : View
  phase : Phase
deriving DecidableEq

def LogKey.of (m : SignedBody) : LogKey := ⟨m.signer, m.view, m.phase⟩

structure MessageLog where
  entries : List SignedBody
  seen : List LogKey
deriving DecidableEq

namespace MessageLog

def empty : MessageLog := ⟨[], []⟩

instance : Inhabited MessageLog := ⟨empty⟩

def size (log : MessageLog) : Nat := log.entries.length

def isEmpty (log : MessageLog) : Bool := log.entries.isEmpty

def accepts (log : MessageLog) (m : SignedBody) : Bool := !log.seen.contains (LogKey.of m)

/-- Appends a message, unless one with its key is in the log. -/
def insert (log : MessageLog) (m : SignedBody) : MessageLog :=
  if log.accepts m then ⟨log.entries ++ [m], LogKey.of m :: log.seen⟩ else log

def retainFrom (log : MessageLog) (view : View) : MessageLog :=
  ⟨log.entries.filter fun m => view ≤ m.view, log.seen.filter fun k => view ≤ k.view⟩

def removeView (log : MessageLog) (view : View) : MessageLog :=
  ⟨log.entries.filter fun m => m.view ≠ view, log.seen.filter fun k => k.view ≠ view⟩

def forView (log : MessageLog) (view : View) : List SignedBody :=
  log.entries.filter fun m => m.view = view

def matching (log : MessageLog) (view : View) (phase : Phase) (accept : SignedBody → Bool) :
    List SignedBody :=
  log.entries.filter fun m => m.view = view && m.phase = phase && accept m

def containsSigner (log : MessageLog) (view : View) (signer : PublicKey) : Bool :=
  log.entries.any fun m => m.view = view && m.signer = signer

end MessageLog

end Concord.Core
