import Concord.Batch
import Concord.Core.Step
import Concord.Node.Config
import Concord.Transport.Client

/-!
A member's process: a core that orders batches of submitted items, the members that it can reach,
and the counts that it reports. A node starts from its configuration, takes in messages and items,
and stops.
-/

namespace Concord

open Concord.Core Crypto

inductive Node.Fault
  | config (fault : ConfigFault)
  | core (fault : Core.Fault)
deriving DecidableEq

def Node.Fault.message : Node.Fault → String
  | .config fault => "config error: " ++ fault.message
  | .core fault => "consensus error: " ++ fault.message

def Node.Fault.kind : Node.Fault → String
  | .config _ => "Config"
  | .core fault => "Consensus." ++ fault.kind

structure Node where
  config : Node.Config
  context : Core.Context BatchQueue
  machine : Core.Machine config.variant BatchQueue
  client : Transport.Client
  /-- The effects that nobody has performed yet, in order. -/
  effects : List Core.Effect

namespace Node

/-- Checks the configuration, then the key pair, then what the core asks of its settings. -/
def start (scheme : Scheme) (config : Config) : Except Fault Node :=
  match config.settings scheme with
  | .error fault => .error (.config fault)
  | .ok settings =>
    match config.keypair with
    | .error fault => .error (.config fault)
    | .ok pair =>
      match Context.ofSettings scheme (.ofKeypair pair) BatchQueue.application settings with
      | .error fault => .error (.core (.settings fault))
      | .ok context =>
        let queue := BatchQueue.initial config.maxBatchItems config.recentCapacity
          (some Metrics.initial)
        .ok
          { config := config
            context := context
            machine := Machine.initial scheme config.variant queue
            client := Transport.Client.initial pair.key settings.members
            effects := [] }

def queue (n : Node) : BatchQueue := n.machine.app

def metrics (n : Node) : Metrics := n.queue.metrics.getD Metrics.initial

def onQueue (n : Node) (f : BatchQueue → BatchQueue) : Node :=
  { n with machine := { n.machine with app := f n.machine.app } }

def count (n : Node) (f : Metrics → Metrics) : Node := n.onQueue fun q => q.count f

def input (n : Node) (i : Input) : Except Core.Fault Unit × Node :=
  let outcome := n.machine.step n.context i
  (outcome.result, { n with machine := outcome.machine, effects := n.effects ++ outcome.effects })

/-- Feeds a message to the core and returns no message. A core that is not running is no error. -/
def handle (n : Node) (envelope : Envelope) : Option Envelope × Node :=
  let (result, n) := (n.count fun m => { m with received := m.received + 1 }).input (.feed envelope)
  match result with
  | .ok () | .error .notRunning => (none, n)
  | .error _ => (none, n.count fun m => { m with rejected := m.rejected + 1 })

def submit (n : Node) (item : Bytes) : Node := n.onQueue fun q => q.submit item

def onlinePeers (n : Node) : Nat := n.client.peers.onlineCount

def refresh (n : Node) : Node :=
  n.count fun m =>
    { m with
      currentView := Int64.ofNat n.machine.state.view.toNat
      peersOnline := Int64.ofNat n.onlinePeers }

def stop (n : Node) : Node := (n.input .shutdown).2.refresh

end Node

end Concord
