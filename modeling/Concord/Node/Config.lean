import Concord.Settings
import Concord.Toml.Reader
import Concord.Toml.Writer

/-!
What a node is told before it starts, as its configuration file says it: the keys as hexadecimal
text, the spans of time in milliseconds. A key that the file leaves out has a default, and a key
that is not known is passed over.
-/

namespace Concord.Node

open Crypto Toml

inductive LogFormat
  | human
  | json
deriving DecidableEq, Repr, Inhabited

inductive ConfigFault
  | noPrivateKey
  | badPrivateKey (fault : KeyFault)
  | badMemberKey (index : Nat) (fault : KeyFault)
  | unknownLogFormat (text : String)
  | noProbeInterval
  | noBatchItems
deriving DecidableEq

def ConfigFault.message : ConfigFault → String
  | .noPrivateKey => "private_key is not set"
  | .badPrivateKey fault => "private_key: " ++ fault.message
  | .badMemberKey index fault => s!"members[{index}].public_key: {fault.message}"
  | .unknownLogFormat text =>
    "unknown log format " ++ Text.Quoted.text text ++ " (expected \"human\" or \"json\")"
  | .noProbeInterval => "probe_interval_ms must be positive"
  | .noBatchItems => "max_batch_items must be positive"

namespace LogFormat

def text : LogFormat → String
  | human => "human"
  | json => "json"

def ofText (s : String) : Except ConfigFault LogFormat :=
  let lower := s.toLower
  if lower = "human" then .ok human
  else if lower = "json" then .ok json
  else .error (.unknownLogFormat lower)

end LogFormat

structure MemberEntry where
  publicKey : String
  address : String
deriving DecidableEq, Inhabited

structure Config where
  listenAddress : String := "127.0.0.1:7400"
  privateKey : String := ""
  variant : Variant := .basic
  checkInterval : Nat := 500
  timeout : Nat := 5000
  interval : Nat := 100
  probeInterval : Nat := 1000
  maxBatchItems : Nat := 64
  recentCapacity : Nat := 1024
  logFormat : String := "human"
  logLevel : String := "info"
  members : List MemberEntry := []
deriving DecidableEq, Inhabited

namespace Config

/-! ### Reading -/

def valueOr {α : Type} (entries : Entries) (key : String) (default : α)
    (read : Toml.Node → Option α) : Option α :=
  match entries.get? key with
  | some node => read node
  | none => some default

def textOf? : Toml.Node → Option String
  | .text s => some s
  | _ => none

def naturalOf? : Toml.Node → Option Nat
  | .integer i => if 0 ≤ i then some i.toNat else none
  | _ => none

def isVacant : Toml.Node → Bool
  | .array items => items.isEmpty
  | .table _ entries => entries.isEmpty
  | .tables items => items.isEmpty
  | _ => false

/-- A protocol by its exact name, which may also be the only key of a table. -/
def variantOf? (node : Toml.Node) : Option Variant :=
  let named (name : String) : Option Variant :=
    [Variant.basic, .chained].find? fun v => v.text = name
  match node with
  | .text name => named name
  | .table _ [(name, inner)] => if isVacant inner then named name else none
  | _ => none

def memberOfEntries? (entries : Entries) : Option MemberEntry := do
  return ⟨← textOf? (← entries.get? "public_key"), ← textOf? (← entries.get? "address")⟩

/-- A member as a table, or as a list of its key and its address. -/
def memberOf? : Toml.Node → Option MemberEntry
  | .table _ entries => memberOfEntries? entries
  | .array (key :: address :: _) => do return ⟨← textOf? key, ← textOf? address⟩
  | _ => none

def membersOf? : Toml.Node → Option (List MemberEntry)
  | .array items => items.mapM memberOf?
  | .tables items => items.mapM memberOfEntries?
  | _ => none

def ofEntries? (e : Entries) : Option Config := do
  let preset : Config := { }
  return {
    listenAddress := ← valueOr e "listen_addr" preset.listenAddress textOf?
    privateKey := ← valueOr e "private_key" preset.privateKey textOf?
    variant := ← valueOr e "variant" preset.variant variantOf?
    checkInterval := ← valueOr e "member_check_interval_ms" preset.checkInterval naturalOf?
    timeout := ← valueOr e "consensus_timeout_ms" preset.timeout naturalOf?
    interval := ← valueOr e "consensus_interval_ms" preset.interval naturalOf?
    probeInterval := ← valueOr e "probe_interval_ms" preset.probeInterval naturalOf?
    maxBatchItems := ← valueOr e "max_batch_items" preset.maxBatchItems naturalOf?
    recentCapacity := ← valueOr e "recent_capacity" preset.recentCapacity naturalOf?
    logFormat := ← valueOr e "log_format" preset.logFormat textOf?
    logLevel := ← valueOr e "log_level" preset.logLevel textOf?
    members := ← valueOr e "members" preset.members membersOf? }

def ofToml? (text : String) : Option Config := do ofEntries? (← Toml.read? text)

/-! ### Writing -/

def line (key value : String) : String := key ++ " = " ++ value ++ "\n"

def memberText (m : MemberEntry) : String :=
  "\n[[members]]\n" ++ line "public_key" (Write.text m.publicKey) ++
    line "address" (Write.text m.address)

def toToml (c : Config) : String :=
  String.join [
    line "listen_addr" (Write.text c.listenAddress),
    line "private_key" (Write.text c.privateKey),
    line "variant" (Write.text c.variant.text),
    line "member_check_interval_ms" (toString c.checkInterval),
    line "consensus_timeout_ms" (toString c.timeout),
    line "consensus_interval_ms" (toString c.interval),
    line "probe_interval_ms" (toString c.probeInterval),
    line "max_batch_items" (toString c.maxBatchItems),
    line "recent_capacity" (toString c.recentCapacity),
    line "log_format" (Write.text c.logFormat),
    line "log_level" (Write.text c.logLevel),
    if c.members = [] then line "members" "[]" else String.join (c.members.map memberText)]

/-! ### Meaning -/

def keypair (c : Config) : Except ConfigFault Ed25519.Keypair :=
  if c.privateKey = "" then .error .noPrivateKey
  else match keypairOfText c.privateKey with
    | .ok pair => .ok pair
    | .error fault => .error (.badPrivateKey fault)

def memberListFrom (scheme : Scheme) (index : Nat) :
    List MemberEntry → Except ConfigFault (List Member)
  | [] => .ok []
  | m :: rest =>
    match scheme.keyOfText m.publicKey with
    | .error fault => .error (.badMemberKey index fault)
    | .ok key => (memberListFrom scheme (index + 1) rest).map (⟨key, m.address⟩ :: ·)

def memberList (c : Config) (scheme : Scheme) : Except ConfigFault (List Member) :=
  memberListFrom scheme 0 c.members

def parsedLogFormat (c : Config) : Except ConfigFault LogFormat := LogFormat.ofText c.logFormat

def settings (c : Config) (scheme : Scheme) : Except ConfigFault Settings :=
  if c.probeInterval = 0 then .error .noProbeInterval
  else if c.maxBatchItems = 0 then .error .noBatchItems
  else (c.memberList scheme).map fun members =>
    ⟨members, c.variant, c.checkInterval, c.timeout, c.interval⟩

end Config

end Concord.Node
