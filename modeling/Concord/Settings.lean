import Concord.Crypto.Scheme
import Concord.Text.Duration

/-!
The settings of a core: the members, the protocol and its timing. Spans of time are whole
milliseconds.
-/

namespace Concord

open Crypto

inductive Variant
  | basic
  | chained
deriving DecidableEq, Repr, Inhabited

inductive SettingsFault
  | tooFewMembers (count : Nat)
  | duplicateMember (key : PublicKey)
  | noAddress (key : PublicKey)
  | outsider (key : PublicKey)
  | noTimeout
  | noCheckInterval
  | intervalTooLong (interval timeout : Nat)
  | noMembers
  | badMemberKey (key : PublicKey) (fault : KeyFault)
  | unknownVariant (text : String)
deriving DecidableEq

def minMembers : Nat := 4

def SettingsFault.message : SettingsFault → String
  | .tooFewMembers count => s!"need at least {minMembers} members, got {count}"
  | .duplicateMember key => s!"duplicate member {key.hex}"
  | .noAddress key => s!"member {key.hex} has no address"
  | .outsider key => s!"local key {key.hex} is not a member"
  | .noTimeout => "consensus timeout must be non-zero"
  | .noCheckInterval => "member check interval must be non-zero"
  | .intervalTooLong interval timeout =>
    let shorter := Text.Duration.text interval
    let longer := Text.Duration.text timeout
    s!"consensus interval {shorter} must be shorter than the timeout {longer}"
  | .noMembers => "member list is empty"
  | .badMemberKey key fault => s!"member {key.hex}: {fault.message}"
  | .unknownVariant text => "unknown variant " ++ Text.Quoted.text text

namespace Variant

def text : Variant → String
  | basic => "basic"
  | chained => "chained"

def ofText (s : String) : Except SettingsFault Variant :=
  let lower := s.toLower
  if lower = "basic" then .ok basic
  else if lower = "chained" then .ok chained
  else .error (.unknownVariant lower)

end Variant

structure Settings where
  members : List Member
  variant : Variant
  checkInterval : Nat := 500
  timeout : Nat := 5000
  interval : Nat := 100
deriving DecidableEq

namespace Settings

def memberFault? (seen : List PublicKey) : List Member → Option SettingsFault
  | [] => none
  | m :: rest =>
    if m.key ∈ seen then some (.duplicateMember m.key)
    else if m.address = "" then some (.noAddress m.key)
    else memberFault? (m.key :: seen) rest

def check (s : Settings) (key : PublicKey) : Except SettingsFault Unit :=
  if s.members.length < minMembers then .error (.tooFewMembers s.members.length)
  else match memberFault? [] s.members with
    | some fault => .error fault
    | none =>
      if ¬ s.members.any (fun m => m.key = key) then .error (.outsider key)
      else if s.timeout = 0 then .error .noTimeout
      else if s.checkInterval = 0 then .error .noCheckInterval
      else if s.timeout ≤ s.interval then .error (.intervalTooLong s.interval s.timeout)
      else .ok ()

end Settings

end Concord
