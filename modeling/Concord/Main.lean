import Concord.Node

/-!
The command line. `check` tells whether a node would start from a configuration file, and `keygen`
prints a fresh key pair in the form of such a file.
-/

namespace Concord.Main

open Crypto

inductive Command
  | check (path : String)
  | keygen (address : String)
deriving DecidableEq

def Command.ofArguments? : List String → Option Command
  | ["check", "--config", path] => some (.check path)
  | ["keygen"] => some (.keygen ({ : Node.Config }).listenAddress)
  | ["keygen", "--address", address] => some (.keygen address)
  | _ => none

def usage : String := "usage: check --config PATH | keygen [--address ADDRESS]"

def report (text : String) : Except String String :=
  match Node.Config.ofToml? text with
  | none => .error "not a configuration"
  | some config =>
    match config.parsedLogFormat, Node.start Scheme.standard config with
    | .error fault, _ => .error (Node.Fault.config fault).message
    | .ok _, .error fault => .error fault.message
    | .ok _, .ok node =>
      let size := node.context.committee.size
      let me := node.context.me.brief
      .ok s!"member {me} of {size}, {config.variant.text}, on {config.listenAddress}"

def keyText (pair : Ed25519.Keypair) (address : String) : String :=
  "# keep private_key secret; share the [[members]] entry\n" ++
    Node.Config.line "private_key" (Toml.Write.text pair.seed.hex) ++
    Node.Config.memberText ⟨pair.key.hex, address⟩

def run (arguments : List String) : IO UInt32 := do
  match Command.ofArguments? arguments with
  | some (.check path) =>
    match report (← IO.FS.readFile path) with
    | .ok text =>
      IO.println text
      return 0
    | .error message =>
      IO.eprintln message
      return 1
  | some (.keygen address) =>
    match FixedBytes.ofBytes? 32 (← IO.getRandomBytes 32).toList with
    | some seed =>
      IO.print (keyText (Ed25519.Keypair.ofSeed seed) address)
      return 0
    | none =>
      IO.eprintln "no random bytes"
      return 1
  | none =>
    IO.eprintln usage
    return 1

end Concord.Main

def main (arguments : List String) : IO UInt32 := Concord.Main.run arguments
