import LockScript.Address.Bech32
import LockScript.Digest.Sha256

/-!
Networks, and the addresses of scripts on them.
-/

namespace LockScript

/-- A network that addresses belong to. -/
inductive Network where
  | main
  | test
  | regression
  | simulation
  deriving DecidableEq, Repr

namespace Network

/-- The name of a network. -/
def name : Network → String
  | .main => "mainnet"
  | .test => "testnet3"
  | .regression => "regtest"
  | .simulation => "simnet"

/-- What addresses of a network begin with. -/
def addressStart : Network → String
  | .main => "bc"
  | .test => "tb"
  | .regression => "bcrt"
  | .simulation => "sb"

/-- The version of addresses that commit to a script by its hash. -/
def witnessVersion : UInt8 := 0

/-- The address of a script. -/
def scriptAddress (n : Network) (script : Bytes) : String :=
  Bech32.encode n.addressStart
    (witnessVersion :: Bech32.groups ((Sha256.hash script).bytes.flatMap Bech32.bits))

end Network

end LockScript
