import Custodly.Cli.Command

/-! The two keys a command works with: the App's private key, which it reads from standard
input, and the vault's password, which the keystore holds or which is made up.  Two runs of
a command with other keys are told apart by nothing but the signature on the request to
GitHub, the password as a line for the child, and the password as it is stored. -/
namespace Custodly.Cli
open Library.Strings Library.Interaction Library.Lockstep Custodly.Core Github Host Vault

variable {T EncodingKey Key Cipher : Type}

section Parts

variable {privateKeys passwords : Text → Text → Prop} {ε α : Type}

variable (hgenerated : ∀ password password', Generated generatedLen password →
  Generated generatedLen password' → passwords password password')
include hgenerated

variable [DateTimeUtc T]

end Parts

section Commands

variable [DateTimeUtc T] {jwt : Jwt EncodingKey} {crypto : Crypto Key Cipher}
  {passwords : Text → Text → Prop}

variable (hgenerated : ∀ password password', Generated generatedLen password →
  Generated generatedLen password' → passwords password password')
include hgenerated

end Commands

end Custodly.Cli
