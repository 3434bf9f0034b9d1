import Custodly.Core.Entry
import Custodly.Library.Json

/-! The `boundary/v1` wire types a deposit uses (`custodly-core/src/contract.rs`). -/
namespace Custodly.Core
open Library Library.Strings

def contractVersion : Text := "boundary/v1".toList

inductive ContractError where
  | unsupportedVersion (expected got : Text)
  deriving DecidableEq, Repr

/-- `debug` is the `Debug` form of a string. -/
def ContractError.message (debug : Text → Text) : ContractError → Text
  | .unsupportedVersion expected got =>
      "unsupported contract version ".toList ++ debug got ++ ", expected ".toList ++ debug expected

def checkVersion (received : Text) : Except ContractError Unit :=
  if received = contractVersion then .ok ()
  else .error (.unsupportedVersion contractVersion received)

theorem checkVersion_eq_ok_iff {received : Text} :
    checkVersion received = .ok () ↔ received = contractVersion := by
  unfold checkVersion
  by_cases h : received = contractVersion
  · simp [h]
  · simp [h]

inductive AcquiredVia where
  | track1Api
  | track2Recipe
  deriving DecidableEq, Repr

def AcquiredVia.toJson : AcquiredVia → Json
  | .track1Api => .string "track1_api".toList
  | .track2Recipe => .string "track2_recipe".toList

structure DepositMetadata (T : Type) where
  project : Text
  provider : Text
  scope : Text
  tier : Nat
  acquiredVia : AcquiredVia
  acquiredAt : T
  expiresAt : Option T
  label : Text
  deriving DecidableEq

def DepositMetadata.toJson {T : Type} (serialized : T → Text) (m : DepositMetadata T) : Json :=
  .object [("project".toList, .string m.project), ("provider".toList, .string m.provider),
    ("scope".toList, .string m.scope), ("tier".toList, .number (toString m.tier).toList),
    ("acquired_via".toList, m.acquiredVia.toJson),
    ("acquired_at".toList, .string (serialized m.acquiredAt)),
    ("expires_at".toList, (m.expiresAt.map fun t => .string (serialized t)).getD .null),
    ("label".toList, .string m.label)]

structure SealedSecret where
  ephemeralPublicHex : Text
  nonceHex : Text
  ciphertextHex : Text
  deriving DecidableEq, Repr

def SealedSecret.toJson (s : SealedSecret) : Json :=
  .object [("ephemeral_public_hex".toList, .string s.ephemeralPublicHex),
    ("nonce_hex".toList, .string s.nonceHex), ("ciphertext_hex".toList, .string s.ciphertextHex)]

structure DepositReceipt (T : Type) where
  depositId : Text
  acceptedAt : T
  contractVersion : Text
  deriving DecidableEq

end Custodly.Core
