import Custodly.Host

/-! The caller of Ferryman's `boundary/v1` routes (`custodly-core/src/client.rs`): one
request each, and what becomes of its reply. -/
namespace Custodly.Core
open Library Library.Strings Host

inductive ClientError where
  | requestingKey (url cause : Text)
  | keyStatus (url : Text) (status : Nat)
  | parsingKey (cause : Text)
  | contractVersion (answered : Text)
  | depositing (url cause : Text)
  | depositStatus (url : Text) (status : Nat) (body : Text)
  | parsingReceipt (cause : Text)
  deriving DecidableEq, Repr

/-- The outermost text of the error chain; `statusText` is the `Display` form of a status
code and `debug` the `Debug` form of a string. -/
def ClientError.message (statusText : Nat → Text) (debug : Text → Text) : ClientError → Text
  | .requestingKey url _ => "requesting ingestion key from ".toList ++ url
  | .keyStatus url status =>
      "ingestion key request to ".toList ++ url ++ " failed: ".toList ++ statusText status
  | .parsingKey _ => "parsing ingestion key response".toList
  | .contractVersion answered =>
      "Ferryman answered with contract version ".toList ++ debug answered ++
        ", expected ".toList ++ debug Core.contractVersion
  | .depositing url _ => "depositing with ".toList ++ url
  | .depositStatus url status body =>
      "deposit to ".toList ++ url ++ " failed: ".toList ++ statusText status ++
        ": ".toList ++ body
  | .parsingReceipt _ => "parsing deposit receipt".toList

def boundaryUrl (baseUrl project route : Text) : Text :=
  baseUrl ++ "/v1/projects/".toList ++ project ++ "/boundary/".toList ++ route

def ingestionKeyUrl (baseUrl project : Text) : Text :=
  boundaryUrl baseUrl project "ingestion-key".toList

def depositUrl (baseUrl project : Text) : Text := boundaryUrl baseUrl project "deposit".toList

def readIngestionKey (url : Text) : HttpReply IngestionKeyBody → Except ClientError Text
  | .error cause => .error (.requestingKey url cause)
  | .ok response =>
      if response.isSuccess then
        match response.json with
        | .error cause => .error (.parsingKey cause)
        | .ok body =>
            if body.contractVersion = contractVersion then .ok body.publicKeyHex
            else .error (.contractVersion body.contractVersion)
      else .error (.keyStatus url response.status)

variable {T : Type}

def fetchIngestionKey (baseUrl project token : Text) : Action T ClientError Text := do
  let url := ingestionKeyUrl baseUrl project
  let reply ← call (.ingestionKey ⟨url, token⟩)
  attempt (readIngestionKey url reply)

/-- What `deposit` makes of the reply: the version in the receipt is not looked at. -/
def readReceipt (url : Text) : HttpReply (DepositReceipt T) → Except ClientError (DepositReceipt T)
  | .error cause => .error (.depositing url cause)
  | .ok response =>
      if response.isSuccess then response.json.mapError .parsingReceipt
      else .error (.depositStatus url response.status response.textOrDefault)

def depositPayload (serialized : T → Text) (request : DepositRequest T) : Json :=
  .object [("deposit_id".toList, .string request.depositId),
    ("sealed_secret".toList, request.sealedSecret.toJson),
    ("metadata".toList, request.metadata.toJson serialized)]

def deposit (baseUrl project token depositId : Text) (sealedSecret : SealedSecret)
    (metadata : DepositMetadata T) : Action T ClientError (DepositReceipt T) := do
  let url := depositUrl baseUrl project
  let reply ← call (.deposit ⟨url, token, depositId, sealedSecret, metadata⟩)
  attempt (readReceipt url reply)

theorem readIngestionKey_eq_ok_iff {url publicKeyHex : Text} {reply : HttpReply IngestionKeyBody} :
    readIngestionKey url reply = .ok publicKeyHex ↔
      ∃ response, reply = .ok response ∧ response.isSuccess ∧
        response.json = .ok ⟨publicKeyHex, contractVersion⟩ := by
  unfold readIngestionKey
  cases reply with
  | error cause => simp
  | ok response =>
    by_cases hsuccess : response.isSuccess
    · cases hjson : response.json with
      | error cause => simp [hsuccess, hjson]
      | ok body =>
        obtain ⟨key, version⟩ := body
        by_cases hversion : version = contractVersion <;>
          simp [hsuccess, hjson, hversion]
    · simp [hsuccess]

theorem readReceipt_eq_ok_iff {url : Text} {reply : HttpReply (DepositReceipt T)}
    {receipt : DepositReceipt T} :
    readReceipt url reply = .ok receipt ↔
      ∃ response, reply = .ok response ∧ response.isSuccess ∧ response.json = .ok receipt := by
  unfold readReceipt
  cases reply with
  | error cause => simp
  | ok response =>
    by_cases hsuccess : response.isSuccess
    · cases hjson : response.json <;> simp [hsuccess, hjson, Except.mapError]
    · simp [hsuccess]

end Custodly.Core
