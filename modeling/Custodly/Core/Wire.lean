import Custodly.Core.Client
import Custodly.Core.EntryJson
import Custodly.Core.Policy

/-! The derived serializers and deserializers of `boundary/v1` and of stored secrets, and what
`policy_handler` answers (`custodly-core/src/contract.rs`, `entry.rs`, `server.rs`).  What one
side writes the other reads, whatever order a JSON object's members come in and whatever else
stands among them. -/
namespace Custodly.Core
open Library Library.Strings

def readBelow (bound : Nat) : Json → Option Nat
  | .number literal =>
      if literal ≠ [] ∧ literal.all Char.isDigit ∧ Nat.ofDigitChars 10 literal 0 < bound then
        some (Nat.ofDigitChars 10 literal 0)
      else none
  | _ => none

def readU8 : Json → Option Nat := readBelow 256

def readU64 : Json → Option Nat := readBelow (2 ^ 64)

def writeNat (n : Nat) : Json := .number (toString n).toList

theorem readBelow_writeNat {bound n : Nat} (h : n < bound) :
    readBelow bound (writeNat n) = some n := by
  have hne : (toString n).toList ≠ [] := by
    rw [toList_toString]
    exact Nat.toDigits_ne_nil
  have hdigits : (toString n).toList.all Char.isDigit :=
    List.all_eq_true.2 fun _ => isDigit_of_mem_digits
  rw [writeNat, readBelow, ofDigitChars_digits, if_pos ⟨hne, hdigits, h⟩]

theorem lt_of_readBelow {bound : Nat} {json : Json} {n : Nat} (h : readBelow bound json = some n) :
    n < bound := by
  unfold readBelow at h
  split at h
  · split at h
    · rename_i hliteral
      cases h
      exact hliteral.2.2
    · cases h
  · cases h

def readArray {A : Type} (read : Json → Option A) : Json → Option (List A)
  | .array elements => elements.mapM read
  | _ => none

theorem readArray_map {A : Type} {read : Json → Option A} {write : A → Json} {items : List A}
    (h : ∀ a ∈ items, read (write a) = some a) :
    readArray read (.array (items.map write)) = some items := by
  rw [readArray]
  induction items with
  | nil => rfl
  | cons a items ih =>
    rw [List.forall_mem_cons] at h
    rw [List.map_cons, List.mapM_cons, h.1, ih h.2]
    rfl

def readTexts : Json → Option (List Text) := readArray Json.text

def writeTexts (texts : List Text) : Json := .array (texts.map .string)

@[simp] theorem readTexts_writeTexts (texts : List Text) :
    readTexts (writeTexts texts) = some texts :=
  readArray_map fun _ _ => rfl

def writeOptional {A : Type} (write : A → Json) (value : Option A) : Json :=
  (value.map write).getD .null

theorem optional_writeOptional {A : Type} {read : Json → Option A} {write : A → Json}
    (hread : ∀ a, read (write a) = some a) (hnull : ∀ a, write a ≠ .null) (value : Option A) :
    Json.optional read (some (writeOptional write value)) = some value := by
  cases value with
  | none => rfl
  | some a =>
    change Json.optional read (some (write a)) = _
    have h := hread a
    cases hjson : write a with
    | null => exact absurd hjson (hnull a)
    | boolean _ => rw [hjson] at h; simp [Json.optional, h]
    | number _ => rw [hjson] at h; simp [Json.optional, h]
    | string _ => rw [hjson] at h; simp [Json.optional, h]
    | array _ => rw [hjson] at h; simp [Json.optional, h]
    | object _ => rw [hjson] at h; simp [Json.optional, h]

def AcquiredVia.ofJson : Json → Option AcquiredVia :=
  readVariant fun variant content =>
    if variant = "track1_api".toList then readUnit .track1Api content
    else if variant = "track2_recipe".toList then readUnit .track2Recipe content
    else none

@[simp] theorem AcquiredVia.ofJson_toJson (via : AcquiredVia) : ofJson via.toJson = some via := by
  cases via <;> rfl

def Tier.toJson : Tier → Json
  | .tier0 => .string "tier0".toList
  | .tier1 => .string "tier1".toList
  | .tier2 => .string "tier2".toList

@[simp] theorem Tier.ofJson_toJson (tier : Tier) : ofJson tier.toJson = some tier := by
  cases tier <;> rfl

def AcquisitionSource.toJson : AcquisitionSource → Json
  | .githubAppInstallationToken => .string "github_app_installation_token".toList
  | .manualEntry => .string "manual_entry".toList
  | .migrated foundAt =>
      .object [("migrated".toList, .object [("found_at".toList, .string foundAt)])]

@[simp] theorem AcquisitionSource.ofJson_toJson (source : AcquisitionSource) :
    ofJson source.toJson = some source := by
  cases source <;> rfl

def SealedSecret.readFields : List (Option Json) → Option SealedSecret
  | [some ephemeralPublicHex, some nonceHex, some ciphertextHex] => do
    some ⟨← ephemeralPublicHex.text, ← nonceHex.text, ← ciphertextHex.text⟩
  | _ => none

def SealedSecret.record : Record SealedSecret where
  names := ["ephemeral_public_hex".toList, "nonce_hex".toList, "ciphertext_hex".toList]
  names_nodup := by decide
  write s := [.string s.ephemeralPublicHex, .string s.nonceHex, .string s.ciphertextHex]
  length_write _ := rfl
  read := SealedSecret.readFields

theorem SealedSecret.roundTrips :
    RoundTrips SealedSecret.toJson SealedSecret.record.ofJson fun _ => True :=
  SealedSecret.record.roundTrips (fun _ _ => rfl) fun _ _ _ => trivial

def SecretQuery.readFields : List (Option Json) → Option SecretQuery
  | [some project, some label] => do some ⟨← project.text, ← label.text⟩
  | _ => none

def SecretQuery.record : Record SecretQuery where
  names := ["project".toList, "label".toList]
  names_nodup := by decide
  write query := [.string query.project, .string query.label]
  length_write _ := rfl
  read := SecretQuery.readFields

theorem SecretQuery.roundTrips :
    RoundTrips SecretQuery.record.toJson SecretQuery.record.ofJson fun _ => True :=
  SecretQuery.record.roundTrips (fun _ _ => rfl) fun _ _ _ => trivial

def PolicyResponse.readFields : List (Option Json) → Option PolicyResponse
  | [some tier, some requires] => do some ⟨← readU8 tier, ← readTexts requires⟩
  | _ => none

def PolicyResponse.record : Record PolicyResponse where
  names := ["tier".toList, "requires".toList]
  names_nodup := by decide
  write response := [writeNat response.tier, writeTexts response.requires]
  length_write _ := rfl
  read := PolicyResponse.readFields

theorem PolicyResponse.readFields_write {response : PolicyResponse} (h : response.tier < 256) :
    PolicyResponse.readFields [some (writeNat response.tier), some (writeTexts response.requires)] =
      some response := by
  simp [PolicyResponse.readFields, readU8, readBelow_writeNat h]

theorem PolicyResponse.roundTrips :
    RoundTrips PolicyResponse.record.toJson PolicyResponse.record.ofJson (·.tier < 256) := by
  refine PolicyResponse.record.roundTrips (fun _ => PolicyResponse.readFields_write) ?_
  intro given response h
  change PolicyResponse.readFields given = some response at h
  unfold PolicyResponse.readFields at h
  split at h
  · simp only [Option.bind_eq_bind, Option.bind_eq_some_iff, Option.some.injEq] at h
    obtain ⟨tier, htier, requires, -, rfl⟩ := h
    exact lt_of_readBelow htier
  · cases h

section Instants

variable {T : Type}

def writeInstant (serialized : T → Text) (t : T) : Json := .string (serialized t)

variable [DateTimeUtc T]

def DepositMetadata.readFields : List (Option Json) → Option (DepositMetadata T)
  | [some project, some provider, some scope, some tier, some acquiredVia, some acquiredAt,
      expiresAt, some label] => do
    let project ← project.text
    let provider ← provider.text
    let scope ← scope.text
    let tier ← readU8 tier
    let acquiredVia ← AcquiredVia.ofJson acquiredVia
    let acquiredAt ← readInstant acquiredAt
    let expiresAt ← Json.optional readInstant expiresAt
    let label ← label.text
    some ⟨project, provider, scope, tier, acquiredVia, acquiredAt, expiresAt, label⟩
  | _ => none

def DepositMetadata.record (serialized : T → Text) : Record (DepositMetadata T) where
  names := ["project".toList, "provider".toList, "scope".toList, "tier".toList,
    "acquired_via".toList, "acquired_at".toList, "expires_at".toList, "label".toList]
  names_nodup := by decide
  write m := [.string m.project, .string m.provider, .string m.scope, writeNat m.tier,
    m.acquiredVia.toJson, writeInstant serialized m.acquiredAt,
    writeOptional (writeInstant serialized) m.expiresAt, .string m.label]
  length_write _ := rfl
  read := DepositMetadata.readFields

def DepositReceipt.readFields : List (Option Json) → Option (DepositReceipt T)
  | [some depositId, some acceptedAt, some contractVersion] => do
    some ⟨← depositId.text, ← readInstant acceptedAt, ← contractVersion.text⟩
  | _ => none

def DepositReceipt.record (serialized : T → Text) : Record (DepositReceipt T) where
  names := ["deposit_id".toList, "accepted_at".toList, "contract_version".toList]
  names_nodup := by decide
  write receipt := [.string receipt.depositId, writeInstant serialized receipt.acceptedAt,
    .string receipt.contractVersion]
  length_write _ := rfl
  read := DepositReceipt.readFields

def EntryMetadata.readFields : List (Option Json) → Option (EntryMetadata T)
  | [some provider, some project, some sourceDescription, some acquiredVia, some acquiredAt,
      expiresAt, some tier] => do
    let provider ← provider.text
    let project ← project.text
    let sourceDescription ← sourceDescription.text
    let acquiredVia ← AcquisitionSource.ofJson acquiredVia
    let acquiredAt ← readInstant acquiredAt
    let expiresAt ← Json.optional readInstant expiresAt
    let tier ← Tier.ofJson tier
    some ⟨provider, project, sourceDescription, acquiredVia, acquiredAt, expiresAt, tier⟩
  | _ => none

def EntryMetadata.record (serialized : T → Text) : Record (EntryMetadata T) where
  names := EntryMetadata.fieldNames
  names_nodup := by decide
  write m := [.string m.provider, .string m.project, .string m.sourceDescription,
    m.acquiredVia.toJson, writeInstant serialized m.acquiredAt,
    writeOptional (writeInstant serialized) m.expiresAt, m.tier.toJson]
  length_write _ := rfl
  read := EntryMetadata.readFields

def VaultEntry.readFields : List (Option Json) → Option (VaultEntry T)
  | [some groupPath, some label, some metadata, some secret] => do
    let groupPath ← groupPath.text
    let label ← label.text
    let metadata ← EntryMetadata.ofJson metadata
    let secret ← secret.text
    some ⟨groupPath, label, metadata, secret⟩
  | _ => none

def VaultEntry.record (serialized : T → Text) : Record (VaultEntry T) where
  names := VaultEntry.fieldNames
  names_nodup := by decide
  write entry := [.string entry.groupPath, .string entry.label,
    (EntryMetadata.record serialized).toJson entry.metadata, .string entry.secret]
  length_write _ := rfl
  read := VaultEntry.readFields

variable {serialized : T → Text}
  (hserialized : ∀ t, DateTimeUtc.parse (serialized t) = some t)
include hserialized

theorem readInstant_writeInstant (t : T) : readInstant (writeInstant serialized t) = some t :=
  hserialized t

theorem optional_writeInstant (value : Option T) : Json.optional readInstant
    (some (writeOptional (writeInstant serialized) value)) = some value :=
  optional_writeOptional (readInstant_writeInstant hserialized) (fun _ h => by cases h) value

theorem DepositMetadata.roundTrips : RoundTrips (DepositMetadata.toJson serialized)
    (DepositMetadata.record serialized).ofJson (·.tier < 256) := by
  refine (DepositMetadata.record serialized).roundTrips ?_ ?_
  · intro m h
    simp [DepositMetadata.record, DepositMetadata.readFields, Json.text, readU8,
      readBelow_writeNat h, readInstant_writeInstant hserialized,
      optional_writeInstant hserialized]
  · intro given m h
    change DepositMetadata.readFields given = some m at h
    unfold DepositMetadata.readFields at h
    split at h
    · simp only [Option.bind_eq_bind, Option.bind_eq_some_iff, Option.some.injEq] at h
      obtain ⟨_, -, _, -, _, -, tier, htier, _, -, _, -, _, -, _, -, rfl⟩ := h
      exact lt_of_readBelow htier
    · cases h

theorem DepositReceipt.roundTrips : RoundTrips (DepositReceipt.record serialized).toJson
    (DepositReceipt.record serialized).ofJson fun _ => True := by
  refine (DepositReceipt.record serialized).roundTrips ?_ fun _ _ _ => trivial
  intro receipt _
  simp [DepositReceipt.record, DepositReceipt.readFields, Json.text,
    readInstant_writeInstant hserialized]

theorem EntryMetadata.roundTrips : RoundTrips (EntryMetadata.record serialized).toJson
    (EntryMetadata.ofJson (T := T)) fun _ => True := by
  refine (EntryMetadata.record serialized).roundTrips ?_ fun _ _ _ => trivial
  intro m _
  simp [EntryMetadata.record, EntryMetadata.readFields, Json.text,
    readInstant_writeInstant hserialized, optional_writeInstant hserialized]

theorem VaultEntry.roundTrips : RoundTrips (VaultEntry.record serialized).toJson
    (VaultEntry.ofJson (T := T)) fun _ => True := by
  refine (VaultEntry.record serialized).roundTrips ?_ fun _ _ _ => trivial
  intro entry _
  have hmetadata : EntryMetadata.ofJson ((EntryMetadata.record serialized).toJson entry.metadata) =
      some entry.metadata :=
    (EntryMetadata.roundTrips hserialized).read_of_shows _ trivial _ Json.shows_self
  simp [VaultEntry.record, VaultEntry.readFields, Json.text, hmetadata]

end Instants

/-- Members stand in the order of their names. -/
def policyHandler (provider scope : Text) : Json :=
  let response := evaluate provider scope
  .object [("contract_version".toList, .string contractVersion),
    ("requires".toList, writeTexts response.requires), ("tier".toList, writeNat response.tier)]

theorem evaluate_tier_lt (provider scope : Text) : (evaluate provider scope).tier < 256 := by
  change (Tier.score (assess provider scope)).asU8 < 256
  cases Tier.score (assess provider scope) <;> decide

theorem policyHandler_read {provider scope : Text} {members : List (Text × Json)}
    (h : (Json.object members).Shows (policyHandler provider scope)) :
    PolicyResponse.record.ofJson (.object members) = some (evaluate provider scope) := by
  have hgives : (policyHandler provider scope).Gives PolicyResponse.record.names
      [some (writeNat (evaluate provider scope).tier),
        some (writeTexts (evaluate provider scope).requires)] :=
    (Json.fields_eq_some_iff PolicyResponse.record.names_nodup rfl).1 rfl
  have hnames : ∀ name ∈ PolicyResponse.record.names,
      name ∈ ["contract_version".toList, "requires".toList, "tier".toList] := by decide
  have hmembers := hgives.of_shows hnames h
  rw [← Json.fields_eq_some_iff PolicyResponse.record.names_nodup rfl] at hmembers
  rw [Record.ofJson, hmembers, Option.bind_some]
  exact PolicyResponse.readFields_write (evaluate_tier_lt provider scope)

/-- Each wire type and each stored type is read back from what it is written as, whatever the
order of its members and whatever else is among them, and `policy()`'s answer is read as what
`evaluate` says. -/
theorem wire_round_trips {T : Type} [DateTimeUtc T] {serialized : T → Text}
    (hserialized : ∀ t, DateTimeUtc.parse (serialized t) = some t) :
    RoundTrips (DepositMetadata.toJson serialized) (DepositMetadata.record serialized).ofJson
        (·.tier < 256) ∧
      RoundTrips SealedSecret.toJson SealedSecret.record.ofJson (fun _ => True) ∧
      RoundTrips (DepositReceipt.record serialized).toJson
        (DepositReceipt.record serialized).ofJson (fun _ => True) ∧
      RoundTrips PolicyResponse.record.toJson PolicyResponse.record.ofJson (·.tier < 256) ∧
      RoundTrips (EntryMetadata.record serialized).toJson (EntryMetadata.ofJson (T := T))
        (fun _ => True) ∧
      RoundTrips (VaultEntry.record serialized).toJson (VaultEntry.ofJson (T := T))
        (fun _ => True) ∧
      RoundTrips SecretQuery.record.toJson SecretQuery.record.ofJson (fun _ => True) ∧
      ∀ provider scope members, (Json.object members).Shows (policyHandler provider scope) →
        PolicyResponse.record.ofJson (.object members) = some (evaluate provider scope) :=
  ⟨DepositMetadata.roundTrips hserialized, SealedSecret.roundTrips,
    DepositReceipt.roundTrips hserialized, PolicyResponse.roundTrips,
    EntryMetadata.roundTrips hserialized, VaultEntry.roundTrips hserialized,
    SecretQuery.roundTrips, fun _ _ _ => policyHandler_read⟩

theorem wire_round_trips_sample :
    (DepositReceipt.record (DateTimeUtc.toRfc3339 (T := SampleInstant))).ofJson
        (.object [("contract_version".toList, .string contractVersion),
          ("note".toList, .null),
          ("accepted_at".toList, .string "2026-09-24T12:00:00+00:00".toList),
          ("deposit_id".toList, .string "d".toList)]) =
      some ⟨"d".toList, .noon, contractVersion⟩ := by
  refine (wire_round_trips (T := SampleInstant)
    LawfulDateTimeUtc.parse_toRfc3339).2.2.1.read_of_shows
      ⟨"d".toList, .noon, contractVersion⟩ trivial _ ?_
  change List.Perm [_, _, _] [_, _, _]
  exact (List.reverse_perm _).symm

end Custodly.Core
