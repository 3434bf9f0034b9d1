import Custodly.Core.Entry
import Custodly.Library.Json

/-! The derived deserializers of stored secrets (`custodly-core/src/entry.rs`, `tier.rs`).  They
fill every field from the JSON; none of the constructors is called. -/
namespace Custodly.Core
open Library Library.Strings

variable {T : Type}

def readVariant {A : Type} (read : (variant : Text) → (content : Option Json) → Option A) :
    Json → Option A
  | .string variant => read variant none
  | .object [(variant, content)] => read variant (some content)
  | _ => none

/-- A variant without content is written alone or with null. -/
def readUnit {A : Type} (value : A) : Option Json → Option A
  | none | some .null => some value
  | some _ => none

def Tier.ofJson : Json → Option Tier :=
  readVariant fun variant content =>
    if variant = "tier0".toList then readUnit .tier0 content
    else if variant = "tier1".toList then readUnit .tier1 content
    else if variant = "tier2".toList then readUnit .tier2 content
    else none

def AcquisitionSource.ofJson : Json → Option AcquisitionSource :=
  readVariant fun variant content =>
    if variant = "github_app_installation_token".toList then
      readUnit .githubAppInstallationToken content
    else if variant = "manual_entry".toList then readUnit .manualEntry content
    else if variant = "migrated".toList then do
      match ← (← content).fields ["found_at".toList] with
      | [some foundAt] => foundAt.text.map .migrated
      | _ => none
    else none

def EntryMetadata.fieldNames : List Text :=
  ["provider".toList, "project".toList, "source_description".toList, "acquired_via".toList,
    "acquired_at".toList, "expires_at".toList, "tier".toList]

def VaultEntry.fieldNames : List Text :=
  ["group_path".toList, "label".toList, "metadata".toList, "secret".toList]

variable [DateTimeUtc T]

def readInstant (json : Json) : Option T := json.text.bind DateTimeUtc.parse

def EntryMetadata.ofJson (json : Json) : Option (EntryMetadata T) := do
  match ← json.fields EntryMetadata.fieldNames with
  | [some provider, some project, some sourceDescription, some acquiredVia, some acquiredAt,
      expiresAt, some tier] =>
    let provider ← provider.text
    let project ← project.text
    let sourceDescription ← sourceDescription.text
    let acquiredVia ← AcquisitionSource.ofJson acquiredVia
    let acquiredAt ← readInstant acquiredAt
    let expiresAt ← Json.optional readInstant expiresAt
    let tier ← Tier.ofJson tier
    some ⟨provider, project, sourceDescription, acquiredVia, acquiredAt, expiresAt, tier⟩
  | _ => none

def VaultEntry.ofJson (json : Json) : Option (VaultEntry T) := do
  match ← json.fields VaultEntry.fieldNames with
  | [some groupPath, some label, some metadata, some secret] =>
    let groupPath ← groupPath.text
    let label ← label.text
    let metadata ← EntryMetadata.ofJson metadata
    let secret ← secret.text
    some ⟨groupPath, label, metadata, secret⟩
  | _ => none

theorem EntryMetadata.fields_of_ofJson {json : Json} {m : EntryMetadata T}
    (h : EntryMetadata.ofJson json = some m) : ∃ acquiredVia acquiredAt expiresAt tier,
      json.fields EntryMetadata.fieldNames = some [some (.string m.provider),
        some (.string m.project), some (.string m.sourceDescription), some acquiredVia,
        some acquiredAt, expiresAt, some tier] := by
  unfold EntryMetadata.ofJson at h
  rw [Option.bind_eq_bind, Option.bind_eq_some_iff] at h
  obtain ⟨fields, hfields, hread⟩ := h
  split at hread
  · simp only [Option.bind_eq_bind, Option.bind_eq_some_iff, Json.text_eq_some_iff] at hread
    obtain ⟨provider, rfl, project, rfl, description, rfl, _, -, _, -, _, -, _, -, hm⟩ := hread
    cases hm
    exact ⟨_, _, _, _, hfields⟩
  · cases hread

theorem VaultEntry.fields_of_ofJson {json : Json} {entry : VaultEntry T}
    (h : VaultEntry.ofJson json = some entry) : ∃ metadata,
      json.fields VaultEntry.fieldNames = some [some (.string entry.groupPath),
        some (.string entry.label), some metadata, some (.string entry.secret)] ∧
      EntryMetadata.ofJson metadata = some entry.metadata := by
  unfold VaultEntry.ofJson at h
  rw [Option.bind_eq_bind, Option.bind_eq_some_iff] at h
  obtain ⟨fields, hfields, hread⟩ := h
  split at hread
  · simp only [Option.bind_eq_bind, Option.bind_eq_some_iff, Json.text_eq_some_iff] at hread
    obtain ⟨groupPath, rfl, label, rfl, metadata, hmetadata, secret, rfl, hentry⟩ := hread
    cases hentry
    exact ⟨_, hfields, hmetadata⟩
  · cases hread

end Custodly.Core
