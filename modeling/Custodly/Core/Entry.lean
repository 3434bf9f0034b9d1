import Custodly.Core.Tier

/-! Stored secrets and the key that fetches one (`custodly-core/src/entry.rs`).  Instants
are values of a type with the operations the crates use of `chrono`. -/
namespace Custodly.Core
open Library.Strings

/-- `DateTime<Utc>`: its text forms, its parser and its Unix time. -/
class DateTimeUtc (T : Type) where
  toRfc3339 : T → Text
  parse : Text → Option T
  /-- The `Display` form. -/
  display : T → Text
  /-- `format("%Y%m%dT%H%M%SZ")`. -/
  compact : T → Text
  timestamp : T → Int

/-- RFC 3339 text is never empty, holds no whitespace, and parses back. -/
class LawfulDateTimeUtc (T : Type) [DateTimeUtc T] : Prop where
  parse_toRfc3339 : ∀ t : T, DateTimeUtc.parse (DateTimeUtc.toRfc3339 t) = some t
  toRfc3339_ne_nil : ∀ t : T, DateTimeUtc.toRfc3339 t ≠ []
  toRfc3339_not_whitespace : ∀ t : T, ∀ c ∈ DateTimeUtc.toRfc3339 t, isWhitespace c = false

/-- Two instants an hour apart, with the texts `chrono` gives them. -/
inductive SampleInstant where
  | noon
  | one
  deriving DecidableEq, Repr

instance : DateTimeUtc SampleInstant where
  toRfc3339
    | .noon => "2026-09-24T12:00:00+00:00".toList
    | .one => "2026-09-24T13:00:00+00:00".toList
  parse s :=
    if s = "2026-09-24T12:00:00+00:00".toList then some .noon
    else if s = "2026-09-24T13:00:00+00:00".toList then some .one
    else none
  display
    | .noon => "2026-09-24 12:00:00 UTC".toList
    | .one => "2026-09-24 13:00:00 UTC".toList
  compact
    | .noon => "20260924T120000Z".toList
    | .one => "20260924T130000Z".toList
  timestamp
    | .noon => 1790251200
    | .one => 1790254800

instance : LawfulDateTimeUtc SampleInstant where
  parse_toRfc3339 := by intro t; cases t <;> decide
  toRfc3339_ne_nil := by intro t; cases t <;> decide
  toRfc3339_not_whitespace t := by
    have hall : ((DateTimeUtc.toRfc3339 t).all fun c => !isWhitespace c) = true := by
      cases t <;> decide
    simpa only [List.all_eq_true, Bool.not_eq_true'] using hall

inductive AcquisitionSource where
  | githubAppInstallationToken
  | manualEntry
  | migrated (foundAt : Text)
  deriving DecidableEq, Repr

inductive EntryMetadataError where
  | emptyProject
  | emptySourceDescription
  deriving DecidableEq, Repr

def EntryMetadataError.message : EntryMetadataError → Text
  | .emptyProject =>
      "project must not be empty -- a secret with no project is a liability, not an asset".toList
  | .emptySourceDescription =>
      "source_description must not be empty -- record what this is for and how it was ".toList ++
        "acquired".toList

structure EntryMetadata (T : Type) where
  provider : Text
  project : Text
  sourceDescription : Text
  acquiredVia : AcquisitionSource
  acquiredAt : T
  expiresAt : Option T
  tier : Tier
  deriving DecidableEq

variable {T : Type}

def EntryMetadata.new (provider project sourceDescription : Text)
    (acquiredVia : AcquisitionSource) (acquiredAt : T) (expiresAt : Option T) (tier : Tier) :
    Except EntryMetadataError (EntryMetadata T) :=
  if trim project = [] then .error .emptyProject
  else if trim sourceDescription = [] then .error .emptySourceDescription
  else .ok ⟨provider, project, sourceDescription, acquiredVia, acquiredAt, expiresAt, tier⟩

/-- What makes a stored secret traceable: a project and a description. -/
def EntryMetadata.Traceable (m : EntryMetadata T) : Prop :=
  trim m.project ≠ [] ∧ trim m.sourceDescription ≠ []

theorem EntryMetadata.new_eq_ok_iff {provider project sourceDescription : Text}
    {acquiredVia : AcquisitionSource} {acquiredAt : T} {expiresAt : Option T} {tier : Tier}
    {m : EntryMetadata T} :
    EntryMetadata.new provider project sourceDescription acquiredVia acquiredAt expiresAt tier =
        .ok m ↔
      m = ⟨provider, project, sourceDescription, acquiredVia, acquiredAt, expiresAt, tier⟩ ∧
        m.Traceable := by
  unfold EntryMetadata.new EntryMetadata.Traceable
  by_cases hproject : trim project = []
  · rw [if_pos hproject]
    refine ⟨fun h => (nomatch h), fun ⟨h, hne, _⟩ => ?_⟩
    rw [h] at hne
    exact absurd hproject hne
  · rw [if_neg hproject]
    by_cases hdescription : trim sourceDescription = []
    · rw [if_pos hdescription]
      refine ⟨fun h => (nomatch h), fun ⟨h, _, hne⟩ => ?_⟩
      rw [h] at hne
      exact absurd hdescription hne
    · rw [if_neg hdescription, Except.ok.injEq]
      refine ⟨fun h => ⟨h.symm, ?_⟩, fun ⟨h, _⟩ => h.symm⟩
      rw [← h]
      exact ⟨hproject, hdescription⟩

structure VaultEntry (T : Type) where
  groupPath : Text
  label : Text
  metadata : EntryMetadata T
  secret : Text
  deriving DecidableEq

def VaultEntry.new (label : Text) (metadata : EntryMetadata T) (secret : Text) : VaultEntry T where
  groupPath := metadata.project ++ '/' :: label
  label := label
  metadata := metadata
  secret := secret

structure SecretQuery where
  project : Text
  label : Text
  deriving DecidableEq, Repr

def SecretQuery.groupPath (query : SecretQuery) : Text := query.project ++ '/' :: query.label

def VaultEntry.query (entry : VaultEntry T) : SecretQuery := ⟨entry.metadata.project, entry.label⟩

@[simp] theorem VaultEntry.new_groupPath (label : Text) (metadata : EntryMetadata T)
    (secret : Text) : (VaultEntry.new label metadata secret).groupPath =
      (VaultEntry.new label metadata secret).query.groupPath := rfl

end Custodly.Core
