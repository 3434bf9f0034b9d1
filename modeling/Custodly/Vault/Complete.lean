import Custodly.Vault.Notes

/-! How complete a record the Notes decoder asks for (`custodly-vault/src/vault.rs`).  It
refuses a block in which any key but `expires_at` has no line or an invalid last line; an
expiry that does not parse is read as no expiry. -/
namespace Custodly.Vault
open Library.Strings Library.KeyValue Custodly.Core

variable {T : Type} [DateTimeUtc T]

/-- The valid reading of an expiry: only an empty value says that there is none. -/
def readExpiry (value : Text) : Option (Option T) :=
  if value = [] then some none else (DateTimeUtc.parse value).map some

theorem readExpiry_eq_some {value : Text} (h : (readExpiry value : Option (Option T)).isSome) :
    readExpiry value = some (((some value).filter (· ≠ [])).bind DateTimeUtc.parse : Option T) := by
  unfold readExpiry at h ⊢
  by_cases hempty : value = []
  · simp [hempty, Option.filter_some]
  · rw [if_neg hempty, Option.isSome_map, Option.isSome_iff_exists] at h
    obtain ⟨t, ht⟩ := h
    simp [hempty, ht, Option.filter_some]

def LastReads {A : Type} (notes : Text) (key : NotesKey) (read : Text → Option A) (a : A) : Prop :=
  ∃ value, LastBinds (lines notes) key.name value ∧ read value = some a

/-- A complete record: every field is the valid reading of the last line with its key. -/
structure Complete (notes : Text) (m : EntryMetadata T) : Prop where
  provider : LastReads notes .provider some m.provider
  project : LastReads notes .project some m.project
  sourceDescription : LastReads notes .sourceDescription some m.sourceDescription
  acquiredVia : LastReads notes .acquiredVia readSource m.acquiredVia
  acquiredAt : LastReads notes .acquiredAt DateTimeUtc.parse m.acquiredAt
  expiresAt : LastReads notes .expiresAt readExpiry m.expiresAt
  tier : LastReads notes .tier readTier m.tier
  traceable : m.Traceable

variable (T) in
def Accepts : NotesKey → Text → Prop
  | .provider, _ => True
  | .project, value | .sourceDescription, value => trim value ≠ []
  | .acquiredVia, value => (readSource value).isSome
  | .acquiredAt, value => (DateTimeUtc.parse value : Option T).isSome
  | .expiresAt, value => (readExpiry value : Option (Option T)).isSome
  | .tier, value => (readTier value).isSome

variable (T) in
def HasValid (notes : Text) (key : NotesKey) : Prop :=
  ∃ value, LastBinds (lines notes) key.name value ∧ Accepts T key value

theorem lastReads_iff {A : Type} {notes : Text} {key : NotesKey} {read : Text → Option A} {a : A} :
    LastReads notes key read a ↔
      (readFields (lines notes) key.name).bind read = some a := by
  simp only [LastReads, ← readFields_eq_some_iff, Option.bind_eq_some_iff]

theorem hasValid_iff {notes : Text} {key : NotesKey} :
    HasValid T notes key ↔ ∃ value, readFields (lines notes) key.name = some value ∧
      Accepts T key value := by
  simp only [HasValid, ← readFields_eq_some_iff]

theorem complete_iff {notes : Text} {m : EntryMetadata T} (h : decodeMetadata notes = some m) :
    Complete notes m ↔ HasValid T notes .expiresAt := by
  obtain ⟨hvia, htier, hacquired, hexpires, hprovider, hproject, hdescription, htraceable⟩ :=
    decodeFields_eq_some_iff.1 h
  constructor
  · intro hcomplete
    obtain ⟨value, hlast, hread⟩ := hcomplete.expiresAt
    exact ⟨value, hlast, by rw [Accepts, hread]; rfl⟩
  · intro hvalid
    obtain ⟨value, hvalue, haccepts⟩ := hasValid_iff.1 hvalid
    have hread : readExpiry value = some m.expiresAt := by
      rw [readExpiry_eq_some haccepts, ← hexpires, hvalue]
    exact {
      provider := lastReads_iff.2 (by rw [hprovider]; rfl)
      project := lastReads_iff.2 (by rw [hproject]; rfl)
      sourceDescription := lastReads_iff.2 (by rw [hdescription]; rfl)
      acquiredVia := lastReads_iff.2 hvia
      acquiredAt := lastReads_iff.2 hacquired
      expiresAt := lastReads_iff.2 (by rw [hvalue]; exact hread)
      tier := lastReads_iff.2 htier
      traceable := htraceable }

theorem decodeMetadata_isSome_iff {notes : Text} :
    (∃ m : EntryMetadata T, decodeMetadata notes = some m) ↔
      ∀ key ≠ NotesKey.expiresAt, HasValid T notes key := by
  constructor
  · rintro ⟨m, h⟩ key hkey
    obtain ⟨hvia, htier, hacquired, -, hprovider, hproject, hdescription, htraceable⟩ :=
      decodeFields_eq_some_iff.1 h
    rw [hasValid_iff]
    rw [Option.bind_eq_some_iff] at hvia htier hacquired
    cases key with
    | provider => exact ⟨m.provider, hprovider, trivial⟩
    | project => exact ⟨m.project, hproject, htraceable.1⟩
    | sourceDescription => exact ⟨m.sourceDescription, hdescription, htraceable.2⟩
    | acquiredVia =>
      obtain ⟨value, hvalue, hread⟩ := hvia
      exact ⟨value, hvalue, by rw [Accepts, hread]; rfl⟩
    | acquiredAt =>
      obtain ⟨value, hvalue, hread⟩ := hacquired
      exact ⟨value, hvalue, by rw [Accepts, hread]; rfl⟩
    | expiresAt => exact absurd rfl hkey
    | tier =>
      obtain ⟨value, hvalue, hread⟩ := htier
      exact ⟨value, hvalue, by rw [Accepts, hread]; rfl⟩
  · intro hvalid
    simp only [hasValid_iff] at hvalid
    obtain ⟨provider, hprovider, -⟩ := hvalid .provider (by decide)
    obtain ⟨project, hproject, hnamed⟩ := hvalid .project (by decide)
    obtain ⟨description, hdescription, hdescribed⟩ := hvalid .sourceDescription (by decide)
    obtain ⟨via, hvia, hsource⟩ := hvalid .acquiredVia (by decide)
    obtain ⟨acquired, hacquired, hinstant⟩ := hvalid .acquiredAt (by decide)
    obtain ⟨tierValue, htier, hlevel⟩ := hvalid .tier (by decide)
    obtain ⟨source, hsource⟩ := Option.isSome_iff_exists.1 hsource
    obtain ⟨acquiredAt, hinstant⟩ := Option.isSome_iff_exists.1 hinstant
    obtain ⟨tier, hlevel⟩ := Option.isSome_iff_exists.1 hlevel
    let expiresAt : Option T :=
      ((readFields (lines notes) NotesKey.expiresAt.name).filter (· ≠ [])).bind DateTimeUtc.parse
    exists ⟨provider, project, description, source, acquiredAt, expiresAt, tier⟩
    apply decodeFields_eq_some_iff.2
    rw [hvia, hacquired, htier]
    exact ⟨hsource, hlevel, hinstant, rfl, hprovider, hproject, hdescription, hnamed, hdescribed⟩

/-- The decoder yields complete records only, unless the expiry alone is missing or
invalid. -/
theorem decodes_complete_iff (notes : Text) :
    (∀ m : EntryMetadata T, decodeMetadata notes = some m → Complete notes m) ↔
      HasValid T notes .expiresAt ∨ ∃ key ≠ NotesKey.expiresAt, ¬ HasValid T notes key := by
  constructor
  · intro hcomplete
    by_cases hdecoded : ∃ m : EntryMetadata T, decodeMetadata notes = some m
    · obtain ⟨m, hm⟩ := hdecoded
      exact .inl ((complete_iff hm).1 (hcomplete m hm))
    · rw [decodeMetadata_isSome_iff] at hdecoded
      simp only [not_forall] at hdecoded
      obtain ⟨key, hkey, hinvalid⟩ := hdecoded
      exact .inr ⟨key, hkey, hinvalid⟩
  · rintro (hexpiry | ⟨key, hkey, hinvalid⟩) m hm
    · exact (complete_iff hm).2 hexpiry
    · exact absurd (decodeMetadata_isSome_iff.1 ⟨m, hm⟩ key hkey) hinvalid

def editedNotes : Text :=
  "provider=github\nproject=redaktly\nsource_description=a key\n".toList ++
    "acquired_via=manual-entry\nacquired_at=2026-09-24T12:00:00+00:00\n".toList ++
    "expires_at=in an hour\ntier=1".toList

/-- The edited block is read as a credential that never expires. -/
theorem not_decodes_complete :
    ¬ ∀ (notes : Text) (m : EntryMetadata SampleInstant),
      decodeMetadata notes = some m → Complete notes m := by
  intro h
  let read : EntryMetadata SampleInstant := ⟨"github".toList, "redaktly".toList, "a key".toList,
    .manualEntry, .noon, none, .tier1⟩
  have hread : decodeMetadata editedNotes = some read := by decide
  have hvalid := (complete_iff hread).1 (h editedNotes read hread)
  obtain ⟨value, hvalue, haccepts⟩ := hasValid_iff.1 hvalid
  have hexpiry : readFields (lines editedNotes) NotesKey.expiresAt.name =
      some "in an hour".toList := by decide
  rw [hvalue, Option.some.injEq] at hexpiry
  rw [hexpiry] at haccepts
  exact absurd haccepts (by simp only [Accepts]; decide)

end Custodly.Vault
