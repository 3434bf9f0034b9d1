import Custodly.Core.Entry
import Custodly.Library.KeyValue

/-! The Notes field of an entry (`custodly-vault/src/vault.rs`): metadata written as
`key=value` lines and read back.  The codec escapes nothing; what keeps the provenance
that drives gating out of reach of free text is the order of the lines. -/
namespace Custodly.Vault
open Library.Strings Library.KeyValue Custodly.Core

variable {T : Type}

def metadataHeader : Text := "[custodly:metadata:v1]".toList

inductive NotesKey where
  | provider
  | project
  | sourceDescription
  | acquiredVia
  | acquiredAt
  | expiresAt
  | tier
  deriving DecidableEq, Repr

def NotesKey.name : NotesKey → Text
  | .provider => "provider".toList
  | .project => "project".toList
  | .sourceDescription => "source_description".toList
  | .acquiredVia => "acquired_via".toList
  | .acquiredAt => "acquired_at".toList
  | .expiresAt => "expires_at".toList
  | .tier => "tier".toList

theorem NotesKey.name_injective : Function.Injective NotesKey.name := by
  -- no two of the names are equally long
  have hlength (key : NotesKey) : key.name.length = match key with
      | .provider => 8
      | .project => 7
      | .sourceDescription => 18
      | .acquiredVia => 12
      | .acquiredAt => 11
      | .expiresAt => 10
      | .tier => 4 := by
    cases key <;> rfl
  intro a b h
  have hsame := congrArg List.length h
  rw [hlength, hlength] at hsame
  cases a <;> cases b <;> first | rfl | cases hsame

@[simp] theorem NotesKey.trim_name (key : NotesKey) : trim key.name = key.name := by
  cases key <;> decide

theorem NotesKey.equals_not_mem_name (key : NotesKey) : '=' ∉ key.name := by
  cases key <;> decide

theorem NotesKey.newline_not_mem_name (key : NotesKey) : '\n' ∉ key.name := by
  cases key <;> decide

def migratedPrefix : Text := "migrated:".toList
def githubAppText : Text := "github-app-installation-token".toList
def manualText : Text := "manual-entry".toList

def sourceText : AcquisitionSource → Text
  | .githubAppInstallationToken => githubAppText
  | .manualEntry => manualText
  | .migrated foundAt => migratedPrefix ++ foundAt

def readSource (s : Text) : Option AcquisitionSource :=
  if s = githubAppText then some .githubAppInstallationToken
  else if s = manualText then some .manualEntry
  else if migratedPrefix.isPrefixOf s then some (.migrated (s.drop migratedPrefix.length))
  else none

theorem readSource_sourceText (source : AcquisitionSource) :
    readSource (sourceText source) = some source := by
  cases source with
  | githubAppInstallationToken => rfl
  | manualEntry => rfl
  | migrated foundAt =>
    have hprefixes : ¬ migratedPrefix <+: githubAppText ∧ ¬ migratedPrefix <+: manualText := by
      decide
    have hgithub : migratedPrefix ++ foundAt ≠ githubAppText := fun h => hprefixes.1 ⟨_, h⟩
    have hmanual : migratedPrefix ++ foundAt ≠ manualText := fun h => hprefixes.2 ⟨_, h⟩
    have hprefix : migratedPrefix.isPrefixOf (migratedPrefix ++ foundAt) :=
      List.isPrefixOf_iff_prefix.2 (List.prefix_append _ _)
    unfold readSource sourceText
    rw [if_neg hgithub, if_neg hmanual, if_pos hprefix, List.drop_left]

theorem sourceText_of_readSource {s : Text} {source : AcquisitionSource}
    (h : readSource s = some source) : s = sourceText source := by
  unfold readSource at h
  by_cases hgithub : s = githubAppText
  · rw [if_pos hgithub, Option.some.injEq] at h
    rw [hgithub, ← h]
    rfl
  · rw [if_neg hgithub] at h
    by_cases hmanual : s = manualText
    · rw [if_pos hmanual, Option.some.injEq] at h
      rw [hmanual, ← h]
      rfl
    · rw [if_neg hmanual] at h
      by_cases hmigrated : migratedPrefix.isPrefixOf s
      · rw [if_pos hmigrated, Option.some.injEq] at h
        obtain ⟨foundAt, rfl⟩ := List.isPrefixOf_iff_prefix.1 hmigrated
        rw [← h, List.drop_left]
        rfl
      · rw [if_neg hmigrated] at h
        cases h

theorem trim_migrated_iff (foundAt : Text) :
    trim (migratedPrefix ++ foundAt) = migratedPrefix ++ foundAt ↔ trimEnd foundAt = foundAt := by
  have hsplit : migratedPrefix ++ foundAt = "migrated".toList ++ ':' :: foundAt := rfl
  have hstart : trimStart "migrated".toList = "migrated".toList := by decide
  rw [hsplit, trim_append_cons _ _ (by decide), hstart]
  simp

def tierText : Tier → Text
  | .tier0 => "0".toList
  | .tier1 => "1".toList
  | .tier2 => "2".toList

def readTier (s : Text) : Option Tier :=
  if s = "0".toList then some .tier0
  else if s = "1".toList then some .tier1
  else if s = "2".toList then some .tier2
  else none

@[simp] theorem readTier_tierText (tier : Tier) : readTier (tierText tier) = some tier := by
  cases tier <;> rfl

theorem newline_not_mem_tierText (tier : Tier) : '\n' ∉ tierText tier := by
  cases tier <;> decide

@[simp] theorem trim_tierText (tier : Tier) : trim (tierText tier) = tierText tier := by
  cases tier <;> decide

section Codec

variable [DateTimeUtc T]

def expiresText (expiresAt : Option T) : Text :=
  (expiresAt.map DateTimeUtc.toRfc3339).getD []

def fieldText (m : EntryMetadata T) : NotesKey → Text
  | .provider => m.provider
  | .project => m.project
  | .sourceDescription => m.sourceDescription
  | .acquiredVia => sourceText m.acquiredVia
  | .acquiredAt => DateTimeUtc.toRfc3339 m.acquiredAt
  | .expiresAt => expiresText m.expiresAt
  | .tier => tierText m.tier

def fieldLine (m : EntryMetadata T) (key : NotesKey) : Text := pairLine key.name (fieldText m key)

def encodeMetadata (m : EntryMetadata T) : Text :=
  ['\n'].intercalate [metadataHeader, fieldLine m .provider, fieldLine m .project,
    fieldLine m .sourceDescription, fieldLine m .acquiredVia, fieldLine m .acquiredAt,
    fieldLine m .expiresAt, fieldLine m .tier]

/-- `decode_metadata` after its loop has filled the map. -/
def decodeFields (fields : Fields) : Option (EntryMetadata T) := do
  let acquiredVia ← (← fields NotesKey.acquiredVia.name) |> readSource
  let tier ← (← fields NotesKey.tier.name) |> readTier
  let acquiredAt ← (← fields NotesKey.acquiredAt.name) |> DateTimeUtc.parse
  -- an expiry that does not parse is dropped here, not refused
  let expiresAt := ((fields NotesKey.expiresAt.name).filter (· ≠ [])).bind DateTimeUtc.parse
  let provider ← fields NotesKey.provider.name
  let project ← fields NotesKey.project.name
  let sourceDescription ← fields NotesKey.sourceDescription.name
  (EntryMetadata.new provider project sourceDescription acquiredVia acquiredAt expiresAt
    tier).toOption

def decodeMetadata (notes : Text) : Option (EntryMetadata T) :=
  decodeFields (readFields (lines notes))

theorem decodeFields_eq_some_iff {fields : Fields} {m : EntryMetadata T} :
    decodeFields fields = some m ↔
      (fields NotesKey.acquiredVia.name).bind readSource = some m.acquiredVia ∧
      (fields NotesKey.tier.name).bind readTier = some m.tier ∧
      (fields NotesKey.acquiredAt.name).bind DateTimeUtc.parse = some m.acquiredAt ∧
      ((fields NotesKey.expiresAt.name).filter (· ≠ [])).bind DateTimeUtc.parse = m.expiresAt ∧
      fields NotesKey.provider.name = some m.provider ∧
      fields NotesKey.project.name = some m.project ∧
      fields NotesKey.sourceDescription.name = some m.sourceDescription ∧
      m.Traceable := by
  have htoOption : ∀ attempt : Except EntryMetadataError (EntryMetadata T),
      attempt.toOption = some m ↔ attempt = .ok m := by
    intro attempt
    cases attempt <;> simp [Except.toOption]
  unfold decodeFields
  simp only [Option.bind_eq_bind, Option.bind_eq_some_iff, htoOption, EntryMetadata.new_eq_ok_iff]
  refine ⟨?_, ?_⟩
  · rintro ⟨via, hvia, source, hsource, tierValue, htierValue, tier, htier, at_, hat, acquiredAt,
      hacquired, provider, hprovider, project, hproject, description, hdescription, rfl, htraceable⟩
    exact ⟨⟨via, hvia, hsource⟩, ⟨tierValue, htierValue, htier⟩, ⟨at_, hat, hacquired⟩, rfl,
      hprovider, hproject, hdescription, htraceable⟩
  · rintro ⟨⟨via, hvia, hsource⟩, ⟨tierValue, htierValue, htier⟩, ⟨at_, hat, hacquired⟩, hexpires,
      hprovider, hproject, hdescription, htraceable⟩
    refine ⟨via, hvia, _, hsource, tierValue, htierValue, _, htier, at_, hat, _, hacquired,
      _, hprovider, _, hproject, _, hdescription, ?_, htraceable⟩
    rw [hexpires]

/-- The lines of a block before `acquired_at`: the only ones that hold free text. -/
def freeLines (m : EntryMetadata T) : Text :=
  ['\n'].intercalate [metadataHeader, fieldLine m .provider, fieldLine m .project,
    fieldLine m .sourceDescription, fieldLine m .acquiredVia]

theorem encodeMetadata_eq (m : EntryMetadata T) :
    encodeMetadata m = freeLines m ++ '\n' :: (fieldLine m .acquiredAt ++
      '\n' :: (fieldLine m .expiresAt ++ '\n' :: fieldLine m .tier)) := by
  simp [encodeMetadata, freeLines, List.intercalate_cons_cons]

theorem readFields_lines_fieldLine (m : EntryMetadata T) (key k : NotesKey)
    (h : '\n' ∉ fieldText m key) :
    readFields (lines (fieldLine m key)) k.name =
      if k = key then some (trim (fieldText m key)) else none := by
  have hne : fieldLine m key ≠ [] := by simp [fieldLine, pairLine]
  have hline : '\n' ∉ fieldLine m key := by
    simp [fieldLine, pairLine, key.newline_not_mem_name, h]
  rw [lines_eq_singleton hne hline]
  unfold fieldLine
  rw [readFields_pairLine _ _ key.equals_not_mem_name, NotesKey.trim_name]
  simp only [NotesKey.name_injective.eq_iff]

section Clock

variable [LawfulDateTimeUtc T]
open LawfulDateTimeUtc

theorem newline_not_mem_toRfc3339 (t : T) : '\n' ∉ DateTimeUtc.toRfc3339 t := fun h =>
  absurd (toRfc3339_not_whitespace t '\n' h) (by decide)

@[simp] theorem trim_toRfc3339 (t : T) :
    trim (DateTimeUtc.toRfc3339 t) = DateTimeUtc.toRfc3339 t :=
  trim_eq_self (toRfc3339_not_whitespace t)

theorem newline_not_mem_expiresText (expiresAt : Option T) : '\n' ∉ expiresText expiresAt := by
  cases expiresAt with
  | none => simp [expiresText]
  | some t => simpa [expiresText] using newline_not_mem_toRfc3339 t

theorem read_expiresText (expiresAt : Option T) :
    ((some (trim (expiresText expiresAt))).filter (· ≠ [])).bind DateTimeUtc.parse =
      expiresAt := by
  cases expiresAt with
  | none => simp [expiresText, trim, trimStart, trimEnd]
  | some t => simp [expiresText, Option.filter_some, toRfc3339_ne_nil t, parse_toRfc3339 t]

theorem readFields_provenance (front : Text) (m : EntryMetadata T) {key : NotesKey}
    (hkey : key = .acquiredAt ∨ key = .expiresAt ∨ key = .tier) :
    readFields (lines (front ++ '\n' :: encodeMetadata m)) key.name =
      some (trim (fieldText m key)) := by
  have hsplit : front ++ '\n' :: encodeMetadata m = (front ++ '\n' :: freeLines m) ++
      '\n' :: (fieldLine m .acquiredAt ++ '\n' :: (fieldLine m .expiresAt ++
        '\n' :: fieldLine m .tier)) := by
    rw [encodeMetadata_eq, List.append_assoc, List.cons_append]
  have hacquired := readFields_lines_fieldLine m .acquiredAt key
    (newline_not_mem_toRfc3339 _)
  have hexpires := readFields_lines_fieldLine m .expiresAt key
    (newline_not_mem_expiresText _)
  have htier := readFields_lines_fieldLine m .tier key
    (newline_not_mem_tierText _)
  rw [hsplit, readFields_lines_append, readFields_lines_append, readFields_lines_append,
    hacquired, hexpires, htier]
  rcases hkey with rfl | rfl | rfl <;> simp

/-- Free text cannot forge what drives gating: in front of a block anything may stand, and
its free fields may hold anything, line breaks included. -/
theorem provenance_not_forgeable (m m' : EntryMetadata T) (front : Text)
    (h : decodeMetadata (front ++ '\n' :: encodeMetadata m) = some m') :
    m'.tier = m.tier ∧ m'.acquiredAt = m.acquiredAt ∧ m'.expiresAt = m.expiresAt := by
  obtain ⟨-, htier, hacquired, hexpires, -⟩ := decodeFields_eq_some_iff.1 h
  rw [readFields_provenance front m (by simp)] at htier hacquired hexpires
  simp only [Option.bind_some, fieldText, trim_tierText, readTier_tierText, Option.some.injEq,
    trim_toRfc3339, parse_toRfc3339] at htier hacquired
  refine ⟨htier.symm, hacquired.symm, ?_⟩
  rw [← hexpires]
  exact read_expiresText m.expiresAt

def injectingMetadata : EntryMetadata SampleInstant where
  provider := "github".toList
  project := "redaktly".toList
  sourceDescription := "a key\ntier=0\nexpires_at=".toList
  acquiredVia := .manualEntry
  acquiredAt := .noon
  expiresAt := some .one
  tier := .tier2

theorem provenance_not_forgeable_injecting :
    let read := { injectingMetadata with sourceDescription := "a key".toList }
    decodeMetadata ("second line\ntier=1".toList ++ '\n' :: encodeMetadata injectingMetadata) =
        some read ∧
      read.tier = injectingMetadata.tier ∧ read.acquiredAt = injectingMetadata.acquiredAt ∧
      read.expiresAt = injectingMetadata.expiresAt :=
  ⟨by decide, provenance_not_forgeable injectingMetadata _ "second line\ntier=1".toList
    (by decide)⟩

end Clock

end Codec

end Custodly.Vault
