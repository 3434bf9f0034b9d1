import Custodly.Vault.Notes
import Custodly.Library.Codec

/-! What survives the Notes codec: the records that come back whole, among them all that are
ever read, and the blocks that name the project they were written for. -/
namespace Custodly.Vault
open Library Library.Strings Library.KeyValue Custodly.Core

variable {T : Type}

/-- What the codec keeps: values on one line that trimming leaves as they are.  A path where
a secret was found may start with whitespace, for text stands before it on its line. -/
structure Lossless (m : EntryMetadata T) : Prop where
  provider : '\n' ∉ m.provider ∧ trim m.provider = m.provider
  project : '\n' ∉ m.project ∧ trim m.project = m.project
  sourceDescription : '\n' ∉ m.sourceDescription ∧ trim m.sourceDescription = m.sourceDescription
  foundAt : ∀ foundAt, m.acquiredVia = .migrated foundAt →
    '\n' ∉ foundAt ∧ trimEnd foundAt = foundAt

theorem newline_not_mem_sourceText {source : AcquisitionSource}
    (h : ∀ foundAt, source = .migrated foundAt → '\n' ∉ foundAt) : '\n' ∉ sourceText source := by
  cases source with
  | githubAppInstallationToken => decide
  | manualEntry => decide
  | migrated foundAt =>
    have hprefix : '\n' ∉ migratedPrefix := by decide
    simp [sourceText, hprefix, h foundAt rfl]

theorem Lossless.trim_sourceText {m : EntryMetadata T} (h : Lossless m) :
    trim (sourceText m.acquiredVia) = sourceText m.acquiredVia := by
  cases hvia : m.acquiredVia with
  | githubAppInstallationToken => decide
  | manualEntry => decide
  | migrated foundAt => exact (trim_migrated_iff foundAt).2 (h.foundAt foundAt hvia).2

/-- Text whose lines after the first name no other project. -/
def NamesNoOtherProject (project text : Text) : Prop :=
  ∀ line ∈ (text.splitOn '\n').tail, ∀ left right, splitOnce '=' line = some (left, right) →
    trim left = NotesKey.project.name → trim right = project

/-- A project that stays on its line and is not named anew by the free text after it. -/
structure ProjectKept (m : EntryMetadata T) : Prop where
  project : '\n' ∉ m.project ∧ trim m.project = m.project
  sourceDescription : NamesNoOtherProject m.project m.sourceDescription
  foundAt : ∀ foundAt, m.acquiredVia = .migrated foundAt → NamesNoOtherProject m.project foundAt

theorem namesNoOtherProject_of_newline_not_mem {project text : Text} (h : '\n' ∉ text) :
    NamesNoOtherProject project text := by
  unfold NamesNoOtherProject
  rw [List.splitOn_eq_singleton h]
  simp

theorem namesNoOtherProject_sourceText {m : EntryMetadata T} (h : ProjectKept m) :
    NamesNoOtherProject m.project (sourceText m.acquiredVia) := by
  cases hvia : m.acquiredVia with
  | githubAppInstallationToken => exact namesNoOtherProject_of_newline_not_mem (by decide)
  | manualEntry => exact namesNoOtherProject_of_newline_not_mem (by decide)
  | migrated foundAt =>
    have hprefix : '\n' ∉ migratedPrefix := by decide
    have htail : ((sourceText (.migrated foundAt)).splitOn '\n').tail =
        (foundAt.splitOn '\n').tail := by
      unfold sourceText
      rw [splitOn_append_of_not_mem _ hprefix]
      cases foundAt.splitOn '\n' <;> rfl
    unfold NamesNoOtherProject
    rw [htail]
    exact h.foundAt foundAt hvia

section Codec

variable [DateTimeUtc T]

theorem readFields_encodeMetadata {m : EntryMetadata T} (h : ∀ key, '\n' ∉ fieldText m key)
    (key : NotesKey) :
    readFields (lines (encodeMetadata m)) key.name = some (trim (fieldText m key)) := by
  have hheader : readFields (lines metadataHeader) key.name = none := by
    have hlines : lines metadataHeader = [metadataHeader] := by decide
    rw [hlines]
    exact readFields_singleton_of_not_mem _ (by decide)
  unfold encodeMetadata
  simp only [List.intercalate_cons_cons, List.intercalate_singleton, List.append_assoc,
    List.singleton_append, readFields_lines_append,
    readFields_lines_fieldLine m _ key (h _), hheader]
  cases key <;> simp

theorem splitOn_fieldLine (m : EntryMetadata T) (key : NotesKey) :
    (fieldLine m key).splitOn '\n' =
      ((fieldText m key).splitOn '\n').modifyHead (pairLine key.name) := by
  have hfront : '\n' ∉ key.name ++ ['='] := by simp [key.newline_not_mem_name]
  have hline : fieldLine m key = (key.name ++ ['=']) ++ fieldText m key := by
    simp [fieldLine, pairLine]
  rw [hline, splitOn_append_of_not_mem _ hfront]
  congr 1
  funext text
  simp [pairLine]

theorem readFields_fieldLine_project {m : EntryMetadata T} {key : NotesKey} (hkey : key ≠ .project)
    (h : NamesNoOtherProject m.project (fieldText m key)) :
    readFields (lines (fieldLine m key)) NotesKey.project.name = none ∨
      readFields (lines (fieldLine m key)) NotesKey.project.name = some m.project := by
  rw [readFields_lines, splitOn_fieldLine]
  apply readFields_eq_or
  intro line hmem left right hsplit hleft
  cases hpieces : (fieldText m key).splitOn '\n' with
  | nil => simp [hpieces] at hmem
  | cons first rest =>
    rw [hpieces, List.modifyHead_cons, List.mem_cons] at hmem
    rcases hmem with rfl | hmem
    · have hown := splitOnce_append first key.equals_not_mem_name
      rw [pairLine, hown, Option.some.injEq, Prod.mk.injEq] at hsplit
      rw [← hsplit.1, NotesKey.trim_name] at hleft
      exact absurd (NotesKey.name_injective hleft) hkey
    · exact h line (by rw [hpieces]; exact hmem) left right hsplit hleft

/-- What is decoded is lossless, whatever the text: a value is trimmed and stands on one line,
and a path where a secret was found is the end of such a value. -/
theorem lossless_of_decodeMetadata {notes : Text} {m : EntryMetadata T}
    (h : decodeMetadata notes = some m) : Lossless m := by
  obtain ⟨hvia, -, -, -, hprovider, hproject, hdescription, -⟩ := decodeFields_eq_some_iff.1 h
  have hkept {key value : Text} (hread : readFields (lines notes) key = some value) :
      '\n' ∉ value ∧ trim value = value := (readFields_lines_value hread).symm
  refine ⟨hkept hprovider, hkept hproject, hkept hdescription, fun foundAt hmigrated => ?_⟩
  obtain ⟨text, hread, hsource⟩ := Option.bind_eq_some_iff.1 hvia
  rw [hmigrated] at hsource
  obtain ⟨hnewline, htrim⟩ := hkept hread
  rw [sourceText_of_readSource hsource] at hnewline htrim
  refine ⟨fun hmem => hnewline ?_, (trim_migrated_iff foundAt).1 htrim⟩
  simp [sourceText, hmem]

theorem traceable_of_decodeMetadata {notes : Text} {m : EntryMetadata T}
    (h : decodeMetadata notes = some m) : m.Traceable := by
  obtain ⟨-, -, -, -, -, -, -, htraceable⟩ := decodeFields_eq_some_iff.1 h
  exact htraceable

section Clock

variable [LawfulDateTimeUtc T]
open LawfulDateTimeUtc

theorem Lossless.newline_not_mem {m : EntryMetadata T} (h : Lossless m) (key : NotesKey) :
    '\n' ∉ fieldText m key := by
  cases key with
  | provider => exact h.provider.1
  | project => exact h.project.1
  | sourceDescription => exact h.sourceDescription.1
  | acquiredVia => exact newline_not_mem_sourceText fun foundAt hvia => (h.foundAt foundAt hvia).1
  | acquiredAt => exact newline_not_mem_toRfc3339 _
  | expiresAt => exact newline_not_mem_expiresText _
  | tier => exact newline_not_mem_tierText _

theorem decodeMetadata_encodeMetadata_iff {m : EntryMetadata T} (htraceable : m.Traceable) :
    decodeMetadata (encodeMetadata m) = some m ↔ Lossless m := by
  refine ⟨lossless_of_decodeMetadata, fun h => ?_⟩
  have hread := readFields_encodeMetadata h.newline_not_mem
  unfold decodeMetadata
  rw [decodeFields_eq_some_iff]
  simp only [hread, Option.bind_some, fieldText, h.trim_sourceText, readSource_sourceText,
    trim_tierText, readTier_tierText, trim_toRfc3339, parse_toRfc3339, h.provider.2,
    h.project.2, h.sourceDescription.2, true_and]
  exact ⟨read_expiresText m.expiresAt, htraceable⟩

omit [LawfulDateTimeUtc T] in
theorem decodeMetadata_crlf (notes : Text) :
    (decodeMetadata (crlf notes) : Option (EntryMetadata T)) = decodeMetadata notes := by
  unfold decodeMetadata
  rw [readFields_lines_crlf]

/-- The exact domain of the codec, with line breaks of either kind in the block. -/
theorem codec_lossless_iff {provider project sourceDescription : Text}
    {acquiredVia : AcquisitionSource} {acquiredAt : T} {expiresAt : Option T} {tier : Tier}
    {m : EntryMetadata T}
    (h : EntryMetadata.new provider project sourceDescription acquiredVia acquiredAt expiresAt
      tier = .ok m) :
    (decodeMetadata (encodeMetadata m) = some m ↔ Lossless m) ∧
      (decodeMetadata (crlf (encodeMetadata m)) = some m ↔ Lossless m) := by
  have htraceable := (EntryMetadata.new_eq_ok_iff.1 h).2
  rw [decodeMetadata_crlf]
  exact ⟨decodeMetadata_encodeMetadata_iff htraceable, decodeMetadata_encodeMetadata_iff htraceable⟩

def migratedMetadata : EntryMetadata SampleInstant where
  provider := []
  project := "redaktly".toList
  sourceDescription := "tier".toList
  acquiredVia := .migrated " old=.env".toList
  acquiredAt := .noon
  expiresAt := some .one
  tier := .tier1

theorem codec_lossless_iff_migrated :
    (decodeMetadata (encodeMetadata migratedMetadata) = some migratedMetadata ↔
        Lossless migratedMetadata) ∧
      (decodeMetadata (crlf (encodeMetadata migratedMetadata)) = some migratedMetadata ↔
        Lossless migratedMetadata) :=
  codec_lossless_iff (EntryMetadata.new_eq_ok_iff.2 ⟨rfl, by decide, by decide⟩)

variable (T) in
def notesCodec : Codec (EntryMetadata T) Text where
  encode := encodeMetadata
  decode := decodeMetadata
  decode_encode _ _ h := (decodeMetadata_encodeMetadata_iff (traceable_of_decodeMetadata h)).2
    (lossless_of_decodeMetadata h)

/-- Decoding normalizes once and for all: however a text was edited, what it reads as comes
back from its own block, and however often it is written back, it reads as at first. -/
theorem decoding_normalizes {notes : Text} {m : EntryMetadata T}
    (h : decodeMetadata notes = some m) :
    decodeMetadata (encodeMetadata m) = some m ∧
      ∀ n, (notesCodec T).rewrites (n + 1) notes = some (encodeMetadata m) ∧
        ((notesCodec T).rewrites n notes).bind decodeMetadata = some m := by
  have hread : (notesCodec T).decode notes = some m := h
  refine ⟨(notesCodec T).decode_encode notes m hread, fun n => ⟨?_, ?_⟩⟩
  · exact Codec.rewrites_succ hread n
  · exact Codec.decode_rewrites hread n

def untidyNotes : Text :=
  "tier=1\r\nchecked = yes\n  project =old\nproject= redaktly \n".toList ++
    "found in the wiki\nsource_description=a=b\nacquired_via=migrated: old.env \n".toList ++
    "acquired_at=2026-09-24T12:00:00+00:00\nexpires_at=\nprovider=".toList

def tidiedMetadata : EntryMetadata SampleInstant where
  provider := []
  project := "redaktly".toList
  sourceDescription := "a=b".toList
  acquiredVia := .migrated " old.env".toList
  acquiredAt := .noon
  expiresAt := none
  tier := .tier1

theorem decoding_normalizes_untidy :
    decodeMetadata (encodeMetadata tidiedMetadata) = some tidiedMetadata ∧
      ∀ n, (notesCodec SampleInstant).rewrites (n + 1) untidyNotes =
          some (encodeMetadata tidiedMetadata) ∧
        ((notesCodec SampleInstant).rewrites n untidyNotes).bind decodeMetadata =
          some tidiedMetadata :=
  decoding_normalizes (by decide +kernel)

theorem readFields_project {m : EntryMetadata T} (h : ProjectKept m) :
    readFields (lines (encodeMetadata m)) NotesKey.project.name = some m.project := by
  have hother (key : NotesKey) (hkey : key ≠ .project)
      (hnames : NamesNoOtherProject m.project (fieldText m key)) (before : Option Text)
      (hbefore : before = some m.project) :
      (readFields (lines (fieldLine m key)) NotesKey.project.name).or before = some m.project := by
    rcases readFields_fieldLine_project hkey hnames with hnone | hsome
    · rw [hnone, Option.none_or, hbefore]
    · rw [hsome, Option.some_or]
  have hown : readFields (lines (fieldLine m .project)) NotesKey.project.name =
      some m.project := by
    rw [readFields_lines_fieldLine m .project .project h.project.1]
    simp [fieldText, h.project.2]
  have honeLine {text : Text} (hline : '\n' ∉ text) : NamesNoOtherProject m.project text :=
    namesNoOtherProject_of_newline_not_mem hline
  unfold encodeMetadata
  simp only [List.intercalate_cons_cons, List.intercalate_singleton, List.append_assoc,
    List.singleton_append, readFields_lines_append, Option.or_assoc]
  apply hother .tier (by decide) (honeLine (newline_not_mem_tierText _))
  apply hother .expiresAt (by decide) (honeLine (newline_not_mem_expiresText _))
  apply hother .acquiredAt (by decide) (honeLine (newline_not_mem_toRfc3339 _))
  apply hother .acquiredVia (by decide) (namesNoOtherProject_sourceText h)
  apply hother .sourceDescription (by decide) h.sourceDescription
  rw [hown, Option.some_or]

end Clock

end Codec

end Custodly.Vault
