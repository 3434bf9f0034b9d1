import Custodly.Cli.Command
import Custodly.Cli.Permission
import Custodly.Library.Delimited
import Custodly.Vault.Lossless

/-! What is written down of a minted token (`custodly-github/src/app.rs`,
`custodly-cli/src/main.rs`): the scope text of a deposit and the notes of a cached entry each
say exactly what was granted, whatever commas and blanks the names of resources hold, and the
notes say so after a trip through the vault. -/
namespace Custodly.Cli
open Library Library.Strings Library.Interaction Library.KeyValue Custodly.Core Github Host Vault

def Plain (entry : Text × Text) : Prop := ':' ∉ entry.1 ∧ entry.2 ∈ levels

theorem selfDelimiting_permissionText : SelfDelimiting Plain permissionText := by
  rintro ⟨resource, level⟩ ⟨resource', level'⟩ rest rest' ⟨hcolon, hlevel⟩ ⟨hcolon', hlevel'⟩ h
  simp only [permissionText, List.append_assoc, List.cons_append] at h
  have hsplit := congrArg (splitOnce ':') h
  rw [splitOnce_append _ hcolon, splitOnce_append _ hcolon', Option.some.injEq,
    Prod.mk.injEq] at hsplit
  obtain ⟨rfl, hrest⟩ := hsplit
  simp only [levels, List.mem_pair] at hlevel hlevel'
  rcases hlevel with rfl | rfl <;> rcases hlevel' with rfl | rfl
  · exact ⟨rfl, List.append_cancel_left hrest⟩
  · cases hrest
  · cases hrest
  · exact ⟨rfl, List.append_cancel_left hrest⟩

variable {T EncodingKey Key Cipher : Type}

theorem plain_granted {requested granted : Permissions} (hrequested : FromCli requested)
    (hverified : verifyNoScopeCreep requested granted = .ok ()) :
    ∀ entry ∈ granted.toList, Plain entry := by
  intro entry hentry
  have hcovered := verifyNoScopeCreep_eq_ok_iff.1 hverified entry hentry
  exact ⟨colon_not_mem_granted hrequested hcovered, hcovered.level_mem⟩

theorem scopeText_inj {granted granted' : Permissions} (h : ∀ entry ∈ granted.toList, Plain entry)
    (h' : ∀ entry ∈ granted'.toList, Plain entry) :
    scopeText granted = scopeText granted' ↔ granted = granted' := by
  refine ⟨fun htext => ?_, fun heq => by rw [heq]⟩
  rw [← Std.ExtTreeMap.toList_inj]
  apply selfDelimiting_permissionText.intercalate_inj _ h h' htext
  rintro ⟨resource, level⟩ -
  simp [permissionText]

theorem scopeText_ends {granted : Permissions} (h : ∀ entry ∈ granted.toList, Plain entry) :
    scopeText granted = [] ∨ ∃ front, ∃ level ∈ levels, scopeText granted = front ++ level := by
  unfold scopeText
  rcases List.eq_nil_or_concat granted.toList with hnil | ⟨entries, entry, hlast⟩
  · simp [hnil]
  · right
    have hend (texts : List Text) (text : Text) :
        ∃ front, [','].intercalate (texts ++ [text]) = front ++ text := by
      induction texts with
      | nil => exact ⟨[], by simp⟩
      | cons first texts ih =>
        obtain ⟨front, hfront⟩ := ih
        refine ⟨first ++ ',' :: front, ?_⟩
        rw [List.cons_append, List.intercalate_cons_of_ne_nil (by simp), hfront]
        simp
    rw [List.concat_eq_append] at hlast
    obtain ⟨front, hfront⟩ := hend (entries.map permissionText) (permissionText entry)
    refine ⟨front ++ entry.1 ++ [':'], entry.2, (h entry (by simp [hlast])).2, ?_⟩
    rw [hlast, List.map_append, List.map_singleton, hfront]
    simp [permissionText]

theorem trimEnd_blank_scopeText {granted : Permissions}
    (h : ∀ entry ∈ granted.toList, Plain entry) :
    trimEnd (' ' :: scopeText granted) =
      if scopeText granted = [] then [] else ' ' :: scopeText granted := by
  rcases scopeText_ends h with hempty | ⟨front, level, hlevel, htext⟩
  · rw [if_pos hempty, hempty]
    decide
  · obtain ⟨c, hlast, hsolid⟩ : ∃ c, level.getLast? = some c ∧ isWhitespace c = false := by
      simp only [levels, List.mem_pair] at hlevel
      rcases hlevel with rfl | rfl
      · exact ⟨'d', by decide, by decide⟩
      · exact ⟨'e', by decide, by decide⟩
    have hne : level ≠ [] := by
      rintro rfl
      cases hlast
    rw [if_neg (by simp [htext, hne]), trimEnd_eq_self_iff, htext, ← List.cons_append,
      List.getLast?_append_of_ne_nil _ hne, hlast]
    intro d hd
    cases hd
    exact hsolid

theorem digits_append_inj {n n' : Nat} {rest rest' : Text}
    (h : (toString n).toList ++ ',' :: rest = (toString n').toList ++ ',' :: rest') :
    n = n' ∧ rest = rest' := by
  have hsplit := congrArg (splitOnce ',') h
  have hcomma : ¬ ','.isDigit := by decide
  rw [splitOnce_append _ (not_mem_digits hcomma n), splitOnce_append _ (not_mem_digits hcomma n'),
    Option.some.injEq, Prod.mk.injEq] at hsplit
  exact ⟨digits_inj hsplit.1, hsplit.2⟩

/-- A description up to its last comma, and what follows. -/
def describe (appId installationId : Nat) (rest : Text) : Text :=
  "GitHub App installation token, app ".toList ++ ((toString appId).toList ++
    ',' :: (" installation ".toList ++ ((toString installationId).toList ++ ',' :: rest)))

theorem describe_inj {appId appId' installationId installationId' : Nat} {rest rest' : Text}
    (h : describe appId installationId rest = describe appId' installationId' rest') :
    appId = appId' ∧ installationId = installationId' ∧ rest = rest' := by
  unfold describe at h
  obtain ⟨happ, hinstallation⟩ := digits_append_inj (List.append_cancel_left h)
  obtain ⟨hid, hrest⟩ := digits_append_inj (List.append_cancel_left hinstallation)
  exact ⟨happ, hid, hrest⟩

namespace MintGithub

variable {args args' : MintGithub} {minted minted' : MintedToken T}

theorem sourceDescription_eq : args.sourceDescription minted =
    describe args.appId args.installationId (' ' :: minted.scopeString) := by
  have hinstallation : ", installation ".toList = ',' :: " installation ".toList := rfl
  have hscope : ", ".toList = [',', ' '] := rfl
  unfold sourceDescription describe
  simp only [hinstallation, hscope, List.append_assoc, List.cons_append, List.nil_append]

theorem trim_sourceDescription : trim (args.sourceDescription minted) =
    describe args.appId args.installationId (trimEnd (' ' :: minted.scopeString)) := by
  have hsplit (rest : Text) : describe args.appId args.installationId rest =
      ("GitHub App installation token, app ".toList ++ ((toString args.appId).toList ++
        ',' :: (" installation ".toList ++ (toString args.installationId).toList))) ++
          ',' :: rest := by
    unfold describe
    simp only [List.append_assoc, List.cons_append]
  rw [sourceDescription_eq, hsplit, hsplit, trim_append_cons _ _ (by decide)]
  -- the first character is no blank
  rfl

theorem trim_sourceDescription_inj
    (h : ∀ entry ∈ minted.grantedPermissions.toList, Plain entry)
    (h' : ∀ entry ∈ minted'.grantedPermissions.toList, Plain entry)
    (hscope : minted.scopeString = scopeText minted.grantedPermissions)
    (hscope' : minted'.scopeString = scopeText minted'.grantedPermissions) :
    trim (args.sourceDescription minted) = trim (args'.sourceDescription minted') ↔
      args.appId = args'.appId ∧ args.installationId = args'.installationId ∧
        minted.grantedPermissions = minted'.grantedPermissions := by
  rw [trim_sourceDescription, trim_sourceDescription, hscope, hscope']
  constructor
  · intro heq
    obtain ⟨happ, hinstallation, htail⟩ := describe_inj heq
    refine ⟨happ, hinstallation, (scopeText_inj h h').1 ?_⟩
    rw [trimEnd_blank_scopeText h, trimEnd_blank_scopeText h'] at htail
    by_cases hempty : scopeText minted.grantedPermissions = []
    · by_cases hempty' : scopeText minted'.grantedPermissions = []
      · rw [hempty, hempty']
      · rw [if_pos hempty, if_neg hempty'] at htail
        cases htail
    · by_cases hempty' : scopeText minted'.grantedPermissions = []
      · rw [if_neg hempty, if_pos hempty'] at htail
        cases htail
      · rw [if_neg hempty, if_neg hempty', List.cons.injEq] at htail
        exact htail.2
  · rintro ⟨happ, hinstallation, hgranted⟩
    rw [happ, hinstallation, hgranted]

end MintGithub

/-- What the command line puts into the notes is on one line. -/
structure MintGithub.OneLine (args : MintGithub) : Prop where
  project : '\n' ∉ args.project
  permissions : ∀ permission ∈ args.permissions, '\n' ∉ permission.1

theorem MintGithub.OneLine.scopeText {args : MintGithub} (h : args.OneLine) {granted : Permissions}
    (hverified : verifyNoScopeCreep args.grant.permissions granted = .ok ()) :
    '\n' ∉ Github.scopeText granted := by
  have hpieces : ∀ piece ∈ granted.toList.map permissionText, '\n' ∉ piece := by
    intro piece hpiece
    obtain ⟨entry, hentry, rfl⟩ := List.mem_map.1 hpiece
    have hcovered := verifyNoScopeCreep_eq_ok_iff.1 hverified entry hentry
    have hlevel : ∀ level ∈ levels, '\n' ∉ level := by decide
    have hresource : '\n' ∉ entry.1 := by
      rcases hcovered with ⟨hbaseline, -⟩ | ⟨level, hasked, -⟩
      · rw [hbaseline]
        decide
      · have hmem : entry.1 ∈ args.grant.permissions := by
          rw [Std.ExtTreeMap.mem_iff_isSome_getElem?, hasked]
          rfl
        unfold MintGithub.grant at hmem
        rw [Std.ExtTreeMap.mem_ofList, List.contains_iff_mem, List.mem_map] at hmem
        obtain ⟨permission, hpermission, heq⟩ := hmem
        rw [← heq]
        exact h.permissions permission hpermission
    unfold permissionText
    rw [List.mem_append, List.mem_cons]
    rintro (hmem | hmem | hmem)
    · exact hresource hmem
    · cases hmem
    · exact hlevel _ hcovered.level_mem hmem
  unfold Github.scopeText
  cases hentries : granted.toList.map permissionText with
  | nil => simp
  | cons first rest =>
    rw [← hentries, ← List.singleton_infix_iff,
      infix_intercalate_iff (by decide) (by simp [hentries])]
    rintro ⟨piece, hpiece, hinfix⟩
    exact hpieces piece hpiece ((List.singleton_infix_iff _ _).1 hinfix)

variable [DateTimeUtc T] [LawfulDateTimeUtc T]
open LawfulDateTimeUtc

def readBack (m : EntryMetadata T) : EntryMetadata T :=
  { m with
    provider := trim m.provider
    project := trim m.project
    sourceDescription := trim m.sourceDescription }

theorem decodeMetadata_encodeMetadata_trim {m : EntryMetadata T}
    (h : ∀ key, '\n' ∉ fieldText m key) (htraceable : m.Traceable)
    (hvia : trim (sourceText m.acquiredVia) = sourceText m.acquiredVia) :
    decodeMetadata (encodeMetadata m) = some (readBack m) := by
  have hread := readFields_encodeMetadata h
  unfold decodeMetadata
  rw [decodeFields_eq_some_iff]
  simp only [hread, Option.bind_some, fieldText, readBack, hvia, readSource_sourceText,
    trim_tierText, readTier_tierText, trim_toRfc3339, parse_toRfc3339, true_and]
  refine ⟨read_expiresText m.expiresAt, ?_⟩
  unfold EntryMetadata.Traceable
  rw [trim_trim, trim_trim]
  exact htraceable

namespace MintGithub

variable {args args' : MintGithub} {minted minted' : MintedToken T} {entry entry' : VaultEntry T}
  {past past' : Trace T}

theorem MadeFor.decodeMetadata_eq (h : args.MadeFor past minted entry) (hone : args.OneLine) :
    decodeMetadata (encodeMetadata entry.metadata) = some (readBack entry.metadata) := by
  obtain ⟨-, ⟨request, reply, -, hread⟩, acquiredAt, metadata, hmetadata, rfl⟩ := h
  obtain ⟨response, body, -, -, -, hverified, rfl⟩ := readAccessToken_eq_ok_iff.1 hread
  unfold MintGithub.newMetadata at hmetadata
  obtain ⟨rfl, htraceable⟩ := EntryMetadata.new_eq_ok_iff.1 hmetadata
  have hscope := hone.scopeText hverified
  have hvia : trim (sourceText .githubAppInstallationToken) =
      sourceText .githubAppInstallationToken := by decide
  apply decodeMetadata_encodeMetadata_trim _ htraceable hvia
  intro key
  cases key with
  | provider => exact (by decide : '\n' ∉ Core.github)
  | project => exact hone.project
  | sourceDescription =>
    change '\n' ∉ args.sourceDescription _
    unfold MintGithub.sourceDescription
    simp only [List.mem_append, not_or]
    exact ⟨⟨⟨⟨⟨by decide, not_mem_digits (by decide) _⟩, by decide⟩, not_mem_digits (by decide) _⟩,
      by decide⟩, hscope⟩
  | acquiredVia => exact (by decide : '\n' ∉ sourceText .githubAppInstallationToken)
  | acquiredAt => exact newline_not_mem_toRfc3339 _
  | expiresAt => exact newline_not_mem_expiresText _
  | tier => exact newline_not_mem_tierText _

omit [DateTimeUtc T] [LawfulDateTimeUtc T] in
theorem Mints.plain (h : args.Mints past minted)
    (hparsed : ∀ p ∈ args.permissions, ∃ raw, parsePermission raw = .ok p) :
    (∀ entry ∈ minted.grantedPermissions.toList, Plain entry) ∧
      minted.scopeString = scopeText minted.grantedPermissions ∧
      minted.tier = Tier.score (assessGithubScope minted.scopeString) := by
  obtain ⟨request, reply, -, hread⟩ := h
  obtain ⟨response, body, -, -, -, hverified, rfl⟩ := readAccessToken_eq_ok_iff.1 hread
  exact ⟨plain_granted (FromCli.ofList hparsed) hverified, rfl, rfl⟩

/-- Two mints that do not differ, but for blanks around the project and the token itself. -/
structure SameMint (args args' : MintGithub) (minted minted' : MintedToken T)
    (entry entry' : VaultEntry T) : Prop where
  project : trim args.project = trim args'.project
  appId : args.appId = args'.appId
  installationId : args.installationId = args'.installationId
  grantedPermissions : minted.grantedPermissions = minted'.grantedPermissions
  expiresAt : minted.expiresAt = minted'.expiresAt
  acquiredAt : entry.metadata.acquiredAt = entry'.metadata.acquiredAt

omit [DateTimeUtc T] [LawfulDateTimeUtc T] in
theorem MadeFor.readBack_inj (h : args.MadeFor past minted entry)
    (h' : args'.MadeFor past' minted' entry')
    (hparsed : ∀ p ∈ args.permissions, ∃ raw, parsePermission raw = .ok p)
    (hparsed' : ∀ p ∈ args'.permissions, ∃ raw, parsePermission raw = .ok p) :
    readBack entry.metadata = readBack entry'.metadata ↔
      SameMint args args' minted minted' entry entry' := by
  obtain ⟨-, hmints, acquiredAt, metadata, hmetadata, rfl⟩ := h
  obtain ⟨-, hmints', acquiredAt', metadata', hmetadata', rfl⟩ := h'
  obtain ⟨hplain, hscope, htier⟩ := hmints.plain hparsed
  obtain ⟨hplain', hscope', htier'⟩ := hmints'.plain hparsed'
  have hdescription := @trim_sourceDescription_inj T args args' _ _ hplain hplain' hscope hscope'
  unfold newMetadata at hmetadata hmetadata'
  obtain ⟨rfl, -⟩ := EntryMetadata.new_eq_ok_iff.1 hmetadata
  obtain ⟨rfl, -⟩ := EntryMetadata.new_eq_ok_iff.1 hmetadata'
  simp only [VaultEntry.new, readBack, EntryMetadata.mk.injEq, Option.some.injEq, true_and]
  rw [hdescription]
  constructor
  · rintro ⟨hproject, ⟨happ, hinstallation, hgranted⟩, hacquired, hexpires, -⟩
    exact ⟨hproject, happ, hinstallation, hgranted, hexpires, hacquired⟩
  · rintro ⟨hproject, happ, hinstallation, hgranted, hexpires, hacquired⟩
    refine ⟨hproject, ⟨happ, hinstallation, hgranted⟩, hacquired, hexpires, ?_⟩
    rw [htier, htier', hscope, hscope', hgranted]

/-- The notes handed to the vault with a token, and what they read as. -/
structure Recorded (args : MintGithub) (trace : Trace T) (minted : MintedToken T)
    (entry : VaultEntry T) (read : EntryMetadata T) : Prop where
  mints : args.Mints trace minted
  added : Added trace entry
  secret : entry.secret = minted.token
  decoded : decodeMetadata (encodeMetadata entry.metadata) = some read

theorem MadeFor.recorded (h : args.MadeFor past minted entry) (hadded : Added past entry)
    (hone : args.OneLine) : Recorded args past minted entry (readBack entry.metadata) := by
  have hdecoded := h.decodeMetadata_eq hone
  obtain ⟨-, hmints, acquiredAt, metadata, -, rfl⟩ := h
  exact ⟨hmints, hadded, rfl, hdecoded⟩

/-- Any two mints that report success without `--for-recipient` have handed the vault notes
that read back, and the two records are told apart just where the mints differ. -/
theorem mints_recorded {jwt : Jwt EncodingKey} {crypto : Crypto Key Cipher} {trace trace' : Trace T}
    (h : Run (args.run jwt crypto).run trace (some (.ok ())))
    (h' : Run (args'.run jwt crypto).run trace' (some (.ok ())))
    (hlocal : args.forRecipient = false) (hlocal' : args'.forRecipient = false)
    (hparsed : ∀ p ∈ args.permissions, ∃ raw, parsePermission raw = .ok p)
    (hparsed' : ∀ p ∈ args'.permissions, ∃ raw, parsePermission raw = .ok p)
    (hone : args.OneLine) (hone' : args'.OneLine) :
    ∃ (minted minted' : MintedToken T) (entry entry' : VaultEntry T) (read read' : EntryMetadata T),
      Recorded args trace minted entry read ∧ Recorded args' trace' minted' entry' read' ∧
      (minted.scopeString = minted'.scopeString ↔
        minted.grantedPermissions = minted'.grantedPermissions) ∧
      (read = read' ↔ SameMint args args' minted minted' entry entry') := by
  obtain ⟨minted, entry, hmade, hadded⟩ := (h.obeys obeys_work).2.1 _ rfl rfl hlocal
  obtain ⟨minted', entry', hmade', hadded'⟩ := (h'.obeys obeys_work).2.1 _ rfl rfl hlocal'
  rw [List.nil_append] at hmade hadded hmade' hadded'
  obtain ⟨hplain, hscope, -⟩ := hmade.2.1.plain hparsed
  obtain ⟨hplain', hscope', -⟩ := hmade'.2.1.plain hparsed'
  refine ⟨minted, minted', entry, entry', _, _, hmade.recorded hadded hone,
    hmade'.recorded hadded' hone', ?_, hmade.readBack_inj hmade' hparsed hparsed'⟩
  rw [hscope, hscope', scopeText_inj hplain hplain']

def commaNamed : List (Text × Text) := [("contents,issues".toList, readLevel)]

theorem mints_recorded_sample :
    ∃ (minted minted' : MintedToken SampleInstant) (entry entry' : VaultEntry SampleInstant)
      (read read' : EntryMetadata SampleInstant),
      Recorded (sampleArgs commaNamed) (samplePlay commaNamed "ghs_a".toList).1 minted entry read ∧
      Recorded (sampleArgs secretsRead) (samplePlay secretsRead "ghs_b".toList).1 minted' entry'
        read' ∧
      (minted.scopeString = minted'.scopeString ↔
        minted.grantedPermissions = minted'.grantedPermissions) ∧
      (read = read' ↔
        SameMint (sampleArgs commaNamed) (sampleArgs secretsRead) minted minted' entry entry') := by
  have hcomma : (samplePlay commaNamed "ghs_a".toList).2 = some (.ok ()) := by decide +kernel
  have hsecrets : (samplePlay secretsRead "ghs_b".toList).2 = some (.ok ()) := by decide +kernel
  refine mints_recorded (Program.run_play hcomma) (Program.run_play hsecrets) rfl rfl ?_ ?_
    ⟨by decide, by decide⟩ ⟨by decide, by decide⟩
  · intro p hp
    obtain rfl := List.mem_singleton.1 hp
    exact ⟨"contents,issues:read".toList, by decide⟩
  · intro p hp
    obtain rfl := List.mem_singleton.1 hp
    exact ⟨"secrets:read".toList, by decide⟩

end MintGithub

end Custodly.Cli
