import Custodly.Vault.Lossless
import Custodly.Vault.Store

/-! What a reader gets back from the store: the entry that was put, where neither of the two
line framings it went through took anything away, and never an entry of another project,
where no two keys share a path and no free text names another project. -/
namespace Custodly.Vault
open Library Library.Strings Library.KeyValue Library.Surroundings Custodly.Core Host

variable {T Db : Type}

/-- A secret that a line carries: no line break in it, and no carriage return at its end. -/
def SecretKept (secret : Text) : Prop := '\n' ∉ secret ∧ secret.getLast? ≠ some '\r'

theorem stripCr_eq_self_iff {line : Text} : stripCr line = line ↔ line.getLast? ≠ some '\r' := by
  refine ⟨fun h hlast => ?_, stripCr_eq_self⟩
  unfold stripCr at h
  rw [if_pos hlast] at h
  have hlength := congrArg List.length h
  have hne : line ≠ [] := by
    intro hnil
    simp [hnil] at hlast
  have hpos := List.length_pos_iff.2 hne
  rw [List.length_dropLast] at hlength
  omega

theorem TakenFrom.splitOn {secret password : Text} (h : TakenFrom secret password) :
    ∃ first rest rest', password.splitOn '\n' = first :: rest ∧
      secret.splitOn '\n' = first :: rest' := by
  cases hpieces : secret.splitOn '\n' with
  | nil => exact absurd hpieces (List.splitOn_ne_nil _ _)
  | cons first rest' =>
    rcases h with rfl | ⟨hline, rest, rfl⟩
    · exact ⟨first, rest', rest', hpieces, rfl⟩
    · rw [List.splitOn_append_cons_self, List.splitOn_eq_singleton hline, List.singleton_append,
        List.cons.injEq] at hpieces
      exact ⟨first, [], rest', by rw [List.splitOn_eq_singleton hline, hpieces.1], rfl⟩

theorem TakenFrom.eq_of_newline_not_mem {secret password : Text} (h : TakenFrom secret password)
    (hline : '\n' ∉ secret) : password = secret := by
  rcases h with h | ⟨-, rest, rfl⟩
  · exact h
  · simp at hline

def sampleVault : Vault := ⟨.utf8 "keepassxc-cli".toList, .utf8 "w.kdbx".toList, "v".toList⟩

def sampleWorld : World SampleDb :=
  ⟨⟨"pw".toList, fun _ => none⟩, fun _ => some "pw".toList, none⟩

def sampleStored (entry : VaultEntry SampleInstant) : World SampleDb :=
  ⟨⟨"pw".toList, Function.update (fun _ => none) entry.groupPath
    (some ((entry.secret.splitOn '\n').headD [], encodeMetadata entry.metadata))⟩,
    fun _ => some "pw".toList, none⟩

theorem samplePut (entry : VaultEntry SampleInstant) :
    Exec (calmStep sampleCli) sampleWorld (sampleVault.put entry : Action SampleInstant _ _).run
      (some (.ok ())) (sampleStored entry) :=
  @exists_calm_put SampleInstant SampleDb sampleCli sampleVault sampleWorld _ entry
    "w.kdbx".toList "pw".toList rfl rfl

theorem sampleGet (entry : VaultEntry SampleInstant) (query : SecretQuery)
    (h : query.groupPath = entry.groupPath) :
    Exec (calmStep sampleCli) (sampleStored entry)
      (sampleVault.get query : Action SampleInstant _ _).run
      (some (readEntry query (printed ((entry.secret.splitOn '\n').headD [])
        (encodeMetadata entry.metadata)))) (sampleStored entry) := by
  have hresult : sampleCli.exec (sampleStored entry).db (showArgs "w.kdbx".toList query.groupPath)
      ["pw".toList] = (⟨true, printed ((entry.secret.splitOn '\n').headD [])
        (encodeMetadata entry.metadata), []⟩, (sampleStored entry).db) := by
    simp [sampleCli, sampleExec, sampleStored, showArgs, h]
  have hget := @exists_calm_get SampleInstant SampleDb sampleCli sampleVault (sampleStored entry) _
    query "w.kdbx".toList "pw".toList rfl rfl
  simp only [hresult] at hget
  exact hget trivial

def sampleMetadata (project : Text) : EntryMetadata SampleInstant where
  provider := "github".toList
  project := project
  sourceDescription := "a key".toList
  acquiredVia := .manualEntry
  acquiredAt := .noon
  expiresAt := none
  tier := .tier0

theorem traceable_sampleMetadata {project : Text} (h : trim project ≠ []) :
    (sampleMetadata project).Traceable := by
  have hdescription : trim "a key".toList ≠ [] := by decide
  exact ⟨h, hdescription⟩

section Entries

variable [DateTimeUtc T]

theorem readFields_map_stripCr (pieces : List Text) :
    readFields (pieces.map stripCr) = readFields pieces := by
  unfold readFields
  rw [List.foldl_map]
  congr 1
  funext fields line
  exact insertLine_stripCr fields line

theorem readEntry_printed (query : SecretQuery) {password first : Text} {rest : List Text}
    (notes : Text) (h : password.splitOn '\n' = first :: rest) :
    (readEntry query (printed password notes) : Except VaultError (VaultEntry T)) =
      match decodeFields fun key => (readFields (lines notes) key).or (readFields rest key) with
      | none => .error (.unparseableMetadata query.project query.label)
      | some metadata => .ok (VaultEntry.new query.label metadata (stripCr first)) := by
  have hlines : lines (printed password notes) =
      stripCr first :: (rest.map stripCr ++ lines (notes ++ ['\n'])) := by
    unfold printed
    rw [lines_append, h, List.map_cons, List.cons_append]
  have hpieces : ∀ piece ∈ rest.map stripCr ++ lines (notes ++ ['\n']), '\n' ∉ piece := by
    intro piece hmem
    have hmem' : piece ∈ lines (printed password notes) := by
      rw [hlines]
      exact List.mem_cons_of_mem _ hmem
    exact newline_not_mem_lines hmem'
  have hfields : readFields (lines (['\n'].intercalate
      (rest.map stripCr ++ lines (notes ++ ['\n'])))) =
      fun key => (readFields (lines notes) key).or (readFields rest key) := by
    funext key
    have hnotes : readFields (lines (notes ++ ['\n'])) key = readFields (lines notes) key := by
      rw [readFields_lines_append notes [] key]
      rfl
    rw [readFields_lines_intercalate hpieces, readFields_append, hnotes, readFields_map_stripCr]
  have hdecode : (decodeMetadata (['\n'].intercalate (lines (printed password notes)).tail) :
      Option (EntryMetadata T)) =
      decodeFields fun key => (readFields (lines notes) key).or (readFields rest key) := by
    unfold decodeMetadata
    rw [hlines, List.tail_cons, hfields]
  have hfirst : (lines (printed password notes)).headD [] = stripCr first := by
    rw [hlines, List.headD_cons]
  rw [← hdecode, ← hfirst]
  rfl

variable [LawfulDateTimeUtc T] {cli : KeepassCli Db} {vault : Vault} {w w' w'' : World Db}

/-- An entry printed and read again is the entry, just when its secret fits a line and its
metadata comes through the notes. -/
theorem readEntry_printed_eq_iff {label secret password : Text} {metadata : EntryMetadata T}
    (htraceable : metadata.Traceable) (htaken : TakenFrom secret password) :
    let entry := VaultEntry.new label metadata secret
    readEntry entry.query (printed password (encodeMetadata metadata)) = .ok entry ↔
      SecretKept secret ∧ Lossless metadata := by
  intro entry
  obtain ⟨first, rest, rest', hpassword, hsecret⟩ := htaken.splitOn
  have hfirst : '\n' ∉ first := not_mem_of_mem_splitOn (s := secret) (by rw [hsecret]; simp)
  have hone (hline : '\n' ∉ secret) : first = secret ∧ rest = [] := by
    rw [htaken.eq_of_newline_not_mem hline, List.splitOn_eq_singleton hline,
      List.cons.injEq] at hpassword
    exact ⟨hpassword.1.symm, hpassword.2.symm⟩
  have hread : (fun key => (readFields (lines (encodeMetadata metadata)) key).or
      (readFields [] key)) = readFields (lines (encodeMetadata metadata)) := by
    funext key
    rw [readFields_nil, Option.or_none]
  have hdecode := decodeMetadata_encodeMetadata_iff htraceable
  unfold decodeMetadata at hdecode
  rw [readEntry_printed _ _ hpassword]
  refine ⟨fun h => ?_, fun ⟨⟨hline, hcr⟩, hlossless⟩ => ?_⟩
  · cases hfields : (decodeFields fun key => (readFields (lines (encodeMetadata metadata)) key).or
        (readFields rest key) : Option (EntryMetadata T)) with
    | none =>
      rw [hfields] at h
      cases h
    | some read =>
      rw [hfields] at h
      simp only [Except.ok.injEq] at h
      have hmetadata : read = metadata := congrArg VaultEntry.metadata h
      have hkept : stripCr first = secret := congrArg VaultEntry.secret h
      have hline : '\n' ∉ secret := fun hmem =>
        hfirst (mem_of_mem_stripCr (by rw [hkept]; exact hmem))
      obtain ⟨rfl, rfl⟩ := hone hline
      rw [hread, hmetadata] at hfields
      exact ⟨⟨hline, stripCr_eq_self_iff.1 hkept⟩, hdecode.1 hfields⟩
  · obtain ⟨rfl, rfl⟩ := hone hline
    rw [hread, hdecode.2 hlossless, stripCr_eq_self hcr]
    rfl

/-- A put that succeeds, followed by an undisturbed get of the same key, gives back the very
entry, just when the secret is one line with no carriage return at its end and the
metadata is what the notes keep. -/
theorem get_after_put_iff (laws : Documented cli) {label secret : Text}
    {metadata : EntryMetadata T} (htraceable : metadata.Traceable)
    (hput : Exec (step cli) w
      (vault.put (VaultEntry.new label metadata secret) : Action T _ _).run (some (.ok ())) w')
    {outcome : Except VaultError (VaultEntry T)}
    (hget : Exec (calmStep cli) w'
      (vault.get (VaultEntry.new label metadata secret).query : Action T _ _).run
      (some outcome) w'') :
    outcome = .ok (VaultEntry.new label metadata secret) ↔
      SecretKept secret ∧ Lossless metadata := by
  obtain ⟨⟨password, htaken, hentries⟩, vaultPassword, hkeystore, hunlocks⟩ :=
    (exec_put laws hput).2 rfl
  have hentry : cli.entryAt w'.db (VaultEntry.new label metadata secret).query.groupPath =
      some (password, encodeMetadata metadata) := by
    rw [hentries, ← VaultEntry.new_groupPath]
    simp [VaultEntry.new]
  obtain ⟨db, hdb⟩ := exists_db hget
  rw [calm_get laws hentry hkeystore hunlocks hget hdb]
  exact readEntry_printed_eq_iff htraceable htaken

theorem get_after_put_iff_plain :
    let entry := VaultEntry.new "pat".toList (sampleMetadata "redaktly".toList) "ghs_a".toList
    ∃ w' w'' outcome,
      Exec (step sampleCli) sampleWorld (sampleVault.put entry : Action SampleInstant _ _).run
        (some (.ok ())) w' ∧
      Exec (calmStep sampleCli) w' (sampleVault.get entry.query : Action SampleInstant _ _).run
        (some outcome) w'' ∧
      (outcome = .ok entry ↔
        SecretKept "ghs_a".toList ∧ Lossless (sampleMetadata "redaktly".toList)) := by
  intro entry
  have hput := calm_to_step (samplePut entry)
  have hget := sampleGet entry entry.query rfl
  exact ⟨_, _, _, hput, hget,
    get_after_put_iff sampleCli_documented (traceable_sampleMetadata (by decide)) hput hget⟩

/-- A secret of two lines, such as a PEM key, comes back as its first line. -/
theorem not_get_after_put :
    ¬ ∀ (cli : KeepassCli SampleDb) (vault : Vault) (w w' w'' : World SampleDb)
      (label secret : Text) (metadata : EntryMetadata SampleInstant)
      (outcome : Except VaultError (VaultEntry SampleInstant)),
      let entry := VaultEntry.new label metadata secret
      Documented cli → metadata.Traceable → cli.entryAt w.db entry.groupPath = none →
      Exec (step cli) w (vault.put entry : Action SampleInstant _ _).run (some (.ok ())) w' →
      Exec (calmStep cli) w' (vault.get entry.query : Action SampleInstant _ _).run
        (some outcome) w'' →
      outcome = .ok entry := by
  intro h
  let entry := VaultEntry.new "pat".toList (sampleMetadata "redaktly".toList) "BEGIN\nKEY".toList
  have heq := h sampleCli sampleVault sampleWorld _ _ "pat".toList "BEGIN\nKEY".toList
    (sampleMetadata "redaktly".toList) _ sampleCli_documented
    (traceable_sampleMetadata (by decide)) rfl (calm_to_step (samplePut entry))
    (sampleGet entry entry.query rfl)
  exact absurd heq (by decide)

/-- A history in which the store is written only by puts of valid entries, each of which may
succeed or fail. -/
inductive Puts (cli : KeepassCli Db) (vault : Vault) (w : World Db) :
    List (VaultEntry T) → World Db → Prop
  | start : Puts cli vault w [] w
  | put {entries : List (VaultEntry T)} {w' w'' : World Db} (history : Puts cli vault w entries w')
      {label secret : Text} {metadata : EntryMetadata T} (htraceable : metadata.Traceable)
      {value : Option (Except VaultError Unit)}
      (hput : Exec (step cli) w'
        (vault.put (VaultEntry.new label metadata secret) : Action T _ _).run value w'') :
      Puts cli vault w (entries ++ [VaultEntry.new label metadata secret]) w''

def HoldsOnly (cli : KeepassCli Db) (entries : List (VaultEntry T)) (db : Db) : Prop :=
  ∀ path password notes, cli.entryAt db path = some (password, notes) →
    ∃ entry ∈ entries, entry.query.groupPath = path ∧ TakenFrom entry.secret password ∧
      notes = encodeMetadata entry.metadata

omit [LawfulDateTimeUtc T] in
theorem holdsOnly_put (laws : Documented cli) {entries : List (VaultEntry T)} {label secret : Text}
    {metadata : EntryMetadata T} {value : Option (Except VaultError Unit)}
    (hput : Exec (step cli) w
      (vault.put (VaultEntry.new label metadata secret) : Action T _ _).run value w')
    (h : HoldsOnly cli entries w.db) :
    HoldsOnly cli (entries ++ [VaultEntry.new label metadata secret]) w'.db := by
  intro path password notes hentry
  have hold (hentry : cli.entryAt w.db path = some (password, notes)) :
      ∃ entry ∈ entries ++ [VaultEntry.new label metadata secret], entry.query.groupPath = path ∧
        TakenFrom entry.secret password ∧ notes = encodeMetadata entry.metadata := by
    obtain ⟨entry, hmem, hentry⟩ := h path password notes hentry
    exact ⟨entry, List.mem_append_left _ hmem, hentry⟩
  obtain hsame | ⟨taken, htaken, hentries⟩ := (exec_put laws hput).1
  · rw [hsame.1] at hentry
    exact hold hentry
  · rw [hentries] at hentry
    by_cases hpath : path = (VaultEntry.new label metadata secret).groupPath
    · rw [hpath, Function.update_self, Option.some.injEq, Prod.mk.injEq] at hentry
      refine ⟨VaultEntry.new label metadata secret, by simp, hpath.symm, ?_, hentry.2.symm⟩
      rw [← hentry.1]
      exact htaken
    · rw [Function.update_of_ne hpath] at hentry
      exact hold hentry

omit [LawfulDateTimeUtc T] in
theorem Puts.holdsOnly (laws : Documented cli) {entries : List (VaultEntry T)}
    (hempty : ∀ path, cli.entryAt w.db path = none) (history : Puts cli vault w entries w') :
    HoldsOnly cli entries w'.db := by
  induction history with
  | start =>
    intro path password notes hentry
    rw [hempty] at hentry
    cases hentry
  | put _ _ hput ih => exact holdsOnly_put laws hput ih

/-- A put that cannot mislead a query: it goes to another path, or it is of the very project
and label of the query, with a project that its notes keep and a secret that fits a line. -/
def Unmistakable (query : SecretQuery) (entry : VaultEntry T) : Prop :=
  entry.query.groupPath = query.groupPath →
    entry.query = query ∧ ProjectKept entry.metadata ∧ SecretKept entry.secret

/-- In a history of puts none of which can mislead the query, what a get returns was put
under the project and the label of the query, and names no other project. -/
theorem get_within_project (laws : Documented cli) {query : SecretQuery}
    {entries : List (VaultEntry T)} (hempty : ∀ path, cli.entryAt w.db path = none)
    (history : Puts cli vault w entries w')
    (hunmistakable : ∀ entry ∈ entries, Unmistakable query entry) {entry : VaultEntry T}
    (hget : Exec (step cli) w' (vault.get query : Action T _ _).run (some (.ok entry)) w'') :
    entry.metadata.project = query.project ∧ entry.label = query.label ∧
      entry.groupPath = query.groupPath ∧
      ∃ stored ∈ entries, stored.query = query ∧ stored.secret = entry.secret := by
  obtain ⟨password, notes, hentry, hread⟩ := exec_get_ok laws hget
  obtain ⟨stored, hmem, hpath, htaken, rfl⟩ := history.holdsOnly laws hempty _ _ _ hentry
  obtain ⟨hquery, hproject, hsecret⟩ := hunmistakable stored hmem hpath
  have hline := htaken.eq_of_newline_not_mem hsecret.1
  rw [readEntry_printed query _ (List.splitOn_eq_singleton (hline ▸ hsecret.1))] at hread
  simp only [readFields_nil, Option.or_none] at hread
  cases hfields : (decodeFields fun key =>
      readFields (lines (encodeMetadata stored.metadata)) key : Option (EntryMetadata T)) with
  | none =>
    rw [hfields] at hread
    cases hread
  | some metadata =>
    rw [hfields] at hread
    simp only [Except.ok.injEq] at hread
    obtain ⟨-, -, -, -, -, hnamed, -⟩ := decodeFields_eq_some_iff.1 hfields
    rw [readFields_project hproject, Option.some.injEq] at hnamed
    have hsame : metadata.project = query.project := by
      rw [← hnamed, ← hquery]
      rfl
    rw [← hread]
    refine ⟨hsame, rfl, ?_, stored, hmem, hquery, ?_⟩
    · simp only [VaultEntry.new, SecretQuery.groupPath, hsame]
    · rw [hline, stripCr_eq_self hsecret.2]
      rfl

theorem samplePuts {label secret project : Text} (h : trim project ≠ []) :
    Puts sampleCli sampleVault sampleWorld [VaultEntry.new label (sampleMetadata project) secret]
      (sampleStored (VaultEntry.new label (sampleMetadata project) secret)) :=
  .put .start (traceable_sampleMetadata h) (calm_to_step (samplePut _))

theorem get_within_project_plain :
    let entry := VaultEntry.new "pat".toList (sampleMetadata "redaktly".toList) "ghs_a".toList
    Exec (step sampleCli) (sampleStored entry)
        (sampleVault.get entry.query : Action SampleInstant _ _).run (some (.ok entry))
        (sampleStored entry) ∧
      entry.metadata.project = entry.query.project ∧ entry.label = entry.query.label ∧
      entry.groupPath = entry.query.groupPath ∧
      ∃ stored ∈ [entry], stored.query = entry.query ∧ stored.secret = entry.secret := by
  intro entry
  have hread : readEntry entry.query (printed ((entry.secret.splitOn '\n').headD [])
      (encodeMetadata entry.metadata)) = .ok entry := by decide
  have hget := calm_to_step (sampleGet entry entry.query rfl)
  rw [hread] at hget
  have hproject : ProjectKept entry.metadata :=
    ⟨by decide, namesNoOtherProject_of_newline_not_mem (by decide), nofun⟩
  have hunmistakable : ∀ stored ∈ [entry], Unmistakable entry.query stored := by
    simp only [List.mem_singleton, forall_eq]
    exact fun _ => ⟨rfl, hproject, by decide, by decide⟩
  exact ⟨hget, get_within_project sampleCli_documented (fun _ => rfl) (samplePuts (by decide))
    hunmistakable hget⟩

/-- A label with a slash: project `a/b` reads what was put under project `a`. -/
theorem not_get_within_project :
    ¬ ∀ (cli : KeepassCli SampleDb) (vault : Vault) (w w' w'' : World SampleDb)
      (entries : List (VaultEntry SampleInstant)) (query : SecretQuery)
      (entry : VaultEntry SampleInstant),
      Documented cli → (∀ path, cli.entryAt w.db path = none) → Puts cli vault w entries w' →
      Exec (step cli) w' (vault.get query : Action SampleInstant _ _).run
        (some (.ok entry)) w'' →
      entry.metadata.project = query.project ∧ entry.label = query.label ∧
        entry.groupPath = query.groupPath ∧
        ∃ stored ∈ entries, stored.query = query ∧ stored.secret = entry.secret := by
  intro h
  let stored := VaultEntry.new "b/c".toList (sampleMetadata "a".toList) "ghs_a".toList
  let query : SecretQuery := ⟨"a/b".toList, "c".toList⟩
  have hread : readEntry query (printed ((stored.secret.splitOn '\n').headD [])
      (encodeMetadata stored.metadata)) =
      .ok (VaultEntry.new "c".toList (sampleMetadata "a".toList) "ghs_a".toList) := by decide
  have hget := calm_to_step (sampleGet stored query (by decide))
  rw [hread] at hget
  have hwrong := (h sampleCli sampleVault sampleWorld _ _ _ query _ sampleCli_documented
    (fun _ => rfl) (samplePuts (by decide)) hget).1
  exact absurd hwrong (by decide)

end Entries

end Custodly.Vault
