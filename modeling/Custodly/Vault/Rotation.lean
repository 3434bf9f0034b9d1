import Custodly.Vault.RoundTrip

/-! A second put under a key that is taken (`custodly-vault/src/vault.rs`).  `ensure_group`
passes over a refused `mkdir`; `put` only ever adds, so what was stored first stays. -/
namespace Custodly.Vault
open Library Library.Strings Library.Interaction Library.Surroundings Custodly.Core Host

variable {T Db : Type}

/-- A `keepassxc-cli` that neither adds to a path that is taken nor makes a group twice. -/
structure Refusing (cli : KeepassCli Db) (hasGroup : Db → Text → Prop) : Prop where
  add_taken : ∀ d notes db path stdin, (cli.entryAt d path).isSome →
    (cli.exec d (addArgs notes db path) stdin).1.success = false
  mkdir_taken : ∀ d db project stdin, hasGroup d project →
    (cli.exec d (mkdirArgs db project) stdin).1.success = false

/-- Puts and gets, one after the other, each of which may succeed or fail. -/
inductive Uses (T : Type) [DateTimeUtc T] (cli : KeepassCli Db) (vault : Vault) (w : World Db) :
    World Db → Prop
  | start : Uses T cli vault w w
  | put {w' w'' : World Db} (uses : Uses T cli vault w w') {entry : VaultEntry T}
      {value : Option (Except VaultError Unit)}
      (hput : Exec (step cli) w' (vault.put entry : Action T _ _).run value w'') :
      Uses T cli vault w w''
  | get {w' w'' : World Db} (uses : Uses T cli vault w w') {query : SecretQuery}
      {value : Option (Except VaultError (VaultEntry T))}
      (hget : Exec (step cli) w' (vault.get query : Action T _ _).run value w'') :
      Uses T cli vault w w''

theorem step_keystore {cli : KeepassCli Db} {w w' : World Db} {event : Event (Call T) (Reply T)}
    (h : step cli w event w') : w'.keystore = w.keystore ∨
      ∃ name password, w'.keystore = Function.update w.keystore name (some password) := by
  rcases step_cases h with rfl | ⟨-, hsame⟩ | ⟨name, password, rfl⟩
  · exact .inl rfl
  · exact .inl hsame
  · exact .inr ⟨name, password, rfl⟩

theorem exec_keystore_isSome {α : Type} {cli : KeepassCli Db} {w w' : World Db} {name : Text}
    {program : Program (Call T) (Reply T) α} {value : Option α}
    (h : Exec (step cli) w program value w') (hs : (w.keystore name).isSome) :
    (w'.keystore name).isSome := by
  obtain ⟨trace, -, hfollows⟩ := h
  apply @Follows.invariant _ _ _ _ (fun w => (w.keystore name).isSome) (fun _ => True) _ trace _ _ _
    hfollows hs
  · intro w event w' _ hstep hs
    rcases step_keystore hstep with hsame | ⟨name', password, hset⟩
    · rwa [hsame]
    · rw [hset]
      by_cases hname : name = name'
      · simp [hname]
      · rwa [Function.update_of_ne hname]
  · exact fun _ _ => trivial

section Taken

variable [DateTimeUtc T] {cli : KeepassCli Db} {hasGroup : Db → Text → Prop} {vault : Vault}
  {w w' : World Db} {path : Text} {content : Text × Text}

theorem entryAt_put (laws : Documented cli) (refusing : Refusing cli hasGroup)
    {entry : VaultEntry T} {value : Option (Except VaultError Unit)}
    (h : Exec (step cli) w (vault.put entry : Action T _ _).run value w')
    (hentry : cli.entryAt w.db path = some content) : cli.entryAt w'.db path = some content := by
  obtain ⟨made, hsame, hdb, -⟩ := exec_put_add laws h
  rw [← hsame.1] at hentry
  rcases hdb with hdb | ⟨db, password, hdb⟩
  · rwa [hdb]
  · rw [hdb]
    cases hsuccess : (cli.add entry made db password).1.success with
    | false =>
      have hrefused : cli.Same made (cli.add entry made db password).2 :=
        laws.add_refused _ _ _ _ _ hsuccess
      rwa [hrefused.1]
    | true =>
      obtain ⟨-, -, taken, -, hentries⟩ := laws.add_accepted _ _ _ _ _ _ hsuccess
      have hother : path ≠ entry.groupPath := by
        intro hpath
        have hrefused := refusing.add_taken made (encodeMetadata entry.metadata) db
          entry.groupPath [password, entry.secret, entry.secret] (by rw [← hpath, hentry]; rfl)
        change (cli.add entry made db password).1.success = false at hrefused
        rw [hsuccess] at hrefused
        cases hrefused
      rwa [show cli.entryAt (cli.add entry made db password).2 = _ from hentries,
        Function.update_of_ne hother]

theorem exec_get_same (laws : Documented cli) {query : SecretQuery}
    {value : Option (Except VaultError (VaultEntry T))}
    (h : Exec (step cli) w (vault.get query : Action T _ _).run value w') :
    cli.Same w.db w'.db := by
  have hshow {db : Text} {value : Option (Except VaultError Text)} {w' : World Db}
      (h : Exec (step cli) w ((vault.run (showArgs db query.groupPath) []).adapt
        fun _ => VaultError.notFound query.project query.label : Action T _ _).run value w') :
      cli.Same w.db w'.db := by
    rw [run_adapt, Exec.map_iff] at h
    obtain ⟨value', hrun, -⟩ := h
    obtain ⟨hsame | ⟨password, hdone⟩, -⟩ := exec_run hrun
    · rw [hsame]
      exact .refl cli _
    · rw [hdone]
      exact laws.show_same _ _ _ _
  unfold get at h
  obtain ⟨db, w₁, hpath, hrest⟩ | ⟨e, -, hfail⟩ | ⟨-, hfail⟩ := Exec.tryBind_iff.1 h
  · rw [(exec_dbStr hpath).1] at hrest
    obtain ⟨out, w₂, hout, hread⟩ | ⟨e, -, hfail⟩ | ⟨-, hfail⟩ := Exec.tryBind_iff.1 hrest
    · rw [← (Exec.done_iff.1 hread).2]
      exact hshow hout
    · exact hshow hfail
    · exact hshow hfail
  · rw [(exec_dbStr hfail).1]
    exact .refl cli _
  · rw [(exec_dbStr hfail).1]
    exact .refl cli _

/-- Whatever the vault is used for, a path that is taken keeps what it holds, and the
keystore a password. -/
theorem Uses.keeps (laws : Documented cli) (refusing : Refusing cli hasGroup)
    (uses : Uses T cli vault w w') (hentry : cli.entryAt w.db path = some content)
    (hkeystore : (w.keystore vault.keyringName).isSome) :
    cli.entryAt w'.db path = some content ∧ (w'.keystore vault.keyringName).isSome := by
  induction uses with
  | start => exact ⟨hentry, hkeystore⟩
  | put _ hput ih => exact ⟨entryAt_put laws refusing hput ih.1, exec_keystore_isSome hput ih.2⟩
  | get _ hget ih =>
    apply And.intro _ (exec_keystore_isSome hget ih.2)
    rw [(exec_get_same laws hget).1]
    exact ih.1

omit [DateTimeUtc T] in
theorem calm_ensureGroup {project db : Text} {value : Option (Except VaultError Unit)}
    (hdb : vault.dbPath.toStr = some db) (hkeystore : (w.keystore vault.keyringName).isSome)
    (h : Exec (calmStep cli) w (vault.ensureGroup project : Action T _ _).run value w') :
    value = some (.ok ()) := by
  obtain ⟨password, hpassword⟩ := Option.isSome_iff_exists.1 hkeystore
  unfold ensureGroup at h
  rw [dbStr_eq_pure hdb, pure_bind] at h
  obtain ⟨outcome, between, -, hdone⟩ | ⟨-, hrun⟩ := Exec.bind_iff.1 h
  · exact (Exec.done_iff.1 hdone).1
  · cases calm_run hpassword hrun

theorem calm_put_taken (laws : Documented cli) (refusing : Refusing cli hasGroup)
    {entry : VaultEntry T} {db : Text} {value : Option (Except VaultError Unit)}
    (hdb : vault.dbPath.toStr = some db) (hkeystore : (w.keystore vault.keyringName).isSome)
    (htaken : (cli.entryAt w.db entry.groupPath).isSome)
    (h : Exec (calmStep cli) w (vault.put entry : Action T _ _).run value w') :
    ∃ stderr, value = some (.error (.cliFailed stderr)) := by
  have hadd {w₁ : World Db} {value : Option (Except VaultError Text)}
      (hgroup : Exec (calmStep cli) w (vault.ensureGroup entry.metadata.project : Action T _ _).run
        (some (.ok ())) w₁)
      (h : Exec (calmStep cli) w₁ (vault.run (addArgs (encodeMetadata entry.metadata) db
        entry.groupPath) [entry.secret, entry.secret] : Action T _ _).run value w') :
      ∃ stderr, value = some (.error (.cliFailed stderr)) := by
    have hgroup := calm_to_step hgroup
    obtain ⟨password, hpassword⟩ :=
      Option.isSome_iff_exists.1 (exec_keystore_isSome hgroup hkeystore)
    rw [← (exec_ensureGroup laws hgroup).1] at htaken
    have hrefused := refusing.add_taken w₁.db (encodeMetadata entry.metadata) db entry.groupPath
      [password, entry.secret, entry.secret] htaken
    have houtcome := calm_run hpassword h
    simp only [hrefused, Bool.false_eq_true, if_false] at houtcome
    exact ⟨_, houtcome⟩
  unfold put at h
  obtain ⟨_, w₁, hgroup, hrest⟩ | ⟨e, -, hfail⟩ | ⟨-, hfail⟩ := Exec.tryBind_iff.1 h
  · rw [dbStr_eq_pure hdb, pure_bind] at hrest
    obtain ⟨out, w₂, hout, hdone⟩ | ⟨e, rfl, hfail⟩ | ⟨rfl, hfail⟩ := Exec.tryBind_iff.1 hrest
    · rw [(Exec.done_iff.1 hdone).2] at hout
      obtain ⟨stderr, hvalue⟩ := hadd hgroup hout
      cases hvalue
    · obtain ⟨stderr, hvalue⟩ := hadd hgroup hfail
      cases hvalue
      exact ⟨stderr, rfl⟩
    · obtain ⟨stderr, hvalue⟩ := hadd hgroup hfail
      cases hvalue
  · cases calm_ensureGroup hdb hkeystore hfail
  · cases calm_ensureGroup hdb hkeystore hfail

/-- A put replaces what its key held: it succeeds, and an undisturbed get of the key returns
the entry. -/
def Replaces (cli : KeepassCli Db) (vault : Vault) (entry : VaultEntry T)
    (value : Option (Except VaultError Unit)) (w' : World Db) : Prop :=
  value = some (.ok ()) ∧ ∀ outcome w'',
    Exec (calmStep cli) w' (vault.get entry.query : Action T _ _).run (some outcome) w'' →
      outcome = .ok entry

/-- Once a put under a key has succeeded, no later one replaces it: undisturbed, it fails with
the refusal of the child, and the key still holds the first entry. -/
theorem not_replaces_taken (laws : Documented cli) (refusing : Refusing cli hasGroup)
    {w₁ w₂ w₃ : World Db} {label secret secret' : Text} {metadata metadata' : EntryMetadata T}
    (hproject : metadata'.project = metadata.project)
    (hfirst : Exec (step cli) w
      (vault.put (VaultEntry.new label metadata secret) : Action T _ _).run (some (.ok ())) w₁)
    (uses : Uses T cli vault w₁ w₂) {value : Option (Except VaultError Unit)}
    (hsecond : Exec (calmStep cli) w₂
      (vault.put (VaultEntry.new label metadata' secret') : Action T _ _).run value w₃) :
    ¬ Replaces cli vault (VaultEntry.new label metadata' secret') value w₃ ∧
      (∃ stderr, value = some (.error (.cliFailed stderr))) ∧
      ∃ password, TakenFrom secret password ∧
        cli.entryAt w₃.db (VaultEntry.new label metadata' secret').query.groupPath =
          some (password, encodeMetadata metadata) := by
  have hkey : (VaultEntry.new label metadata' secret').groupPath =
      (VaultEntry.new label metadata secret).groupPath := by
    unfold VaultEntry.new
    rw [hproject]
  obtain ⟨⟨password, htaken, hentries⟩, vaultPassword, hkeystore, -⟩ :=
    (exec_put laws hfirst).2 rfl
  have hheld : cli.entryAt w₁.db (VaultEntry.new label metadata' secret').groupPath =
      some (password, encodeMetadata metadata) := by
    rw [hkey, hentries, Function.update_self]
    rfl
  obtain ⟨hlater, hpassword⟩ := uses.keeps laws refusing hheld (by rw [hkeystore]; rfl)
  obtain ⟨db, hdb⟩ : ∃ db, vault.dbPath.toStr = some db := by
    unfold put ensureGroup at hfirst
    obtain ⟨_, _, hgroup, -⟩ | ⟨_, hvalue, -⟩ | ⟨hvalue, -⟩ := Exec.tryBind_iff.1 hfirst
    · exact exists_db hgroup
    · cases hvalue
    · cases hvalue
  obtain ⟨stderr, hvalue⟩ := calm_put_taken laws refusing hdb hpassword
    (by rw [hlater]; rfl) hsecond
  refine ⟨fun hreplaces => ?_, ⟨stderr, hvalue⟩, password, htaken, ?_⟩
  · have hok := hreplaces.1
    rw [hvalue] at hok
    cases hok
  · rw [← VaultEntry.new_groupPath]
    exact entryAt_put laws refusing (calm_to_step hsecond) hlater

end Taken

def groupedExec (d : SampleDb × List Text) (args stdin : List Text) :
    ProcessOutput × SampleDb × List Text :=
  match args with
  | [_, _, _, project] =>
      if stdin.head? ≠ some d.1.password ∨ project ∈ d.2 then (refused, d)
      else (⟨true, [], []⟩, d.1, project :: d.2)
  | args => ((sampleExec d.1 args stdin).1, (sampleExec d.1 args stdin).2, d.2)

def groupedCli : KeepassCli (SampleDb × List Text) where
  exec := groupedExec
  entryAt d := d.1.entries
  unlocks d password := d.1.password = password

theorem groupedCli_documented : Documented groupedCli where
  mkdir d db project stdin := by
    change groupedCli.Same d (groupedExec d (mkdirArgs db project) stdin).2
    unfold groupedExec mkdirArgs
    simp only
    split <;> exact .refl groupedCli d
  add_refused d notes db path stdin hrefused :=
    sampleCli_documented.add_refused d.1 notes db path stdin hrefused
  add_accepted d notes db path vaultPassword secret :=
    sampleCli_documented.add_accepted d.1 notes db path vaultPassword secret
  show_same d db path stdin := sampleCli_documented.show_same d.1 db path stdin
  show_accepted d db path stdin := sampleCli_documented.show_accepted d.1 db path stdin
  show_success d db path vaultPassword hunlocks hentry :=
    sampleCli_documented.show_success d.1 db path vaultPassword hunlocks hentry

theorem groupedCli_refusing : Refusing groupedCli fun d project => project ∈ d.2 where
  add_taken d notes db path stdin htaken := by
    change (sampleExec d.1 (addArgs notes db path) stdin).1.success = false
    have hthere : (d.1.entries path).isSome := htaken
    by_cases hlocked : stdin.head? = some d.1.password
    · simp [sampleExec, addArgs, hlocked, hthere, refused]
    · simp [sampleExec, hlocked, refused]
  mkdir_taken d db project stdin hthere := by
    change (groupedExec d (mkdirArgs db project) stdin).1.success = false
    simp [groupedExec, mkdirArgs, hthere, refused]

def groupedWorld : World (SampleDb × List Text) :=
  ⟨(⟨"pw".toList, fun _ => none⟩, []), fun _ => some "pw".toList, none⟩

def expiredEntry : VaultEntry SampleInstant :=
  VaultEntry.new "pat".toList (sampleMetadata "redaktly".toList) "ghs_a".toList

def renewedEntry : VaultEntry SampleInstant :=
  VaultEntry.new "pat".toList (sampleMetadata "redaktly".toList) "ghs_b".toList

def groupedStored : World (SampleDb × List Text) :=
  ⟨(⟨"pw".toList, Function.update (fun _ => none) expiredEntry.groupPath
    (some ("ghs_a".toList, encodeMetadata expiredEntry.metadata))⟩, ["redaktly".toList]),
    fun _ => some "pw".toList, none⟩

theorem groupedFirst : Exec (calmStep groupedCli) groupedWorld
    (sampleVault.put expiredEntry : Action SampleInstant _ _).run (some (.ok ())) groupedStored :=
  @exists_calm_put SampleInstant _ groupedCli sampleVault groupedWorld _ expiredEntry
    "w.kdbx".toList "pw".toList rfl rfl

theorem groupedSecond : Exec (calmStep groupedCli) groupedStored
    (sampleVault.put renewedEntry : Action SampleInstant _ _).run
    (some (.error (.cliFailed "refused".toList))) groupedStored :=
  @exists_calm_put SampleInstant _ groupedCli sampleVault groupedStored _ renewedEntry
    "w.kdbx".toList "pw".toList rfl rfl

theorem not_replaces_taken_renewed :
    ¬ Replaces groupedCli sampleVault renewedEntry (some (.error (.cliFailed "refused".toList)))
        groupedStored ∧
      (∃ stderr, (some (.error (.cliFailed "refused".toList)) : Option (Except VaultError Unit)) =
        some (.error (.cliFailed stderr))) ∧
      ∃ password, TakenFrom "ghs_a".toList password ∧
        groupedCli.entryAt groupedStored.db renewedEntry.query.groupPath =
          some (password, encodeMetadata (sampleMetadata "redaktly".toList)) :=
  not_replaces_taken groupedCli_documented groupedCli_refusing rfl (calm_to_step groupedFirst)
    .start groupedSecond

/-- The renewed token does not replace the expired one. -/
theorem not_replaces :
    ¬ ∀ (cli : KeepassCli (SampleDb × List Text)) (hasGroup : SampleDb × List Text → Text → Prop)
      (vault : Vault) (w w₁ w₂ w₃ : World (SampleDb × List Text)) (label secret secret' : Text)
      (metadata metadata' : EntryMetadata SampleInstant)
      (value : Option (Except VaultError Unit)),
      Documented cli → Refusing cli hasGroup → (∀ path, cli.entryAt w.db path = none) →
      metadata.Traceable → metadata'.Traceable → metadata'.project = metadata.project →
      SecretKept secret → SecretKept secret' → Lossless metadata → Lossless metadata' →
      Exec (step cli) w (vault.put (VaultEntry.new label metadata secret) :
        Action SampleInstant _ _).run (some (.ok ())) w₁ →
      Uses SampleInstant cli vault w₁ w₂ →
      Exec (calmStep cli) w₂ (vault.put (VaultEntry.new label metadata' secret') :
        Action SampleInstant _ _).run value w₃ →
      Replaces cli vault (VaultEntry.new label metadata' secret') value w₃ := by
  intro h
  have htraceable := traceable_sampleMetadata (show trim "redaktly".toList ≠ [] by decide)
  have hlossless : Lossless (sampleMetadata "redaktly".toList) :=
    ⟨by decide, by decide, by decide, nofun⟩
  have hkept : SecretKept "ghs_a".toList ∧ SecretKept "ghs_b".toList := by
    unfold SecretKept
    decide
  have hreplaces := h groupedCli _ sampleVault groupedWorld groupedStored groupedStored
    groupedStored "pat".toList "ghs_a".toList "ghs_b".toList _ _ _ groupedCli_documented
    groupedCli_refusing (fun _ => rfl) htraceable htraceable rfl hkept.1 hkept.2 hlossless
    hlossless (calm_to_step groupedFirst) .start groupedSecond
  cases hreplaces.1

end Custodly.Vault
