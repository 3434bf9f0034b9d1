import Custodly.Cli.Audit
import Custodly.Cli.Together
import Custodly.Vault.Amidst

/-! A git credential helper that begins once a mint has reported that it cached its token, while
any number of other commands are at work on the same vault (`custodly-cli/src/main.rs`): it
prints exactly that token. -/
namespace Custodly.Cli
open Library Library.Strings Library.KeyValue Library.Interaction Library.Surroundings
open Library.Interleaving Library.Processes Library.WriteOnce Custodly.Core Github Host Vault

variable {T EncodingKey Key Cipher Db ι : Type}

theorem setsNothing_of_offVault {request : Call T} (h : OffVault request) :
    SetsNothing request := by
  cases request with
  | setPassword => exact (h trivial).elim
  | _ => exact trivial

theorem keeps_of_offVault {ε α : Type} {body : Action T ε α} (h : body.run.Issues OffVault) :
    body.run.Keeps SetsWhereNone :=
  h.keeps fun past request hoff =>
    setsWhereNone_of_setsNothing past request (setsNothing_of_offVault hoff)

section Keeps

variable [DateTimeUtc T] {jwt : Jwt EncodingKey} {crypto : Crypto Key Cipher}

theorem MintGithub.keeps_cacheLocally (args : MintGithub) (minted : MintedToken T) :
    (args.cacheLocally minted).run.Keeps SetsWhereNone := by
  unfold cacheLocally
  rw [run_call_bind]
  refine fun past => ⟨setsWhereNone_of_setsNothing _ _ trivial, fun acquiredAt => ?_⟩
  refine keeps_attempt_bind (fun metadata => ?_) _
  refine (keeps_traced (fun past => ?_) (fun past ok => ?_)
    (keeps_adapt (keeps_put args.store _))).tryBind fun _ past => ?_
  · exact setsWhereNone_of_setsNothing _ _ trivial
  · exact setsWhereNone_of_setsNothing _ _ trivial
  · exact ⟨setsWhereNone_of_setsNothing _ _ trivial, fun _ => trivial⟩

theorem MintGithub.keeps_run (args : MintGithub) :
    (args.run jwt crypto : Action T _ _).run.Keeps SetsWhereNone := by
  unfold run
  refine (keeps_of_offVault issues_readAppKey).tryBind fun privateKeyPem => ?_
  refine (keeps_of_offVault (issues_traced id (fun _ => id) (issues_adapt
    (issues_mintInstallationToken.mono fun _ => offVault_of_remote)))).tryBind fun minted past => ?_
  rw [run_call_bind]
  refine ⟨setsWhereNone_of_setsNothing _ _ trivial, fun _ => ?_⟩
  refine (keeps_of_offVault (issues_leaveMachine.mono fun _ => offVault_of_remote)).tryBind
    (fun _ => ?_) _
  unfold stayLocal
  split
  · exact fun past => ⟨setsWhereNone_of_setsNothing _ _ trivial, fun _ => trivial⟩
  · exact args.keeps_cacheLocally minted

theorem GitCredential.keeps_run (args : GitCredential) :
    (args.run : Action T _ _).run.Keeps SetsWhereNone := by
  unfold run
  rw [run_call_bind]
  refine fun past => ⟨setsWhereNone_of_setsNothing _ _ trivial, fun block => ?_⟩
  split
  · exact trivial
  · refine (keeps_adapt (keeps_get args.store args.query)).tryBind (fun entry past => ?_) _
    rw [run_call_bind]
    exact ⟨setsWhereNone_of_setsNothing _ _ trivial, fun _ =>
      ⟨setsWhereNone_of_setsNothing _ _ trivial, fun _ => trivial⟩⟩

theorem Command.keeps_run (command : Command) :
    (command.run jwt crypto : Action T _ _).run.Keeps SetsWhereNone := by
  cases command with
  | mintGithub args => exact args.keeps_run
  | gitCredential args => exact args.keeps_run

end Keeps

section Reading

variable [DateTimeUtc T]

theorem readEntry_of_kept {query : SecretQuery} {secret password notes : Text}
    {metadata : EntryMetadata T} (hkept : SecretKept secret) (htaken : TakenFrom secret password)
    (hdecode : decodeMetadata notes = some metadata) :
    readEntry query (printed password notes) =
      .ok (VaultEntry.new query.label metadata secret) := by
  have hpieces : password.splitOn '\n' = [secret] := by
    rw [htaken.eq_of_newline_not_mem hkept.1, List.splitOn_eq_singleton hkept.1]
  have hread : (fun key => (readFields (lines notes) key).or (readFields [] key)) =
      readFields (lines notes) := by
    funext key
    rw [readFields_nil, Option.or_none]
  unfold decodeMetadata at hdecode
  rw [readEntry_printed _ _ hpieces, hread, hdecode, stripCr_eq_self hkept.2]

variable [LawfulDateTimeUtc T]

omit [LawfulDateTimeUtc T] in
theorem GitCredential.amidst_run {cli : KeepassCli Db} {groups : Db → Text → Prop}
    {args : GitCredential} {w w' : World Db}
    {password notes vaultPassword : Text} {entry : VaultEntry T} (laws : Documented cli)
    (haction : args.action = getAction)
    (hentry : cli.entryAt w.db args.query.groupPath = some (password, notes))
    (hread : readEntry args.query (printed password notes) = .ok entry)
    (hkeystore : w.keystore args.keyringName = some vaultPassword)
    (hunlocks : cli.unlocks w.db vaultPassword) {outcome : Except CliError Unit}
    (h : Exec (amidstStep cli groups args.keyringName) w
      (args.run : Action T _ _).run (some outcome) w') : outcome = .ok () := by
  unfold run at h
  obtain ⟨block, w₁, ⟨between, ⟨hgrows, -⟩, hstep, -⟩, h⟩ := exec_call_bind.1 h
  rw [show w₁ = between from hstep, if_neg (not_not.2 haction)] at h
  have hgot {value : Option (Except CliError (VaultEntry T))} {w' : World Db}
      (h : Exec (amidstStep cli groups args.keyringName) between
        ((args.store.get args.query).adapt CliError.vault : Action T _ _).run value w') :
      value = none ∨ value = some (.ok entry) := by
    rw [run_adapt, Exec.map_iff] at h
    obtain ⟨value', hget, rfl⟩ := h
    rcases amidst_get laws (hgrows.entries _ _ hentry)
      (hgrows.keystore.trans hkeystore) ((hgrows.unlocks vaultPassword).2 hunlocks) hget with
      rfl | rfl
    · exact .inl rfl
    · rw [hread]
      exact .inr rfl
  obtain ⟨_, w₂, hget, hprint⟩ | ⟨error, -, hfail⟩ | ⟨hnone, -⟩ := Exec.tryBind_iff.1 h
  · obtain ⟨_, w₃, -, hrest⟩ := exec_call_bind.1 hprint
    rw [run_call, Exec.ask_iff] at hrest
    obtain ⟨_, _, -, hdone⟩ | ⟨empty, -⟩ := hrest
    · obtain ⟨hvalue, -⟩ := Exec.done_iff.1 hdone
      exact Option.some.inj hvalue
    · exact (empty.false ()).elim
  · rcases hgot hfail with hnone | hok
    · cases hnone
    · cases hok
  · cases hnone

variable [DecidableEq ι] {jwt : Jwt EncodingKey} {crypto : Crypto Key Cipher}
  {cli : KeepassCli Db} {hasGroup : Db → Text → Prop} {commands : ι → Command} {db : Db}
  {keystore : Text → Option Text} {before after : Interleaved ι (Call T) (Reply T)}
  {c₁ c₂ : Running T ι Db}

omit [LawfulDateTimeUtc T] in
/-- Where the keystore has the password of the database from the beginning, the commands leave
it and every entry to each other, and each that is undisturbed executes amidst the others. -/
theorem provided_commands {groups : Db → Text → Prop} (laws : Documented cli)
    (refusing : Refusing cli hasGroup) (hgroups : KeepsGroups cli groups)
    {name vaultPassword : Text} (hkeystore : keystore name = some vaultPassword)
    (hunlocks : cli.unlocks db vaultPassword)
    (hfirst : Follows (commandStep cli) (startAll jwt crypto commands db keystore) before c₁)
    (hsecond : Follows (commandStep cli) c₁ after c₂) :
    Provided cli name vaultPassword before c₁.shared ∧
      (∀ path content, cli.entryAt c₁.shared.db path = some content →
        cli.entryAt c₂.shared.db path = some content) ∧
      ∀ j, (∀ event ∈ own j after, Undisturbed event) → ∃ last,
        Follows (amidstStep cli groups name) (c₁.shared.view j) (own j after) last ∧
          Grows cli groups name last (c₂.shared.view j) := by
  have hobey : AllObey (fun i past request => (commands i).Rule past request ∧
      SetsWhereNone past request) (fun i past value => (commands i).Goal past value ∧ True) []
      (startAll jwt crypto commands db keystore : Running T ι Db) :=
    fun i => ((commands i).obeys_run).and ((commands i).keeps_run [])
  have hrule (i : ι) (past : History (Call T) (Reply T)) (request : Call T)
      (h : (commands i).Rule past request ∧ SetsWhereNone past request) :
      Disciplined past request ∧ SetsWhereNone past request :=
    ⟨Command.disciplined_of_rule h.1, h.2⟩
  have hstart : Provided cli name vaultPassword ([] : Interleaved ι (Call T) (Reply T))
      (startAll jwt crypto commands db keystore : Running T ι Db).shared :=
    ⟨fun _ => rfl, hkeystore, fun _ hmem => (List.not_mem_nil hmem).elim, hunlocks⟩
  obtain ⟨hprovided, -, -⟩ := provided_follows laws refusing hgroups hrule hobey hstart hfirst
  obtain ⟨-, hentries, hreader⟩ := provided_follows laws refusing hgroups hrule
    (obey_of_follows hobey hfirst) hprovided hsecond
  exact ⟨hprovided, hentries, hreader⟩

/-- Where the keystore has the password of the database from the beginning, a helper that begins
after a mint reported success, and whose own steps are undisturbed, ends by printing the two
lines of the minted token, whatever the other commands do meanwhile. -/
theorem commands_available (laws : Documented cli) (refusing : Refusing cli hasGroup)
    {i j : ι} {args : MintGithub} {args' : GitCredential} {vaultPassword : Text}
    (hkeystore : keystore args'.keyringName = some vaultPassword)
    (hunlocks : cli.unlocks db vaultPassword)
    (hfirst : Follows (commandStep cli) (startAll jwt crypto commands db keystore) before c₁)
    (hcached : CachedBy commands c₁ i args) (hone : args.OneLine)
    (hcommand : commands j = .gitCredential args')
    (haction : args'.action = GitCredential.getAction)
    (hpath : args'.query.groupPath = args.path) (hidle : own j before = [])
    (hsecond : Follows (commandStep cli) c₁ after c₂)
    (hcalm : ∀ event ∈ own j after, Undisturbed event) {outcome : Except CliError Unit}
    (hdone : c₂.process j = .done outcome) :
    ∃ minted, args.Mints (own i before) minted ∧ (SecretKept minted.token → outcome = .ok () ∧
      GitCredential.printedLines (own j after) = GitCredential.tokenLines minted.token) := by
  obtain ⟨hprovided, hentries, hreader⟩ := provided_commands laws refusing (keepsGroups_none cli)
    hkeystore hunlocks hfirst hsecond
  -- the entry of the mint is there when the helper begins, and when it ends
  obtain ⟨log, hlog, hregister⟩ := exists_log laws refusing
    (fun _ _ _ => Command.disciplined_of_rule) allObey_startAll (fun _ => rfl) hfirst
  obtain ⟨minted, entry, password, hmade, htaken, hrecorded⟩ :=
    recorded_of_cached (obey_of_follows allObey_startAll hfirst) hlog hcached
  have hentry := held_of_mem hregister (.inl hrecorded)
  have hlast := hentries _ _ hentry
  refine ⟨minted, hmade.2.1, fun hkept => ?_⟩
  have hok : outcome = .ok () := by
    have hdecode := hmade.decodeMetadata_eq hone
    have hread := @readEntry_of_kept T _ args'.query _ _ _ _ hkept htaken hdecode
    have hrun := run_of_follows hsecond hdone
    rw [process_eq_of_follows hfirst hidle] at hrun
    simp only [startAll, hcommand, Command.run] at hrun
    obtain ⟨last, hfollows, -⟩ := hreader j hcalm
    rw [← hpath] at hentry
    exact GitCredential.amidst_run laws haction hentry hread hprovided.keystore
      hprovided.unlocks ⟨_, hrun, hfollows⟩
  refine ⟨hok, ?_⟩
  rw [hok] at hdone
  have hboth := follows_append.2 ⟨c₁, hfirst, hsecond⟩
  obtain ⟨log', hlog', hregister'⟩ := exists_log laws refusing
    (fun _ _ _ => Command.disciplined_of_rule) allObey_startAll (fun _ => rfl) hboth
  obtain ⟨password', notes, hlooked, hprinted⟩ := looked_of_handed
    (obey_of_follows allObey_startAll hboth) hlog' ⟨hcommand, haction, hdone⟩
  rw [hpath] at hlooked
  rw [held_of_mem hregister' (.inr hlooked), Option.some.injEq, Prod.mk.injEq] at hlast
  rw [own_append, hidle, List.nil_append, hlast.1, firstLine_of_takenFrom htaken,
    firstLine_eq_self hkept] at hprinted
  exact hprinted

end Reading

def sampleMinted :
    Interleaved Party (Call SampleInstant) (Reply SampleInstant) ×
      Running SampleInstant Party (SampleDb × List Text) :=
  play sampleServe mintsOrder
    (startAll sampleJwt symbolicCrypto sampleCommands sampleDb sampleKeys)

def sampleHanded :
    Interleaved Party (Call SampleInstant) (Reply SampleInstant) ×
      Running SampleInstant Party (SampleDb × List Text) :=
  play sampleServe (List.replicate 9 Party.helper) sampleMinted.2

theorem undisturbed_of_sampleServe (i : Party) (m : Machine Party (SampleDb × List Text))
    (request : Call SampleInstant) (reply : Reply SampleInstant request)
    (m' : Machine Party (SampleDb × List Text))
    (h : sampleServe i m request = some (reply, m')) : Undisturbed ⟨request, reply⟩ := by
  unfold sampleServe at h
  cases request with
  | getPassword service name =>
    cases hstored : m.keystore name <;> simp only [hstored] at h <;> cases h <;> exact trivial
  | waitWithOutput =>
    cases hchild : m.child i with
    | none => simp [hchild] at h
    | some child =>
      simp only [hchild] at h
      cases h
      exact rfl
  | setPassword | spawn | writeLine =>
    cases h
    exact rfl
  | «exists» | keyringEntry =>
    cases h
    exact rfl
  | _ => exact trivial

theorem commands_available_sample :
    ∃ minted, (MintGithub.sampleArgs contentsRead).Mints (own .first sampleMinted.1) minted ∧
      (SecretKept minted.token → (Except.ok () : Except CliError Unit) = .ok () ∧
        GitCredential.printedLines (own .helper sampleHanded.1) =
          GitCredential.tokenLines minted.token) := by
  have hidle : own Party.helper sampleMinted.1 = [] :=
    List.length_eq_zero_iff.1 (by decide +kernel)
  have hone : (MintGithub.sampleArgs contentsRead).OneLine := ⟨by decide, by decide⟩
  exact commands_available groupedCli_documented groupedCli_refusing
    (show sampleKeys GitCredential.sampleHelper.keyringName = some "pw".toList from rfl)
    (show groupedCli.unlocks sampleDb "pw".toList from rfl)
    (Processes.follows_play sharedStep_of_sampleServe mintsOrder _)
    ⟨rfl, rfl, Program.result_eq_some_iff.1 (by decide +kernel)⟩ hone rfl rfl rfl hidle
    (Processes.follows_play sharedStep_of_sampleServe _ sampleMinted.2)
    (kind_of_mem_play undisturbed_of_sampleServe .helper)
    (Program.result_eq_some_iff.1 (by decide +kernel))

end Custodly.Cli
