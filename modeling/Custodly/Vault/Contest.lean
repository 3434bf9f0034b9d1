import Custodly.Vault.Amidst

/-! A `put` amidst others that may be after the same key (`custodly-vault/src/vault.rs`).  Where
nothing goes wrong for it, the key is taken when it returns, and it is told which of the two
happened: that its `add` was the one that succeeded, or that there was none of its own. -/
namespace Custodly.Vault
open Library Library.Strings Library.Interaction Library.Surroundings Library.Interleaving
open Library.Processes Library.WriteOnce Library.Rely Custodly.Core Host

variable {T Db : Type}

/-- A key that is one entry of one group of the root, and not mistaken for an option. -/
structure PlainKey (query : SecretQuery) : Prop where
  project : query.project ≠ [] ∧ '/' ∉ query.project ∧ query.project.head? ≠ some '-'
  label : query.label ≠ [] ∧ '/' ∉ query.label

/-- Given the password of the database in a file, `mkdir` leaves a group of the name, and `add`
to a group adds what it does not have. -/
structure Grouping (cli : KeepassCli Db) (hasGroup : Db → Text → Prop) (file : Text) : Prop where
  keeps : KeepsGroups cli hasGroup
  mkdir_makes : ∀ d (query : SecretQuery) vaultPassword, PlainKey query →
    cli.unlocks d vaultPassword →
      hasGroup (cli.exec d (mkdirArgs file query.project) [vaultPassword]).2 query.project
  add_free : ∀ d notes (query : SecretQuery) vaultPassword secret, PlainKey query →
    '\n' ∉ secret → cli.unlocks d vaultPassword → hasGroup d query.project →
      cli.entryAt d query.groupPath = none →
        (cli.exec d (addArgs notes file query.groupPath)
          [vaultPassword, secret, secret]).1.success

theorem groupedCli_grouping (file : Text) :
    Grouping groupedCli (fun d project => project ∈ d.2) file where
  keeps d args stdin group hwork hgroup := by
    change group ∈ (groupedExec d args stdin).2.2
    rcases hwork with ⟨db, project, rfl⟩ | ⟨notes, db, path, password, secret, rfl, rfl⟩ |
      ⟨db, path, rfl⟩
    · unfold groupedExec mkdirArgs
      simp only
      split
      · exact hgroup
      · exact List.mem_cons_of_mem _ hgroup
    · exact hgroup
    · exact hgroup
  mkdir_makes d query vaultPassword _ hunlocks := by
    change query.project ∈ (groupedExec d (mkdirArgs file query.project) [vaultPassword]).2.2
    have hpassword : d.1.password = vaultPassword := hunlocks
    by_cases hthere : query.project ∈ d.2
    · simp [groupedExec, mkdirArgs, hpassword, hthere]
    · simp [groupedExec, mkdirArgs, hpassword, hthere]
  add_free d notes query vaultPassword secret _ _ hunlocks _ hfree := by
    change (sampleExec d.1 (addArgs notes file query.groupPath)
      [vaultPassword, secret, secret]).1.success
    have hpassword : d.1.password = vaultPassword := hunlocks
    have hpath : d.1.entries query.groupPath = none := hfree
    simp [sampleExec, addArgs, hpassword, hpath]

def Feeds : Call T → Prop
  | .spawn _ _ | .waitWithOutput => False
  | _ => True

theorem feeds_of_leavesStore {request : Call T} (h : LeavesStore request) : Feeds request := by
  cases request with
  | spawn | waitWithOutput => exact h.elim
  | _ => exact trivial

section Told

variable {past added : History (Call T) (Reply T)} {args stdin : List Text}
  {output : ProcessOutput}

theorem worked_append_feeds (hadded : ∀ event ∈ added, Feeds event.1) :
    Worked (past ++ added) args stdin output ↔ Worked past args stdin output := by
  induction added generalizing past with
  | nil => rw [List.append_nil]
  | cons event rest ih =>
    rw [List.forall_mem_cons] at hadded
    rw [List.append_cons, ih hadded.2, worked_concat_iff]
    refine ⟨fun h => h.elim id fun ⟨hevent, _⟩ => ?_, .inl⟩
    rw [hevent] at hadded
    exact hadded.1.elim

theorem childOf_append_feeds (hadded : ∀ event ∈ added, Feeds event.1) :
    (childOf (past ++ added)).map Prod.fst = (childOf past).map Prod.fst := by
  induction added generalizing past with
  | nil => rw [List.append_nil]
  | cons event rest ih =>
    rw [List.forall_mem_cons] at hadded
    rw [List.append_cons, ih hadded.2, childOf_concat]
    obtain ⟨request, reply⟩ := event
    cases request with
    | spawn | waitWithOutput => exact hadded.1.elim
    | writeLine line =>
      cases reply with
      | error cause => rfl
      | ok _ => cases hchild : childOf past <;> simp [childAfter]
    | _ => rfl

theorem issues_writeLines_feeds (lines : List Text) :
    (writeLines lines : Action T _ _).run.Issues Feeds := by
  induction lines with
  | nil => exact trivial
  | cons line rest ih =>
    unfold writeLines
    rw [run_call_bind]
    refine ⟨trivial, fun written => ?_⟩
    cases written with
    | error cause => exact trivial
    | ok _ => exact ih

theorem issues_password_feeds (vault : Vault) :
    (vault.password : Action T _ _).run.Issues Feeds :=
  issues_adapt ((issues_getOrCreate vault.keyringName).mono fun _ => feeds_of_leavesStore)

theorem told_run (vault : Vault) (args lines : List Text)
    {goal : History (Call T) (Reply T) → Except VaultError Text → Prop}
    (hgoal : ∀ added outcome, (∀ args' stdin output, Worked (past ++ added) args' stdin output →
      output.success → Worked past args' stdin output ∨ args' = args ∧ ∃ out, outcome = .ok out) →
      goal (past ++ added) outcome) :
    (vault.run args lines).run.Obeys (fun _ _ => True) goal past := by
  have hend {added : History (Call T) (Reply T)} (hadded : ∀ event ∈ added, Feeds event.1)
      (spawned : Except Text Unit) {fed : History (Call T) (Reply T)}
      (hfed : ∀ event ∈ fed, Feeds event.1) (error : VaultError) :
      goal (past ++ added ++ [⟨.spawn vault.cliPath args, spawned⟩] ++ fed) (.error error) := by
    rw [List.append_assoc, List.append_assoc]
    apply hgoal
    intro args' stdin output hworked _
    rw [← List.append_assoc, ← List.append_assoc, worked_append_feeds hfed,
      worked_concat_iff, worked_append_feeds hadded] at hworked
    exact hworked.imp_right fun ⟨hevent, _⟩ => by cases hevent
  unfold run
  rw [run_call_bind, Program.obeys_ask]
  refine ⟨trivial, fun found => ?_⟩
  have hfound : ∀ event ∈ ([⟨.exists vault.cliPath, found⟩] : History (Call T) (Reply T)),
      Feeds event.1 := by simp [Feeds]
  cases found with
  | false =>
    simp only [if_true, run_throw, Program.obeys_done]
    refine hgoal _ _ fun args' stdin output hworked _ => ?_
    exact .inl ((worked_append_feeds hfound).1 hworked)
  | true =>
    simp only [Bool.true_eq_false, if_false]
    rw [run_call_bind, Program.obeys_ask]
    refine ⟨trivial, fun spawned => ?_⟩
    rw [obeys_attempt_bind]
    cases spawned with
    | error cause =>
      have := hend hfound (.error cause) (List.forall_mem_nil _) (.io cause)
      rwa [List.append_nil] at this
    | ok _ =>
      rw [Except.mapError]
      simp only [Program.GoesOn]
      rw [Program.obeys_tryBind]
      apply (issues_password_feeds vault).obeys
      intro asked hasked
      refine ⟨fun _ _ => trivial, fun outcome => ?_⟩
      cases outcome with
      | error error => exact hend hfound (.ok ()) hasked error
      | ok password =>
        simp only [Program.GoesOn]
        rw [Program.obeys_tryBind]
        apply (issues_writeLines_feeds _).obeys
        intro fed hfed
        have hboth := List.forall_mem_append.2 ⟨hasked, hfed⟩
        refine ⟨fun _ _ => trivial, fun outcome => ?_⟩
        rw [List.append_assoc]
        cases outcome with
        | error error => exact hend hfound (.ok ()) hboth error
        | ok _ =>
          simp only [Program.GoesOn]
          rw [run_call_bind, Program.obeys_ask]
          refine ⟨trivial, fun waited => ?_⟩
          rw [attempt_answer, Program.obeys_done, List.append_assoc, List.append_assoc,
            List.append_assoc]
          apply hgoal
          intro args' stdin output hworked hsuccess
          rw [← List.append_assoc, ← List.append_assoc, ← List.append_assoc, worked_concat_iff,
            worked_append_feeds hboth, worked_concat_iff, worked_append_feeds hfound] at hworked
          obtain (hearlier | ⟨hevent, -⟩) | ⟨hevent, hchild⟩ := hworked
          · exact .inl hearlier
          · cases hevent
          · have hargs := @childOf_append_feeds T (past ++ [⟨.exists vault.cliPath, true⟩] ++
              [⟨.spawn vault.cliPath args, .ok ()⟩]) _ hboth
            rw [hchild, childOf_concat] at hargs
            cases hevent
            refine .inr ⟨Option.some.inj hargs, output.stdout, ?_⟩
            exact answer_eq_ok_iff.2 ⟨output, rfl, hsuccess, rfl⟩

def NoneAdded (past : History (Call T) (Reply T)) : Prop :=
  ∀ notes db path stdin output, Worked past (addArgs notes db path) stdin output →
    output.success = false

theorem noneAdded_nil : NoneAdded ([] : History (Call T) (Reply T)) := by
  rintro notes db path stdin output ⟨before, after, heq, -⟩
  cases before <;> cases heq

theorem NoneAdded.append (h : NoneAdded past) (hadded : ∀ event ∈ added, Feeds event.1) :
    NoneAdded (past ++ added) := fun notes db path stdin output hworked =>
  h notes db path stdin output ((worked_append_feeds hadded).1 hworked)

theorem NoneAdded.concat {past : History (Call T) (Reply T)} (h : NoneAdded past)
    (request : Call T) (hrequest : Feeds request) (reply : Reply T request) :
    NoneAdded (past ++ [⟨request, reply⟩]) :=
  h.append fun event hmem => by rwa [List.mem_singleton.1 hmem]

theorem mkdirArgs_ne_addArgs {db db' project notes path : Text} :
    mkdirArgs db project ≠ addArgs notes db' path := fun h => by
  have := congrArg List.length h
  simp [mkdirArgs, addArgs] at this

theorem told_put [DateTimeUtc T] (vault : Vault) (entry : VaultEntry T)
    {goal : History (Call T) (Reply T) → Except VaultError Unit → Prop} (hnone : NoneAdded past)
    (hgoal : ∀ after outcome, outcome = .ok () ∨ NoneAdded after → goal after outcome) :
    (vault.put entry).run.Obeys (fun _ _ => True) goal past := by
  unfold put ensureGroup
  rw [Program.obeys_tryBind, Program.obeys_tryBind]
  apply obeys_dbStr fun _ => trivial
  intro db
  change Program.Obeys _ _ (_ >>= _) past
  rw [Program.obeys_bind]
  apply told_run
  intro made outcome hmade
  have hgroup : NoneAdded (past ++ made) := by
    intro notes db' path stdin output hworked
    cases hsuccess : output.success with
    | false => rfl
    | true =>
      rcases hmade _ _ _ hworked hsuccess with hearlier | ⟨hargs, -⟩
      · rw [← hsuccess]
        exact hnone _ _ _ _ _ hearlier
      · exact (mkdirArgs_ne_addArgs hargs.symm).elim
  change Program.Obeys _ _ (vault.dbStr >>= _ : Action T VaultError Unit).run (past ++ made)
  rw [Program.obeys_tryBind]
  apply obeys_dbStr fun _ => trivial
  intro db'
  simp only [Program.GoesOn]
  rw [Program.obeys_tryBind]
  apply told_run
  intro asked outcome hasked
  cases outcome with
  | ok out => exact hgoal _ _ (.inl rfl)
  | error error =>
    refine hgoal _ _ (.inr fun notes db'' path stdin output hworked => ?_)
    cases hsuccess : output.success with
    | false => rfl
    | true =>
      rcases hasked _ _ _ hworked hsuccess with hearlier | ⟨-, out, hok⟩
      · rw [← hsuccess]
        exact hgroup _ _ _ _ _ hearlier
      · cases hok

end Told

section Amidst

variable {cli : KeepassCli Db} {hasGroup : Db → Text → Prop} {vault : Vault} {file password : Text}
  {w w' : World Db}

theorem amidst_ensureGroup (laws : Documented cli) (grouping : Grouping cli hasGroup file)
    {query : SecretQuery} (hkey : PlainKey query) (hfile : vault.dbPath.toStr = some file)
    (hkeystore : w.keystore vault.keyringName = some password)
    (hunlocks : cli.unlocks w.db password) {value : Option (Except VaultError Unit)}
    (h : Exec (amidstStep cli hasGroup vault.keyringName) w
      (vault.ensureGroup query.project : Action T _ _).run value w') :
    value = some (.ok ()) ∧ Grows cli hasGroup vault.keyringName w w' ∧
      hasGroup w'.db query.project := by
  unfold ensureGroup at h
  rw [dbStr_eq_pure hfile, pure_bind] at h
  obtain ⟨answered, between, hrun, hdone⟩ | ⟨-, hfail⟩ := Exec.bind_iff.1 h
  · obtain ⟨rfl, rfl⟩ := Exec.done_iff.1 hdone
    obtain ⟨v, hgrows, -, hdb, hstored⟩ := amidst_run hkeystore hrun
    have hsame := laws.mkdir v.db file query.project [password]
    have hworked : Grows cli hasGroup vault.keyringName v between := by
      refine ⟨by rw [hstored], ?_, ?_, ?_⟩
      · rw [hdb]
        exact hsame.2
      · rw [hdb, hsame.1]
        exact fun _ _ hentry => hentry
      · rw [hdb]
        exact fun group hgroup => grouping.keeps _ _ _ _ (.inl ⟨_, _, rfl⟩) hgroup
    refine ⟨rfl, hgrows.trans hworked, ?_⟩
    rw [hdb]
    exact grouping.mkdir_makes v.db query password hkey ((hgrows.unlocks password).2 hunlocks)
  · obtain ⟨v, -, hvalue, -⟩ := amidst_run hkeystore hfail
    cases hvalue

variable [DateTimeUtc T]

/-- Once a put has returned, its key is taken. -/
theorem amidst_put (laws : Documented cli) (grouping : Grouping cli hasGroup file)
    {entry : VaultEntry T} (hkey : PlainKey entry.query)
    (hpath : entry.groupPath = entry.query.groupPath) (hline : '\n' ∉ entry.secret)
    (hfile : vault.dbPath.toStr = some file)
    (hkeystore : w.keystore vault.keyringName = some password)
    (hunlocks : cli.unlocks w.db password) {value : Option (Except VaultError Unit)}
    (h : Exec (amidstStep cli hasGroup vault.keyringName) w
      (vault.put entry : Action T _ _).run value w') :
    (cli.entryAt w'.db entry.groupPath).isSome := by
  unfold put at h
  obtain ⟨_, w₁, hgroup, hrest⟩ | ⟨e, -, hfail⟩ | ⟨-, hfail⟩ := Exec.tryBind_iff.1 h
  · obtain ⟨-, hgrows, hthere⟩ :=
      amidst_ensureGroup laws grouping hkey hfile hkeystore hunlocks hgroup
    rw [dbStr_eq_pure hfile, pure_bind] at hrest
    have hadded {value : Option (Except VaultError Text)} {w' : World Db}
        (hrun : Exec (amidstStep cli hasGroup vault.keyringName) w₁
          (vault.run (addArgs (encodeMetadata entry.metadata) file entry.groupPath)
            [entry.secret, entry.secret] : Action T _ _).run value w') :
        (cli.entryAt w'.db entry.groupPath).isSome := by
      obtain ⟨v, hlater, -, hdb, -⟩ := amidst_run (hgrows.keystore.trans hkeystore) hrun
      have hboth := hgrows.trans hlater
      have hopens := (hboth.unlocks password).2 hunlocks
      rw [hdb]
      cases hsuccess : (cli.exec v.db (addArgs (encodeMetadata entry.metadata) file
          entry.groupPath) [password, entry.secret, entry.secret]).1.success with
      | true =>
        obtain ⟨-, -, taken, -, hentries⟩ := laws.add_accepted _ _ _ _ _ _ hsuccess
        rw [hentries, Function.update_self]
        rfl
      | false =>
        -- only a path that is taken is refused
        rw [(laws.add_refused _ _ _ _ _ hsuccess).1]
        by_contra hfree
        rw [hpath] at hsuccess hfree
        rw [Option.not_isSome_iff_eq_none] at hfree
        rw [grouping.add_free v.db _ _ _ _ hkey hline hopens (hlater.groups _ hthere) hfree]
          at hsuccess
        cases hsuccess
    obtain ⟨_, w₂, hrun, hdone⟩ | ⟨e, -, hrun⟩ | ⟨-, hrun⟩ := Exec.tryBind_iff.1 hrest
    · rw [← (Exec.done_iff.1 hdone).2]
      exact hadded hrun
    · exact hadded hrun
    · exact hadded hrun
  · cases (amidst_ensureGroup laws grouping hkey hfile hkeystore hunlocks hfail).1
  · cases (amidst_ensureGroup laws grouping hkey hfile hkeystore hunlocks hfail).1

end Amidst

end Custodly.Vault
