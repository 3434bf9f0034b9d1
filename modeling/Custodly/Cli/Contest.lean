import Custodly.Cli.Available
import Custodly.Vault.Contest

/-! Mints that are after one key at the same time (`custodly-cli/src/main.rs`).  One whose own
steps are undisturbed and that gets as far as the vault ends with the key taken, and is told
that it cached its token exactly when the entry that is kept is its own. -/
namespace Custodly.Cli
open Library Library.Strings Library.Interaction Library.Surroundings Library.Interleaving
open Library.Processes Library.WriteOnce Library.Rely Custodly.Core Github Host Vault

variable {T EncodingKey Key Cipher Db ι : Type}

theorem feeds_of_offVault {request : Call T} (h : OffVault request) : Feeds request := by
  cases request with
  | spawn | waitWithOutput => exact (h trivial).elim
  | _ => exact trivial

theorem told_offVault {ε α : Type} {body : Action T ε α} {past : History (Call T) (Reply T)}
    {goal : History (Call T) (Reply T) → Except ε α → Prop} (issues : body.run.Issues OffVault)
    (hnone : NoneAdded past) (hgoal : ∀ after outcome, NoneAdded after → goal after outcome) :
    body.run.Obeys (fun _ _ => True) goal past :=
  issues.obeys fun _ hadded => ⟨fun _ _ => trivial, fun outcome => hgoal _ outcome
    (hnone.append fun event hmem => feeds_of_offVault (hadded event hmem))⟩

namespace MintGithub

variable [DateTimeUtc T] {jwt : Jwt EncodingKey} {crypto : Crypto Key Cipher} {args : MintGithub}
  {minted : MintedToken T}

/-- A mint that is not told that it cached its token has added nothing. -/
def ToldAdded (past : Trace T) (outcome : Except CliError Unit) : Prop :=
  outcome = .ok () ∨ NoneAdded past

theorem told_cacheLocally {past : Trace T} (hnone : NoneAdded past) :
    (cacheLocally args minted).run.Obeys (fun _ _ => True) ToldAdded past := by
  unfold cacheLocally
  rw [run_call_bind, Program.obeys_ask]
  refine ⟨trivial, fun acquiredAt => ?_⟩
  rw [obeys_attempt_bind]
  cases args.newMetadata minted acquiredAt with
  | error error => exact .inr (hnone.concat .now trivial _)
  | ok metadata =>
    simp only [Except.mapError, Program.GoesOn]
    rw [Program.obeys_tryBind, obeys_traced, obeys_adapt]
    refine ⟨trivial, ?_⟩
    apply told_put _ _ ((hnone.concat .now trivial _).concat (.enter _) trivial _)
    intro after outcome htold
    refine ⟨trivial, ?_⟩
    cases outcome with
    | error error =>
      rcases htold with hok | hnone
      · cases hok
      · exact .inr (hnone.concat (.leave _ _) trivial _)
    | ok _ => exact ⟨trivial, fun _ => .inl rfl⟩

theorem told_run :
    (run jwt crypto args : Action T _ _).run.Obeys (fun _ _ => True) ToldAdded [] := by
  unfold run
  rw [Program.obeys_tryBind]
  apply told_offVault issues_readAppKey noneAdded_nil
  intro read outcome hread
  cases outcome with
  | error error => exact .inr hread
  | ok privateKeyPem =>
    simp only [Program.GoesOn]
    rw [Program.obeys_tryBind, obeys_traced, obeys_adapt]
    refine ⟨trivial, ?_⟩
    apply told_offVault (issues_mintInstallationToken.mono fun _ => offVault_of_remote)
      (hread.concat (.enter _) trivial _)
    intro after outcome hminted
    refine ⟨trivial, ?_⟩
    cases outcome with
    | error error => exact .inr (hminted.concat (.leave _ _) trivial _)
    | ok minted =>
      simp only [Except.mapError, Program.GoesOn]
      rw [run_call_bind, Program.obeys_ask]
      refine ⟨trivial, fun _ => ?_⟩
      rw [Program.obeys_tryBind]
      apply told_offVault (issues_leaveMachine.mono fun _ => offVault_of_remote)
        ((hminted.concat (.leave _ _) trivial _).concat (.log _) trivial _)
      intro left outcome hleft
      cases outcome with
      | error error => exact .inr hleft
      | ok _ =>
        simp only [Program.GoesOn]
        unfold stayLocal
        split
        · exact ⟨trivial, fun _ => .inl rfl⟩
        · exact told_cacheLocally hleft

def NotVault {α : Type} (outcome : Except CliError α) : Prop :=
  ∀ error, outcome ≠ .error (.vault error)

/-- It succeeded, or failed with an error of the vault. -/
def ReachedVault (outcome : Except CliError Unit) : Prop :=
  outcome = .ok () ∨ ∃ error, outcome = .error (.vault error)

omit [DateTimeUtc T] in
theorem notVault_adapt {ε α : Type} {f : ε → CliError} (hf : ∀ e error, f e ≠ .vault error)
    {callee : Callee T} (body : Action T ε α) (past : Trace T) :
    (traced callee (body.adapt f)).run.Obeys (fun _ _ => True) (fun _ => NotVault) past := by
  rw [obeys_traced, obeys_adapt]
  refine ⟨trivial, Program.obeys_of_forall (fun _ _ => trivial) (fun after outcome => ?_) _ _⟩
  refine ⟨trivial, fun error heq => ?_⟩
  cases outcome with
  | ok a => cases heq
  | error e => exact hf e error (Except.error.inj heq)

omit [DateTimeUtc T] in
theorem notVault_readAppKey (past : Trace T) :
    (readAppKey : Action T _ _).run.Obeys (fun _ _ => True) (fun _ => NotVault) past := by
  unfold readAppKey
  rw [run_call_bind, Program.obeys_ask]
  refine ⟨trivial, fun read => ?_⟩
  rw [obeys_attempt_bind]
  cases read with
  | error cause => exact fun error heq => by cases heq
  | ok privateKeyPem =>
    simp only [Except.mapError, Program.GoesOn]
    split
    · exact fun error heq => by cases heq
    · exact fun error heq => by cases heq

omit [DateTimeUtc T] in
theorem notVault_tryBind {α β : Type} {first : Action T CliError α}
    {next : α → Action T CliError β} {past : Trace T}
    (hfirst : first.run.Obeys (fun _ _ => True) (fun _ => NotVault) past)
    (hnext : ∀ a after, (next a).run.Obeys (fun _ _ => True) (fun _ => NotVault) after) :
    (first >>= next).run.Obeys (fun _ _ => True) (fun _ => NotVault) past := by
  rw [Program.obeys_tryBind]
  refine hfirst.mono (fun _ _ h => h) fun after outcome houtcome => ?_
  cases outcome with
  | ok a => exact hnext a after
  | error e => exact fun error heq => houtcome error (by rw [Except.error.inj heq])

theorem notVault_leaveMachine (past : Trace T) :
    (leaveMachine crypto args minted).run.Obeys (fun _ _ => True) (fun _ => NotVault) past := by
  unfold leaveMachine
  split
  · unfold depositWithFerryman
    cases args.ferryman with
    | none => exact fun error heq => by cases heq
    | some flags =>
      obtain ⟨baseUrl, project, token⟩ := flags
      simp only
      rw [run_call_bind, Program.obeys_ask]
      refine ⟨trivial, fun acquiredAt => ?_⟩
      refine notVault_tryBind (notVault_adapt (fun _ _ h => by cases h) _ _)
        fun ingestionKeyHex after => ?_
      refine notVault_tryBind (notVault_adapt (fun _ _ h => by cases h) _ _)
        fun sealedSecret after => ?_
      rw [run_call_bind, Program.obeys_ask]
      refine ⟨trivial, fun idBytes => ?_⟩
      rw [run_call_bind, Program.obeys_ask]
      refine ⟨trivial, fun now => ?_⟩
      refine notVault_tryBind (notVault_adapt (fun _ _ h => by cases h) _ _)
        fun receipt after => ?_
      rw [run_call_bind, Program.obeys_ask]
      exact ⟨trivial, fun _ => ⟨trivial, fun _ error heq => by cases heq⟩⟩
  · exact fun error heq => by cases heq

section Amidst

variable {cli : KeepassCli Db} {hasGroup : Db → Text → Prop} {name : Text} {w w' : World Db}

omit [DateTimeUtc T] in
theorem step_eq_of_offVault {request : Call T} {reply : Reply T request} (hoff : OffVault request)
    (h : step cli w ⟨request, reply⟩ w') : w' = w := by
  cases request with
  | spawn | writeLine | waitWithOutput | getPassword | setPassword => exact (hoff trivial).elim
  | _ => exact h

omit [DateTimeUtc T] in
theorem grows_of_offVault {α : Type} {body : Action T CliError α}
    (issues : body.run.Issues OffVault) {value : Option (Except CliError α)}
    (h : Exec (amidstStep cli hasGroup name) w body.run value w') :
    Grows cli hasGroup name w w' := by
  refine @Exec.invariant _ _ _ _ _ _ _ (Grows cli hasGroup name w) OffVault ?_ _ issues _ h
    (.refl w)
  rintro s ⟨request, reply⟩ s' hoff ⟨between, ⟨hgrows, -⟩, hstep, -⟩ hs
  rw [step_eq_of_offVault hoff hstep]
  exact hs.trans hgrows

omit [DateTimeUtc T] in
theorem notVault_of_exec {α : Type} {base : Step (Call T) (Reply T) (World Db)}
    {body : Action T CliError α}
    (hbody : body.run.Obeys (fun _ _ => True) (fun _ => NotVault) [])
    {outcome : Except CliError α} (h : Exec base w body.run (some outcome) w') :
    NotVault outcome := by
  obtain ⟨trace, hrun, -⟩ := h
  exact (hrun.obeys hbody).2.1 outcome rfl

/-- If this is where the token comes from, it is one line. -/
def OneLineToken (args : MintGithub) (event : Event (Call T) (Reply T)) : Prop :=
  ∀ minted, Mints args [event] minted → '\n' ∉ minted.token

omit [DateTimeUtc T] in
theorem exec_ask_amidst {request : Call T} {α : Type}
    {next : Reply T request → Program (Call T) (Reply T) α} {value : Option α}
    (h : Exec (amidstStep cli hasGroup name) w (.ask request next) value w')
    (hoff : OffVault request) : value = none ∨ ∃ reply between, Grows cli hasGroup name w between ∧
      Exec (amidstStep cli hasGroup name) between (next reply) value w' := by
  obtain ⟨reply, after, ⟨between, ⟨hgrows, -⟩, hstep, -⟩, h⟩ | ⟨-, hnone, -⟩ := Exec.ask_iff.1 h
  · rw [step_eq_of_offVault hoff hstep] at h
    exact .inr ⟨reply, between, hgrows, h⟩
  · exact .inl hnone

variable {file vaultPassword : Text}

theorem amidst_cacheLocally (laws : Documented cli) (grouping : Grouping cli hasGroup file)
    (hkey : PlainKey ⟨args.project, args.label⟩) (hfile : args.vault.toStr = some file)
    (hkeystore : w.keystore args.keyringName = some vaultPassword)
    (hunlocks : cli.unlocks w.db vaultPassword) (hline : '\n' ∉ minted.token)
    {outcome : Except CliError Unit} (hvault : ReachedVault outcome)
    (h : Exec (amidstStep cli hasGroup args.keyringName) w (cacheLocally args minted).run
      (some outcome) w') : (cli.entryAt w'.db args.path).isSome := by
  have hkept {v v' : World Db} (hgrows : Grows cli hasGroup args.keyringName v v')
      (hthere : (cli.entryAt v.db args.path).isSome) : (cli.entryAt v'.db args.path).isSome := by
    obtain ⟨content, hcontent⟩ := Option.isSome_iff_exists.1 hthere
    rw [hgrows.entries _ _ hcontent]
    rfl
  unfold cacheLocally at h
  rw [run_call_bind] at h
  obtain hnone | ⟨acquiredAt, w₁, hgrows, h⟩ := exec_ask_amidst h id
  · cases hnone
  cases hmetadata : args.newMetadata minted acquiredAt with
  | error error =>
    rw [hmetadata] at h
    obtain ⟨hvalue, -⟩ := Exec.done_iff.1 h
    rw [Option.some.inj hvalue] at hvault
    rcases hvault with hok | ⟨vaultError, herror⟩
    · cases hok
    · cases herror
  | ok metadata =>
    rw [hmetadata, Except.mapError, run_attempt_ok_bind] at h
    unfold newMetadata at hmetadata
    obtain ⟨rfl, -⟩ := EntryMetadata.new_eq_ok_iff.1 hmetadata
    have hput {value : Option (Except CliError Unit)} {v v' : World Db}
        (hgrows : Grows cli hasGroup args.keyringName w v) {entry : VaultEntry T}
        (hquery : entry.query = ⟨args.project, args.label⟩) (hpath : entry.groupPath = args.path)
        (hsecret : entry.secret = minted.token)
        (h : Exec (amidstStep cli hasGroup args.keyringName) v
          (traced (.vaultPut entry) ((args.store.put entry).adapt .vault)).run value v') :
        value = none ∨ (cli.entryAt v'.db args.path).isSome := by
      rw [run_traced] at h
      obtain hnone | ⟨-, v₁, henter, h⟩ := exec_ask_amidst h id
      · exact .inl hnone
      obtain ⟨answered, v₂, hbody, h⟩ | ⟨hnone, -⟩ := Exec.bind_iff.1 h
      · rw [run_adapt, Exec.map_iff] at hbody
        obtain ⟨_, hbody, -⟩ := hbody
        have hearlier := hgrows.trans henter
        have hthere := amidst_put laws grouping (by rw [hquery]; exact hkey)
          (by rw [hpath, hquery]; rfl) (by rw [hsecret]; exact hline) hfile
          (hearlier.keystore.trans hkeystore) ((hearlier.unlocks vaultPassword).2 hunlocks) hbody
        rw [hpath] at hthere
        obtain hnone | ⟨-, v₃, hleave, h⟩ := exec_ask_amidst h id
        · exact .inl hnone
        · rw [← (Exec.done_iff.1 h).2]
          exact .inr (hkept hleave hthere)
      · exact .inl hnone
    obtain ⟨_, w₂, hout, hprint⟩ | ⟨error, -, hfail⟩ | ⟨hnone, -⟩ := Exec.tryBind_iff.1 h
    · rcases hput hgrows rfl rfl rfl hout with hnone | hthere
      · cases hnone
      · obtain hnone | ⟨_, w₃, hlast, hdone⟩ := exec_ask_amidst hprint id
        · cases hnone
        · rw [← (Exec.done_iff.1 hdone).2]
          exact hkept hlast hthere
    · rcases hput hgrows rfl rfl rfl hfail with hnone | hthere
      · cases hnone
      · exact hthere
    · cases hnone

theorem mints_of_exec {app : AppCredentials} {base : Step (Call T) (Reply T) (World Db)}
    (h : Exec (fun s event s' => base s event s' ∧ OneLineToken args event) w
      (traced (.mintInstallationToken args.grant)
        ((mintInstallationToken jwt app args.grant).adapt CliError.github)).run
      (some (.ok minted)) w') : '\n' ∉ minted.token := by
  obtain ⟨trace, hrun, hfollows⟩ := h
  have hobeys : (traced (.mintInstallationToken args.grant)
      ((mintInstallationToken jwt app args.grant).adapt CliError.github)).run.Obeys (WorkRule args)
        (fun past outcome => ∀ minted, outcome = .ok minted → Mints args past minted)
        ([] : Trace T) := by
    rw [obeys_traced, obeys_adapt]
    refine ⟨workRule_of_offVault id, obeys_minted (fun after error => ?_)
      fun after minted hmints => ?_⟩
    · exact ⟨workRule_of_offVault id, fun _ heq => by cases heq⟩
    · refine ⟨workRule_of_offVault id, fun minted' heq => ?_⟩
      rw [← Except.ok.inj heq]
      exact hmints.mono (List.subset_append_left _ _)
  obtain ⟨request, reply, hmem, hread⟩ := (hrun.obeys hobeys).2.1 _ rfl minted rfl
  exact (kind_of_follows hfollows).2 _ hmem minted ⟨request, reply, .head _, hread⟩

theorem amidst_run (laws : Documented cli) (grouping : Grouping cli hasGroup file)
    (hlocal : args.forRecipient = false) (hkey : PlainKey ⟨args.project, args.label⟩)
    (hfile : args.vault.toStr = some file)
    (hkeystore : w.keystore args.keyringName = some vaultPassword)
    (hunlocks : cli.unlocks w.db vaultPassword)
    {outcome : Except CliError Unit} (hvault : ReachedVault outcome)
    (h : Exec (fun s event s' => amidstStep cli hasGroup args.keyringName s event s' ∧
      OneLineToken args event) w (run jwt crypto args : Action T _ _).run (some outcome) w') :
    (cli.entryAt w'.db args.path).isSome := by
  have hplain {α : Type} {program : Program (Call T) (Reply T) α} {value : Option α}
      {v v' : World Db} (h : Exec (fun s event s' => amidstStep cli hasGroup args.keyringName s
        event s' ∧ OneLineToken args event) v program value v') :
      Exec (amidstStep cli hasGroup args.keyringName) v program value v' :=
    h.mono fun _ _ _ hstep => hstep.1
  have hnever {α : Type} {body : Action T CliError α} {v v' : World Db} {error : CliError}
      (hbody : body.run.Obeys (fun _ _ => True) (fun _ => NotVault) [])
      (hvalue : some outcome = some (.error error))
      (hfail : Exec (amidstStep cli hasGroup args.keyringName) v body.run
        (some (.error error)) v') : False := by
    rw [Option.some.inj hvalue] at hvault
    rcases hvault with hok | ⟨vaultError, herror⟩
    · cases hok
    · exact notVault_of_exec hbody hfail vaultError (by rw [Except.error.inj herror])
  unfold run at h
  obtain ⟨privateKeyPem, w₁, hread, h⟩ | ⟨error, hvalue, hfail⟩ | ⟨hnone, -⟩ :=
    Exec.tryBind_iff.1 h
  · have hgrows := grows_of_offVault issues_readAppKey (hplain hread)
    obtain ⟨minted, w₂, hmint, h⟩ | ⟨error, hvalue, hfail⟩ | ⟨hnone, -⟩ := Exec.tryBind_iff.1 h
    · have hgrows' := hgrows.trans (grows_of_offVault (issues_traced id (fun _ => id) (issues_adapt
        (issues_mintInstallationToken.mono fun _ => offVault_of_remote))) (hplain hmint))
      rw [run_call_bind] at h
      obtain hnone | ⟨_, w₃, hlogged, h⟩ := exec_ask_amidst (hplain h) id
      · cases hnone
      obtain ⟨_, w₄, hleft, h⟩ | ⟨error, hvalue, hfail⟩ | ⟨hnone, -⟩ := Exec.tryBind_iff.1 h
      · have hearlier := (hgrows'.trans hlogged).trans
          (grows_of_offVault (issues_leaveMachine.mono fun _ => offVault_of_remote) hleft)
        unfold stayLocal at h
        rw [hlocal, if_neg Bool.false_ne_true] at h
        exact amidst_cacheLocally laws grouping hkey hfile (hearlier.keystore.trans hkeystore)
          ((hearlier.unlocks vaultPassword).2 hunlocks) (mints_of_exec hmint) hvault h
      · exact (hnever (notVault_leaveMachine _) hvalue hfail).elim
      · cases hnone
    · exact (hnever (notVault_adapt (fun _ _ h => by cases h) _ _) hvalue (hplain hfail)).elim
    · cases hnone
  · exact (hnever (notVault_readAppKey _) hvalue (hplain hfail)).elim
  · cases hnone

end Amidst

end MintGithub

section Together

variable [DateTimeUtc T] [DecidableEq ι] {jwt : Jwt EncodingKey} {crypto : Crypto Key Cipher}
  {cli : KeepassCli Db} {hasGroup : Db → Text → Prop} {commands : ι → Command} {db : Db}
  {keystore : Text → Option Text} {trace : Interleaved ι (Call T) (Reply T)} {c' : Running T ι Db}

/-- What the key of a mint holds in the end.  Where there was something at first it is that, and
the mint is not told of success; where there was nothing, some mint of the key made it, and
this one is told of success exactly when it was this one. -/
structure Settles (commands : ι → Command) (initial final : Text → Option (Text × Text))
    (trace : Interleaved ι (Call T) (Reply T)) (i : ι) (args : MintGithub)
    (outcome : Except CliError Unit) (held : Text × Text) : Prop where
  holds : final args.path = some held
  old : ∀ first, initial args.path = some first → held = first ∧ outcome ≠ .ok ()
  new : initial args.path = none → ∃ k args' minted entry, commands k = .mintGithub args' ∧
    args'.path = args.path ∧ args'.MadeFor (own k trace) minted entry ∧
    args'.Verified (own k trace) minted.token ∧ TakenFrom minted.token held.1 ∧
    held.2 = encodeMetadata entry.metadata ∧ (outcome = .ok () ↔ k = i)

/-- In every interleaving, a mint for the local operator whose own steps are undisturbed, and
that ends with success or with an error of the vault, leaves its key settled.  A child acts on
the database in one step, when it is waited for. -/
theorem contest_settled (laws : Documented cli) (refusing : Refusing cli hasGroup) {file : Text}
    (grouping : Grouping cli hasGroup file) {i : ι} {args : MintGithub} {vaultPassword : Text}
    (hkeystore : keystore args.keyringName = some vaultPassword)
    (hunlocks : cli.unlocks db vaultPassword) (hcommand : commands i = .mintGithub args)
    (hlocal : args.forRecipient = false) (hkey : PlainKey ⟨args.project, args.label⟩)
    (hfile : args.vault.toStr = some file)
    (h : Follows (commandStep cli) (startAll jwt crypto commands db keystore) trace c')
    (hcalm : ∀ event ∈ own i trace, Undisturbed event)
    (hline : ∀ minted, args.Mints (own i trace) minted → '\n' ∉ minted.token)
    {outcome : Except CliError Unit} (hdone : c'.process i = .done outcome)
    (hvault : MintGithub.ReachedVault outcome) :
    ∃ held, Settles commands (cli.entryAt db) (cli.entryAt c'.shared.db) trace i args outcome
      held := by
  have hstart : Follows (commandStep cli) (startAll jwt crypto commands db keystore) []
      (startAll jwt crypto commands db keystore : Running T ι Db) := rfl
  obtain ⟨-, -, hmint⟩ :=
    provided_commands laws refusing grouping.keeps hkeystore hunlocks hstart h
  obtain ⟨last, hfollows, hlast⟩ := hmint i hcalm
  have hrun := run_of_follows h hdone
  simp only [startAll, hcommand, Command.run] at hrun
  have htold := (hrun.obeys MintGithub.told_run).2.1 outcome rfl
  -- the key is taken when this mint ends, and later
  have hthere := MintGithub.amidst_run laws grouping hlocal hkey hfile
    (w := (startAll jwt crypto commands db keystore : Running T ι Db).shared.view i) hkeystore
    hunlocks hvault ⟨_, hrun, follows_of_kind hfollows fun event hmem minted hmints =>
      hline minted (hmints.mono (by simpa using hmem))⟩
  obtain ⟨held, hheld⟩ := Option.isSome_iff_exists.1 hthere
  have hfinal : cli.entryAt c'.shared.db args.path = some held := hlast.entries _ _ hheld
  obtain ⟨log, hlog, hregister⟩ := exists_log laws refusing
    (fun _ _ _ => Command.disciplined_of_rule) allObey_startAll (fun _ => rfl) h
  change Follows register (cli.entryAt db) log (cli.entryAt c'.shared.db) at hregister
  have hrecords (hok : outcome = .ok ()) :
      ∃ value, ⟨(i, .recorded args.path value), ()⟩ ∈ log := by
    rw [hok] at hdone
    obtain ⟨_, _, _, -, -, hmem⟩ :=
      recorded_of_cached (obey_of_follows allObey_startAll h) hlog ⟨hcommand, hlocal, hdone⟩
    exact ⟨_, hmem⟩
  refine ⟨held, hfinal, fun first hfirst => ⟨?_, fun hok => ?_⟩, fun hfree => ?_⟩
  · rw [kept_of_follows hregister hfirst, Option.some.injEq] at hfinal
    exact hfinal.symm
  · obtain ⟨value, hmem⟩ := hrecords hok
    rw [free_of_recorded hregister hmem] at hfirst
    cases hfirst
  · obtain hinitial | ⟨k, hmem⟩ := origin_of_held hregister hfinal
    · rw [hfree] at hinitial
      cases hinitial
    obtain ⟨args', minted, entry, hcommand', hpath, hmade, hverified, htaken, hnotes⟩ :=
      made_of_recorded (ruled_of_follows allObey_startAll h) hlog hmem
    refine ⟨k, args', minted, entry, hcommand', hpath, hmade, hverified, htaken, hnotes,
      fun hok => ?_, ?_⟩
    · obtain ⟨value, hown⟩ := hrecords hok
      exact (recorded_once hregister hmem hown).1
    · rintro rfl
      refine htold.resolve_right fun hnone => ?_
      -- its own `add` was waited for and succeeded
      obtain ⟨before, after, event, hown, reply, file', vaultPassword', secret, rfl, hsuccess,
        hchild, -⟩ := hlog.performed hmem
      have hreply := hcalm _ (by rw [hown]; exact List.mem_append_right _ (.head _))
      cases reply with
      | error cause => cases hreply
      | ok output =>
        have hfailed := hnone _ _ _ _ _ ⟨before, after, hown, hchild⟩
        rw [hsuccess output rfl] at hfailed
        cases hfailed

end Together

theorem oneLineToken_of_sampleServe (i : Party) (m : Machine Party (SampleDb × List Text))
    (request : Call SampleInstant) (reply : Reply SampleInstant request)
    (m' : Machine Party (SampleDb × List Text))
    (h : sampleServe i m request = some (reply, m')) :
    (MintGithub.sampleArgs contentsRead).OneLineToken ⟨request, reply⟩ := by
  rintro minted ⟨request', reply', hmem, hread⟩
  cases List.mem_singleton.1 hmem
  cases h
  obtain ⟨response, body, hreply, -, hjson, -, rfl⟩ := readAccessToken_eq_ok_iff.1 hread
  cases hreply
  cases hjson
  cases i <;> decide

theorem contest_settled_sample :
    ∃ held, Settles sampleCommands (groupedCli.entryAt sampleDb)
      (groupedCli.entryAt sampleTogether.2.shared.db) sampleTogether.1 .second
      (MintGithub.sampleArgs contentsRead) (.error (.vault (.cliFailed "refused".toList))) held :=
  contest_settled groupedCli_documented groupedCli_refusing (groupedCli_grouping _)
    (show sampleKeys (MintGithub.sampleArgs contentsRead).keyringName = some "pw".toList from rfl)
    (show groupedCli.unlocks sampleDb "pw".toList from rfl)
    (show sampleCommands .second = .mintGithub (MintGithub.sampleArgs contentsRead) from rfl) rfl
    ⟨⟨by decide, by decide, by decide⟩, by decide, by decide⟩ rfl sampleTogether_follows
    (kind_of_mem_play undisturbed_of_sampleServe .second)
    (fun minted hmints => by
      obtain ⟨request, reply, hmem, hread⟩ := hmints
      exact kind_of_mem_play oneLineToken_of_sampleServe .second _ hmem minted
        ⟨request, reply, .head _, hread⟩)
    (Program.result_eq_some_iff.1 (by decide +kernel)) (.inr ⟨_, rfl⟩)

end Custodly.Cli
