import Custodly.Library.Rely
import Custodly.Vault.Keystore
import Custodly.Vault.Shared

/-! A reader amidst other processes on the same machine (`custodly-vault/src/vault.rs`,
`password.rs`).  Whatever they do to the database and the keystore meanwhile, what was there
when it began is there when its child looks. -/
namespace Custodly.Vault
open Library Library.Strings Library.Interaction Library.Surroundings Library.Interleaving
open Library.Processes Library.WriteOnce Library.Rely Custodly.Core Host

variable {T Db ι : Type}

/-- A password is stored only under a name that was found to have none. -/
def SetsWhereNone (past : History (Call T) (Reply T)) (request : Call T) : Prop :=
  ∀ service' name password, request = .setPassword service' name password → readNone name ∈ past

def SetsNothing : Call T → Prop
  | .setPassword _ _ _ => False
  | _ => True

theorem setsWhereNone_of_setsNothing (past : History (Call T) (Reply T)) (request : Call T)
    (h : SetsNothing request) : SetsWhereNone past request := by
  rintro service' name password rfl
  exact h.elim

theorem setsNothing_of_draws {request : Call T} (h : Draws request) : SetsNothing request := by
  cases request with
  | randomIndex => exact trivial
  | _ => exact h.elim

theorem keeps_adapt {rule : History (Call T) (Reply T) → Call T → Prop} {ε ε' α : Type}
    {f : ε → ε'} {body : Action T ε α} (h : body.run.Keeps rule) :
    (body.adapt f).run.Keeps rule := by
  rw [run_adapt, map_eq_pure_bind]
  exact h.bind fun _ _ => trivial

theorem keeps_attempt_bind {rule : History (Call T) (Reply T) → Call T → Prop} {ε α β : Type}
    {outcome : Except ε α} {next : α → Action T ε β} (h : ∀ a, (next a).run.Keeps rule) :
    (attempt outcome >>= next).run.Keeps rule := by
  cases outcome with
  | error e => exact fun _ => trivial
  | ok a => exact h a

theorem keeps_traced {rule : History (Call T) (Reply T) → Call T → Prop} {ε α : Type}
    {callee : Callee T} {body : Action T ε α} (henter : ∀ past, rule past (.enter callee))
    (hleave : ∀ past ok, rule past (.leave callee ok)) (h : body.run.Keeps rule) :
    (traced callee body).run.Keeps rule := by
  rw [run_traced]
  refine fun past => ⟨henter past, fun _ => h.bind (fun outcome past => ?_) _⟩
  exact ⟨hleave past _, fun _ => trivial⟩

theorem keeps_getOrCreate (name : Text) :
    (getOrCreate name : Action T _ _).run.Keeps SetsWhereNone := by
  unfold getOrCreate
  rw [run_call_bind]
  refine fun past => ⟨setsWhereNone_of_setsNothing _ _ trivial, fun opened => ?_⟩
  refine keeps_attempt_bind (fun _ past => ?_) _
  rw [run_call_bind]
  refine ⟨setsWhereNone_of_setsNothing _ _ trivial, fun found => ?_⟩
  rcases found with (_ | cause) | existing
  · rw [Program.obeys_tryBind]
    apply issues_generate.obeys
    intro drawn _
    refine ⟨fun request hdraws =>
      setsWhereNone_of_setsNothing _ _ (setsNothing_of_draws hdraws), fun outcome => ?_⟩
    cases outcome with
    | error cause => exact trivial
    | ok generated =>
      simp only [Program.GoesOn]
      rw [run_call_bind, Program.obeys_ask]
      refine ⟨?_, fun stored => ?_⟩
      · intro service' name' password hrequest
        rw [Call.setPassword.injEq] at hrequest
        rw [← hrequest.2.1]
        simp [readNone]
      · cases stored <;> exact trivial
  · exact trivial
  · exact trivial

theorem keeps_writeLines (lines : List Text) :
    (writeLines lines : Action T _ _).run.Keeps SetsWhereNone := by
  induction lines with
  | nil => exact fun _ => trivial
  | cons line rest ih =>
    unfold writeLines
    rw [run_call_bind]
    exact fun past => ⟨setsWhereNone_of_setsNothing _ _ trivial,
      fun written => keeps_attempt_bind (fun _ => ih) _⟩

theorem keeps_run (vault : Vault) (args lines : List Text) :
    (vault.run args lines : Action T _ _).run.Keeps SetsWhereNone := by
  unfold run
  rw [run_call_bind]
  refine fun past => ⟨setsWhereNone_of_setsNothing _ _ trivial, fun found => ?_⟩
  cases found with
  | false => exact trivial
  | true =>
    simp only [Bool.true_eq_false, if_false]
    rw [run_call_bind]
    refine ⟨setsWhereNone_of_setsNothing _ _ trivial,
      fun spawned => keeps_attempt_bind (fun _ => ?_) _⟩
    refine (keeps_adapt (keeps_getOrCreate vault.keyringName)).tryBind fun password =>
      (keeps_writeLines (password :: lines)).tryBind fun _ past => ?_
    rw [run_call_bind, Program.obeys_ask]
    refine ⟨setsWhereNone_of_setsNothing _ _ trivial, fun waited => ?_⟩
    rw [attempt_answer]
    exact trivial

theorem keeps_dbStr (vault : Vault) :
    (vault.dbStr : Action T _ _).run.Keeps SetsWhereNone := by
  unfold dbStr
  split
  · exact fun _ => trivial
  · rw [run_abort]
    exact fun past => ⟨setsWhereNone_of_setsNothing _ _ trivial, fun never => never.elim⟩

section Entries

variable [DateTimeUtc T]

theorem keeps_put (vault : Vault) (entry : VaultEntry T) :
    (vault.put entry : Action T _ _).run.Keeps SetsWhereNone := by
  unfold put ensureGroup
  refine ((keeps_dbStr vault).tryBind fun db =>
    (keeps_run vault _ []).bind fun _ => Program.keeps_done _).tryBind fun _ => ?_
  exact (keeps_dbStr vault).tryBind fun db =>
    (keeps_run vault _ _).tryBind fun _ => Program.keeps_done _

theorem keeps_get (vault : Vault) (query : SecretQuery) :
    (vault.get query : Action T _ _).run.Keeps SetsWhereNone := by
  unfold get
  exact (keeps_dbStr vault).tryBind fun db =>
    (keeps_adapt (keeps_run vault _ [])).tryBind fun _ => Program.keeps_done _

end Entries

def KeepsGroups (cli : KeepassCli Db) (hasGroup : Db → Text → Prop) : Prop :=
  ∀ d args stdin group, VaultWork args stdin → hasGroup d group →
    hasGroup (cli.exec d args stdin).2 group

theorem keepsGroups_none (cli : KeepassCli Db) : KeepsGroups cli fun _ _ => False :=
  fun _ _ _ _ _ h => h

/-- What others at work leave as it is: the password under a name, which passwords open the
database, and every entry and group that is there. -/
structure Grows (cli : KeepassCli Db) (hasGroup : Db → Text → Prop) (name : Text)
    (w w' : World Db) : Prop where
  keystore : w'.keystore name = w.keystore name
  unlocks : ∀ password, cli.unlocks w'.db password ↔ cli.unlocks w.db password
  entries : ∀ path content, cli.entryAt w.db path = some content →
    cli.entryAt w'.db path = some content
  groups : ∀ group, hasGroup w.db group → hasGroup w'.db group

section Grows

variable {cli : KeepassCli Db} {hasGroup : Db → Text → Prop} {name : Text}

theorem Grows.refl (w : World Db) : Grows cli hasGroup name w w :=
  ⟨rfl, fun _ => Iff.rfl, fun _ _ h => h, fun _ h => h⟩

theorem Grows.trans {a b c : World Db} (h : Grows cli hasGroup name a b)
    (h' : Grows cli hasGroup name b c) : Grows cli hasGroup name a c where
  keystore := h'.keystore.trans h.keystore
  unlocks password := (h'.unlocks password).trans (h.unlocks password)
  entries path content hentry := h'.entries path content (h.entries path content hentry)
  groups group hgroup := h'.groups group (h.groups group hgroup)

theorem Grows.child {w w' : World Db} (h : Grows cli hasGroup name w w')
    (child child' : Option (List Text × List Text)) :
    Grows cli hasGroup name ⟨w.db, w.keystore, child⟩ ⟨w'.db, w'.keystore, child'⟩ :=
  ⟨h.keystore, h.unlocks, h.entries, h.groups⟩

end Grows

theorem step_keystore_eq {cli : KeepassCli Db} {name : Text} {w w' : World Db} {request : Call T}
    {reply : Reply T request}
    (hrequest : ∀ service' password, request ≠ .setPassword service' name password)
    (h : step cli w ⟨request, reply⟩ w') : w'.keystore name = w.keystore name := by
  cases request with
  | spawn path args =>
    cases reply with
    | error cause => rw [show w' = _ from h]
    | ok _ => rw [show w' = _ from h]
  | writeLine line =>
    cases reply with
    | error cause => rw [show w' = _ from h]
    | ok _ => rw [show w' = _ from h]
  | waitWithOutput =>
    cases reply with
    | error cause =>
      obtain hlost | ⟨args, stdin, -, hdone⟩ := h
      · rw [hlost]
      · rw [hdone]
    | ok output =>
      obtain ⟨args, stdin, -, -, hdone⟩ := h
      rw [hdone]
  | getPassword service name' =>
    rcases reply with (_ | cause) | found
    · rw [h.2]
    · rw [show w' = _ from h]
    · rw [h.2]
  | setPassword service' name' password =>
    cases reply with
    | error cause => rw [show w' = _ from h]
    | ok _ =>
      have hname : name ≠ name' := fun heq => hrequest service' password (by rw [heq])
      rw [show w' = _ from h]
      exact Function.update_of_ne hname _ _
  | _ => rw [show w' = _ from h]

section Step

variable {cli : KeepassCli Db} {hasGroup : Db → Text → Prop} {past : History (Call T) (Reply T)}
  {w w' : World Db} {request : Call T} {reply : Reply T request}

theorem step_unlocks (laws : Documented cli) (hdiscipline : Disciplined past request)
    (hview : w.child = childOf past) (h : step cli w ⟨request, reply⟩ w') (password : Text) :
    cli.unlocks w'.db password ↔ cli.unlocks w.db password := by
  by_cases hrequest : request = .waitWithOutput
  · subst hrequest
    obtain ⟨args, stdin, hchild, hwork⟩ := hdiscipline rfl
    rw [hchild] at hview
    obtain ⟨-, hsame | hexec, -⟩ := step_waitWithOutput hview h
    · rw [hsame]
    · rw [hexec]
      rcases hwork with ⟨db, project, rfl⟩ | ⟨notes, db, path, vaultPassword, secret, rfl, rfl⟩ |
        ⟨db, path, rfl⟩
      · exact (laws.mkdir _ _ _ _).2 password
      · cases hsuccess : (cli.exec w.db (addArgs notes db path)
            [vaultPassword, secret, secret]).1.success with
        | false => exact (laws.add_refused _ _ _ _ _ hsuccess).2 password
        | true => exact (laws.add_accepted _ _ _ _ _ _ hsuccess).2.1 password
      · exact (laws.show_same _ _ _ _).2 password
  · rw [step_db hrequest h]

theorem step_groups {groups : Db → Text → Prop} (hgroups : KeepsGroups cli groups)
    (hdiscipline : Disciplined past request) (hview : w.child = childOf past)
    (h : step cli w ⟨request, reply⟩ w') (group : Text) (hgroup : groups w.db group) :
    groups w'.db group := by
  by_cases hrequest : request = .waitWithOutput
  · subst hrequest
    obtain ⟨args, stdin, hchild, hwork⟩ := hdiscipline rfl
    rw [hchild] at hview
    obtain ⟨-, hsame | hexec, -⟩ := step_waitWithOutput hview h
    · rwa [hsame]
    · rw [hexec]
      exact hgroups _ _ _ _ hwork hgroup
  · rwa [step_db hrequest h]

theorem grows_of_step (laws : Documented cli) (refusing : Refusing cli hasGroup)
    {groups : Db → Text → Prop} (hgroups : KeepsGroups cli groups) {name : Text}
    (hdiscipline : Disciplined past request) (hsets : SetsWhereNone past request)
    (hname : readNone name ∉ past) (hview : w.child = childOf past)
    (h : step cli w ⟨request, reply⟩ w') : Grows cli groups name w w' where
  keystore := step_keystore_eq (fun service' password hrequest =>
    hname (hsets service' name password hrequest)) h
  unlocks := step_unlocks laws hdiscipline hview h
  entries path content hentry := by
    rcases moves_of_step laws refusing hdiscipline hview h with ⟨hsame, -⟩ | ⟨op, -, hacts⟩
    · rw [hsame, hentry]
    · exact hacts.kept hentry
  groups := step_groups hgroups hdiscipline hview h

end Step

/-- What the steps of others are to a process, which has a child of its own. -/
def Elsewhere (cli : KeepassCli Db) (groups : Db → Text → Prop) (name : Text) (w w' : World Db) :
    Prop :=
  Grows cli groups name w w' ∧ w'.child = w.child

def amidstStep (cli : KeepassCli Db) (groups : Db → Text → Prop) (name : Text) :
    Step (Call T) (Reply T) (World Db) :=
  disturbed (Elsewhere cli groups name) (calmStep cli)

section Amidst

variable {cli : KeepassCli Db} {groups : Db → Text → Prop} {vault : Vault} {name : Text}
  {w w' : World Db}

theorem Elsewhere.trans {a b c : World Db} (h : Elsewhere cli groups name a b)
    (h' : Elsewhere cli groups name b c) : Elsewhere cli groups name a c :=
  ⟨h.1.trans h'.1, h'.2.trans h.2⟩

theorem amidst_getOrCreate {password : Text} {value : Option (Except KeyringError Text)}
    (hkeystore : w.keystore name = some password)
    (h : Exec (amidstStep cli groups name) w (getOrCreate name : Action T _ _).run value w') :
    value = some (.ok password) ∧ Elsewhere cli groups name w w' := by
  unfold getOrCreate at h
  obtain ⟨opened, w₁, ⟨between, hbefore, hstep, hcalm⟩, h⟩ := exec_call_bind.1 h
  cases opened with
  | error e => cases hcalm
  | ok _ =>
    rw [run_attempt_ok_bind, show w₁ = between from hstep] at h
    obtain ⟨found, w₂, ⟨between', hbetween, hstep', hcalm'⟩, h⟩ := exec_call_bind.1 h
    have helsewhere := hbefore.trans hbetween
    have hthere : between'.keystore name = some password :=
      helsewhere.1.keystore.trans hkeystore
    rcases found with (_ | cause) | existing
    · rw [hstep'.1] at hthere
      cases hthere
    · exact hcalm'.elim
    · rw [run_pure, Exec.done_iff] at h
      rw [hstep'.1, Option.some.injEq] at hthere
      rw [h.1, ← h.2, hstep'.2, hthere]
      exact ⟨rfl, helsewhere⟩

theorem amidst_writeLines {lines args stdin : List Text} {value : Option (Except VaultError Unit)}
    (hchild : w.child = some (args, stdin))
    (h : Exec (amidstStep cli groups name) w (writeLines lines : Action T _ _).run value w') :
    value = some (.ok ()) ∧ Grows cli groups name w w' ∧
      w'.child = some (args, stdin ++ lines) := by
  induction lines generalizing w stdin with
  | nil =>
    unfold writeLines at h
    rw [run_pure, Exec.done_iff] at h
    rw [← h.2, List.append_nil]
    exact ⟨h.1, .refl w, hchild⟩
  | cons line rest ih =>
    unfold writeLines at h
    obtain ⟨written, w₁, ⟨between, hbefore, hstep, hcalm⟩, h⟩ := exec_call_bind.1 h
    cases written with
    | error e => cases hcalm
    | ok _ =>
      rw [Except.mapError, run_attempt_ok_bind, show w₁ = _ from hstep] at h
      obtain ⟨hvalue, hgrows, hfed⟩ := @ih _ (stdin ++ [line])
        (by rw [show between.child = _ from hbefore.2.trans hchild]; rfl) h
      rw [List.append_assoc, List.singleton_append] at hfed
      refine ⟨hvalue, hbefore.1.trans ?_, hfed⟩
      exact hgrows.child _ _

theorem amidst_run {args lines : List Text} {password : Text}
    {value : Option (Except VaultError Text)}
    (hkeystore : w.keystore vault.keyringName = some password)
    (h : Exec (amidstStep cli groups vault.keyringName) w
      (vault.run args lines : Action T _ _).run value w') :
    ∃ v, Grows cli groups vault.keyringName w v ∧
      value = some (answer (.ok (cli.exec v.db args (password :: lines)).1)) ∧
      w'.db = (cli.exec v.db args (password :: lines)).2 ∧ w'.keystore = v.keystore := by
  unfold run at h
  obtain ⟨found, w₁, ⟨between, hbefore, hfound, hcalm⟩, h⟩ := exec_call_bind.1 h
  rw [show w₁ = between from hfound, show found = true from hcalm] at h
  simp only [Bool.true_eq_false, if_false] at h
  obtain ⟨spawned, w₂, ⟨between', hbetween, hspawned, hcalm⟩, h⟩ := exec_call_bind.1 h
  cases spawned with
  | error e => cases hcalm
  | ok _ =>
    rw [Except.mapError, run_attempt_ok_bind] at h
    have hearlier := hbefore.1.trans hbetween.1
    have hstarted : Grows cli groups vault.keyringName w w₂ := by
      rw [show w₂ = _ from hspawned]
      exact hearlier.child _ _
    have hchild : w₂.child = some (args, []) := by rw [show w₂ = _ from hspawned]
    have hgot {value : Option (Except VaultError Text)} {w' : World Db}
        (h : Exec (amidstStep cli groups vault.keyringName) w₂
          (vault.password : Action T _ _).run value w') :
        value = some (.ok password) ∧ Elsewhere cli groups vault.keyringName w₂ w' := by
      unfold Vault.password at h
      rw [run_adapt, Exec.map_iff] at h
      obtain ⟨value', h, rfl⟩ := h
      obtain ⟨hvalue, helsewhere⟩ := amidst_getOrCreate (hstarted.keystore.trans hkeystore) h
      rw [hvalue]
      exact ⟨rfl, helsewhere⟩
    obtain ⟨password', w₃, hpassword, hrest⟩ | ⟨e, -, hfail⟩ | ⟨-, hfail⟩ := Exec.tryBind_iff.1 h
    · obtain ⟨hvalue, hgrows, hkept⟩ := hgot hpassword
      rw [Option.some.injEq, Except.ok.injEq] at hvalue
      rw [hvalue] at hrest
      rw [hchild] at hkept
      obtain ⟨_, w₄, hwritten, hwait⟩ | ⟨e, -, hfail⟩ | ⟨-, hfail⟩ := Exec.tryBind_iff.1 hrest
      · obtain ⟨-, hgrows', hfed⟩ := amidst_writeLines hkept hwritten
        obtain ⟨waited, w₅, ⟨v, hv, hwaited, hcalm⟩, hout⟩ := exec_call_bind.1 hwait
        rw [attempt_answer, Exec.done_iff] at hout
        cases waited with
        | error e => cases hcalm
        | ok output =>
          have hthere : v.child = some (args, password :: lines) := hv.2.trans hfed
          obtain ⟨hstored, -, hdone⟩ := step_waitWithOutput hthere hwaited
          obtain ⟨hanswered, hexec⟩ := hdone output rfl
          refine ⟨v, ((hstarted.trans hgrows).trans hgrows').trans hv.1, ?_, ?_, ?_⟩
          · rw [hanswered]
            exact hout.1
          · rw [← hout.2, hexec]
          · rw [← hout.2, hstored]
      · cases (amidst_writeLines hkept hfail).1
      · cases (amidst_writeLines hkept hfail).1
    · cases (hgot hfail).1
    · cases (hgot hfail).1

variable [DateTimeUtc T]

/-- An entry that was there when the reader began is read, whatever others do meanwhile. -/
theorem amidst_get (laws : Documented cli) {query : SecretQuery}
    {password notes vaultPassword : Text}
    (hentry : cli.entryAt w.db query.groupPath = some (password, notes))
    (hkeystore : w.keystore vault.keyringName = some vaultPassword)
    (hunlocks : cli.unlocks w.db vaultPassword)
    {value : Option (Except VaultError (VaultEntry T))}
    (h : Exec (amidstStep cli groups vault.keyringName) w
      (vault.get query : Action T _ _).run value w') :
    value = none ∨ value = some (readEntry query (printed password notes)) := by
  have hprints {db : Text} {value : Option (Except VaultError Text)} {w' : World Db}
      (h : Exec (amidstStep cli groups vault.keyringName) w
        ((vault.run (showArgs db query.groupPath) []).adapt
          fun _ => VaultError.notFound query.project query.label : Action T _ _).run value w') :
      value = some (.ok (printed password notes)) := by
    rw [run_adapt, Exec.map_iff] at h
    obtain ⟨value', h, rfl⟩ := h
    obtain ⟨v, hgrows, hvalue, -⟩ := amidst_run hkeystore h
    have hthere := hgrows.entries _ _ hentry
    have hsuccess := laws.show_success v.db db query.groupPath vaultPassword
      ((hgrows.unlocks vaultPassword).2 hunlocks) (by rw [hthere]; rfl)
    obtain ⟨password', notes', hentry', hstdout⟩ := laws.show_accepted _ _ _ _ hsuccess
    rw [hthere, Option.some.injEq, Prod.mk.injEq] at hentry'
    rw [← hentry'.1, ← hentry'.2] at hstdout
    rw [hvalue, answer_eq_ok_iff.2 ⟨_, rfl, hsuccess, hstdout⟩]
    rfl
  unfold get at h
  obtain ⟨db, w₁, hpath, hrest⟩ | ⟨e, rfl, hfail⟩ | ⟨hnone, -⟩ := Exec.tryBind_iff.1 h
  · rw [(exec_dbStr hpath).1] at hrest
    obtain ⟨out, w₂, hout, hread⟩ | ⟨e, -, hfail⟩ | ⟨hnone, -⟩ := Exec.tryBind_iff.1 hrest
    · have hvalue := hprints hout
      rw [Option.some.injEq, Except.ok.injEq] at hvalue
      rw [hvalue] at hread
      exact .inr (Exec.done_iff.1 hread).1
    · cases hprints hfail
    · exact .inl hnone
  · obtain ⟨-, hnone | ⟨db, -, hok⟩⟩ := exec_dbStr hfail
    · cases hnone
    · cases hok
  · exact .inl hnone

end Amidst

/-- The keystore has had the password of the database under a name from the beginning, and the
children are those of the histories. -/
structure Provided [DecidableEq ι] (cli : KeepassCli Db) (name password : Text)
    (past : Interleaved ι (Call T) (Reply T)) (m : Machine ι Db) : Prop where
  child : ∀ i, m.child i = childOf (own i past)
  keystore : m.keystore name = some password
  found : ∀ i, readNone name ∉ own i past
  unlocks : cli.unlocks m.db password

section Together

variable [DecidableEq ι] {α : Type} {cli : KeepassCli Db} {hasGroup groups : Db → Text → Prop}
  {rule : ι → History (Call T) (Reply T) → Call T → Prop}
  {goal : ι → History (Call T) (Reply T) → α → Prop} {name password : Text}
  {past trace : Interleaved ι (Call T) (Reply T)}
  {c c' : Config ι (Call T) (Reply T) α (Machine ι Db)}

theorem Provided.grows {i : ι} {request : Call T} {reply : Reply T request} {m m' : Machine ι Db}
    (laws : Documented cli) (refusing : Refusing cli hasGroup) (hgroups : KeepsGroups cli groups)
    (h : Provided cli name password past m) (hdiscipline : Disciplined (own i past) request)
    (hsets : SetsWhereNone (own i past) request) (hstep : sharedStep cli i m ⟨request, reply⟩ m') :
    Grows cli groups name (m.view i) (m'.view i) :=
  grows_of_step laws refusing hgroups hdiscipline hsets (h.found i) (h.child i) hstep.1

theorem Provided.next {i : ι} {request : Call T} {reply : Reply T request} {m m' : Machine ι Db}
    (laws : Documented cli) (refusing : Refusing cli hasGroup)
    (h : Provided cli name password past m) (hdiscipline : Disciplined (own i past) request)
    (hsets : SetsWhereNone (own i past) request) (hstep : sharedStep cli i m ⟨request, reply⟩ m') :
    Provided cli name password (past ++ [⟨(i, request), reply⟩]) m' := by
  have hgrows := h.grows laws refusing (keepsGroups_none cli) hdiscipline hsets hstep
  refine ⟨fun j => ?_, hgrows.keystore.trans h.keystore, fun j => ?_,
    (hgrows.unlocks password).2 h.unlocks⟩
  · rw [own_append]
    by_cases hj : i = j
    · rw [← hj, own_singleton_self, childOf_concat, ← h.child i]
      exact step_child hstep.1
    · rw [own_singleton_of_ne hj, List.append_nil, hstep.2 j (Ne.symm hj)]
      exact h.child j
  · rw [own_append, List.mem_append]
    rintro (hmem | hmem)
    · exact h.found j hmem
    · by_cases hj : i = j
      · -- a reply that there is no password is at odds with the keystore
        rw [← hj, own_singleton_self, List.mem_singleton] at hmem
        have hread := hstep.1
        rw [← hmem] at hread
        have hnone : m.keystore name = none := hread.1
        rw [h.keystore] at hnone
        cases hnone
      · rw [own_singleton_of_ne hj] at hmem
        cases hmem

/-- In every interleaving a process executes amidst the others, which leave it the password and
every entry that was there. -/
theorem provided_follows (laws : Documented cli) (refusing : Refusing cli hasGroup)
    (hgroups : KeepsGroups cli groups)
    (hrule : ∀ i past request, rule i past request →
      Disciplined past request ∧ SetsWhereNone past request)
    (hobey : AllObey rule goal past c) (hprovided : Provided cli name password past c.shared)
    (h : Follows (interleaveBy (sharedStep cli)) c trace c') :
    Provided cli name password (past ++ trace) c'.shared ∧
      (∀ path content, cli.entryAt c.shared.db path = some content →
        cli.entryAt c'.shared.db path = some content) ∧
      ∀ j, (∀ event ∈ own j trace, Undisturbed event) → ∃ last,
        Follows (amidstStep cli groups name) (c.shared.view j) (own j trace) last ∧
          Grows cli groups name last (c'.shared.view j) := by
  have hnext (past : Interleaved ι (Call T) (Reply T)) (i : ι) (request : Call T)
      (reply : Reply T request) (m m' : Machine ι Db) (hissued : rule i (own i past) request)
      (hstep : sharedStep cli i m ⟨request, reply⟩ m') (hkept : Provided cli name password past m) :
      Provided cli name password (past ++ [⟨(i, request), reply⟩]) m' :=
    hkept.next laws refusing (hrule i _ _ hissued).1 (hrule i _ _ hissued).2 hstep
  refine ⟨(invariant hnext hobey hprovided h).2, fun path content hentry => ?_,
    fun j hcalm => ?_⟩
  · exact ((@invariant _ _ _ _ _ _ (sharedStep cli) rule goal (fun past m =>
      Provided cli name password past m ∧ cli.entryAt m.db path = some content)
      (fun past i request reply m m' hissued hstep hkept =>
        ⟨hnext past i request reply m m' hissued hstep hkept.1,
          (hkept.1.grows laws refusing hgroups (hrule i _ _ hissued).1 (hrule i _ _ hissued).2
            hstep).entries path content hkept.2⟩) _ _ _ _ hobey ⟨hprovided, hentry⟩ h).2).2
  · obtain ⟨last, hfollows, hlast, -⟩ := @own_follows _ _ _ _ (World Db) _ _ (sharedStep cli)
      rule goal (fun m => m.view j) (Elsewhere cli groups name) (step cli) j
      (Provided cli name password) (fun w => ⟨.refl w, rfl⟩) (fun _ _ _ h h' => h.trans h') hnext
      (fun _ _ _ hstep => hstep.1) (fun past i request reply m m' hi hissued hstep hkept => by
        have hgrows := hkept.grows laws refusing hgroups (hrule i _ _ hissued).1
          (hrule i _ _ hissued).2 hstep
        exact ⟨hgrows.child _ _, hstep.2 j (Ne.symm hi)⟩)
      _ _ _ _ hobey hprovided h
    exact ⟨last, follows_restrict hfollows hcalm, hlast⟩

end Together

end Custodly.Vault
