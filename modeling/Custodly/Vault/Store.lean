import Custodly.Vault.Keepass

/-! The store behind the client: a database that changes only through a `keepassxc-cli` child
process, and the keystore that holds its password. -/
namespace Custodly.Vault
open Library Library.Strings Library.KeyValue Library.Interaction Library.Surroundings
open Custodly.Core Host

variable {T Db : Type}

/-- The database, the passwords the keystore holds for the service, and the child at work
with what was written to it so far. -/
structure World (Db : Type) where
  db : Db
  keystore : Text → Option Text
  child : Option (List Text × List Text)

/-- What a reply says about the world, and what the request does to it.  A child acts on the
database when it is waited for. -/
def step (cli : KeepassCli Db) : Step (Call T) (Reply T) (World Db)
  | w, ⟨.spawn _ args, .ok _⟩, w' => w' = { w with child := some (args, []) }
  | w, ⟨.writeLine line, .ok _⟩, w' =>
      w' = { w with child := w.child.map fun child => (child.1, child.2 ++ [line]) }
  | w, ⟨.waitWithOutput, .ok output⟩, w' =>
      ∃ args stdin, w.child = some (args, stdin) ∧ (cli.exec w.db args stdin).1 = output ∧
        w' = { w with db := (cli.exec w.db args stdin).2, child := none }
  | w, ⟨.waitWithOutput, .error _⟩, w' =>
      -- the output was lost; the child may have done its work or not
      w' = { w with child := none } ∨ ∃ args stdin, w.child = some (args, stdin) ∧
        w' = { w with db := (cli.exec w.db args stdin).2, child := none }
  | w, ⟨.getPassword _ name, .ok password⟩, w' => w.keystore name = some password ∧ w' = w
  | w, ⟨.getPassword _ name, .error .noEntry⟩, w' => w.keystore name = none ∧ w' = w
  | w, ⟨.setPassword _ name password, .ok _⟩, w' =>
      w' = { w with keystore := Function.update w.keystore name (some password) }
  | w, _, w' => w' = w

/-- No failure from outside: the binary is there, the child can be started, written to and
waited for, and the keystore answers. -/
def Undisturbed : Event (Call T) (Reply T) → Prop
  | ⟨.exists _, found⟩ => found = true
  | ⟨.spawn _ _, reply⟩ => reply.isOk
  | ⟨.writeLine _, reply⟩ => reply.isOk
  | ⟨.waitWithOutput, reply⟩ => reply.isOk
  | ⟨.keyringEntry _ _, reply⟩ => reply.isOk
  | ⟨.getPassword _ _, .error (.other _)⟩ => False
  | ⟨.setPassword _ _ _, reply⟩ => reply.isOk
  | _ => True

def calmStep (cli : KeepassCli Db) : Step (Call T) (Reply T) (World Db) := fun w event w' =>
  step cli w event w' ∧ Undisturbed event

/-- What a step can do to the world: nothing, or something outside the keystore for a request
that is not the keystore's, or a new password under one name. -/
theorem step_cases {cli : KeepassCli Db} {w w' : World Db} {event : Event (Call T) (Reply T)}
    (h : step cli w event w') :
    w' = w ∨ ¬ LeavesStore event.1 ∧ w'.keystore = w.keystore ∨
      ∃ name password, w' = { w with
        keystore := Function.update w.keystore name (some password) } := by
  obtain ⟨request, reply⟩ := event
  cases request with
  | spawn path args =>
    cases reply with
    | error cause => exact .inl h
    | ok _ =>
      rw [show w' = _ from h]
      exact .inr (.inl ⟨id, rfl⟩)
  | writeLine line =>
    cases reply with
    | error cause => exact .inl h
    | ok _ =>
      rw [show w' = _ from h]
      exact .inr (.inl ⟨id, rfl⟩)
  | waitWithOutput =>
    cases reply with
    | error cause =>
      obtain hlost | ⟨args, stdin, -, hdone⟩ := h
      · rw [hlost]
        exact .inr (.inl ⟨id, rfl⟩)
      · rw [hdone]
        exact .inr (.inl ⟨id, rfl⟩)
    | ok output =>
      obtain ⟨args, stdin, -, -, hdone⟩ := h
      rw [hdone]
      exact .inr (.inl ⟨id, rfl⟩)
  | getPassword service name =>
    rcases reply with (_ | cause) | found
    · exact .inl h.2
    · exact .inl h
    · exact .inl h.2
  | setPassword service name password =>
    cases reply with
    | error cause => exact .inl h
    | ok _ => exact .inr (.inr ⟨name, password, h⟩)
  | _ => exact .inl h

theorem step_leavesStore {cli : KeepassCli Db} {w w' : World Db} {event : Event (Call T) (Reply T)}
    (hcall : LeavesStore event.1) (h : step cli w event w') :
    w'.db = w.db ∧ w'.child = w.child := by
  rcases step_cases h with rfl | ⟨hother, -⟩ | ⟨name, password, rfl⟩
  · exact ⟨rfl, rfl⟩
  · exact absurd hcall hother
  · exact ⟨rfl, rfl⟩

theorem exec_leavesStore {α : Type} {cli : KeepassCli Db} {w w' : World Db}
    {program : Program (Call T) (Reply T) α} (issues : program.Issues LeavesStore)
    {value : Option α} (h : Exec (step cli) w program value w') :
    w'.db = w.db ∧ w'.child = w.child := by
  refine h.invariant (P := fun v => v.db = w.db ∧ v.child = w.child) ?_ issues ⟨rfl, rfl⟩
  intro v event v' hcall hstep hkept
  have := step_leavesStore hcall hstep
  exact ⟨this.1.trans hkept.1, this.2.trans hkept.2⟩

theorem exec_getOrCreate_ok {cli : KeepassCli Db} {w w' : World Db} {name password : Text}
    (h : Exec (step cli) w (getOrCreate name : Action T _ _).run (some (.ok password)) w') :
    w'.keystore name = some password := by
  unfold getOrCreate at h
  obtain ⟨opened, between, hstep, h⟩ := exec_call_bind.1 h
  cases opened with
  | error e =>
    rw [run_attempt_error_bind, Exec.done_iff] at h
    cases h.1
  | ok _ =>
    rw [run_attempt_ok_bind] at h
    obtain ⟨found, between', hstep', h⟩ := exec_call_bind.1 h
    rcases found with (_ | cause) | existing
    · obtain ⟨generated, drawn, -, h⟩ | ⟨e, he, -⟩ | ⟨hnone, -⟩ := Exec.tryBind_iff.1 h
      · obtain ⟨stored, kept, hstore, h⟩ := exec_call_bind.1 h
        cases stored with
        | error e =>
          rw [run_attempt_error_bind, Exec.done_iff] at h
          cases h.1
        | ok _ =>
          rw [run_attempt_ok_bind, run_pure, Exec.done_iff] at h
          obtain ⟨hvalue, rfl⟩ := h
          cases hvalue
          rw [show kept = _ from hstore]
          simp
      · cases he
      · cases hnone
    · rw [run_throw, Exec.done_iff] at h
      cases h.1
    · rw [run_pure, Exec.done_iff] at h
      obtain ⟨hvalue, rfl⟩ := h
      cases hvalue
      rw [hstep'.2]
      exact hstep'.1

theorem calm_getOrCreate {cli : KeepassCli Db} {w w' : World Db} {name password : Text}
    {value : Option (Except KeyringError Text)} (hkeystore : w.keystore name = some password)
    (h : Exec (calmStep cli) w (getOrCreate name : Action T _ _).run value w') :
    value = some (.ok password) ∧ w' = w := by
  unfold getOrCreate at h
  obtain ⟨opened, between, ⟨hstep, hcalm⟩, h⟩ := exec_call_bind.1 h
  cases opened with
  | error e => cases hcalm
  | ok _ =>
    rw [run_attempt_ok_bind] at h
    obtain ⟨found, between', ⟨hstep', hcalm'⟩, h⟩ := exec_call_bind.1 h
    rw [show between = w from hstep] at hstep'
    rcases found with (_ | cause) | existing
    · rw [hstep'.1] at hkeystore
      cases hkeystore
    · exact hcalm'.elim
    · rw [run_pure, Exec.done_iff] at h
      obtain ⟨hvalue, rfl⟩ := h
      rw [hstep'.1, Option.some.injEq] at hkeystore
      rw [hvalue, hkeystore]
      exact ⟨rfl, hstep'.2⟩

theorem exec_writeLines {cli : KeepassCli Db} {lines : List Text} {w w' : World Db}
    {value : Option (Except VaultError Unit)}
    (h : Exec (step cli) w (writeLines lines : Action T _ _).run value w') :
    w'.db = w.db ∧ w'.keystore = w.keystore ∧ (value = some (.ok ()) →
      w'.child = w.child.map fun child => (child.1, child.2 ++ lines)) := by
  induction lines generalizing w with
  | nil =>
    unfold writeLines at h
    rw [run_pure, Exec.done_iff] at h
    rw [← h.2]
    refine ⟨rfl, rfl, fun _ => ?_⟩
    cases w.child <;> simp
  | cons line rest ih =>
    unfold writeLines at h
    obtain ⟨written, between, hstep, h⟩ := exec_call_bind.1 h
    cases written with
    | error e =>
      rw [Except.mapError, run_attempt_error_bind, Exec.done_iff] at h
      rw [← h.2, show between = w from hstep]
      refine ⟨rfl, rfl, fun hok => ?_⟩
      rw [h.1] at hok
      cases hok
    | ok _ =>
      rw [Except.mapError, run_attempt_ok_bind] at h
      obtain ⟨hdb, hkeystore, hchild⟩ := ih h
      rw [show between = _ from hstep] at hdb hkeystore hchild
      refine ⟨hdb, hkeystore, fun hok => ?_⟩
      rw [hchild hok]
      cases w.child <;> simp

theorem calm_writeLines {cli : KeepassCli Db} {lines : List Text} {w w' : World Db}
    {value : Option (Except VaultError Unit)}
    (h : Exec (calmStep cli) w (writeLines lines : Action T _ _).run value w') :
    value = some (.ok ()) := by
  induction lines generalizing w with
  | nil =>
    unfold writeLines at h
    rw [run_pure, Exec.done_iff] at h
    exact h.1
  | cons line rest ih =>
    unfold writeLines at h
    obtain ⟨written, between, ⟨hstep, hcalm⟩, h⟩ := exec_call_bind.1 h
    cases written with
    | error e => cases hcalm
    | ok _ =>
      rw [Except.mapError, run_attempt_ok_bind] at h
      exact ih h

theorem calm_to_step {cli : KeepassCli Db} {α : Type} {program : Program (Call T) (Reply T) α}
    {w w' : World Db} {value : Option α} (h : Exec (calmStep cli) w program value w') :
    Exec (step cli) w program value w' :=
  h.mono fun _ _ _ hstep => hstep.1

theorem exec_password {cli : KeepassCli Db} {vault : Vault} {w w' : World Db}
    {value : Option (Except VaultError Text)}
    (h : Exec (step cli) w (vault.password : Action T _ _).run value w') :
    w'.db = w.db ∧ w'.child = w.child ∧
      ∀ password, value = some (.ok password) → w'.keystore vault.keyringName = some password := by
  unfold password at h
  rw [run_adapt, Exec.map_iff] at h
  obtain ⟨value', h, rfl⟩ := h
  obtain ⟨hdb, hchild⟩ := exec_leavesStore (issues_getOrCreate _) h
  refine ⟨hdb, hchild, fun password hok => ?_⟩
  rcases value' with _ | (e | found)
  · cases hok
  · cases hok
  · cases hok
    exact exec_getOrCreate_ok h

def answer : Except Text ProcessOutput → Except VaultError Text
  | .error cause => .error (.io cause)
  | .ok output =>
      if output.success then .ok output.stdout else .error (.cliFailed output.stderr)

theorem answer_eq_ok_iff {waited : Except Text ProcessOutput} {out : Text} :
    answer waited = .ok out ↔
      ∃ output, waited = .ok output ∧ output.success ∧ output.stdout = out := by
  cases waited with
  | error cause => simp [answer]
  | ok output =>
    by_cases hsuccess : output.success <;> simp [answer, hsuccess]

theorem attempt_answer (waited : Except Text ProcessOutput) :
    (do
      let output ← attempt (waited.mapError VaultError.io)
      if output.success then pure output.stdout
      else throw (.cliFailed output.stderr) : Action T VaultError Text).run =
      .done (answer waited) := by
  cases waited with
  | error cause => rfl
  | ok output =>
    rw [Except.mapError, run_attempt_ok_bind]
    unfold answer
    by_cases hsuccess : output.success
    · simp only [if_pos hsuccess, run_pure]
    · simp only [if_neg hsuccess, run_throw]

theorem step_waitWithOutput {cli : KeepassCli Db} {w w' : World Db} {args stdin : List Text}
    (hchild : w.child = some (args, stdin)) {waited : Except Text ProcessOutput}
    (h : step (T := T) cli w ⟨.waitWithOutput, waited⟩ w') :
    w'.keystore = w.keystore ∧ (w'.db = w.db ∨ w'.db = (cli.exec w.db args stdin).2) ∧
      ∀ output, waited = .ok output →
        (cli.exec w.db args stdin).1 = output ∧ w'.db = (cli.exec w.db args stdin).2 := by
  have hsame {args' stdin' : List Text} (hchild' : w.child = some (args', stdin')) :
      args = args' ∧ stdin = stdin' := by
    rwa [hchild, Option.some.injEq, Prod.mk.injEq] at hchild'
  cases waited with
  | error cause =>
    obtain hlost | ⟨args', stdin', hchild', hdone⟩ := h
    · rw [hlost]
      exact ⟨rfl, .inl rfl, nofun⟩
    · obtain ⟨rfl, rfl⟩ := hsame hchild'
      rw [hdone]
      exact ⟨rfl, .inr rfl, nofun⟩
  | ok output =>
    obtain ⟨args', stdin', hchild', houtput, hdone⟩ := h
    obtain ⟨rfl, rfl⟩ := hsame hchild'
    rw [hdone]
    refine ⟨rfl, .inr rfl, ?_⟩
    rintro _ ⟨⟩
    exact ⟨houtput, rfl⟩

/-- What one command can do: nothing to the database, or what the child does with its
arguments and all its lines; and when it succeeds, how. -/
theorem exec_run {cli : KeepassCli Db} {vault : Vault} {args lines : List Text} {w w' : World Db}
    {value : Option (Except VaultError Text)}
    (h : Exec (step cli) w (vault.run args lines : Action T _ _).run value w') :
    (w'.db = w.db ∨ ∃ password, w'.db = (cli.exec w.db args (password :: lines)).2) ∧
    ∀ out, value = some (.ok out) → ∃ password,
      w'.keystore vault.keyringName = some password ∧
      w'.db = (cli.exec w.db args (password :: lines)).2 ∧
      (cli.exec w.db args (password :: lines)).1.success ∧
      (cli.exec w.db args (password :: lines)).1.stdout = out := by
  unfold run at h
  obtain ⟨found, w₁, hfound, h⟩ := exec_call_bind.1 h
  rw [show w₁ = w from hfound] at h
  cases found with
  | false =>
    simp only [if_true, run_throw, Exec.done_iff] at h
    rw [h.1, ← h.2]
    exact ⟨.inl rfl, fun out hok => by cases hok⟩
  | true =>
    simp only [Bool.true_eq_false, if_false] at h
    obtain ⟨spawned, w₂, hspawned, h⟩ := exec_call_bind.1 h
    cases spawned with
    | error e =>
      rw [Except.mapError, run_attempt_error_bind, Exec.done_iff] at h
      rw [h.1, ← h.2, show w₂ = w from hspawned]
      exact ⟨.inl rfl, fun out hok => by cases hok⟩
    | ok _ =>
      rw [Except.mapError, run_attempt_ok_bind] at h
      rw [show w₂ = _ from hspawned] at h
      obtain ⟨password, w₃, hpassword, hrest⟩ | ⟨e, rfl, hfail⟩ | ⟨rfl, hfail⟩ :=
        Exec.tryBind_iff.1 h
      · obtain ⟨hdb, hchild, hkeystore⟩ := exec_password hpassword
        obtain ⟨_, w₄, hwritten, hwait⟩ | ⟨e, rfl, hfail⟩ | ⟨rfl, hfail⟩ :=
          Exec.tryBind_iff.1 hrest
        · obtain ⟨hdb', hkeystore', hchild'⟩ := exec_writeLines hwritten
          have hfed : w₄.child = some (args, password :: lines) := by
            rw [hchild' rfl, hchild]
            rfl
          obtain ⟨waited, w₅, hwaited, hout⟩ := exec_call_bind.1 hwait
          rw [attempt_answer, Exec.done_iff] at hout
          obtain ⟨hkept, hworked, hdone⟩ := step_waitWithOutput hfed hwaited
          rw [hdb', hdb] at hworked hdone
          rw [hout.1, ← hout.2]
          refine ⟨hworked.imp_right fun hdb => ⟨password, hdb⟩, fun out hok => ⟨password, ?_⟩⟩
          obtain ⟨output, houtput, hsuccess, hstdout⟩ :=
            answer_eq_ok_iff.1 (Option.some.inj hok)
          obtain ⟨hanswered, hdb⟩ := hdone output houtput
          rw [hanswered, hkept, hkeystore']
          exact ⟨hkeystore password rfl, hdb, hsuccess, hstdout⟩
        · obtain ⟨hdb', -, -⟩ := exec_writeLines hfail
          exact ⟨.inl (hdb'.trans hdb), fun out hok => by cases hok⟩
        · obtain ⟨hdb', -, -⟩ := exec_writeLines hfail
          exact ⟨.inl (hdb'.trans hdb), fun out hok => by cases hok⟩
      · exact ⟨.inl (exec_password hfail).1, fun out hok => by cases hok⟩
      · exact ⟨.inl (exec_password hfail).1, fun out hok => by cases hok⟩

theorem calm_password {cli : KeepassCli Db} {vault : Vault} {w w' : World Db} {password : Text}
    {value : Option (Except VaultError Text)}
    (hkeystore : w.keystore vault.keyringName = some password)
    (h : Exec (calmStep cli) w (vault.password : Action T _ _).run value w') :
    value = some (.ok password) ∧ w' = w := by
  unfold Vault.password at h
  rw [run_adapt, Exec.map_iff] at h
  obtain ⟨value', h, rfl⟩ := h
  obtain ⟨hvalue, hw⟩ := calm_getOrCreate hkeystore h
  rw [hvalue]
  exact ⟨rfl, hw⟩

/-- Undisturbed, a command answers what the child answers. -/
theorem calm_run {cli : KeepassCli Db} {vault : Vault} {args lines : List Text} {w w' : World Db}
    {password : Text} {value : Option (Except VaultError Text)}
    (hkeystore : w.keystore vault.keyringName = some password)
    (h : Exec (calmStep cli) w (vault.run args lines : Action T _ _).run value w') :
    let output := (cli.exec w.db args (password :: lines)).1
    value = some
      (if output.success then .ok output.stdout else .error (.cliFailed output.stderr)) := by
  unfold run at h
  obtain ⟨found, w₁, ⟨hfound, hcalm⟩, h⟩ := exec_call_bind.1 h
  rw [show w₁ = w from hfound, show found = true from hcalm] at h
  simp only [Bool.true_eq_false, if_false] at h
  obtain ⟨spawned, w₂, ⟨hspawned, hcalm⟩, h⟩ := exec_call_bind.1 h
  cases spawned with
  | error e => cases hcalm
  | ok _ =>
    rw [Except.mapError, run_attempt_ok_bind, show w₂ = _ from hspawned] at h
    have hthere : (⟨w.db, w.keystore, some (args, [])⟩ : World Db).keystore vault.keyringName =
        some password := hkeystore
    obtain ⟨password', w₃, hpassword, hrest⟩ | ⟨e, -, hfail⟩ | ⟨-, hfail⟩ := Exec.tryBind_iff.1 h
    · obtain ⟨hvalue, rfl⟩ := calm_password hthere hpassword
      rw [Option.some.injEq, Except.ok.injEq] at hvalue
      rw [hvalue] at hrest
      obtain ⟨_, w₄, hwritten, hwait⟩ | ⟨e, -, hfail⟩ | ⟨-, hfail⟩ := Exec.tryBind_iff.1 hrest
      · obtain ⟨hdb, -, hchild⟩ := exec_writeLines (calm_to_step hwritten)
        have hfed : w₄.child = some (args, password :: lines) := hchild rfl
        obtain ⟨waited, w₅, ⟨hwaited, hcalm⟩, hout⟩ := exec_call_bind.1 hwait
        rw [attempt_answer, Exec.done_iff] at hout
        cases waited with
        | error e => cases hcalm
        | ok output =>
          obtain ⟨hanswered, -⟩ := (step_waitWithOutput hfed hwaited).2.2 output rfl
          rw [hdb] at hanswered
          simp only
          rw [hanswered]
          exact hout.1
      · cases calm_writeLines hfail
      · cases calm_writeLines hfail
    · cases (calm_password hthere hfail).1
    · cases (calm_password hthere hfail).1

theorem exec_dbStr {σ : Type} {step : Step (Call T) (Reply T) σ} {vault : Vault} {w w' : σ}
    {value : Option (Except VaultError Text)}
    (h : Exec step w (vault.dbStr : Action T _ _).run value w') :
    w' = w ∧ (value = none ∨ ∃ db, vault.dbPath.toStr = some db ∧ value = some (.ok db)) := by
  unfold dbStr at h
  cases hpath : vault.dbPath.toStr with
  | none =>
    rw [hpath] at h
    simp only [run_abort] at h
    obtain ⟨never, -, -, -⟩ | ⟨-, hvalue, hw⟩ := Exec.ask_iff.1 h
    · cases never
    · exact ⟨hw.symm, .inl hvalue⟩
  | some db =>
    rw [hpath] at h
    obtain ⟨hvalue, hw⟩ := Exec.done_iff.1 h
    exact ⟨hw.symm, .inr ⟨db, rfl, hvalue⟩⟩

theorem dbStr_eq_pure {vault : Vault} {db : Text} (hdb : vault.dbPath.toStr = some db) :
    (vault.dbStr : Action T VaultError Text) = pure db := by
  unfold dbStr
  rw [hdb]

theorem exists_db {σ α : Type} {step : Step (Call T) (Reply T) σ} {vault : Vault} {w w' : σ}
    {next : Text → Action T VaultError α} {outcome : Except VaultError α}
    (h : Exec step w (vault.dbStr >>= next).run (some outcome) w') :
    ∃ db, vault.dbPath.toStr = some db := by
  obtain ⟨_, _, hdb, -⟩ | ⟨_, -, hdb⟩ | ⟨hnone, -⟩ := Exec.tryBind_iff.1 h
  · obtain ⟨-, hnone | ⟨db, hpath, -⟩⟩ := exec_dbStr hdb
    · cases hnone
    · exact ⟨db, hpath⟩
  · obtain ⟨-, hnone | ⟨db, hpath, -⟩⟩ := exec_dbStr hdb
    · cases hnone
    · exact ⟨db, hpath⟩
  · cases hnone

theorem exec_ensureGroup {cli : KeepassCli Db} (laws : Documented cli) {vault : Vault}
    {project : Text} {w w' : World Db} {value : Option (Except VaultError Unit)}
    (h : Exec (step cli) w (vault.ensureGroup project : Action T _ _).run value w') :
    cli.Same w.db w'.db := by
  unfold ensureGroup at h
  obtain ⟨db, between, hpath, hrest⟩ | ⟨e, -, hfail⟩ | ⟨-, hfail⟩ := Exec.tryBind_iff.1 h
  · rw [(exec_dbStr hpath).1] at hrest
    have hkept {value : Option (Except VaultError Text)} {w' : World Db}
        (h : Exec (step cli) w (vault.run (mkdirArgs db project) [] : Action T _ _).run value w') :
        cli.Same w.db w'.db := by
      obtain ⟨hsame | ⟨password, hdone⟩, -⟩ := exec_run h
      · rw [hsame]
        exact .refl cli _
      · rw [hdone]
        exact laws.mkdir _ _ _ _
    obtain ⟨outcome, between', hrun, hdone⟩ | ⟨-, hrun⟩ := Exec.bind_iff.1 hrest
    · rw [← (Exec.done_iff.1 hdone).2]
      exact hkept hrun
    · exact hkept hrun
  · rw [(exec_dbStr hfail).1]
    exact .refl cli _
  · rw [(exec_dbStr hfail).1]
    exact .refl cli _

section Entries

variable [DateTimeUtc T] {cli : KeepassCli Db} {vault : Vault} {w w' : World Db}

/-- The database after an entry was stored: one path holds the entry's notes and what was
taken of its secret, every other path what it held. -/
def StoredIn (cli : KeepassCli Db) (entry : VaultEntry T) (db db' : Db) : Prop :=
  ∃ password, TakenFrom entry.secret password ∧ cli.entryAt db' =
    Function.update (cli.entryAt db) entry.groupPath
      (some (password, encodeMetadata entry.metadata))

def KeepassCli.add (cli : KeepassCli Db) (entry : VaultEntry T) (d : Db) (db password : Text) :
    ProcessOutput × Db :=
  cli.exec d (addArgs (encodeMetadata entry.metadata) db entry.groupPath)
    [password, entry.secret, entry.secret]

/-- `put` leaves what its `mkdir` left or what its `add` made of that; and it succeeds only
where the `add` did, under the password in the keystore. -/
theorem exec_put_add (laws : Documented cli) {entry : VaultEntry T}
    {value : Option (Except VaultError Unit)}
    (h : Exec (step cli) w (vault.put entry : Action T _ _).run value w') :
    ∃ made, cli.Same w.db made ∧
      (w'.db = made ∨ ∃ db password, w'.db = (cli.add entry made db password).2) ∧
      (value = some (.ok ()) → ∃ db password, w'.keystore vault.keyringName = some password ∧
        w'.db = (cli.add entry made db password).2 ∧
        (cli.add entry made db password).1.success) := by
  unfold put at h
  obtain ⟨_, w₁, hgroup, hrest⟩ | ⟨e, rfl, hfail⟩ | ⟨rfl, hfail⟩ := Exec.tryBind_iff.1 h
  · have hsame := exec_ensureGroup laws hgroup
    obtain ⟨db, w₂, hpath, hadd⟩ | ⟨e, rfl, hfail⟩ | ⟨rfl, hfail⟩ := Exec.tryBind_iff.1 hrest
    · rw [(exec_dbStr hpath).1] at hadd
      have hrun {value : Option (Except VaultError Text)} {w' : World Db}
          (hrun : Exec (step cli) w₁ (vault.run (addArgs (encodeMetadata entry.metadata) db
            entry.groupPath) [entry.secret, entry.secret] : Action T _ _).run value w') :
          w'.db = w₁.db ∨ ∃ db password, w'.db = (cli.add entry w₁.db db password).2 :=
        (exec_run hrun).1.imp_right fun ⟨password, hdone⟩ => ⟨db, password, hdone⟩
      obtain ⟨out, w₃, hout, hdone⟩ | ⟨e, rfl, hfail⟩ | ⟨rfl, hfail⟩ := Exec.tryBind_iff.1 hadd
      · rw [← (Exec.done_iff.1 hdone).2]
        refine ⟨w₁.db, hsame, hrun hout, fun _ => ?_⟩
        obtain ⟨password, hkeystore, hdb, hsuccess, -⟩ := (exec_run hout).2 out rfl
        exact ⟨db, password, hkeystore, hdb, hsuccess⟩
      · exact ⟨w₁.db, hsame, hrun hfail, nofun⟩
      · exact ⟨w₁.db, hsame, hrun hfail, nofun⟩
    · rw [(exec_dbStr hfail).1]
      exact ⟨w₁.db, hsame, .inl rfl, nofun⟩
    · rw [(exec_dbStr hfail).1]
      exact ⟨w₁.db, hsame, .inl rfl, nofun⟩
  · exact ⟨w'.db, exec_ensureGroup laws hfail, .inl rfl, nofun⟩
  · exact ⟨w'.db, exec_ensureGroup laws hfail, .inl rfl, nofun⟩

theorem add_stored (laws : Documented cli) (entry : VaultEntry T) {d made : Db}
    (hsame : cli.Same d made) (db password : Text) :
    (cli.Same d (cli.add entry made db password).2 ∨
        StoredIn cli entry d (cli.add entry made db password).2) ∧
      ((cli.add entry made db password).1.success →
        StoredIn cli entry d (cli.add entry made db password).2 ∧
          cli.unlocks (cli.add entry made db password).2 password) := by
  cases hsuccess : (cli.add entry made db password).1.success with
  | false => exact ⟨.inl (hsame.trans (laws.add_refused _ _ _ _ _ hsuccess)), nofun⟩
  | true =>
    obtain ⟨hunlocks, hkept, taken, htaken, hentries⟩ := laws.add_accepted _ _ _ _ _ _ hsuccess
    rw [hsame.1] at hentries
    exact ⟨.inr ⟨taken, htaken, hentries⟩,
      fun _ => ⟨⟨taken, htaken, hentries⟩, (hkept password).2 hunlocks⟩⟩

/-- `put` stores the entry or changes no entry, and stores it when it succeeds; the keystore
then holds a password that opens the database. -/
theorem exec_put (laws : Documented cli) {entry : VaultEntry T}
    {value : Option (Except VaultError Unit)}
    (h : Exec (step cli) w (vault.put entry : Action T _ _).run value w') :
    (cli.Same w.db w'.db ∨ StoredIn cli entry w.db w'.db) ∧
    (value = some (.ok ()) → StoredIn cli entry w.db w'.db ∧ ∃ password,
      w'.keystore vault.keyringName = some password ∧ cli.unlocks w'.db password) := by
  obtain ⟨made, hsame, hdb, hok⟩ := exec_put_add laws h
  constructor
  · rcases hdb with hdb | ⟨db, password, hdb⟩
    · rw [hdb]
      exact .inl hsame
    · rw [hdb]
      exact (add_stored laws entry hsame db password).1
  · intro hvalue
    obtain ⟨db, password, hkeystore, hdb, hsuccess⟩ := hok hvalue
    obtain ⟨hstored, hunlocks⟩ := (add_stored laws entry hsame db password).2 hsuccess
    rw [hdb]
    exact ⟨hstored, password, hkeystore, hunlocks⟩

theorem exec_get_ok (laws : Documented cli) {query : SecretQuery} {entry : VaultEntry T}
    (h : Exec (step cli) w (vault.get query : Action T _ _).run (some (.ok entry)) w') :
    ∃ password notes, cli.entryAt w.db query.groupPath = some (password, notes) ∧
      readEntry query (printed password notes) = .ok entry := by
  unfold get at h
  obtain ⟨db, w₁, hpath, hshow⟩ | ⟨e, herror, -⟩ | ⟨hnone, -⟩ := Exec.tryBind_iff.1 h
  · rw [(exec_dbStr hpath).1] at hshow
    obtain ⟨out, w₂, hout, hread⟩ | ⟨e, herror, -⟩ | ⟨hnone, -⟩ := Exec.tryBind_iff.1 hshow
    · rw [run_adapt, Exec.map_iff] at hout
      obtain ⟨value, hrun, hvalue⟩ := hout
      rcases value with _ | (e | out')
      · cases hvalue
      · cases hvalue
      · cases hvalue
        obtain ⟨vaultPassword, -, -, hsuccess, hstdout⟩ := (exec_run hrun).2 out rfl
        obtain ⟨password, notes, hentry, hprinted⟩ := laws.show_accepted _ _ _ _ hsuccess
        refine ⟨password, notes, hentry, ?_⟩
        rw [hstdout] at hprinted
        obtain ⟨hvalue, -⟩ := Exec.done_iff.1 hread
        rw [Option.some.injEq, hprinted] at hvalue
        exact hvalue.symm
    · cases herror
    · cases hnone
  · cases herror
  · cases hnone

theorem calm_get (laws : Documented cli) {query : SecretQuery} {password notes vaultPassword : Text}
    (hentry : cli.entryAt w.db query.groupPath = some (password, notes))
    (hkeystore : w.keystore vault.keyringName = some vaultPassword)
    (hunlocks : cli.unlocks w.db vaultPassword)
    {outcome : Except VaultError (VaultEntry T)}
    (h : Exec (calmStep cli) w (vault.get query : Action T _ _).run (some outcome) w')
    {db : Text} (hdb : vault.dbPath.toStr = some db) :
    outcome = readEntry query (printed password notes) := by
  have hsuccess := laws.show_success w.db db query.groupPath vaultPassword hunlocks
    (by rw [hentry]; rfl)
  obtain ⟨password', notes', hentry', hstdout⟩ := laws.show_accepted _ _ _ _ hsuccess
  rw [hentry, Option.some.injEq, Prod.mk.injEq] at hentry'
  have hprints {value : Option (Except VaultError Text)} {w' : World Db}
      (h : Exec (calmStep cli) w ((vault.run (showArgs db query.groupPath) []).adapt
        fun _ => VaultError.notFound query.project query.label : Action T _ _).run value w') :
      value = some (.ok (printed password notes)) := by
    rw [run_adapt, Exec.map_iff] at h
    obtain ⟨value', h, rfl⟩ := h
    rw [calm_run hkeystore h, if_pos hsuccess, hstdout, ← hentry'.1, ← hentry'.2]
    rfl
  unfold get at h
  rw [dbStr_eq_pure hdb, pure_bind] at h
  obtain ⟨out, w₂, hout, hread⟩ | ⟨e, herror, hfail⟩ | ⟨hnone, -⟩ := Exec.tryBind_iff.1 h
  · have hvalue := hprints hout
    rw [Option.some.injEq, Except.ok.injEq] at hvalue
    obtain ⟨houtcome, -⟩ := Exec.done_iff.1 hread
    rw [Option.some.injEq, hvalue] at houtcome
    exact houtcome
  · cases hprints hfail
  · cases hnone

end Entries

section Progress

variable {cli : KeepassCli Db} {vault : Vault} {w : World Db}

theorem exists_calm_password {password : Text}
    (hkeystore : w.keystore vault.keyringName = some password) :
    Exec (calmStep cli) w (vault.password : Action T _ _).run (some (.ok password)) w := by
  unfold Vault.password
  rw [run_adapt, Exec.map_iff]
  refine ⟨some (.ok password), ?_, rfl⟩
  unfold getOrCreate
  refine exec_call_bind.2 ⟨.ok (), w, ⟨rfl, rfl⟩, ?_⟩
  rw [run_attempt_ok_bind]
  exact exec_call_bind.2 ⟨.ok password, w, ⟨⟨hkeystore, rfl⟩, trivial⟩, Exec.done_iff.2 ⟨rfl, rfl⟩⟩

theorem exists_calm_writeLines (lines : List Text) :
    Exec (calmStep cli) w (writeLines lines : Action T _ _).run (some (.ok ()))
      { w with child := w.child.map fun child => (child.1, child.2 ++ lines) } := by
  induction lines generalizing w with
  | nil =>
    unfold writeLines
    rw [run_pure, Exec.done_iff]
    obtain ⟨db, keystore, child⟩ := w
    cases child <;> simp
  | cons line rest ih =>
    unfold writeLines
    refine exec_call_bind.2 ⟨.ok (), _, ⟨rfl, rfl⟩, ?_⟩
    rw [Except.mapError, run_attempt_ok_bind]
    have := @ih { w with child := w.child.map fun child => (child.1, child.2 ++ [line]) }
    obtain ⟨db, keystore, child⟩ := w
    cases child <;> simpa using this

theorem exists_calm_run (args lines : List Text) {password : Text}
    (hkeystore : w.keystore vault.keyringName = some password) :
    let result := cli.exec w.db args (password :: lines)
    Exec (calmStep cli) w (vault.run args lines : Action T _ _).run
      (some (if result.1.success then .ok result.1.stdout else .error (.cliFailed result.1.stderr)))
      { w with db := result.2, child := none } := by
  intro result
  unfold run
  refine exec_call_bind.2 ⟨true, w, ⟨rfl, rfl⟩, ?_⟩
  simp only [Bool.true_eq_false, if_false]
  refine exec_call_bind.2 ⟨.ok (), _, ⟨rfl, rfl⟩, ?_⟩
  rw [Except.mapError, run_attempt_ok_bind]
  refine Exec.tryBind_iff.2 (.inl ⟨password, _, exists_calm_password hkeystore, ?_⟩)
  refine Exec.tryBind_iff.2 (.inl ⟨(), _, exists_calm_writeLines _, ?_⟩)
  refine exec_call_bind.2 ⟨.ok result.1, _, ⟨⟨args, password :: lines, rfl, rfl, rfl⟩, rfl⟩, ?_⟩
  rw [attempt_answer, Exec.done_iff]
  exact ⟨rfl, rfl⟩

variable [DateTimeUtc T]

theorem exists_calm_put (entry : VaultEntry T) {db password : Text}
    (hdb : vault.dbPath.toStr = some db)
    (hkeystore : w.keystore vault.keyringName = some password) :
    let made := (cli.exec w.db (mkdirArgs db entry.metadata.project) [password]).2
    let result := cli.add entry made db password
    Exec (calmStep cli) w (vault.put entry : Action T _ _).run
      (some (if result.1.success then .ok () else .error (.cliFailed result.1.stderr)))
      { w with db := result.2, child := none } := by
  intro made result
  unfold put ensureGroup
  rw [dbStr_eq_pure hdb, pure_bind]
  refine Exec.tryBind_iff.2 (.inl ⟨(), { w with db := made, child := none }, ?_, ?_⟩)
  · exact Exec.bind_iff.2 (.inl ⟨_, _, exists_calm_run (mkdirArgs db entry.metadata.project) []
      hkeystore, Exec.done_iff.2 ⟨rfl, rfl⟩⟩)
  · rw [pure_bind]
    have hadd := @exists_calm_run T Db cli vault { w with db := made, child := none }
      (addArgs (encodeMetadata entry.metadata) db entry.groupPath) [entry.secret, entry.secret]
      password hkeystore
    change Exec _ _ _ (some (if result.1.success then _ else _)) _ at hadd
    by_cases hsuccess : result.1.success
    · rw [if_pos hsuccess] at hadd ⊢
      exact Exec.tryBind_iff.2 (.inl ⟨_, _, hadd, Exec.done_iff.2 ⟨rfl, rfl⟩⟩)
    · rw [if_neg hsuccess] at hadd ⊢
      exact Exec.tryBind_iff.2 (.inr (.inl ⟨_, rfl, hadd⟩))

theorem exists_calm_get {query : SecretQuery} {db password : Text}
    (hdb : vault.dbPath.toStr = some db)
    (hkeystore : w.keystore vault.keyringName = some password) :
    let result := cli.exec w.db (showArgs db query.groupPath) [password]
    result.1.success → Exec (calmStep cli) w (vault.get query : Action T _ _).run
      (some (readEntry query result.1.stdout)) { w with db := result.2, child := none } := by
  intro result hsuccess
  unfold get
  rw [dbStr_eq_pure hdb, pure_bind]
  have hshow := @exists_calm_run T Db cli vault w (showArgs db query.groupPath) [] password
    hkeystore
  simp only at hshow
  rw [if_pos hsuccess] at hshow
  refine Exec.tryBind_iff.2 (.inl ⟨result.1.stdout, _, ?_, Exec.done_iff.2 ⟨rfl, rfl⟩⟩)
  rw [run_adapt, Exec.map_iff]
  exact ⟨_, hshow, rfl⟩

end Progress

end Custodly.Vault
