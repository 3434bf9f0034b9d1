import Custodly.Vault.Notes
import Custodly.Vault.Password

/-! `keepassxc-cli` as a child process (`custodly-vault/src/vault.rs`): the one write path and
the one read path of the store. -/
namespace Custodly
open Library.Strings Library.Interaction Custodly.Core Host

structure Vault where
  cliPath : PathBuf
  dbPath : PathBuf
  keyringName : Text

namespace Vault

inductive VaultError where
  | cliNotFound (path : PathBuf)
  | cliFailed (stderr : Text)
  | notFound (project label : Text)
  | unparseableMetadata (project label : Text)
  | keyring (error : KeyringError)
  | io (cause : Text)
  deriving DecidableEq, Repr

/-- The `Display` text; `path` and `keyring` are those of the two foreign types. -/
def VaultError.message (path : PathBuf → Text) (keyring : KeyringError → Text) :
    VaultError → Text
  | .cliNotFound cliPath => "keepassxc-cli not found at ".toList ++ path cliPath
  | .cliFailed stderr => "keepassxc-cli failed: ".toList ++ stderr
  | .notFound project label => "no entry found for ".toList ++ project ++ '/' :: label
  | .unparseableMetadata project label =>
      "entry ".toList ++ project ++ '/' :: label ++
        " has no valid Custodly metadata in its Notes field".toList
  | .keyring error => keyring error
  | .io cause => cause

variable {T : Type}

def dbStr (vault : Vault) : Action T VaultError Text :=
  match vault.dbPath.toStr with
  | some text => pure text
  | none => abort "vault path is valid UTF-8".toList

def password (vault : Vault) : Action T VaultError Text :=
  (getOrCreate vault.keyringName).adapt .keyring

/-- `writeln!` for each line; the first that fails ends the call. -/
def writeLines : List Text → Action T VaultError Unit
  | [] => pure ()
  | line :: rest => do
      let written ← call (.writeLine line)
      let _ ← attempt (written.mapError .io)
      writeLines rest

def run (vault : Vault) (args extraStdin : List Text) : Action T VaultError Text := do
  let found ← call (.exists vault.cliPath)
  if found = false then throw (.cliNotFound vault.cliPath)
  else do
    let spawned ← call (.spawn vault.cliPath args)
    let _ ← attempt (spawned.mapError .io)
    let password ← vault.password
    writeLines (password :: extraStdin)
    let waited ← call .waitWithOutput
    let output ← attempt (waited.mapError .io)
    if output.success then pure output.stdout
    else throw (.cliFailed output.stderr)

def mkdirArgs (db project : Text) : List Text :=
  ["mkdir".toList, "-q".toList, db, project]

def addArgs (notes db path : Text) : List Text :=
  ["add".toList, "-q".toList, "-p".toList, "--notes".toList, notes, db, path]

def showArgs (db path : Text) : List Text :=
  ["show".toList, "-q".toList, "-s".toList, "-a".toList, "Password".toList, "-a".toList,
    "Notes".toList, db, path]

/-- The group may be there already, so any failure is passed over. -/
def ensureGroup (vault : Vault) (project : Text) : Action T VaultError Unit := do
  let db ← vault.dbStr
  ExceptT.mk do
    let _ ← (vault.run (mkdirArgs db project) []).run
    pure (.ok ())

variable [DateTimeUtc T]

def put (vault : Vault) (entry : VaultEntry T) : Action T VaultError Unit := do
  vault.ensureGroup entry.metadata.project
  let notes := encodeMetadata entry.metadata
  let db ← vault.dbStr
  let _ ← vault.run (addArgs notes db entry.groupPath) [entry.secret, entry.secret]
  pure ()

/-- The entry `show` printed: the secret on the first line, the notes on the others. -/
def readEntry (query : SecretQuery) (out : Text) : Except VaultError (VaultEntry T) :=
  let secret := (lines out).headD []
  let notes := ['\n'].intercalate (lines out).tail
  match decodeMetadata notes with
  | none => .error (.unparseableMetadata query.project query.label)
  | some metadata => .ok (VaultEntry.new query.label metadata secret)

def get (vault : Vault) (query : SecretQuery) : Action T VaultError (VaultEntry T) := do
  let db ← vault.dbStr
  let out ← (vault.run (showArgs db query.groupPath) []).adapt
    fun _ => .notFound query.project query.label
  attempt (readEntry query out)

def AsksVault : Call T → Prop
  | .exists _ | .spawn _ _ | .writeLine _ | .waitWithOutput | .abort _ => True
  | request => LeavesStore request

def Spawning (allowed : List Text → Prop) : Call T → Prop
  | .spawn _ args => allowed args
  | request => AsksVault request

omit [DateTimeUtc T] in
theorem asksVault_of_spawning {allowed : List Text → Prop} {request : Call T}
    (h : Spawning allowed request) : AsksVault request := by
  cases request with
  | spawn => exact trivial
  | _ => exact h

omit [DateTimeUtc T] in
theorem spawning_of_leavesStore {allowed : List Text → Prop} {request : Call T}
    (h : LeavesStore request) : Spawning allowed request := by
  cases request with
  | randomIndex | keyringEntry | getPassword | setPassword => exact h
  | _ => exact h.elim

omit [DateTimeUtc T] in
theorem issues_writeLines (lines : List Text) (allowed : List Text → Prop) :
    (writeLines lines : Action T _ _).run.Issues (Spawning allowed) := by
  induction lines with
  | nil => exact trivial
  | cons line rest ih =>
    unfold writeLines
    rw [run_call_bind]
    refine ⟨trivial, fun written => ?_⟩
    cases written with
    | error cause => exact trivial
    | ok _ => exact ih

omit [DateTimeUtc T] in
theorem issues_password (vault : Vault) (allowed : List Text → Prop) :
    (vault.password : Action T _ _).run.Issues (Spawning allowed) :=
  issues_adapt ((issues_getOrCreate vault.keyringName).mono fun _ => spawning_of_leavesStore)

omit [DateTimeUtc T] in
theorem issues_run (vault : Vault) {args : List Text} (lines : List Text)
    {allowed : List Text → Prop} (hargs : allowed args) :
    (vault.run args lines : Action T _ _).run.Issues (Spawning allowed) := by
  unfold run
  rw [run_call_bind, Program.issues_ask]
  refine ⟨trivial, fun found => ?_⟩
  cases found with
  | false => exact trivial
  | true =>
    simp only [Bool.true_eq_false, if_false]
    rw [run_call_bind, Program.issues_ask]
    refine ⟨hargs, fun spawned => ?_⟩
    cases spawned with
    | error cause => exact trivial
    | ok _ =>
      refine (issues_password vault _).tryBind fun password =>
        (issues_writeLines _ _).tryBind fun _ => ?_
      rw [run_call_bind]
      refine ⟨trivial, fun waited => ?_⟩
      cases waited with
      | error cause => exact trivial
      | ok output =>
        change (ite _ _ _ : Action T VaultError Text).run.Issues (Spawning allowed)
        split <;> exact trivial

omit [DateTimeUtc T] in
theorem issues_dbStr (vault : Vault) (allowed : List Text → Prop) :
    (vault.dbStr : Action T _ _).run.Issues (Spawning allowed) := by
  unfold dbStr
  split
  · exact trivial
  · rw [run_abort]
    exact ⟨trivial, nofun⟩

omit [DateTimeUtc T] in
theorem issues_ensureGroup (vault : Vault) {project : Text} (allowed : List Text → Prop)
    (hargs : ∀ db, allowed (mkdirArgs db project)) :
    (vault.ensureGroup project : Action T _ _).run.Issues (Spawning allowed) := by
  unfold ensureGroup
  exact (issues_dbStr vault _).tryBind fun db =>
    (issues_run vault [] (hargs db)).bind fun _ => trivial

def PutArgs (entry : VaultEntry T) (args : List Text) : Prop :=
  (∃ db, args = mkdirArgs db entry.metadata.project) ∨
    ∃ db, args = addArgs (encodeMetadata entry.metadata) db entry.groupPath

theorem issues_put_args (vault : Vault) (entry : VaultEntry T) :
    (vault.put entry : Action T _ _).run.Issues (Spawning (PutArgs entry)) := by
  unfold put
  refine (issues_ensureGroup vault _ fun db => .inl ⟨db, rfl⟩).tryBind fun _ => ?_
  exact (issues_dbStr vault _).tryBind fun db =>
    (issues_run vault _ (.inr ⟨db, rfl⟩)).tryBind fun _ => trivial

theorem issues_put (vault : Vault) (entry : VaultEntry T) :
    (vault.put entry : Action T _ _).run.Issues AsksVault :=
  (issues_put_args vault entry).mono fun _ => asksVault_of_spawning

end Vault

end Custodly
