import Custodly.Vault.Vault
import Mathlib.Logic.Function.Basic

/-! `keepassxc-cli` from outside.  The program is a parameter; what its documentation says of
the three commands in use is a hypothesis, and one program that behaves so is given. -/
namespace Custodly.Vault
open Library.Strings Host

variable {Db : Type}

/-- What a child does to a database, given its arguments and what was written to its
standard input, line by line; and what can be said of a database: the password and the
notes at a path, and which vault passwords open it. -/
structure KeepassCli (Db : Type) where
  exec : Db → (args stdin : List Text) → ProcessOutput × Db
  entryAt : Db → Text → Option (Text × Text)
  unlocks : Db → Text → Prop

/-- The entry password is the line, or the lines, after the vault password: all of what was
written, or its first line. -/
def TakenFrom (secret password : Text) : Prop :=
  password = secret ∨ ('\n' ∉ password ∧ ∃ rest, secret = password ++ '\n' :: rest)

def KeepassCli.Same (cli : KeepassCli Db) (db db' : Db) : Prop :=
  cli.entryAt db' = cli.entryAt db ∧ ∀ password, cli.unlocks db' password ↔ cli.unlocks db password

theorem KeepassCli.Same.refl (cli : KeepassCli Db) (db : Db) : cli.Same db db :=
  ⟨rfl, fun _ => Iff.rfl⟩

theorem KeepassCli.Same.trans {cli : KeepassCli Db} {a b c : Db} (h : cli.Same a b)
    (h' : cli.Same b c) : cli.Same a c :=
  ⟨h'.1.trans h.1, fun password => (h'.2 password).trans (h.2 password)⟩

def printed (password notes : Text) : Text := password ++ '\n' :: (notes ++ ['\n'])

structure Documented (cli : KeepassCli Db) : Prop where
  mkdir : ∀ d db project stdin, cli.Same d (cli.exec d (mkdirArgs db project) stdin).2
  /-- A refused `add` changes nothing; an accepted one keeps the notes verbatim. -/
  add_refused : ∀ d notes db path stdin,
    (cli.exec d (addArgs notes db path) stdin).1.success = false →
      cli.Same d (cli.exec d (addArgs notes db path) stdin).2
  add_accepted : ∀ d notes db path vaultPassword secret,
    let result := cli.exec d (addArgs notes db path) [vaultPassword, secret, secret]
    result.1.success → cli.unlocks d vaultPassword ∧
      (∀ password, cli.unlocks result.2 password ↔ cli.unlocks d password) ∧
      ∃ password, TakenFrom secret password ∧
        cli.entryAt result.2 = Function.update (cli.entryAt d) path (some (password, notes))
  /-- `show` changes nothing and prints the password and the notes, each with a line break. -/
  show_same : ∀ d db path stdin, cli.Same d (cli.exec d (showArgs db path) stdin).2
  show_accepted : ∀ d db path stdin,
    let result := cli.exec d (showArgs db path) stdin
    result.1.success → ∃ password notes, cli.entryAt d path = some (password, notes) ∧
      result.1.stdout = printed password notes
  show_success : ∀ d db path vaultPassword, cli.unlocks d vaultPassword →
    (cli.entryAt d path).isSome → (cli.exec d (showArgs db path) [vaultPassword]).1.success

structure SampleDb where
  password : Text
  entries : Text → Option (Text × Text)

def refused : ProcessOutput := ⟨false, [], "refused".toList⟩

/-- The commands are told apart by the number of their arguments; an entry password is the
first line after the vault password. -/
def sampleExec (db : SampleDb) (args stdin : List Text) : ProcessOutput × SampleDb :=
  if stdin.head? ≠ some db.password then (refused, db)
  else
    match args with
    | [_, _, _, _, notes, _, path] =>
        if (db.entries path).isSome then (refused, db)
        else
          let password := ((stdin.getD 1 []).splitOn '\n').headD []
          (⟨true, [], []⟩,
            { db with entries := Function.update db.entries path (some (password, notes)) })
    | [_, _, _, _, _, _, _, _, path] =>
        match db.entries path with
        | some (password, notes) => (⟨true, printed password notes, []⟩, db)
        | none => (refused, db)
    | _ => (⟨true, [], []⟩, db)

def sampleCli : KeepassCli SampleDb where
  exec := sampleExec
  entryAt := SampleDb.entries
  unlocks db password := db.password = password

theorem takenFrom_firstLine (secret : Text) :
    TakenFrom secret ((secret.splitOn '\n').headD []) := by
  cases hsplit : splitOnce '\n' secret with
  | none =>
    rw [List.splitOn_eq_singleton (splitOnce_eq_none_iff.1 hsplit)]
    exact .inl rfl
  | some parts =>
    obtain ⟨hsecret, hline⟩ := splitOnce_eq_some_iff.1 hsplit
    rw [hsecret, List.splitOn_append_cons_self, List.splitOn_eq_singleton hline]
    exact .inr ⟨hline, parts.2, rfl⟩

theorem sampleCli_documented : Documented sampleCli := by
  have hsame (db : SampleDb) : sampleCli.Same db db := .refl sampleCli db
  refine ⟨fun d db project stdin => ?_, fun d notes db path stdin hrefused => ?_,
    fun d notes db path vaultPassword secret => ?_, fun d db path stdin => ?_,
    fun d db path stdin => ?_, fun d db path vaultPassword hunlocks hentry => ?_⟩
  · change sampleCli.Same d (sampleExec d (mkdirArgs db project) stdin).2
    unfold sampleExec mkdirArgs
    split <;> exact hsame d
  · change sampleCli.Same d (sampleExec d (addArgs notes db path) stdin).2
    change (sampleExec d (addArgs notes db path) stdin).1.success = false at hrefused
    unfold sampleExec addArgs at hrefused ⊢
    by_cases hlocked : stdin.head? ≠ some d.password
    · rw [if_pos hlocked]
      exact hsame d
    · by_cases hthere : (d.entries path).isSome
      · simp only [hlocked, hthere, if_true, if_false]
        exact hsame d
      · simp [hlocked, hthere] at hrefused
  · simp only
    change (sampleExec d (addArgs notes db path) [vaultPassword, secret, secret]).1.success → _
    intro hsuccess
    by_cases hpassword : vaultPassword = d.password
    · by_cases hthere : (d.entries path).isSome
      · simp [sampleExec, addArgs, hpassword, hthere, refused] at hsuccess
      · refine ⟨hpassword.symm, ?_, (secret.splitOn '\n').headD [], takenFrom_firstLine secret, ?_⟩
        · simp [sampleCli, sampleExec, addArgs, hpassword, hthere]
        · simp [sampleCli, sampleExec, addArgs, hpassword, hthere]
    · simp [sampleExec, hpassword, refused] at hsuccess
  · change sampleCli.Same d (sampleExec d (showArgs db path) stdin).2
    unfold sampleExec showArgs
    by_cases hlocked : stdin.head? ≠ some d.password
    · rw [if_pos hlocked]
      exact hsame d
    · rw [if_neg hlocked]
      cases hentry : d.entries path <;> simp only [hentry] <;> exact hsame d
  · simp only
    change (sampleExec d (showArgs db path) stdin).1.success → _
    intro hsuccess
    by_cases hlocked : stdin.head? ≠ some d.password
    · simp [sampleExec, hlocked, refused] at hsuccess
    · cases hentry : d.entries path with
      | none => simp [sampleExec, showArgs, hlocked, hentry, refused] at hsuccess
      | some entry =>
        refine ⟨entry.1, entry.2, hentry, ?_⟩
        simp [sampleCli, sampleExec, showArgs, hlocked, hentry, printed]
  · change (sampleExec d (showArgs db path) [vaultPassword]).1.success
    obtain ⟨entry, hentry⟩ := Option.isSome_iff_exists.1 hentry
    have hpassword : d.password = vaultPassword := hunlocks
    have hthere : d.entries path = some entry := hentry
    simp [sampleExec, showArgs, hpassword, hthere]

end Custodly.Vault
