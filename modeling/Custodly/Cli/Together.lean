import Custodly.Cli.Command
import Custodly.Cli.Effects
import Custodly.Vault.Shared

/-! Any number of `mint-github` and `git-credential` commands at the same time, on one vault
(`custodly-cli/src/main.rs`, `custodly-vault/src/vault.rs`).  In every order of their steps
at most one mint of a key is told that its token was cached, every reader of the key is
handed that token, and nothing is handed out that was not minted for the local operator. -/
namespace Custodly.Cli
open Library Library.Strings Library.Interaction Library.Surroundings Library.Interleaving
open Library.Processes Library.WriteOnce Custodly.Core Github Host Vault

variable {T EncodingKey Key Cipher Db ι : Type}

namespace Command

variable [DateTimeUtc T] {jwt : Jwt EncodingKey} {crypto : Crypto Key Cipher}

def Rule : Command → MintGithub.Trace T → Call T → Prop
  | .mintGithub args => args.WorkRule
  | .gitCredential args => args.Rule

def Goal : Command → MintGithub.Trace T → Except CliError Unit → Prop
  | .mintGithub args => args.WorkGoal
  | .gitCredential args => args.Goal

theorem obeys_run (command : Command) :
    (command.run jwt crypto : Action T _ _).run.Obeys command.Rule command.Goal [] := by
  cases command with
  | mintGithub args => exact MintGithub.obeys_work
  | gitCredential args => exact GitCredential.obeys_run args

theorem disciplined_of_rule {command : Command} {past : MintGithub.Trace T} {request : Call T}
    (h : command.Rule past request) : Disciplined past request := by
  rintro rfl
  cases command with
  | mintGithub args =>
    obtain ⟨argv, stdin, hchild, minted, entry, -, hwork⟩ := h rfl
    refine ⟨argv, stdin, hchild, ?_⟩
    rcases hwork with ⟨db, rfl⟩ | ⟨db, password, rfl, rfl⟩
    · exact .inl ⟨db, _, rfl⟩
    · exact .inr (.inl ⟨_, db, _, password, _, rfl, rfl⟩)
  | gitCredential args =>
    obtain ⟨argv, stdin, hchild, db, rfl⟩ := h.2.2.2 rfl
    exact ⟨_, stdin, hchild, .inr (.inr ⟨db, _, rfl⟩)⟩

end Command

theorem MintGithub.MadeFor.groupPath {args : MintGithub} {past : MintGithub.Trace T}
    {minted : MintedToken T} {entry : VaultEntry T} (h : args.MadeFor past minted entry) :
    entry.groupPath = (⟨args.project, args.label⟩ : SecretQuery).groupPath := by
  obtain ⟨-, -, acquiredAt, metadata, hmetadata, rfl⟩ := h
  unfold MintGithub.newMetadata at hmetadata
  obtain ⟨rfl, -⟩ := EntryMetadata.new_eq_ok_iff.1 hmetadata
  rfl

theorem MintGithub.MadeFor.secret {args : MintGithub} {past : MintGithub.Trace T}
    {minted : MintedToken T} {entry : VaultEntry T} (h : args.MadeFor past minted entry) :
    entry.secret = minted.token := by
  obtain ⟨-, -, acquiredAt, metadata, -, rfl⟩ := h
  rfl

/-- What a reader gets of a secret of several lines. -/
def firstLine (secret : Text) : Text := stripCr ((secret.splitOn '\n').headD [])

theorem firstLine_eq_self {secret : Text} (h : SecretKept secret) : firstLine secret = secret := by
  unfold firstLine
  rw [List.splitOn_eq_singleton h.1, List.headD_cons, stripCr_eq_self h.2]

theorem firstLine_of_takenFrom {secret password : Text} (h : TakenFrom secret password) :
    firstLine password = firstLine secret := by
  obtain ⟨first, rest, rest', hpassword, hsecret⟩ := h.splitOn
  unfold firstLine
  rw [hpassword, hsecret]
  rfl

theorem headD_lines_printed (password notes : Text) :
    (lines (printed password notes)).headD [] = firstLine password := by
  unfold printed firstLine
  rw [lines_append]
  cases hpieces : password.splitOn '\n' with
  | nil => exact absurd hpieces (List.splitOn_ne_nil _ _)
  | cons first rest => rfl

section Together

variable [DateTimeUtc T] [DecidableEq ι] {jwt : Jwt EncodingKey} {crypto : Crypto Key Cipher}
  {cli : KeepassCli Db} {hasGroup : Db → Text → Prop} {commands : ι → Command}

abbrev Running (T ι Db : Type) :=
  Config ι (Call T) (Reply T) (Except CliError Unit) (Machine ι Db)

/-- Every command is about to start, and no child is at work. -/
def startAll (jwt : Jwt EncodingKey) (crypto : Crypto Key Cipher) (commands : ι → Command) (db : Db)
    (keystore : Text → Option Text) : Running T ι Db where
  shared := ⟨db, keystore, fun _ => none⟩
  process i := ((commands i).run jwt crypto).run

abbrev commandStep (cli : KeepassCli Db) :
    Step (ι × Call T) (fun request => Reply T request.2) (Running T ι Db) :=
  interleaveBy (sharedStep cli)

variable {db : Db} {keystore : Text → Option Text} {trace : Interleaved ι (Call T) (Reply T)}
  {c' : Running T ι Db}

def CachedBy (commands : ι → Command) (c' : Running T ι Db) (i : ι) (args : MintGithub) : Prop :=
  commands i = .mintGithub args ∧ args.forRecipient = false ∧ c'.process i = .done (.ok ())

def HandedBy (commands : ι → Command) (c' : Running T ι Db) (i : ι) (args : GitCredential) : Prop :=
  commands i = .gitCredential args ∧ args.action = GitCredential.getAction ∧
    c'.process i = .done (.ok ())

def MintGithub.path (args : MintGithub) : Text :=
  (⟨args.project, args.label⟩ : SecretQuery).groupPath

theorem allObey_startAll : AllObey (fun i => (commands i).Rule) (fun i => (commands i).Goal) []
    (startAll jwt crypto commands db keystore : Running T ι Db) :=
  fun i => (commands i).obeys_run

/-- The commands refine a map in which a path is written once: whatever the order of their
steps, some log of the map has each reported `add` and `show` where its child was waited for,
and ends in the entries of the database. -/
theorem commands_refine_register (laws : Documented cli) (refusing : Refusing cli hasGroup)
    (h : Follows (commandStep cli) (startAll jwt crypto commands db keystore) trace c') :
    ∃ log, Represents trace log ∧
      Follows register (cli.entryAt db) log (cli.entryAt c'.shared.db) :=
  exists_log laws refusing (fun _ _ _ => Command.disciplined_of_rule) allObey_startAll
    (fun _ => rfl) h

variable {log : Log ι Text (Text × Text)}

theorem recorded_of_cached
    (hobey : AllObey (fun i => (commands i).Rule) (fun i => (commands i).Goal) trace c')
    (hlog : Represents trace log) {i : ι} {args : MintGithub} (h : CachedBy commands c' i args) :
    ∃ minted entry password, args.MadeFor (own i trace) minted entry ∧
      TakenFrom minted.token password ∧
      ⟨(i, .recorded args.path (password, encodeMetadata entry.metadata)), ()⟩ ∈ log := by
  obtain ⟨hcommand, hlocal, hdone⟩ := h
  have hgoal := goal_of_done hobey hdone
  simp only [hcommand] at hgoal
  obtain ⟨minted, entry, hmade, db, password, output, hworked, hsuccess⟩ := hgoal rfl hlocal
  obtain ⟨taken, htaken, hmem⟩ := hlog.recorded hworked hsuccess
  rw [hmade.groupPath] at hmem
  rw [hmade.secret] at htaken
  exact ⟨minted, entry, taken, hmade, htaken, hmem⟩

theorem looked_of_handed
    (hobey : AllObey (fun i => (commands i).Rule) (fun i => (commands i).Goal) trace c')
    (hlog : Represents trace log) {i : ι} {args : GitCredential} (h : HandedBy commands c' i args) :
    ∃ password notes, ⟨(i, .looked args.query.groupPath (password, notes)), ()⟩ ∈ log ∧
      GitCredential.printedLines (own i trace) =
        GitCredential.tokenLines (firstLine password) := by
  obtain ⟨hcommand, haction, hdone⟩ := h
  have hgoal := goal_of_done hobey hdone
  simp only [hcommand, Command.Goal, GitCredential.Goal, if_pos haction] at hgoal
  obtain ⟨entry, ⟨db, stdin, output, hworked, hsuccess, hread⟩, hprinted⟩ := hgoal
  obtain ⟨password, notes, hstdout, hmem⟩ := hlog.looked hworked hsuccess
  refine ⟨password, notes, hmem, ?_⟩
  rw [hprinted, GitCredential.secret_of_readEntry hread, hstdout, headD_lines_printed]

/-- Who is told what about one key: one mint at most is told that it cached its token, every
reader is handed that token, and all readers the same. -/
structure Agreement (commands : ι → Command) (trace : Interleaved ι (Call T) (Reply T))
    (c' : Running T ι Db) : Prop where
  once : ∀ i j args args', CachedBy commands c' i args → CachedBy commands c' j args' →
    args.path = args'.path → i = j
  handed : ∀ i j args args', CachedBy commands c' i args → HandedBy commands c' j args' →
    args'.query.groupPath = args.path → ∃ minted, args.Mints (own i trace) minted ∧
      GitCredential.printedLines (own j trace) =
        GitCredential.tokenLines (firstLine minted.token)
  same : ∀ i j args args', HandedBy commands c' i args → HandedBy commands c' j args' →
    args.query.groupPath = args'.query.groupPath →
      GitCredential.printedLines (own i trace) = GitCredential.printedLines (own j trace)

/-- In every interleaving, at every time, the commands agree about every key. -/
theorem commands_agree (laws : Documented cli) (refusing : Refusing cli hasGroup)
    (h : Follows (commandStep cli) (startAll jwt crypto commands db keystore) trace c') :
    Agreement commands trace c' := by
  obtain ⟨log, hlog, hfollows⟩ := exists_log laws refusing
    (fun _ _ _ => Command.disciplined_of_rule) allObey_startAll (fun _ => rfl) h
  have hobey := obey_of_follows allObey_startAll h
  constructor
  · intro i j args args' hi hj hpath
    obtain ⟨_, _, _, -, -, hrecorded⟩ := recorded_of_cached hobey hlog hi
    obtain ⟨_, _, _, -, -, hrecorded'⟩ := recorded_of_cached hobey hlog hj
    rw [hpath] at hrecorded
    exact (recorded_once hfollows hrecorded hrecorded').1
  · intro i j args args' hi hj hpath
    obtain ⟨minted, entry, password, hmade, htaken, hrecorded⟩ := recorded_of_cached hobey hlog hi
    obtain ⟨password', notes, hlooked, hprinted⟩ := looked_of_handed hobey hlog hj
    refine ⟨minted, hmade.2.1, ?_⟩
    have hheld := held_of_mem hfollows (.inl hrecorded)
    rw [hpath] at hlooked
    rw [held_of_mem hfollows (.inr hlooked), Option.some.injEq, Prod.mk.injEq] at hheld
    rw [hprinted, hheld.1, firstLine_of_takenFrom htaken]
  · intro i j args args' hi hj hpath
    obtain ⟨password, notes, hlooked, hprinted⟩ := looked_of_handed hobey hlog hi
    obtain ⟨password', notes', hlooked', hprinted'⟩ := looked_of_handed hobey hlog hj
    have hheld := held_of_mem hfollows (.inr hlooked)
    rw [hpath, held_of_mem hfollows (.inr hlooked'), Option.some.injEq, Prod.mk.injEq] at hheld
    rw [hprinted, hprinted', hheld.1]

theorem made_of_recorded (hruled : Ruled (fun i => (commands i).Rule) trace)
    (hlog : Represents trace log) {i : ι} {path password notes : Text}
    (hmem : ⟨(i, .recorded path (password, notes)), ()⟩ ∈ log) :
    ∃ args minted entry, commands i = .mintGithub args ∧ args.path = path ∧
      args.MadeFor (own i trace) minted entry ∧ args.Verified (own i trace) minted.token ∧
      TakenFrom minted.token password ∧ notes = encodeMetadata entry.metadata := by
  obtain ⟨before, after, event, hown, waited, file, vaultPassword, secret, rfl, -, hchild,
    htaken⟩ := hlog.performed hmem
  have hrule : (commands i).Rule before .waitWithOutput := hruled i before _ after hown
  cases hcommand : commands i with
  | mintGithub args =>
    rw [hcommand] at hrule
    obtain ⟨argv, stdin, hchild', minted, entry, hmade, hwork⟩ := hrule rfl
    rw [hchild, Option.some.injEq, Prod.mk.injEq] at hchild'
    have hlater := hmade.mono (show before ⊆ own i trace by
      rw [hown]
      exact List.subset_append_left _ _)
    rcases hwork with ⟨file', hargv⟩ | ⟨file', password', hargv, hstdin⟩
    · rw [← hchild'.1] at hargv
      simpa [addArgs, mkdirArgs] using congrArg List.length hargv
    · rw [← hchild'.1] at hargv
      rw [← hchild'.2] at hstdin
      obtain ⟨hnotes, hpath⟩ := addArgs_inj hargv
      simp only [List.cons.injEq, and_true, hmade.secret] at hstdin
      rw [hstdin.2.1] at htaken
      exact ⟨args, minted, entry, rfl, by rw [hpath, hmade.groupPath]; rfl, hlater,
        hlater.2.1.verified, htaken, hnotes⟩
  | gitCredential args =>
    rw [hcommand] at hrule
    obtain ⟨argv, stdin, hchild', file', hargv⟩ := hrule.2.2.2 rfl
    rw [hchild, Option.some.injEq, Prod.mk.injEq, hargv] at hchild'
    exact (addArgs_ne_showArgs hchild'.1).elim

/-- What a path holds was there at first, or a command minted it for the local operator: a token
that GitHub granted within the request, filed under that command's project and label, with
the metadata of that command. -/
def Accounted (commands : ι → Command) (initial : Text → Option (Text × Text))
    (trace : Interleaved ι (Call T) (Reply T)) (path password notes : Text) : Prop :=
  initial path = some (password, notes) ∨ ∃ i args minted entry,
    commands i = .mintGithub args ∧ args.path = path ∧ args.MadeFor (own i trace) minted entry ∧
      args.Verified (own i trace) minted.token ∧ TakenFrom minted.token password ∧
      notes = encodeMetadata entry.metadata

/-- Nothing is stored, and nothing printed for git, that no command has minted: in every
interleaving, at every time. -/
theorem commands_accounted (laws : Documented cli) (refusing : Refusing cli hasGroup)
    (h : Follows (commandStep cli) (startAll jwt crypto commands db keystore) trace c') :
    (∀ path password notes, cli.entryAt c'.shared.db path = some (password, notes) →
      Accounted commands (cli.entryAt db) trace path password notes) ∧
    ∀ j args, HandedBy commands c' j args → ∃ password notes,
      Accounted commands (cli.entryAt db) trace args.query.groupPath password notes ∧
      GitCredential.printedLines (own j trace) =
        GitCredential.tokenLines (firstLine password) := by
  obtain ⟨log, hlog, hfollows⟩ := exists_log laws refusing
    (fun _ _ _ => Command.disciplined_of_rule) allObey_startAll (fun _ => rfl) h
  have hobey := obey_of_follows allObey_startAll h
  have hruled : Ruled (fun i => (commands i).Rule) trace := ruled_of_follows allObey_startAll h
  have haccounted (path password notes : Text)
      (hheld : cli.entryAt c'.shared.db path = some (password, notes)) :
      Accounted commands (cli.entryAt db) trace path password notes :=
    (origin_of_held hfollows hheld).imp_right fun ⟨i, hmem⟩ =>
      ⟨i, made_of_recorded hruled hlog hmem⟩
  refine ⟨haccounted, fun j args hj => ?_⟩
  obtain ⟨password, notes, hlooked, hprinted⟩ := looked_of_handed hobey hlog hj
  exact ⟨password, notes, haccounted _ _ _ (held_of_mem hfollows (.inr hlooked)), hprinted⟩

end Together

inductive Party where
  | first
  | second
  | helper
  deriving DecidableEq

def contentsRead : List (Text × Text) := [("contents".toList, readLevel)]

def sampleCommands : Party → Command
  | .first | .second => .mintGithub (MintGithub.sampleArgs contentsRead)
  | .helper => .gitCredential GitCredential.sampleHelper

def sampleToken : Party → Text
  | .second => "ghs_b".toList
  | _ => "ghs_a".toList

def sampleServe (i : Party) (m : Machine Party (SampleDb × List Text))
    (request : Call SampleInstant) :
    Option (Reply SampleInstant request × Machine Party (SampleDb × List Text)) :=
  match request with
  | .getPassword _ name =>
      match m.keystore name with
      | some password => some (.ok password, m)
      | none => some (.error .noEntry, m)
  | .setPassword _ name password =>
      some (.ok (), { m with keystore := Function.update m.keystore name (some password) })
  | .spawn _ args => some (.ok (), { m with child := Function.update m.child i (some (args, [])) })
  | .writeLine line => some (.ok (), { m with
      child := Function.update m.child i
        ((m.child i).map fun child => (child.1, child.2 ++ [line])) })
  | .waitWithOutput =>
      match m.child i with
      | none => none
      | some (args, stdin) => some (.ok (groupedExec m.db args stdin).1, { m with
          db := (groupedExec m.db args stdin).2
          child := Function.update m.child i none })
  | request => (MintGithub.sampleAnswer (MintGithub.sampleBody (sampleToken i) contentsRead)
      request).map fun reply => (reply, m)

theorem sharedStep_of_sampleServe (i : Party) (m : Machine Party (SampleDb × List Text))
    (request : Call SampleInstant) (reply : Reply SampleInstant request)
    (m' : Machine Party (SampleDb × List Text))
    (h : sampleServe i m request = some (reply, m')) :
    sharedStep groupedCli i m ⟨request, reply⟩ m' := by
  unfold sampleServe at h
  cases request with
  | getPassword service name =>
    cases hstored : m.keystore name with
    | some password =>
      simp only [hstored] at h
      cases h
      exact ⟨⟨hstored, rfl⟩, fun _ _ => rfl⟩
    | none =>
      simp only [hstored] at h
      cases h
      exact ⟨⟨hstored, rfl⟩, fun _ _ => rfl⟩
  | setPassword service name password =>
    cases h
    exact ⟨rfl, fun _ _ => rfl⟩
  | spawn path args =>
    cases h
    exact ⟨by simp [step, Machine.view], fun j hj => Function.update_of_ne hj _ _⟩
  | writeLine line =>
    cases h
    exact ⟨by simp [step, Machine.view], fun j hj => Function.update_of_ne hj _ _⟩
  | waitWithOutput =>
    cases hchild : m.child i with
    | none => simp [hchild] at h
    | some child =>
      simp only [hchild] at h
      cases h
      refine ⟨⟨child.1, child.2, hchild, rfl, ?_⟩, fun j hj => Function.update_of_ne hj _ _⟩
      simp [Machine.view, groupedCli]
  | _ =>
    obtain ⟨_, -, heq⟩ := Option.map_eq_some_iff.1 h
    cases heq
    exact ⟨rfl, fun _ _ => rfl⟩

def mintsOrder : List Party := (List.replicate 23 [Party.first, Party.second]).flatten ++ [.first]

def sampleOrder : List Party := mintsOrder ++ List.replicate 9 .helper

def sampleDb : SampleDb × List Text := (⟨"pw".toList, fun _ => none⟩, [])

def sampleKeys : Text → Option Text := fun _ => some "pw".toList

def sampleTogether :
    Interleaved Party (Call SampleInstant) (Reply SampleInstant) ×
      Running SampleInstant Party (SampleDb × List Text) :=
  play sampleServe sampleOrder
    (startAll sampleJwt symbolicCrypto sampleCommands sampleDb sampleKeys)

theorem sampleTogether_follows : Follows (commandStep groupedCli)
    (startAll sampleJwt symbolicCrypto sampleCommands sampleDb sampleKeys)
    sampleTogether.1 sampleTogether.2 :=
  Processes.follows_play sharedStep_of_sampleServe sampleOrder _

theorem sampleTogether_cached :
    CachedBy sampleCommands sampleTogether.2 .first (MintGithub.sampleArgs contentsRead) :=
  ⟨rfl, rfl, Program.result_eq_some_iff.1 (by decide +kernel)⟩

theorem sampleTogether_handed :
    HandedBy sampleCommands sampleTogether.2 .helper GitCredential.sampleHelper :=
  ⟨rfl, rfl, Program.result_eq_some_iff.1 (by decide +kernel)⟩

theorem commands_refine_register_sample :
    ∃ log, Represents sampleTogether.1 log ∧ Follows register (groupedCli.entryAt sampleDb) log
      (groupedCli.entryAt sampleTogether.2.shared.db) :=
  commands_refine_register groupedCli_documented groupedCli_refusing sampleTogether_follows

theorem commands_agree_sample :
    CachedBy sampleCommands sampleTogether.2 .first (MintGithub.sampleArgs contentsRead) ∧
      HandedBy sampleCommands sampleTogether.2 .helper GitCredential.sampleHelper ∧
      Agreement sampleCommands sampleTogether.1 sampleTogether.2 :=
  ⟨sampleTogether_cached, sampleTogether_handed,
    commands_agree groupedCli_documented groupedCli_refusing sampleTogether_follows⟩

theorem commands_accounted_sample :
    HandedBy sampleCommands sampleTogether.2 .helper GitCredential.sampleHelper ∧
      (∀ path password notes,
        groupedCli.entryAt sampleTogether.2.shared.db path = some (password, notes) →
          Accounted sampleCommands (groupedCli.entryAt sampleDb) sampleTogether.1 path password
            notes) ∧
      ∀ j args, HandedBy sampleCommands sampleTogether.2 j args → ∃ password notes,
        Accounted sampleCommands (groupedCli.entryAt sampleDb) sampleTogether.1
          args.query.groupPath password notes ∧
        GitCredential.printedLines (own j sampleTogether.1) =
          GitCredential.tokenLines (firstLine password) :=
  ⟨sampleTogether_handed,
    commands_accounted groupedCli_documented groupedCli_refusing sampleTogether_follows⟩

end Custodly.Cli
