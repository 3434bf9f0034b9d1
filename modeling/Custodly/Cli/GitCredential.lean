import Custodly.Cli.MintGithub
import Custodly.Vault.Children

/-! The `git-credential` command (`custodly-cli/src/main.rs`): a git credential helper that
looks one secret up and prints it in git's format.  What it asks of the machine, and what it
prints, over every run. -/
namespace Custodly.Cli
open Library.Strings Library.Interaction Custodly.Core Host Vault

structure GitCredential where
  action : Text
  project : Text
  label : Text
  vault : PathBuf
  cliPath : PathBuf
  keyringName : Text

namespace GitCredential

variable {T : Type}

def getAction : Text := "get".toList

def store (args : GitCredential) : Vault where
  cliPath := args.cliPath
  dbPath := args.vault
  keyringName := args.keyringName

def query (args : GitCredential) : SecretQuery := ⟨args.project, args.label⟩

def usernameLine : Text := "username=x-access-token".toList

def passwordLine (secret : Text) : Text := "password=".toList ++ secret

def run [DateTimeUtc T] (args : GitCredential) : Action T CliError Unit := do
  -- git's block is drained, and a failure to read it is ignored
  let _ ← call .readStdin
  if args.action ≠ getAction then pure ()
  else do
    let entry ← (args.store.get args.query).adapt .vault
    let _ ← call (.println usernameLine)
    call (.println (passwordLine entry.secret))

def printedLine : Event (Call T) (Reply T) → Option Text
  | ⟨.println line, _⟩ => some line
  | _ => none

def printedLines (past : History (Call T) (Reply T)) : List Text := past.filterMap printedLine

def stdout (past : History (Call T) (Reply T)) : Text :=
  (printedLines past).flatMap (· ++ ['\n'])

def tokenLines (token : Text) : List Text := [usernameLine, passwordLine token]

theorem newline_not_mem_tokenLines {token : Text} (h : '\n' ∉ token) :
    ∀ line ∈ tokenLines token, '\n' ∉ line := by
  have hpassword : '\n' ∉ passwordLine token := by
    unfold passwordLine
    rw [List.mem_append]
    rintro (hmem | hmem)
    · exact absurd hmem (by decide)
    · exact h hmem
  intro line hline
  rcases List.mem_pair.1 hline with rfl | rfl
  · decide
  · exact hpassword

theorem splitOn_stdout {past : History (Call T) (Reply T)} {token : Text} (hline : '\n' ∉ token)
    (h : printedLines past = tokenLines token) :
    (stdout past).splitOn '\n' = tokenLines token ++ [[]] := by
  unfold stdout
  rw [h]
  exact splitOn_flatMap_line (newline_not_mem_tokenLines hline)

variable [DateTimeUtc T] {args : GitCredential}

def ShowWork (args : GitCredential) (argv _stdin : List Text) : Prop :=
  ∃ db, argv = showArgs db args.query.groupPath

def ReadsOnly (args : GitCredential) : Call T → Prop
  | .readStdin | .println _ => True
  | request => Spawning (fun argv => ∃ stdin, args.ShowWork argv stdin) request

/-- What an entry was read from: the output of a `show` that succeeded. -/
def Returned (args : GitCredential) (past : History (Call T) (Reply T)) (entry : VaultEntry T) :
    Prop :=
  ∃ db stdin output, Worked past (showArgs db args.query.groupPath) stdin output ∧
    output.success ∧ readEntry args.query output.stdout = .ok entry

def Rule (args : GitCredential) (past : History (Call T) (Reply T)) : Call T → Prop
  | .readStdin => True
  | .println _ => args.action = getAction
  | request => args.action = getAction ∧ printedLines past = [] ∧
      VaultRequest args.ShowWork past request

def Goal (args : GitCredential) (past : History (Call T) (Reply T)) : Except CliError Unit → Prop
  | .ok _ => if args.action = getAction then
      ∃ entry, Returned args past entry ∧ printedLines past = tokenLines entry.secret
    else printedLines past = []
  | .error _ => printedLines past = []

omit [DateTimeUtc T] in
theorem printedLines_of_asked {past after : History (Call T) (Reply T)} (h : Asked past after) :
    printedLines after = printedLines past := by
  obtain ⟨added, rfl, hadded⟩ := h
  unfold printedLines
  rw [List.filterMap_append, List.append_right_eq_self, List.filterMap_eq_nil_iff]
  rintro ⟨request, reply⟩ hmem
  have := hadded _ hmem
  cases request with
  | println => exact this.elim
  | _ => rfl

omit [DateTimeUtc T] in
theorem rule_of_vaultRequest {past : History (Call T) (Reply T)} {request : Call T}
    (haction : args.action = getAction) (hprinted : printedLines past = [])
    (h : VaultRequest args.ShowWork past request) : Rule args past request := by
  cases request with
  | readStdin => exact trivial
  | println => exact haction
  | _ => exact ⟨haction, hprinted, h⟩

omit [DateTimeUtc T] in
theorem Rule.readsOnly {past : History (Call T) (Reply T)} {request : Call T}
    (h : Rule args past request) : ReadsOnly args request := by
  cases request with
  | readStdin | println => exact trivial
  | _ => exact h.2.2.1

theorem obeys_run (args : GitCredential) :
    (run args : Action T _ _).run.Obeys (Rule args) (Goal args) [] := by
  unfold run
  rw [run_call_bind, Program.obeys_ask]
  refine ⟨trivial, fun block => ?_⟩
  by_cases haction : args.action = getAction
  · rw [if_neg (not_not.2 haction), Program.obeys_tryBind, obeys_adapt]
    apply obeys_get
    · intro after request hasked hrequest
      exact rule_of_vaultRequest haction (printedLines_of_asked hasked) hrequest
    · intro after outcome hasked hreturned
      have hprinted : printedLines after = [] := printedLines_of_asked hasked
      cases outcome with
      | error error => exact hprinted
      | ok entry =>
        simp only [Except.mapError, Program.GoesOn]
        rw [run_call_bind, Program.obeys_ask]
        refine ⟨haction, fun _ => ?_⟩
        rw [run_call, Program.obeys_ask]
        refine ⟨haction, fun _ => ?_⟩
        rw [Program.obeys_done]
        unfold Goal
        rw [if_pos haction]
        refine ⟨entry, ?_, ?_⟩
        · obtain ⟨db, stdin, output, hworked, hread⟩ := hreturned entry rfl
          exact ⟨db, stdin, output, (hworked.append _).append _, hread⟩
        · unfold printedLines at hprinted ⊢
          rw [List.filterMap_append, List.filterMap_append, hprinted]
          rfl
  · rw [if_pos haction, run_pure, Program.obeys_done]
    unfold Goal
    rw [if_neg haction]
    rfl

theorem secret_of_readEntry {query : SecretQuery} {out : Text}
    {entry : VaultEntry T} (h : readEntry query out = .ok entry) :
    entry.secret = (lines out).headD [] := by
  unfold readEntry at h
  simp only at h
  split at h
  · cases h
  · cases h
    rfl

theorem Returned.newline_not_mem {past : History (Call T) (Reply T)} {entry : VaultEntry T}
    (h : Returned args past entry) : '\n' ∉ entry.secret := by
  obtain ⟨db, stdin, output, -, -, hread⟩ := h
  rw [secret_of_readEntry hread]
  cases hlines : lines output.stdout with
  | nil => simp
  | cons first rest => exact newline_not_mem_lines (by rw [hlines]; simp)

/-- What any run of the helper is: it asks for the one entry at most, answers nothing but `get`,
and prints the two lines of the secret, which stdout splits into, or nothing. -/
structure Answers (args : GitCredential) (trace : History (Call T) (Reply T))
    (value : Option (Except CliError Unit)) : Prop where
  asks : ∀ event ∈ trace, ReadsOnly args event.1
  idle : args.action ≠ getAction →
    value = some (.ok ()) ∧ ∀ event ∈ trace, event.1 = .readStdin
  answered : args.action = getAction → value = some (.ok ()) → ∃ entry,
    Returned args trace entry ∧ '\n' ∉ entry.secret ∧
      printedLines trace = tokenLines entry.secret ∧
      (stdout trace).splitOn '\n' = tokenLines entry.secret ++ [[]]
  silent : value ≠ some (.ok ()) → stdout trace = []

variable {trace : History (Call T) (Reply T)} {value : Option (Except CliError Unit)}

/-- Whatever the keystore and the child answer, a secret cannot add a line to what is printed,
and nothing is printed by a run that fails. -/
theorem credential_exact (h : Run (run args : Action T _ _).run trace value) :
    Answers args trace value := by
  obtain ⟨hrule, hgoal, hnone⟩ := h.obeys (obeys_run args)
  constructor
  · intro event hmem
    obtain ⟨before, after, htrace⟩ := List.append_of_mem hmem
    exact (hrule before event after htrace).readsOnly
  · intro haction
    unfold run at h
    rw [run_call_bind, Run.ask_iff] at h
    rcases h with ⟨block, tail, rfl, htail⟩ | ⟨empty, -, -⟩
    · rw [if_pos haction, run_pure, Run.done_iff] at htail
      rw [htail.1, htail.2]
      exact ⟨rfl, by simp⟩
    · exact (empty.false (.ok [])).elim
  · intro haction hvalue
    have hended := hgoal _ hvalue
    unfold Goal at hended
    rw [if_pos haction] at hended
    obtain ⟨entry, hreturned, hprinted⟩ := hended
    rw [List.nil_append] at hreturned hprinted
    have hline := hreturned.newline_not_mem
    exact ⟨entry, hreturned, hline, hprinted, splitOn_stdout hline hprinted⟩
  · intro hvalue
    have hsilent : printedLines trace = [] := by
      rcases value with _ | (error | _)
      · obtain ⟨request, empty, hrequest⟩ := hnone rfl
        cases request with
        | readStdin => exact (empty.false (.ok [])).elim
        | println => exact (empty.false ()).elim
        | _ => exact hrequest.2.1
      · exact hgoal _ rfl
      · exact (hvalue rfl).elim
    unfold stdout
    rw [hsilent]
    rfl

def sampleHelper : GitCredential where
  action := getAction
  project := "redaktly".toList
  label := "github-pat".toList
  vault := .utf8 "working.kdbx".toList
  cliPath := .utf8 "keepassxc-cli".toList
  keyringName := "custodly-working-vault".toList

def helperAnswer (out : Text) (request : Call SampleInstant) :
    Option (Reply SampleInstant request) :=
  match request with
  | .waitWithOutput => some (.ok ⟨true, out, []⟩)
  | request => MintGithub.sampleAnswer (MintGithub.sampleBody [] []) request

def injectingOut : Text :=
  "ghs_a\nhost=example.com\nproject=redaktly\nsource_description=a key\nprovider=github\n".toList ++
    "acquired_via=manual-entry\nacquired_at=2026-09-24T12:00:00+00:00\ntier=0\n".toList

def helperPlay :
    History (Call SampleInstant) (Reply SampleInstant) × Option (Except CliError Unit) :=
  (run sampleHelper).run.play (helperAnswer injectingOut)

theorem helperPlay_succeeds : helperPlay.2 = some (.ok ()) := by decide +kernel

theorem credential_exact_injecting :
    Answers sampleHelper helperPlay.1 (some (.ok ())) :=
  credential_exact (Program.run_play helperPlay_succeeds)

end GitCredential

end Custodly.Cli
