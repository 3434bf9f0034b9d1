import Custodly.Cli.Custody
import Custodly.Cli.GitCredential

/-! The commands that use the vault (`custodly-cli/src/main.rs`), each by itself: with which
children it works there, and what it has done when it reports success.  Other commands may
be at work at the same time. -/
namespace Custodly.Cli
open Library.Strings Library.Interaction Custodly.Core Github Host Vault

inductive Command where
  | mintGithub (args : MintGithub)
  | gitCredential (args : GitCredential)

variable {T EncodingKey Key Cipher : Type}

def Command.run [DateTimeUtc T] (jwt : Jwt EncodingKey) (crypto : Crypto Key Cipher) :
    Command → Action T CliError Unit
  | .mintGithub args => args.run jwt crypto
  | .gitCredential args => args.run

def OffVault (request : Call T) : Prop := ¬ AsksVault request

def Remote : Call T → Prop
  | .readStdin => False
  | request => OffVault request

theorem offVault_of_remote {request : Call T} (h : Remote request) : OffVault request := by
  cases request with
  | readStdin => exact h.elim
  | _ => exact h

theorem issues_traced {ε α : Type} {allowed : Call T → Prop} {callee : Callee T}
    {body : Action T ε α} (henter : allowed (.enter callee))
    (hleave : ∀ ok, allowed (.leave callee ok)) (h : body.run.Issues allowed) :
    (traced callee body).run.Issues allowed := by
  rw [run_traced]
  exact ⟨henter, fun _ => h.bind fun outcome => ⟨hleave _, fun _ => trivial⟩⟩

theorem issues_attempt_bind {ε α β : Type} {allowed : Call T → Prop} {outcome : Except ε α}
    {next : α → Action T ε β} (h : ∀ a, (next a).run.Issues allowed) :
    (attempt outcome >>= next).run.Issues allowed := by
  cases outcome with
  | error e => exact trivial
  | ok a => exact h a

namespace MintGithub

variable {args : MintGithub}

theorem issues_readAppKey : (readAppKey : Action T _ _).run.Issues OffVault := by
  unfold readAppKey
  rw [run_call_bind, Program.issues_ask]
  refine ⟨id, fun read => issues_attempt_bind fun privateKeyPem => ?_⟩
  split <;> exact trivial

variable [DateTimeUtc T] {jwt : Jwt EncodingKey} {crypto : Crypto Key Cipher}
  {minted : MintedToken T}

theorem issues_mintInstallationToken {app : AppCredentials} {grant : RequestedGrant} :
    (mintInstallationToken jwt app grant : Action T _ _).run.Issues Remote := by
  unfold mintInstallationToken
  rw [run_call_bind, Program.issues_ask]
  refine ⟨id, fun now => issues_attempt_bind fun bearer => ?_⟩
  rw [run_call_bind, Program.issues_ask]
  exact ⟨id, fun reply => trivial⟩

omit [DateTimeUtc T] in
theorem issues_sealForIngestion {ingestionKeyHex value : Text} {aad : Bytes} :
    (sealForIngestion crypto ingestionKeyHex aad value : Action T _ _).run.Issues Remote := by
  unfold sealForIngestion
  by_cases hempty : value = []
  · rw [if_pos hempty]
    exact trivial
  · rw [if_neg hempty]
    refine issues_attempt_bind fun recipientPublic => ?_
    rw [run_call_bind, Program.issues_ask]
    refine ⟨id, fun ephemeral => issues_attempt_bind fun cipher => ?_⟩
    rw [run_call_bind, Program.issues_ask]
    refine ⟨id, fun nonce => ?_⟩
    cases crypto.encrypt cipher nonce aad (asBytes value) <;> exact trivial

omit [DateTimeUtc T] in
theorem issues_fetchIngestionKey {baseUrl project token : Text} :
    (fetchIngestionKey baseUrl project token : Action T _ _).run.Issues Remote :=
  ⟨id, fun _ => trivial⟩

omit [DateTimeUtc T] in
theorem issues_deposit {baseUrl project token depositId : Text} {sealedSecret : SealedSecret}
    {metadata : DepositMetadata T} :
    (deposit baseUrl project token depositId sealedSecret metadata).run.Issues Remote :=
  ⟨id, fun _ => trivial⟩

theorem issues_depositWithFerryman :
    (depositWithFerryman crypto args minted).run.Issues Remote := by
  unfold depositWithFerryman
  cases args.ferryman with
  | none => exact trivial
  | some flags =>
    obtain ⟨baseUrl, project, token⟩ := flags
    simp only
    rw [run_call_bind, Program.issues_ask]
    refine ⟨id, fun acquiredAt => ?_⟩
    refine (issues_traced id (fun _ => id) (issues_adapt issues_fetchIngestionKey)).tryBind
      fun ingestionKeyHex => ?_
    refine (issues_traced id (fun _ => id) (issues_adapt issues_sealForIngestion)).tryBind
      fun sealedSecret => ?_
    rw [run_call_bind, Program.issues_ask]
    refine ⟨id, fun idBytes => ?_⟩
    rw [run_call_bind, Program.issues_ask]
    refine ⟨id, fun now => ?_⟩
    refine (issues_traced id (fun _ => id) (issues_adapt issues_deposit)).tryBind
      fun receipt => ?_
    rw [run_call_bind, Program.issues_ask]
    exact ⟨id, fun _ => ⟨id, fun _ => trivial⟩⟩

theorem issues_leaveMachine : (leaveMachine crypto args minted).run.Issues Remote := by
  unfold leaveMachine
  split
  · exact issues_depositWithFerryman
  · exact trivial

/-- The entry is made of a token that was minted in this run and may stay. -/
def MadeFor (args : MintGithub) (past : Trace T) (minted : MintedToken T) (entry : VaultEntry T) :
    Prop :=
  args.forRecipient = false ∧ Mints args past minted ∧ ∃ acquiredAt metadata,
    args.newMetadata minted acquiredAt = .ok metadata ∧
      entry = VaultEntry.new args.label metadata minted.token

def StoreWork (args : MintGithub) (past : Trace T) (argv stdin : List Text) : Prop :=
  ∃ minted entry, MadeFor args past minted entry ∧ PutWork entry argv stdin

/-- A child that is waited for makes the group of such an entry, or adds it. -/
def WorkRule (args : MintGithub) (past : Trace T) (request : Call T) : Prop :=
  request = .waitWithOutput →
    ∃ argv stdin, childOf past = some (argv, stdin) ∧ StoreWork args past argv stdin

def Added (past : Trace T) (entry : VaultEntry T) : Prop :=
  ∃ db password output, Worked past (addArgs (encodeMetadata entry.metadata) db entry.groupPath)
    [password, entry.secret, entry.secret] output ∧ output.success

def WorkGoal (args : MintGithub) (past : Trace T) (outcome : Except CliError Unit) : Prop :=
  outcome = .ok () → args.forRecipient = false →
    ∃ minted entry, MadeFor args past minted entry ∧ Added past entry

omit [DateTimeUtc T] in
theorem MadeFor.mono {past after : Trace T} {entry : VaultEntry T}
    (h : MadeFor args past minted entry) (hsub : past ⊆ after) :
    MadeFor args after minted entry := ⟨h.1, h.2.1.mono hsub, h.2.2⟩

theorem Added.append {past : Trace T} {entry : VaultEntry T} (h : Added past entry)
    (added : Trace T) : Added (past ++ added) entry := by
  obtain ⟨db, password, output, hworked, hsuccess⟩ := h
  exact ⟨db, password, output, hworked.append added, hsuccess⟩

theorem workRule_of_offVault {past : Trace T} {request : Call T} (h : OffVault request) :
    WorkRule args past request := by
  rintro rfl
  exact (h trivial).elim

theorem obeys_offVault {α ε : Type} {body : Action T ε α} {past : Trace T}
    {goal : Trace T → Except ε α → Prop} (issues : body.run.Issues OffVault)
    (h : ∀ after outcome, past ⊆ after → goal after outcome) :
    body.run.Obeys (WorkRule args) goal past :=
  issues.obeys fun _ _ => ⟨fun _ hoff => workRule_of_offVault hoff,
    fun outcome => h _ outcome (List.subset_append_left _ _)⟩

theorem obeys_minted {app : AppCredentials} {past : Trace T}
    {goal : Trace T → Except GithubError (MintedToken T) → Prop}
    (hfail : ∀ after error, goal after (.error error))
    (hmints : ∀ after minted, Mints args after minted → goal after (.ok minted)) :
    (mintInstallationToken jwt app args.grant).run.Obeys (WorkRule args) goal past := by
  unfold mintInstallationToken
  rw [run_call_bind, Program.obeys_ask]
  refine ⟨workRule_of_offVault id, fun now => ?_⟩
  rw [obeys_attempt_bind]
  cases mintJwt jwt app now with
  | error error => exact hfail _ error
  | ok bearer =>
    simp only [Program.GoesOn]
    rw [run_call_bind, Program.obeys_ask]
    refine ⟨workRule_of_offVault id, fun reply => ?_⟩
    rw [run_attempt, Program.obeys_done]
    cases hread : readAccessToken args.grant reply with
    | error error => exact hfail _ error
    | ok minted => exact hmints _ minted ⟨_, reply, List.mem_append_right _ (.head _), hread⟩

theorem obeys_cacheLocally_work {past : Trace T} (hmints : Mints args past minted)
    (hlocal : args.forRecipient = false) :
    (cacheLocally args minted).run.Obeys (WorkRule args) (WorkGoal args) past := by
  unfold cacheLocally
  rw [run_call_bind, Program.obeys_ask]
  refine ⟨workRule_of_offVault id, fun acquiredAt => ?_⟩
  rw [obeys_attempt_bind]
  cases hmetadata : args.newMetadata minted acquiredAt with
  | error error => exact fun hok => by cases hok
  | ok metadata =>
    simp only [Except.mapError, Program.GoesOn]
    rw [Program.obeys_tryBind, obeys_traced, obeys_adapt]
    refine ⟨workRule_of_offVault id, ?_⟩
    have hmade : MadeFor args (past ++ [⟨.now, acquiredAt⟩] ++
        [⟨.enter (.vaultPut (VaultEntry.new args.label metadata minted.token)), ()⟩]) minted
        (VaultEntry.new args.label metadata minted.token) :=
      ⟨hlocal, hmints.mono (by simp), acquiredAt, metadata, hmetadata, rfl⟩
    apply Vault.obeys_put
    · intro after request hasked hrequest hwait
      obtain ⟨argv, stdin, hchild, hwork⟩ := hrequest.2 hwait
      exact ⟨argv, stdin, hchild, minted, _, hmade.mono hasked.subset, hwork⟩
    · intro after outcome hasked hadded
      refine ⟨workRule_of_offVault id, ?_⟩
      cases outcome with
      | error error => exact fun hok => by cases hok
      | ok _ =>
        simp only [Except.mapError, Program.GoesOn]
        rw [run_call, Program.obeys_ask]
        refine ⟨workRule_of_offVault id, fun _ => ?_⟩
        rw [Program.obeys_done]
        intro _ _
        refine ⟨minted, _, (hmade.mono hasked.subset).mono (by simp), ?_⟩
        exact (Added.append (hadded rfl) _).append _

theorem obeys_work : (run jwt crypto args : Action T _ _).run.Obeys (WorkRule args)
    (WorkGoal args) [] := by
  have hfail (after : Trace T) (error : CliError) : WorkGoal args after (.error error) :=
    fun hok => by cases hok
  unfold run
  rw [Program.obeys_tryBind]
  apply obeys_offVault issues_readAppKey
  rintro read outcome -
  cases outcome with
  | error error => exact hfail read error
  | ok privateKeyPem =>
    simp only [Program.GoesOn]
    rw [Program.obeys_tryBind, obeys_traced, obeys_adapt]
    refine ⟨workRule_of_offVault id, ?_⟩
    apply obeys_minted
    · exact fun after error => ⟨workRule_of_offVault id, hfail _ _⟩
    · intro after minted hmints
      refine ⟨workRule_of_offVault id, ?_⟩
      simp only [Except.mapError, Program.GoesOn]
      rw [run_call_bind, Program.obeys_ask]
      refine ⟨workRule_of_offVault id, fun _ => ?_⟩
      rw [Program.obeys_tryBind]
      apply obeys_offVault (issues_leaveMachine.mono fun _ => offVault_of_remote)
      intro left outcome hleft
      cases outcome with
      | error error => exact hfail left error
      | ok _ =>
        simp only [Program.GoesOn]
        unfold stayLocal
        cases hlocal : args.forRecipient with
        | true =>
          rw [if_pos rfl, run_call, Program.obeys_ask]
          refine ⟨workRule_of_offVault id, fun _ => ?_⟩
          intro _ hforeign
          rw [hlocal] at hforeign
          cases hforeign
        | false =>
          apply obeys_cacheLocally_work _ hlocal
          exact (hmints.mono (by simp)).mono hleft

end MintGithub

end Custodly.Cli
