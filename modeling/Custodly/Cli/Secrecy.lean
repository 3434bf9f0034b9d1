import Custodly.Cli.MintGithub

/-! The token never reaches a log record, the terminal or an error (`custodly-cli/src/main.rs`):
two runs of `mint-github` that differ only in the text of the token are told apart by
nothing but the ciphertext of the deposit and what is written to the child process. -/
namespace Custodly.Cli.MintGithub
open Library.Strings Library.Interaction Library.Lockstep Custodly.Core Github Host

variable {T EncodingKey Key Cipher : Type}

def redactCallee : Callee T → Callee T
  | .sealForIngestion recipientPublicHex aad _ => .sealForIngestion recipientPublicHex aad []
  | .vaultPut entry => .vaultPut { entry with secret := [] }
  | callee => callee

/-- A request with the places struck out that a secret may take: the ciphertext of a deposit,
a line for the child process, and the values handed to the two sinks. -/
def redact : Call T → Call T
  | .deposit request => .deposit { request with
      sealedSecret := { request.sealedSecret with ciphertextHex := [] } }
  | .writeLine _ => .writeLine []
  | .enter callee => .enter (redactCallee callee)
  | .leave callee ok => .leave (redactCallee callee) ok
  | request => request

/-- Two tokens that are there and that encryption, which fails on overlong messages only,
treats alike. -/
structure AlikeTokens (crypto : Crypto Key Cipher) (token token' : Text) : Prop where
  ne_nil : token ≠ []
  ne_nil' : token' ≠ []
  encrypts : ∀ cipher nonce aad, (crypto.encrypt cipher nonce aad (asBytes token)).isSome =
    (crypto.encrypt cipher nonce aad (asBytes token')).isSome

/-- The same reply of GitHub's twice, or two that parse to the same response but for the
token. -/
inductive SameButToken (crypto : Crypto Key Cipher) :
    HttpReply (AccessTokenBody T) → HttpReply (AccessTokenBody T) → Prop
  | same (reply : HttpReply (AccessTokenBody T)) : SameButToken crypto reply reply
  | parsed {response response' : HttpResponse (AccessTokenBody T)} {body body' : AccessTokenBody T}
      (hsuccess : response.isSuccess) (hsuccess' : response'.isSuccess)
      (hjson : response.json = .ok body) (hjson' : response'.json = .ok body')
      (htokens : AlikeTokens crypto body.token body'.token)
      (hrest : InstallationTokenResponse.ofBody body' =
        { InstallationTokenResponse.ofBody body with token := body'.token }) :
      SameButToken crypto (.ok response) (.ok response')

def SameReply (crypto : Crypto Key Cipher) :
    Event (Call T) (Reply T) → Event (Call T) (Reply T) → Prop
  | ⟨.accessToken _, reply⟩, ⟨.accessToken _, reply'⟩ => SameButToken crypto reply reply'
  | ⟨_, reply⟩, ⟨_, reply'⟩ => HEq reply reply'

theorem reply_redact (request : Call T) : Reply T (redact request) = Reply T request := by
  cases request <;> rfl

/-- Someone outside the process who knows every request but for what is struck out. -/
def outsider (crypto : Crypto Key Cipher) : Observer (Call T) (Reply T) where
  same request request' := redact request = redact request'
  agree := SameReply crypto
  same_empty := by
    intro request request' hsame
    rw [← reply_redact request, hsame, reply_redact]

/-- What a request adds to the log or to the terminal. -/
def printed : Call T → Option (LogRecord ⊕ Text)
  | .log record => some (.inl record)
  | .println line => some (.inr line)
  | _ => none

def output (trace : List (Event (Call T) (Reply T))) : List (LogRecord ⊕ Text) :=
  trace.filterMap fun event => printed event.1

theorem printed_redact (request : Call T) : printed (redact request) = printed request := by
  cases request <;> rfl

theorem output_eq {crypto : Crypto Key Cipher} {trace trace' : List (Event (Call T) (Reply T))}
    (h : List.Forall₂ (fun event event' => (outsider crypto).same event.1 event'.1 ∧
      (outsider crypto).agree event event') trace trace') : output trace = output trace' := by
  unfold output
  induction h with
  | nil => rfl
  | cons hevent _ ih =>
    rw [List.filterMap_cons, List.filterMap_cons, ih, ← printed_redact, hevent.1, printed_redact]

section Phases

variable {crypto : Crypto Key Cipher} {ε α β : Type} {related : α → β → Prop}

def Shared : Call T → Prop
  | .accessToken _ => False
  | _ => True

theorem sameReply_of_shared {request request' : Call T} (hshared : Shared request)
    {reply : Reply T request} {reply' : Reply T request'}
    (h : (outsider crypto).agree ⟨request, reply⟩ ⟨request', reply'⟩) : HEq reply reply' := by
  cases request with
  | accessToken => exact hshared.elim
  | _ => exact h

theorem inStep_ask {request : Call T} (hshared : Shared request)
    {next : Reply T request → Program (Call T) (Reply T) α}
    {next' : Reply T request → Program (Call T) (Reply T) β}
    (hnext : ∀ reply, InStep (outsider crypto) related (next reply) (next' reply)) :
    InStep (outsider crypto) related (.ask request next) (.ask request next') := by
  refine .ask rfl fun reply reply' h => ?_
  rw [← eq_of_heq (sameReply_of_shared hshared h)]
  exact hnext reply

theorem inStep_self {program : Program (Call T) (Reply T) (Except ε α)}
    (h : program.Issues Shared) : InStep (outsider crypto) (SameOutcome Eq) program program := by
  refine (InStep.self (h.mono fun request hshared => ⟨rfl, fun reply reply' h => ?_⟩)).mono ?_
  · exact eq_of_heq (sameReply_of_shared hshared h)
  · rintro (e | a) _ rfl <;> rfl

theorem shared_of_spawning {allowed : List Text → Prop} {request : Call T}
    (h : Vault.Spawning allowed request) : Shared request := by
  cases request with
  | accessToken => exact h.elim
  | _ => exact trivial

theorem inStep_writeLines {lines lines' : List Text} (h : lines.length = lines'.length) :
    InStep (outsider crypto) (SameOutcome Eq) (Vault.writeLines lines : Action T _ _).run
      (Vault.writeLines lines').run := by
  induction lines generalizing lines' with
  | nil =>
    rw [List.length_nil, eq_comm, List.length_eq_zero_iff] at h
    rw [h]
    exact .done rfl
  | cons line rest ih =>
    cases lines' with
    | nil => cases h
    | cons line' rest' =>
      unfold Vault.writeLines
      rw [run_call_bind, run_call_bind]
      refine .ask rfl fun written written' hwritten => ?_
      have hreply : HEq written written' := sameReply_of_shared (by trivial) hwritten
      rw [← eq_of_heq hreply]
      cases written with
      | error cause => exact .done rfl
      | ok _ => exact ih (Nat.succ.inj h)

theorem inStep_vaultRun (vault : Vault) (args : List Text) {lines lines' : List Text}
    (h : lines.length = lines'.length) :
    InStep (outsider crypto) (SameOutcome Eq) (vault.run args lines : Action T _ _).run
      (vault.run args lines').run := by
  unfold Vault.run
  rw [run_call_bind, run_call_bind]
  refine inStep_ask (by trivial) fun found => ?_
  cases found with
  | false => exact .done rfl
  | true =>
    simp only [Bool.true_eq_false, if_false]
    rw [run_call_bind, run_call_bind]
    refine inStep_ask (by trivial) fun spawned => ?_
    cases spawned with
    | error cause => exact .done rfl
    | ok _ =>
      have hpassword : (vault.password : Action T _ _).run.Issues Shared :=
        (Vault.issues_password vault fun _ => True).mono fun _ => shared_of_spawning
      refine (inStep_self hpassword).tryBind fun password _ hsame => ?_
      rw [← hsame]
      refine (inStep_writeLines (by simp [h])).tryBind fun _ _ _ => ?_
      rw [run_call_bind]
      refine inStep_ask (by trivial) fun waited => inStep_self ?_
      cases waited with
      | error cause => exact trivial
      | ok output =>
        change (ite _ _ _ : Action T Vault.VaultError Text).run.Issues Shared
        split <;> exact trivial

structure Alike (crypto : Crypto Key Cipher) (token token' : Text) : Prop where
  eq_nil_iff : token = [] ↔ token' = []
  encrypts : ∀ cipher nonce aad, (crypto.encrypt cipher nonce aad (asBytes token)).isSome =
    (crypto.encrypt cipher nonce aad (asBytes token')).isSome

def SameMinted (crypto : Crypto Key Cipher) (minted minted' : MintedToken T) : Prop :=
  ∃ token', minted' = { minted with token := token' } ∧ Alike crypto minted.token token'

def SameSeal (sealedSecret sealedSecret' : SealedSecret) : Prop :=
  { sealedSecret with ciphertextHex := [] } = { sealedSecret' with ciphertextHex := [] }

theorem readAccessToken_same {grant : RequestedGrant} {reply reply' : HttpReply (AccessTokenBody T)}
    (h : SameButToken crypto reply reply') :
    SameOutcome (SameMinted crypto) (readAccessToken grant reply)
      (readAccessToken grant reply') := by
  cases h with
  | same =>
    cases readAccessToken grant reply with
    | error error => rfl
    | ok minted => exact ⟨minted.token, rfl, Iff.rfl, fun _ _ _ => rfl⟩
  | parsed hsuccess hsuccess' hjson hjson' htokens hrest =>
    rename_i response response' body body'
    simp only [readAccessToken, hsuccess, hsuccess', if_true, hjson, hjson', hrest]
    cases verifyNoScopeCreep grant.permissions
        (InstallationTokenResponse.ofBody body).permissions with
    | error error => rfl
    | ok _ =>
      refine ⟨body'.token, rfl, ?_, htokens.encrypts⟩
      exact iff_of_false htokens.ne_nil htokens.ne_nil'

theorem inStep_sealForIngestion {ingestionKeyHex token token' : Text} {aad : Bytes}
    (h : Alike crypto token token') :
    InStep (outsider crypto) (SameOutcome SameSeal)
      (sealForIngestion crypto ingestionKeyHex aad token : Action T _ _).run
      (sealForIngestion crypto ingestionKeyHex aad token').run := by
  unfold sealForIngestion
  by_cases hempty : token = []
  · rw [if_pos hempty, if_pos (h.eq_nil_iff.1 hempty)]
    exact .done rfl
  · rw [if_neg hempty, if_neg (mt h.eq_nil_iff.2 hempty)]
    cases hexDecode32 crypto ingestionKeyHex with
    | error error => exact .done rfl
    | ok recipientPublic =>
      rw [run_attempt_ok_bind, run_attempt_ok_bind, run_call_bind, run_call_bind]
      refine inStep_ask (by trivial) fun ephemeral => ?_
      dsimp only
      cases cipherFor crypto ephemeral (crypto.publicKey ephemeral) recipientPublic with
      | error error => exact .done rfl
      | ok cipher =>
        rw [run_attempt_ok_bind, run_attempt_ok_bind, run_call_bind, run_call_bind]
        refine inStep_ask (by trivial) fun nonce => ?_
        have hencrypts := h.encrypts cipher nonce aad
        cases hencrypt : crypto.encrypt cipher nonce aad (asBytes token) with
        | none =>
          rw [hencrypt, eq_comm, Option.isSome_none, Option.isSome_eq_false_iff,
            Option.isNone_iff_eq_none] at hencrypts
          rw [hencrypts]
          exact .done rfl
        | some ciphertext =>
          rw [hencrypt, Option.isSome_some, eq_comm, Option.isSome_iff_exists] at hencrypts
          obtain ⟨ciphertext', hencrypt'⟩ := hencrypts
          rw [hencrypt']
          exact .done rfl

section Command

variable [DateTimeUtc T] {jwt : Jwt EncodingKey} {args : MintGithub} {minted : MintedToken T}

theorem inStep_put (vault : Vault) (label token token' : Text) (metadata : EntryMetadata T) :
    InStep (outsider crypto) (SameOutcome Eq) (vault.put (.new label metadata token)).run
      (vault.put (.new label metadata token')).run := by
  unfold Vault.put
  have hgroup : (vault.ensureGroup metadata.project : Action T _ _).run.Issues Shared :=
    (Vault.issues_ensureGroup vault (fun _ => True) fun _ => trivial).mono
      fun _ => shared_of_spawning
  have hdb : (vault.dbStr : Action T _ _).run.Issues Shared :=
    (Vault.issues_dbStr vault fun _ => True).mono fun _ => shared_of_spawning
  refine (inStep_self hgroup).tryBind fun _ _ _ => (inStep_self hdb).tryBind fun db _ hsame => ?_
  rw [← hsame]
  exact (inStep_vaultRun vault _ (by simp)).tryBind fun _ _ _ => .done rfl

theorem inStep_mintInstallationToken {app : AppCredentials} {grant : RequestedGrant} :
    InStep (outsider crypto) (SameOutcome (SameMinted crypto))
      (mintInstallationToken jwt app grant : Action T _ _).run
      (mintInstallationToken jwt app grant).run := by
  unfold mintInstallationToken
  rw [run_call_bind]
  refine inStep_ask (by trivial) fun now => ?_
  cases mintJwt jwt app now with
  | error error => exact .done rfl
  | ok bearer =>
    rw [run_attempt_ok_bind, run_call_bind]
    exact .ask rfl fun reply reply' hreply => .done (readAccessToken_same hreply)

omit [DateTimeUtc T] in
theorem inStep_deposit {baseUrl project bearer id : Text}
    {sealedSecret sealedSecret' : SealedSecret} {metadata : DepositMetadata T}
    (h : SameSeal sealedSecret sealedSecret') :
    InStep (outsider crypto) (SameOutcome Eq)
      (deposit baseUrl project bearer id sealedSecret metadata).run
      (deposit baseUrl project bearer id sealedSecret' metadata).run := by
  unfold deposit
  rw [run_call_bind, run_call_bind]
  refine .ask ?_ fun reply reply' hagree => ?_
  · unfold SameSeal at h
    exact congrArg
      (fun struck => Call.deposit ⟨depositUrl baseUrl project, bearer, id, struck, metadata⟩) h
  · have hreply : HEq reply reply' := sameReply_of_shared (by trivial) hagree
    rw [← eq_of_heq hreply]
    cases hread : readReceipt (depositUrl baseUrl project) reply with
    | error error => exact .done rfl
    | ok receipt => exact .done rfl

theorem inStep_depositWithFerryman {token' : Text} (h : Alike crypto minted.token token') :
    InStep (outsider crypto) (SameOutcome Eq) (depositWithFerryman crypto args minted).run
      (depositWithFerryman crypto args { minted with token := token' }).run := by
  unfold depositWithFerryman
  cases args.ferryman with
  | none => exact .done rfl
  | some flags =>
    obtain ⟨baseUrl, project, token⟩ := flags
    simp only
    rw [run_call_bind, run_call_bind]
    refine inStep_ask (by trivial) fun acquiredAt => ?_
    have hfetch : (fetchIngestionKey baseUrl project token : Action T _ _).run.Issues Shared :=
      ⟨trivial, fun _ => trivial⟩
    refine (inStep_traced rfl (fun _ => rfl) (inStep_adapt (inStep_self hfetch))).tryBind
      fun ingestionKeyHex _ hsame => ?_
    rw [← hsame]
    refine (inStep_traced rfl (fun _ => rfl) (inStep_adapt (inStep_sealForIngestion h))).tryBind
      fun sealedSecret sealedSecret' hsealed => ?_
    rw [run_call_bind, run_call_bind]
    refine inStep_ask (by trivial) fun idBytes => ?_
    rw [run_call_bind, run_call_bind]
    refine inStep_ask (by trivial) fun now => ?_
    refine (inStep_traced rfl (fun _ => rfl) (inStep_adapt (inStep_deposit hsealed))).tryBind
      fun receipt _ hsame => ?_
    rw [← hsame]
    exact inStep_self ⟨trivial, fun _ => ⟨trivial, fun _ => trivial⟩⟩

theorem inStep_cacheLocally {token' : Text} :
    InStep (outsider crypto) (SameOutcome Eq) (cacheLocally args minted).run
      (cacheLocally args { minted with token := token' }).run := by
  unfold cacheLocally
  rw [run_call_bind, run_call_bind]
  refine inStep_ask (by trivial) fun acquiredAt => ?_
  have hmetadata : newMetadata args { minted with token := token' } acquiredAt =
      args.newMetadata minted acquiredAt := rfl
  rw [hmetadata]
  cases args.newMetadata minted acquiredAt with
  | error error => exact .done rfl
  | ok metadata =>
    rw [Except.mapError, run_attempt_ok_bind, run_attempt_ok_bind]
    refine (inStep_traced rfl (fun _ => rfl) (inStep_adapt (inStep_put _ _ _ _ _))).tryBind
      fun _ _ _ => ?_
    exact inStep_self ⟨trivial, fun _ => trivial⟩

theorem inStep_leaveMachine {token' : Text} (h : Alike crypto minted.token token') :
    InStep (outsider crypto) (SameOutcome Eq) (leaveMachine crypto args minted).run
      (leaveMachine crypto args { minted with token := token' }).run := by
  unfold leaveMachine
  have hneeds : args.needsFerrymanDeposit { minted with token := token' } =
      args.needsFerrymanDeposit minted := rfl
  rw [hneeds]
  split
  · exact inStep_depositWithFerryman h
  · exact .done rfl

theorem inStep_stayLocal {token' : Text} :
    InStep (outsider crypto) (SameOutcome Eq) (stayLocal args minted).run
      (stayLocal args { minted with token := token' }).run := by
  unfold stayLocal
  split
  · exact inStep_self ⟨trivial, fun _ => trivial⟩
  · exact inStep_cacheLocally

theorem inStep_run :
    InStep (outsider crypto) (SameOutcome Eq) (run jwt crypto args : Action T _ _).run
      (run jwt crypto args).run := by
  unfold run
  have hkey : (readAppKey : Action T _ _).run.Issues Shared := by
    unfold readAppKey
    rw [run_call_bind]
    refine ⟨trivial, fun read => ?_⟩
    cases read with
    | error cause => exact trivial
    | ok privateKeyPem =>
      change (ite _ _ _ : Action T CliError Text).run.Issues Shared
      split <;> exact trivial
  refine (inStep_self hkey).tryBind fun privateKeyPem _ hsame => ?_
  rw [← hsame]
  refine (inStep_traced rfl (fun _ => rfl) (inStep_adapt inStep_mintInstallationToken)).tryBind
    fun minted _ hminted => ?_
  obtain ⟨token', rfl, halike⟩ := hminted
  rw [run_call_bind, run_call_bind]
  refine inStep_ask (by trivial) fun _ => ?_
  refine (inStep_leaveMachine halike).tryBind fun _ _ _ => ?_
  exact inStep_stayLocal

/-- Whatever happens, the log, the terminal and the outcome are the same for any two
tokens. -/
theorem token_unobserved {trace trace' : List (Event (Call T) (Reply T))}
    {value value' : Option (Except CliError Unit)} (h : Run (run jwt crypto args).run trace value)
    (h' : Run (run jwt crypto args).run trace' value')
    (hcorresponding : (outsider crypto).Corresponding trace trace') :
    output trace = output trace' ∧ value = value' := by
  obtain ⟨hevents, hvalues⟩ := inStep_run.runs h h' hcorresponding
  refine ⟨output_eq hevents, ?_⟩
  cases hvalues with
  | none => rfl
  | some houtcome =>
    rename_i outcome outcome'
    cases outcome with
    | ok _ =>
      cases outcome' with
      | ok _ => rfl
      | error error => exact houtcome.elim
    | error error =>
      cases outcome' with
      | ok _ => exact houtcome.elim
      | error error' => rw [show error = error' from houtcome]

end Command

end Phases

theorem sampleAnswer_redact (body : AccessTokenBody SampleInstant) (request : Call SampleInstant) :
    HEq (sampleAnswer body (redact request)) (sampleAnswer body request) := by
  cases request <;> exact HEq.rfl

theorem heq_of_some {A B : Type} (htype : A = B) {a : A} {b : B} (h : HEq (some a) (some b)) :
    HEq a b := by
  cases htype
  cases h
  rfl

theorem sampleAnswer_sameReply {token token' : Text}
    (htokens : AlikeTokens symbolicCrypto token token')
    {event event' : Event (Call SampleInstant) (Reply SampleInstant)}
    (h : sampleAnswer (sampleBody token secretsRead) event.1 = some event.2)
    (h' : sampleAnswer (sampleBody token' secretsRead) event'.1 = some event'.2)
    (hsame : redact event.1 = redact event'.1) : SameReply symbolicCrypto event event' := by
  obtain ⟨request, reply⟩ := event
  obtain ⟨request', reply'⟩ := event'
  have hanswer : HEq (sampleAnswer (sampleBody token' secretsRead) request)
      (sampleAnswer (sampleBody token' secretsRead) request') := by
    refine (sampleAnswer_redact _ request).symm.trans ?_
    rw [hsame]
    exact sampleAnswer_redact _ request'
  cases request with
  | accessToken request =>
    cases request' with
    | accessToken request' =>
      cases h
      cases h'
      exact .parsed rfl rfl rfl rfl htokens rfl
    | _ => cases hsame
  | _ =>
    -- only GitHub's answer holds the token
    rw [h'] at hanswer
    apply heq_of_some (by rw [← reply_redact, hsame, reply_redact])
    rw [← h]
    exact hanswer

theorem token_unobserved_sample :
    output (samplePlay secretsRead "ghs_a".toList).1 =
        output (samplePlay secretsRead "ghs_b".toList).1 ∧
      (some (.ok ()) : Option (Except CliError Unit)) = some (.ok ()) := by
  have htokens : AlikeTokens symbolicCrypto "ghs_a".toList "ghs_b".toList :=
    ⟨by decide, by decide, fun _ _ _ => rfl⟩
  have hsucceeds : (samplePlay secretsRead "ghs_b".toList).2 = some (.ok ()) := by
    decide +kernel
  apply token_unobserved (Program.run_play samplePlay_succeeds) (Program.run_play hsucceeds)
  apply Observer.corresponding_of_forall
  intro event hevent event' hevent' hsame
  exact sampleAnswer_sameReply htokens (Program.answer_of_mem_play hevent)
    (Program.answer_of_mem_play hevent') hsame

end Custodly.Cli.MintGithub
