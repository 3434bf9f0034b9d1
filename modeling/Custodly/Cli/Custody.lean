import Custodly.Cli.MintGithub

/-! Custody of the minted token (`custodly-cli/src/main.rs`).  What the history of a run says
before each request of `mint-github`, and what follows for whole runs: which tokens reach
the vault, and in which order the effects happen. -/
namespace Custodly.Cli.MintGithub
open Library.Strings Library.Interaction Custodly.Core Github Host

variable {T EncodingKey Key Cipher : Type}

abbrev Trace (T : Type) := History (Call T) (Reply T)

/-- A reply of GitHub's from which `mint_installation_token` hands back this token. -/
def Mints (args : MintGithub) (trace : Trace T) (minted : MintedToken T) : Prop :=
  ∃ request reply, ⟨.accessToken request, reply⟩ ∈ trace ∧
    readAccessToken args.grant reply = .ok minted

def Caches (trace : Trace T) (entry : VaultEntry T) : Prop :=
  ⟨.enter (.vaultPut entry), ()⟩ ∈ trace

/-- Ferryman answers a deposit with a receipt. -/
def Accepted (trace : Trace T) : Prop :=
  ∃ request reply, ⟨.deposit request, reply⟩ ∈ trace ∧ (readReceipt request.url reply).isOk

def depositReturned : Event (Call T) (Reply T) → Bool
  | ⟨.leave (.deposit _) ok, _⟩ => ok
  | _ => false

def depositsReturned (trace : Trace T) : Nat := trace.countP depositReturned

def Succeeded : Event (Call T) (Reply T) → Prop
  | ⟨.readStdin, reply⟩ => ∃ privateKeyPem, reply = .ok privateKeyPem ∧ trim privateKeyPem ≠ []
  | ⟨.accessToken _, reply⟩ => ∃ response, reply = .ok response ∧ response.isSuccess ∧
      response.json.isOk
  | ⟨.ingestionKey _, reply⟩ => ∃ response, reply = .ok response ∧ response.isSuccess ∧
      response.json.isOk
  | ⟨.deposit _, reply⟩ => ∃ response, reply = .ok response ∧ response.isSuccess ∧
      response.json.isOk
  | ⟨.keyringEntry _ _, reply⟩ => reply.isOk
  | ⟨.getPassword _ _, reply⟩ => reply.isOk
  | ⟨.setPassword _ _ _, reply⟩ => reply.isOk
  | ⟨.exists _, found⟩ => found = true
  | ⟨.spawn _ _, reply⟩ => reply.isOk
  | ⟨.writeLine _, reply⟩ => reply.isOk
  | ⟨.waitWithOutput, reply⟩ => ∃ output, reply = .ok output ∧ output.success
  | ⟨.leave _ ok, _⟩ => ok = true
  | _ => True

def Quiet : Call T → Prop
  | .accessToken _ | .deposit _ | .enter (.vaultPut _) | .leave (.deposit _) _ => False
  | _ => True

section Quiet

variable {args : MintGithub} {past added : Trace T}

theorem mints_append (hquiet : ∀ event ∈ added, Quiet event.1) {minted : MintedToken T} :
    Mints args (past ++ added) minted ↔ Mints args past minted := by
  unfold Mints
  refine exists_congr fun request => exists_congr fun reply => and_congr_left fun _ => ?_
  rw [List.mem_append, or_iff_left]
  exact fun hmem => hquiet _ hmem

theorem caches_append (hquiet : ∀ event ∈ added, Quiet event.1) {entry : VaultEntry T} :
    Caches (past ++ added) entry ↔ Caches past entry := by
  unfold Caches
  rw [List.mem_append, or_iff_left]
  exact fun hmem => hquiet _ hmem

theorem accepted_append (hquiet : ∀ event ∈ added, Quiet event.1) :
    Accepted (past ++ added) ↔ Accepted past := by
  unfold Accepted
  refine exists_congr fun request => exists_congr fun reply => and_congr_left fun _ => ?_
  rw [List.mem_append, or_iff_left]
  exact fun hmem => hquiet _ hmem

theorem depositsReturned_append (hquiet : ∀ event ∈ added, Quiet event.1) :
    depositsReturned (past ++ added) = depositsReturned past := by
  unfold depositsReturned
  rw [List.countP_append, Nat.add_eq_left, List.countP_eq_zero]
  rintro ⟨request, reply⟩ hmem
  have := hquiet _ hmem
  cases request with
  | leave callee ok => cases callee <;> simp_all [depositReturned, Quiet]
  | _ => simp [depositReturned]

theorem quiet_of_asksVault {request : Call T} (h : Vault.AsksVault request) : Quiet request := by
  cases request with
  | accessToken | deposit | enter | leave => exact h.elim
  | _ => exact trivial

end Quiet

/-- The token is minted and verified and nothing failed so far; whether it has been
deposited is known, and it is not cached. -/
structure Holding (args : MintGithub) (minted : MintedToken T) (deposited : Bool)
    (past : Trace T) : Prop where
  mints : Mints args past minted
  only : ∀ other, Mints args past other → other = minted
  uncached : ∀ entry, ¬ Caches past entry
  succeeded : ∀ event ∈ past, Succeeded event
  returned : depositsReturned past = if deposited then 1 else 0
  accepted : Accepted past ↔ deposited = true

/-- However a run ends, it has minted at most one token, and an accepted deposit of a token
for the local operator is followed by caching it. -/
structure Ended (args : MintGithub) (past : Trace T) : Prop where
  single : ∀ minted other, Mints args past minted → Mints args past other → minted = other
  cached : Accepted past → args.forRecipient = false → trim args.project ≠ [] →
    ∃ minted entry, Mints args past minted ∧ Caches past entry ∧ entry.secret = minted.token

section Holding

variable {args : MintGithub} {minted : MintedToken T} {deposited : Bool} {past added : Trace T}

theorem Holding.append (h : Holding args minted deposited past)
    (hquiet : ∀ event ∈ added, Quiet event.1 ∧ Succeeded event) :
    Holding args minted deposited (past ++ added) := by
  have hall : ∀ event ∈ added, Quiet event.1 := fun event hmem => (hquiet event hmem).1
  constructor
  · exact (mints_append hall).2 h.mints
  · exact fun other hother => h.only other ((mints_append hall).1 hother)
  · exact fun entry hentry => h.uncached entry ((caches_append hall).1 hentry)
  · intro event hmem
    rcases List.mem_append.1 hmem with hmem | hmem
    · exact h.succeeded event hmem
    · exact (hquiet event hmem).2
  · rw [depositsReturned_append hall, h.returned]
  · rw [accepted_append hall, h.accepted]

theorem Holding.single (h : Holding args minted deposited past) (first second : MintedToken T)
    (hfirst : Mints args past first) (hsecond : Mints args past second) : first = second := by
  rw [h.only first hfirst, h.only second hsecond]

theorem Holding.uncached_append (h : Holding args minted deposited past)
    (hquiet : ∀ event ∈ added, Quiet event.1) : ∀ entry, ¬ Caches (past ++ added) entry :=
  fun entry hentry => h.uncached entry ((caches_append hquiet).1 hentry)

theorem Holding.ended (h : Holding args minted false past)
    (hquiet : ∀ event ∈ added, Quiet event.1) : Ended args (past ++ added) := by
  constructor
  · intro first second hfirst hsecond
    exact h.single first second ((mints_append hquiet).1 hfirst) ((mints_append hquiet).1 hsecond)
  · intro haccepted
    rw [accepted_append hquiet, h.accepted] at haccepted
    cases haccepted

end Holding

section Deposit

variable {args : MintGithub} {minted : MintedToken T} {past : Trace T} {id : Text}
  {request : DepositRequest T} {reply : HttpReply (DepositReceipt T)} {ok : Bool}

def depositEvents (id : Text) (request : DepositRequest T) (reply : HttpReply (DepositReceipt T)) :
    Trace T :=
  [⟨.deposit request, reply⟩, ⟨.leave (.deposit id) (readReceipt request.url reply).isOk, ()⟩]

theorem mints_depositEvents :
    Mints args (past ++ depositEvents id request reply) minted ↔ Mints args past minted := by
  simp [Mints, depositEvents]

theorem caches_depositEvents {entry : VaultEntry T} :
    Caches (past ++ depositEvents id request reply) entry ↔ Caches past entry := by
  simp [Caches, depositEvents]

theorem accepted_depositEvents :
    Accepted (past ++ depositEvents id request reply) ↔
      Accepted past ∨ (readReceipt request.url reply).isOk := by
  unfold Accepted depositEvents
  constructor
  · rintro ⟨request', reply', hmem, hok⟩
    simp only [List.mem_append, List.mem_cons, Sigma.mk.injEq, reduceCtorEq, false_and,
      List.not_mem_nil, or_false, Call.deposit.injEq] at hmem
    rcases hmem with hmem | ⟨rfl, hreply⟩
    · exact .inl ⟨request', reply', hmem, hok⟩
    · rw [eq_of_heq hreply] at hok
      exact .inr hok
  · rintro (⟨request', reply', hmem, hok⟩ | hok)
    · exact ⟨request', reply', List.mem_append_left _ hmem, hok⟩
    · exact ⟨request, reply, by simp, hok⟩

theorem Holding.deposit_failed (h : Holding args minted false past) (id : Text)
    (hreceipt : (readReceipt request.url reply).isOk = false) :
    Ended args (past ++ depositEvents id request reply) := by
  constructor
  · intro first second hfirst hsecond
    exact h.single first second (mints_depositEvents.1 hfirst) (mints_depositEvents.1 hsecond)
  · intro haccepted
    simp [accepted_depositEvents, h.accepted, hreceipt] at haccepted

theorem Holding.deposited (h : Holding args minted false past) (id : Text)
    {receipt : DepositReceipt T} (hreceipt : readReceipt request.url reply = .ok receipt) :
    Holding args minted true (past ++ depositEvents id request reply) := by
  have hok : (readReceipt request.url reply).isOk = true := by
    rw [hreceipt]
    rfl
  constructor
  · exact mints_depositEvents.2 h.mints
  · exact fun other hother => h.only other (mints_depositEvents.1 hother)
  · exact fun entry hentry => h.uncached entry (caches_depositEvents.1 hentry)
  · intro event hmem
    simp only [depositEvents, List.mem_append, List.mem_cons, List.not_mem_nil, or_false] at hmem
    rcases hmem with hmem | rfl | rfl
    · exact h.succeeded event hmem
    · obtain ⟨response, hreply, hsuccess, hjson⟩ := readReceipt_eq_ok_iff.1 hreceipt
      exact ⟨response, hreply, hsuccess, by rw [hjson]; rfl⟩
    · exact hok
  · have hreturned := h.returned
    unfold depositsReturned at hreturned ⊢
    rw [List.countP_append, hreturned]
    simp [depositEvents, depositReturned, hok]
  · simp [accepted_depositEvents, hok]

end Deposit

/-- What is sent to Ferryman: the seal of the token under the key Ferryman answered with,
and next to it only what the command line, the clock, the random bytes and the rest of
GitHub's reply give. -/
def SealedDeposit (crypto : Crypto Key Cipher) [DateTimeUtc T] (args : MintGithub)
    (past : Trace T) (minted : MintedToken T) (request : DepositRequest T) : Prop :=
  ∃ baseUrl project token, args.ferryman = some (baseUrl, project, token) ∧
  ∃ keyReply ingestionKeyHex recipientPublic ephemeral nonce idBytes acquiredAt now,
    ⟨.ingestionKey ⟨ingestionKeyUrl baseUrl project, token⟩, keyReply⟩ ∈ past ∧
    readIngestionKey (ingestionKeyUrl baseUrl project) keyReply = .ok ingestionKeyHex ∧
    hexDecode32 crypto ingestionKeyHex = .ok recipientPublic ∧
    ⟨.randomBytes 32, ephemeral⟩ ∈ past ∧ ⟨.randomBytes 24, nonce⟩ ∈ past ∧
    ⟨.randomBytes 8, idBytes⟩ ∈ past ∧ ⟨.now, acquiredAt⟩ ∈ past ∧ ⟨.now, now⟩ ∈ past ∧
    sealWith crypto recipientPublic ephemeral nonce (depositAad project) minted.token =
      .ok request.sealedSecret ∧
    request = {
      url := depositUrl baseUrl project
      bearer := token
      depositId := depositId crypto now idBytes
      sealedSecret := request.sealedSecret
      metadata := args.depositMetadata { minted with token := [] } acquiredAt }

def Rule (crypto : Crypto Key Cipher) [DateTimeUtc T] (args : MintGithub) (past : Trace T) :
    Call T → Prop
  | .ingestionKey request => ∃ minted, Mints args past minted ∧ args.needsFerrymanDeposit minted ∧
      ∃ baseUrl project token, args.ferryman = some (baseUrl, project, token) ∧
        request = ⟨ingestionKeyUrl baseUrl project, token⟩
  | .deposit request => ∃ minted, Mints args past minted ∧ args.needsFerrymanDeposit minted ∧
      SealedDeposit crypto args past minted request
  | .enter (.sealForIngestion _ _ token) => ∃ minted, Holding args minted false past ∧
      minted.token = token
  | .enter (.vaultPut entry) => ∃ minted,
      Holding args minted (args.needsFerrymanDeposit minted) past ∧
      minted.token = entry.secret ∧ args.forRecipient = false ∧ trim args.project ≠ []
  | .leave (.vaultPut _) _ => True
  | .leave _ _ => ∀ entry, ¬ Caches past entry
  -- the two requests that may have no answer
  | .abort _ | .randomIndex _ => Ended args past
  | _ => True

/-- What the history says of the way a run ends: without an error, a token was minted, it was
deposited just when it had to leave the machine, and cached just when it may stay. -/
def Goal (args : MintGithub) (past : Trace T) : Except CliError Unit → Prop
  | .ok _ => Ended args past ∧ ∃ minted, Mints args past minted ∧
      depositsReturned past = (if args.needsFerrymanDeposit minted then 1 else 0) ∧
      (args.forRecipient = false → ∃ entry, Caches past entry ∧ entry.secret = minted.token)
  | .error _ => Ended args past

section Stages

variable [DateTimeUtc T] {jwt : Jwt EncodingKey} {crypto : Crypto Key Cipher} {args : MintGithub}
  {minted : MintedToken T} {past : Trace T}

omit [DateTimeUtc T] in
theorem ended_of_not_mints (hmints : ∀ minted, ¬ Mints args past minted)
    (haccepted : ¬ Accepted past) : Ended args past :=
  ⟨fun minted _ h => (hmints minted h).elim, fun h => (haccepted h).elim⟩

theorem obeys_readAppKey {goal : Trace T → Except CliError Text → Prop}
    (hfail : ∀ read error, goal (past ++ [⟨.readStdin, read⟩]) (.error error))
    (hkey : ∀ privateKeyPem, trim privateKeyPem ≠ [] →
      goal (past ++ [⟨.readStdin, .ok privateKeyPem⟩]) (.ok privateKeyPem)) :
    readAppKey.run.Obeys (Rule crypto args) goal past := by
  unfold readAppKey
  rw [run_call_bind, Program.obeys_ask]
  refine ⟨trivial, fun read => ?_⟩
  rw [obeys_attempt_bind]
  cases read with
  | error cause => exact hfail _ _
  | ok privateKeyPem =>
    simp only [Except.mapError, Program.GoesOn]
    by_cases hblank : trim privateKeyPem = []
    · rw [if_pos hblank]
      exact hfail _ _
    · rw [if_neg hblank]
      exact hkey privateKeyPem hblank

theorem obeys_mintInstallationToken {app : AppCredentials}
    {goal : Trace T → Except GithubError (MintedToken T) → Prop}
    (hsign : ∀ now error, goal (past ++ [⟨.now, now⟩]) (.error error))
    (hread : ∀ now request reply,
      goal (past ++ [⟨.now, now⟩, ⟨.accessToken request, reply⟩])
        (readAccessToken args.grant reply)) :
    (mintInstallationToken jwt app args.grant).run.Obeys (Rule crypto args) goal past := by
  unfold mintInstallationToken
  rw [run_call_bind, Program.obeys_ask]
  refine ⟨trivial, fun now => ?_⟩
  rw [obeys_attempt_bind]
  cases mintJwt jwt app now with
  | error error => exact hsign now error
  | ok bearer =>
    simp only [Program.GoesOn]
    rw [run_call_bind, Program.obeys_ask]
    refine ⟨trivial, fun reply => ?_⟩
    rw [run_attempt, Program.obeys_done, List.append_assoc]
    exact hread now _ reply

omit [DateTimeUtc T] in
theorem holding_minted {privateKeyPem : Text} {now : T} {request : AccessTokenRequest}
    {reply : HttpReply (AccessTokenBody T)} (hkey : trim privateKeyPem ≠ [])
    (hread : readAccessToken args.grant reply = .ok minted) :
    Holding args minted false [⟨.readStdin, .ok privateKeyPem⟩,
      ⟨.enter (.mintInstallationToken args.grant), ()⟩, ⟨.now, now⟩, ⟨.accessToken request, reply⟩,
      ⟨.leave (.mintInstallationToken args.grant) true, ()⟩] := by
  constructor
  · exact ⟨request, reply, by simp, hread⟩
  · rintro other ⟨request', reply', hmem, hother⟩
    simp only [List.mem_cons, Sigma.mk.injEq, reduceCtorEq, false_and, false_or,
      Call.accessToken.injEq, List.not_mem_nil, or_false] at hmem
    obtain ⟨rfl, hreply⟩ := hmem
    rw [eq_of_heq hreply, hread, Except.ok.injEq] at hother
    exact hother.symm
  · simp [Caches]
  · obtain ⟨response, body, rfl, hsuccess, hjson, -⟩ := readAccessToken_eq_ok_iff.1 hread
    simp [Succeeded, hkey, hsuccess, hjson, Except.isOk, Except.toBool]
  · rfl
  · simp [Accepted]

theorem obeys_minting {next : MintedToken T → Action T CliError Unit}
    (hnext : ∀ past minted, Holding args minted false past →
      (next minted).run.Obeys (Rule crypto args) (Goal args) past) :
    (readAppKey >>= fun privateKeyPem => traced (.mintInstallationToken args.grant)
      ((mintInstallationToken jwt (args.app privateKeyPem) args.grant).adapt .github) >>=
        next).run.Obeys (Rule crypto args) (Goal args) [] := by
  rw [Program.obeys_tryBind]
  apply obeys_readAppKey
  · intro read error
    exact ended_of_not_mints (by simp [Mints]) (by simp [Accepted])
  · intro privateKeyPem hkey
    simp only [Program.GoesOn]
    rw [Program.obeys_tryBind, obeys_traced, obeys_adapt]
    refine ⟨trivial, ?_⟩
    apply obeys_mintInstallationToken
    · intro now error
      refine ⟨by simp [Rule, Caches], ?_⟩
      exact ended_of_not_mints (by simp [Mints]) (by simp [Accepted])
    · intro now request reply
      cases hread : readAccessToken args.grant reply with
      | error error =>
        refine ⟨by simp [Rule, Caches], ?_⟩
        exact ended_of_not_mints (by simp [Mints, hread]) (by simp [Accepted])
      | ok minted =>
        exact ⟨by simp [Rule, Caches], hnext _ minted (holding_minted hkey hread)⟩

theorem obeys_fetchIngestionKey {baseUrl project token : Text}
    {goal : Trace T → Except ClientError Text → Prop}
    (hrule : Rule crypto args past (.ingestionKey ⟨ingestionKeyUrl baseUrl project, token⟩))
    (hread : ∀ reply,
      goal (past ++ [⟨.ingestionKey ⟨ingestionKeyUrl baseUrl project, token⟩, reply⟩])
        (readIngestionKey (ingestionKeyUrl baseUrl project) reply)) :
    (fetchIngestionKey baseUrl project token).run.Obeys (Rule crypto args) goal past := by
  unfold fetchIngestionKey
  rw [run_call_bind, Program.obeys_ask]
  exact ⟨hrule, hread⟩

theorem obeys_deposit {baseUrl project token depositId : Text} {sealedSecret : SealedSecret}
    {metadata : DepositMetadata T} {goal : Trace T → Except ClientError (DepositReceipt T) → Prop}
    (hrule : Rule crypto args past
      (.deposit ⟨depositUrl baseUrl project, token, depositId, sealedSecret, metadata⟩))
    (hread : ∀ reply, goal
      (past ++ [⟨.deposit ⟨depositUrl baseUrl project, token, depositId, sealedSecret, metadata⟩,
        reply⟩]) (readReceipt (depositUrl baseUrl project) reply)) :
    (deposit baseUrl project token depositId sealedSecret metadata).run.Obeys
      (Rule crypto args) goal past := by
  unfold deposit
  rw [run_call_bind, Program.obeys_ask]
  exact ⟨hrule, hread⟩

theorem obeys_sealForIngestion {ingestionKeyHex value : Text} {aad : Bytes}
    {goal : Trace T → Except SealError SealedSecret → Prop}
    (hfail : ∀ error added, (∀ event ∈ added, Quiet event.1) →
      goal (past ++ added) (.error error))
    (hseal : ∀ recipientPublic ephemeral nonce sealedSecret,
      hexDecode32 crypto ingestionKeyHex = .ok recipientPublic →
      sealWith crypto recipientPublic ephemeral nonce aad value = .ok sealedSecret →
      goal (past ++ [⟨.randomBytes 32, ephemeral⟩, ⟨.randomBytes 24, nonce⟩]) (.ok sealedSecret)) :
    (sealForIngestion crypto ingestionKeyHex aad value).run.Obeys (Rule crypto args) goal past := by
  have hfail_nil : ∀ error, goal past (.error error) := by
    intro error
    simpa using hfail error [] (by simp)
  unfold sealForIngestion
  by_cases hempty : value = []
  · rw [if_pos hempty]
    exact hfail_nil _
  · rw [if_neg hempty, obeys_attempt_bind]
    cases hpublic : hexDecode32 crypto ingestionKeyHex with
    | error error => exact hfail_nil error
    | ok recipientPublic =>
      simp only [Program.GoesOn]
      rw [run_call_bind, Program.obeys_ask]
      refine ⟨trivial, fun ephemeral => ?_⟩
      rw [obeys_attempt_bind]
      cases hcipher : cipherFor crypto ephemeral (crypto.publicKey ephemeral) recipientPublic with
      | error error => exact hfail error _ (by simp [Quiet])
      | ok cipher =>
        simp only [Program.GoesOn]
        rw [run_call_bind, Program.obeys_ask]
        refine ⟨trivial, fun nonce => ?_⟩
        cases hencrypt : crypto.encrypt cipher nonce aad (asBytes value) with
        | none =>
          rw [List.append_assoc]
          exact hfail _ _ (by simp [Quiet])
        | some ciphertext =>
          rw [List.append_assoc]
          apply hseal recipientPublic ephemeral nonce _ hpublic
          simp [sealWith, hcipher, hencrypt]

section Steps

variable {goal : Trace T → Except CliError Unit → Prop}

theorem obeys_keyStep {baseUrl project token : Text} {next : Text → Action T CliError Unit}
    (h : Holding args minted false past) (hneeds : args.needsFerrymanDeposit minted = true)
    (hferryman : args.ferryman = some (baseUrl, project, token))
    (hstop : ∀ past error, Ended args past → goal past (.error error))
    (hnext : ∀ after keyReply ingestionKeyHex, past ⊆ after → Holding args minted false after →
      ⟨.ingestionKey ⟨ingestionKeyUrl baseUrl project, token⟩, keyReply⟩ ∈ after →
      readIngestionKey (ingestionKeyUrl baseUrl project) keyReply = .ok ingestionKeyHex →
      (next ingestionKeyHex).run.Obeys (Rule crypto args) goal after) :
    (traced (.fetchIngestionKey baseUrl project)
      ((fetchIngestionKey baseUrl project token).adapt .client) >>= next).run.Obeys
        (Rule crypto args) goal past := by
  rw [Program.obeys_tryBind, obeys_traced, obeys_adapt]
  refine ⟨trivial, ?_⟩
  apply obeys_fetchIngestionKey
  · refine ⟨minted, ?_, hneeds, baseUrl, project, token, hferryman, rfl⟩
    exact (h.append (by simp [Quiet, Succeeded])).mints
  · intro keyReply
    rw [List.append_assoc]
    refine ⟨h.uncached_append (by simp [Quiet]), ?_⟩
    rw [List.append_assoc]
    cases hkey : readIngestionKey (ingestionKeyUrl baseUrl project) keyReply with
    | error error => exact hstop _ _ (h.ended (by simp [Quiet]))
    | ok ingestionKeyHex =>
      apply hnext _ keyReply ingestionKeyHex (List.subset_append_left _ _) ?_ (by simp) hkey
      obtain ⟨response, hreply, hsuccess, hjson⟩ := readIngestionKey_eq_ok_iff.1 hkey
      apply h.append
      simp [Quiet, Succeeded, hreply, hsuccess, hjson, Except.mapError, Except.isOk, Except.toBool]

theorem obeys_sealStep {ingestionKeyHex : Text} {aad : Bytes}
    {next : SealedSecret → Action T CliError Unit} (h : Holding args minted false past)
    (hstop : ∀ past error, Ended args past → goal past (.error error))
    (hnext : ∀ after recipientPublic ephemeral nonce sealedSecret, past ⊆ after →
      Holding args minted false after →
      hexDecode32 crypto ingestionKeyHex = .ok recipientPublic →
      ⟨.randomBytes 32, ephemeral⟩ ∈ after → ⟨.randomBytes 24, nonce⟩ ∈ after →
      sealWith crypto recipientPublic ephemeral nonce aad minted.token = .ok sealedSecret →
      (next sealedSecret).run.Obeys (Rule crypto args) goal after) :
    (traced (.sealForIngestion ingestionKeyHex aad minted.token)
      ((sealForIngestion crypto ingestionKeyHex aad minted.token).adapt .seal) >>= next).run.Obeys
        (Rule crypto args) goal past := by
  rw [Program.obeys_tryBind, obeys_traced, obeys_adapt]
  refine ⟨⟨minted, h, rfl⟩, ?_⟩
  apply obeys_sealForIngestion
  · intro error added hquiet
    have hall : ∀ last : Trace T, (∀ event ∈ last, Quiet event.1) → ∀ event ∈
        [⟨.enter (.sealForIngestion ingestionKeyHex aad minted.token), ()⟩] ++ (added ++ last),
          Quiet event.1 := by
      intro last hlast
      simp only [List.forall_mem_append, List.forall_mem_singleton]
      exact ⟨trivial, hquiet, hlast⟩
    refine ⟨?_, ?_⟩
    · rw [← List.append_nil added, List.append_assoc]
      exact h.uncached_append (hall [] (by simp))
    · rw [List.append_assoc, List.append_assoc]
      exact hstop _ _ (h.ended (hall _ (by simp [Quiet])))
  · intro recipientPublic ephemeral nonce sealedSecret hpublic hsealed
    rw [List.append_assoc]
    refine ⟨h.uncached_append (by simp [Quiet]), ?_⟩
    rw [List.append_assoc]
    apply hnext _ recipientPublic ephemeral nonce sealedSecret (List.subset_append_left _ _) ?_
      hpublic (by simp) (by simp) hsealed
    exact h.append (by simp [Quiet, Succeeded, Except.mapError, Except.isOk, Except.toBool])

theorem obeys_depositStep {baseUrl project token id : Text} {sealedSecret : SealedSecret}
    {metadata : DepositMetadata T} {next : DepositReceipt T → Action T CliError Unit}
    (h : Holding args minted false past) (hneeds : args.needsFerrymanDeposit minted = true)
    (hsealed : SealedDeposit crypto args (past ++ [⟨.enter (.deposit id), ()⟩]) minted
      ⟨depositUrl baseUrl project, token, id, sealedSecret, metadata⟩)
    (hstop : ∀ past error, Ended args past → goal past (.error error))
    (hnext : ∀ after receipt, Holding args minted true after →
      (next receipt).run.Obeys (Rule crypto args) goal after) :
    (traced (.deposit id)
      ((deposit baseUrl project token id sealedSecret metadata).adapt .client) >>= next).run.Obeys
        (Rule crypto args) goal past := by
  rw [Program.obeys_tryBind, obeys_traced, obeys_adapt]
  refine ⟨trivial, ?_⟩
  have hentered : Holding args minted false (past ++ [⟨.enter (.deposit id), ()⟩]) :=
    h.append (by simp [Quiet, Succeeded])
  apply obeys_deposit
  · exact ⟨minted, hentered.mints, hneeds, hsealed⟩
  · intro reply
    let request : DepositRequest T :=
      ⟨depositUrl baseUrl project, token, id, sealedSecret, metadata⟩
    refine ⟨fun entry hentry => hentered.uncached entry (by simpa [Caches] using hentry), ?_⟩
    rw [List.append_assoc]
    cases hreceipt : readReceipt (depositUrl baseUrl project) reply with
    | error error =>
      have hended := @Holding.deposit_failed _ _ _ _ request reply hentered id
        (by rw [show readReceipt request.url reply = _ from hreceipt]; rfl)
      unfold depositEvents at hended
      rw [show readReceipt request.url reply = _ from hreceipt] at hended
      exact hstop _ _ hended
    | ok receipt =>
      have hdeposited := @Holding.deposited _ _ _ _ request reply hentered id receipt hreceipt
      unfold depositEvents at hdeposited
      rw [show readReceipt request.url reply = _ from hreceipt] at hdeposited
      exact hnext _ receipt hdeposited

end Steps

theorem obeys_depositWithFerryman (h : Holding args minted false past)
    (hneeds : args.needsFerrymanDeposit minted = true) :
    (depositWithFerryman crypto args minted).run.Obeys (Rule crypto args)
      (Program.GoesOn (fun past _ => Holding args minted true past) (Goal args)) past := by
  unfold depositWithFerryman
  cases hferryman : args.ferryman with
  | none =>
    have hended : Ended args (past ++ []) := h.ended (by simp)
    rw [List.append_nil] at hended
    exact hended
  | some flags =>
    obtain ⟨baseUrl, project, token⟩ := flags
    simp only
    rw [run_call_bind, Program.obeys_ask]
    refine ⟨trivial, fun acquiredAt => ?_⟩
    have hstop : ∀ past error, Ended args past → Program.GoesOn
        (fun past (_ : Unit) => Holding args minted true past) (Goal args) past (.error error) :=
      fun _ _ hended => hended
    apply obeys_keyStep (h.append (by simp [Quiet, Succeeded])) hneeds hferryman hstop
    intro keyed keyReply ingestionKeyHex hkeyed hkeyHolding hkeyReply hkey
    apply obeys_sealStep hkeyHolding hstop
    intro sealedPast recipientPublic ephemeral nonce sealedSecret hsealedPast hsealHolding hpublic
      hephemeral hnonce hsealed
    rw [run_call_bind, Program.obeys_ask]
    refine ⟨trivial, fun idBytes => ?_⟩
    rw [run_call_bind, Program.obeys_ask]
    refine ⟨trivial, fun now => ?_⟩
    rw [List.append_assoc]
    apply obeys_depositStep (hsealHolding.append (by simp [Quiet, Succeeded])) hneeds ?_ hstop
    · intro after receipt hdeposited
      rw [run_call_bind, Program.obeys_ask]
      refine ⟨trivial, fun _ => ?_⟩
      rw [run_call, Program.obeys_ask]
      refine ⟨trivial, fun _ => ?_⟩
      rw [Program.obeys_done, List.append_assoc]
      exact hdeposited.append (by simp [Quiet, Succeeded])
    · have hacquiredAt : ⟨.now, acquiredAt⟩ ∈ sealedPast := hsealedPast (hkeyed (by simp))
      exact ⟨baseUrl, project, token, hferryman, keyReply, ingestionKeyHex, recipientPublic,
        ephemeral, nonce, idBytes, acquiredAt, now, by simp [hsealedPast hkeyReply], hkey, hpublic,
        by simp [hephemeral], by simp [hnonce], by simp, by simp [hacquiredAt], by simp, hsealed,
        rfl⟩

theorem obeys_leaveMachine (h : Holding args minted false past) :
    (leaveMachine crypto args minted).run.Obeys (Rule crypto args)
      (Program.GoesOn (fun past _ => Holding args minted (args.needsFerrymanDeposit minted) past)
        (Goal args)) past := by
  unfold leaveMachine
  cases hneeds : args.needsFerrymanDeposit minted with
  | false => exact h
  | true => exact obeys_depositWithFerryman h hneeds

omit [DateTimeUtc T] in
theorem newMetadata_isOk_iff (acquiredAt : T) :
    (∃ metadata, args.newMetadata minted acquiredAt = .ok metadata) ↔ trim args.project ≠ [] := by
  have hdescription : trim (args.sourceDescription minted) ≠ [] := by
    intro hblank
    have hfirst : 'G' ∈ args.sourceDescription minted := by
      unfold sourceDescription
      simp only [List.append_assoc]
      exact List.mem_append_left _ (by decide)
    exact absurd (trim_eq_nil_iff.1 hblank 'G' hfirst) (by decide)
  unfold newMetadata
  simp only [EntryMetadata.new_eq_ok_iff]
  constructor
  · rintro ⟨metadata, rfl, htraceable⟩
    exact htraceable.1
  · exact fun hproject => ⟨_, rfl, hproject, hdescription⟩

section Cached

variable {deposited : Bool} {entry : VaultEntry T} {added : Trace T}

omit [DateTimeUtc T] in
theorem mints_cached (hquiet : ∀ event ∈ added, Quiet event.1) {other : MintedToken T} :
    Mints args (past ++ ⟨.enter (.vaultPut entry), ()⟩ :: added) other ↔ Mints args past other := by
  rw [List.append_cons, mints_append hquiet]
  simp [Mints]

omit [DateTimeUtc T] in
theorem Holding.cached_ended (h : Holding args minted deposited past)
    (hsecret : entry.secret = minted.token) (hquiet : ∀ event ∈ added, Quiet event.1) :
    Ended args (past ++ ⟨.enter (.vaultPut entry), ()⟩ :: added) := by
  constructor
  · intro first second hfirst hsecond
    exact h.single first second ((mints_cached hquiet).1 hfirst) ((mints_cached hquiet).1 hsecond)
  · intro _ _ _
    exact ⟨minted, entry, (mints_cached hquiet).2 h.mints, by simp [Caches], hsecret⟩

omit [DateTimeUtc T] in
theorem Holding.cached_returned (h : Holding args minted deposited past)
    (hquiet : ∀ event ∈ added, Quiet event.1) :
    depositsReturned (past ++ ⟨.enter (.vaultPut entry), ()⟩ :: added) =
      if deposited then 1 else 0 := by
  rw [List.append_cons, depositsReturned_append hquiet, ← h.returned]
  simp [depositsReturned, depositReturned]

end Cached

theorem obeys_put {vault : Vault} {entry : VaultEntry T}
    {goal : Trace T → Except Vault.VaultError Unit → Prop}
    (hended : ∀ added, (∀ event ∈ added, Quiet event.1) → Ended args (past ++ added))
    (hgoal : ∀ added outcome, (∀ event ∈ added, Quiet event.1) → goal (past ++ added) outcome) :
    (vault.put entry).run.Obeys (Rule crypto args) goal past := by
  refine (Vault.issues_put vault entry).obeys fun added hadded => ?_
  have hquiet : ∀ event ∈ added, Quiet event.1 := fun event hmem =>
    quiet_of_asksVault (hadded event hmem)
  refine ⟨fun request hrequest => ?_, fun outcome => hgoal added outcome hquiet⟩
  cases request with
  | abort | randomIndex => exact hended added hquiet
  | ingestionKey | deposit | enter | leave => exact hrequest.elim
  | _ => trivial

theorem obeys_cacheLocally (h : Holding args minted (args.needsFerrymanDeposit minted) past)
    (hlocal : args.forRecipient = false) :
    (cacheLocally args minted).run.Obeys (Rule crypto args) (Goal args) past := by
  unfold cacheLocally
  rw [run_call_bind, Program.obeys_ask]
  refine ⟨trivial, fun acquiredAt => ?_⟩
  have hnow := h.append (show ∀ event ∈ ([⟨.now, acquiredAt⟩] : Trace T),
    Quiet event.1 ∧ Succeeded event by simp [Quiet, Succeeded])
  rw [obeys_attempt_bind]
  cases hmetadata : args.newMetadata minted acquiredAt with
  | error error =>
    refine ⟨hnow.single, fun _ _ hproject => ?_⟩
    obtain ⟨metadata, hok⟩ := (newMetadata_isOk_iff acquiredAt).2 hproject
    rw [hmetadata] at hok
    cases hok
  | ok metadata =>
    have hproject := (newMetadata_isOk_iff acquiredAt).1 ⟨metadata, hmetadata⟩
    simp only [Except.mapError, Program.GoesOn]
    rw [Program.obeys_tryBind, obeys_traced, obeys_adapt]
    refine ⟨⟨minted, hnow, rfl, hlocal, hproject⟩, ?_⟩
    have hcached : ∀ added : Trace T, (∀ event ∈ added, Quiet event.1) →
        Ended args (past ++ [⟨.now, acquiredAt⟩] ++ [⟨.enter (.vaultPut
          (VaultEntry.new args.label metadata minted.token)), ()⟩] ++ added) := by
      intro added hquiet
      rw [List.append_assoc _ [_] added]
      exact hnow.cached_ended rfl hquiet
    apply obeys_put hcached
    intro added outcome hquiet
    have hall : ∀ last : Trace T, (∀ event ∈ last, Quiet event.1) →
        ∀ event ∈ added ++ last, Quiet event.1 := fun last hlast =>
      List.forall_mem_append.2 ⟨hquiet, hlast⟩
    refine ⟨trivial, ?_⟩
    rw [List.append_assoc _ added]
    cases outcome with
    | error error => exact hcached _ (hall _ (by simp [Quiet]))
    | ok _ =>
      simp only [Except.mapError, Program.GoesOn]
      rw [run_call, Program.obeys_ask]
      refine ⟨trivial, fun _ => ?_⟩
      rw [Program.obeys_done, List.append_assoc _ (added ++ _), List.append_assoc added]
      refine ⟨hcached _ (hall _ (by simp [Quiet])), minted, ?_, ?_, fun _ => ?_⟩
      · rw [List.append_assoc _ [_] (added ++ _)]
        exact (mints_cached (hall _ (by simp [Quiet]))).2 hnow.mints
      · rw [List.append_assoc _ [_] (added ++ _)]
        exact hnow.cached_returned (hall _ (by simp [Quiet]))
      · exact ⟨VaultEntry.new args.label metadata minted.token, by simp [Caches], rfl⟩

theorem obeys_stayLocal (h : Holding args minted (args.needsFerrymanDeposit minted) past) :
    (stayLocal args minted).run.Obeys (Rule crypto args) (Goal args) past := by
  unfold stayLocal
  cases hrecipient : args.forRecipient with
  | false => exact obeys_cacheLocally h hrecipient
  | true =>
    rw [if_pos rfl, run_call, Program.obeys_ask]
    refine ⟨trivial, fun _ => ?_⟩
    have hprinted := h.append (show ∀ event ∈ ([⟨.println notCachedLine, ()⟩] : Trace T),
      Quiet event.1 ∧ Succeeded event by simp [Quiet, Succeeded])
    -- nothing below is about a token for the local operator
    have hforeign : args.forRecipient ≠ false := by simp [hrecipient]
    exact ⟨⟨hprinted.single, fun _ hlocal => (hforeign hlocal).elim⟩, minted, hprinted.mints,
      hprinted.returned, fun hlocal => (hforeign hlocal).elim⟩

/-- Every request of a run is made under the rule, and every run ends in the goal. -/
theorem obeys_run : (run jwt crypto args : Action T _ _).run.Obeys (Rule crypto args) (Goal args)
    [] := by
  unfold run
  apply obeys_minting
  intro past minted h
  rw [run_call_bind, Program.obeys_ask]
  refine ⟨trivial, fun _ => ?_⟩
  rw [Program.obeys_tryBind]
  refine (obeys_leaveMachine (h.append (by simp [Quiet, Succeeded]))).mono (fun _ _ h => h) ?_
  intro past outcome hleft
  cases outcome with
  | error error => exact hleft
  | ok _ => exact obeys_stayLocal hleft

end Stages

section Runs

variable [DateTimeUtc T] {jwt : Jwt EncodingKey} {crypto : Crypto Key Cipher} {args : MintGithub}
  {trace : Trace T} {value : Option (Except CliError Unit)}

theorem rule_of_run (h : Run (run jwt crypto args).run trace value) {before after : Trace T}
    {event : Event (Call T) (Reply T)} (htrace : trace = before ++ event :: after) :
    Rule crypto args before event.1 :=
  (h.obeys obeys_run).1 before event after htrace

theorem rule_of_mem (h : Run (run jwt crypto args).run trace value)
    {event : Event (Call T) (Reply T)} (hmem : event ∈ trace) :
    ∃ before, before ⊆ trace ∧ Rule crypto args before event.1 := by
  obtain ⟨before, after, htrace⟩ := List.append_of_mem hmem
  refine ⟨before, ?_, rule_of_run h htrace⟩
  rw [htrace]
  exact List.subset_append_left _ _

omit [DateTimeUtc T] in
theorem ended_of_isEmpty (empty : IsEmpty T) : Ended args trace := by
  apply ended_of_not_mints
  · exact fun minted _ => empty.false minted.expiresAt
  · rintro ⟨request, reply, -, hok⟩
    cases hreceipt : readReceipt request.url reply with
    | error error =>
      rw [hreceipt] at hok
      cases hok
    | ok receipt => exact empty.false receipt.acceptedAt

theorem ended_of_run (h : Run (run jwt crypto args).run trace value) : Ended args trace := by
  obtain ⟨-, hvalue, hnone⟩ := h.obeys obeys_run
  cases value with
  | some outcome =>
    have hgoal := hvalue outcome rfl
    cases outcome with
    | error error => exact hgoal
    | ok _ => exact hgoal.1
  | none =>
    obtain ⟨request, empty, hrule⟩ := hnone rfl
    cases request with
    | abort | randomIndex => exact hrule
    | now => exact ended_of_isEmpty empty
    | randomBytes => exact (empty.false (.replicate _ 0)).elim
    | «exists» => exact (empty.false true).elim
    | log | println | enter | leave => exact (empty.false ()).elim
    | _ => exact (empty.false (.error default)).elim

theorem goal_of_run (h : Run (run jwt crypto args).run trace (some (.ok ()))) :
    Goal args trace (.ok ()) := (h.obeys obeys_run).2.1 _ rfl

omit [DateTimeUtc T] in
theorem Mints.mono {before : Trace T} (hsub : before ⊆ trace) {minted : MintedToken T}
    (h : Mints args before minted) : Mints args trace minted := by
  obtain ⟨request, reply, hmem, hread⟩ := h
  exact ⟨request, reply, hsub hmem, hread⟩

omit [DateTimeUtc T] in
theorem Accepted.mono {before : Trace T} (hsub : before ⊆ trace) (h : Accepted before) :
    Accepted trace := by
  obtain ⟨request, reply, hmem, hok⟩ := h
  exact ⟨request, reply, hsub hmem, hok⟩

theorem holding_of_caches (h : Run (run jwt crypto args).run trace value) {entry : VaultEntry T}
    (hcaches : Caches trace entry) :
    ∃ before minted, before ⊆ trace ∧
      Holding args minted (args.needsFerrymanDeposit minted) before ∧
      minted.token = entry.secret ∧ args.forRecipient = false ∧ trim args.project ≠ [] := by
  obtain ⟨before, hsub, minted, hholding, hrest⟩ := rule_of_mem h hcaches
  exact ⟨before, minted, hsub, hholding, hrest⟩

/-- A token of Tier 2, or for someone other than the local operator, is never given to the
vault. -/
def KeptOffVault (args : MintGithub) (trace : Trace T) : Prop :=
  ∀ minted, Mints args trace minted → (minted.tier = .tier2 ∨ args.forRecipient = true) →
    ∀ entry, Caches trace entry → entry.secret ≠ minted.token

theorem keptOffVault_iff_cached (h : Run (run jwt crypto args).run trace value) :
    KeptOffVault args trace ↔ ∀ entry, Caches trace entry →
      args.forRecipient = false ∧ ∃ minted, Mints args trace minted ∧
        minted.token = entry.secret ∧ minted.tier ≤ .tier1 := by
  constructor
  · intro hkept entry hcaches
    obtain ⟨before, minted, hsub, hholding, htoken, hlocal, -⟩ := holding_of_caches h hcaches
    have hmints := hholding.mints.mono hsub
    refine ⟨hlocal, minted, hmints, htoken, ?_⟩
    cases htier : minted.tier with
    | tier0 => decide
    | tier1 => decide
    | tier2 => exact absurd htoken.symm (hkept minted hmints (.inl htier) entry hcaches)
  · intro hcached minted hmints hleave entry hcaches _
    obtain ⟨hlocal, cached, hmints', -, htier⟩ := hcached entry hcaches
    rw [(ended_of_run h).single cached minted hmints' hmints] at htier
    rcases hleave with htier2 | hrecipient
    · rw [htier2] at htier
      exact absurd htier (by decide)
    · rw [hlocal] at hrecipient
      cases hrecipient

/-- The routing fails just for a Tier 2 token that Ferryman accepts: it is deposited and
then, without `--for-recipient`, cached as well. -/
theorem keptOffVault_iff (h : Run (run jwt crypto args).run trace value) :
    KeptOffVault args trace ↔
      ¬ (args.forRecipient = false ∧ trim args.project ≠ [] ∧
        (∃ minted, Mints args trace minted ∧ minted.tier = .tier2) ∧ Accepted trace) := by
  have hended := ended_of_run h
  rw [keptOffVault_iff_cached h]
  constructor
  · rintro hcached ⟨hlocal, hproject, ⟨minted, hmints, htier⟩, haccepted⟩
    obtain ⟨_, entry, -, hcaches, -⟩ := hended.cached haccepted hlocal hproject
    obtain ⟨-, cached, hmints', -, hle⟩ := hcached entry hcaches
    rw [hended.single cached minted hmints' hmints, htier] at hle
    exact absurd hle (by decide)
  · intro hnot entry hcaches
    obtain ⟨before, minted, hsub, hholding, htoken, hlocal, hproject⟩ :=
      holding_of_caches h hcaches
    have hmints := hholding.mints.mono hsub
    refine ⟨hlocal, minted, hmints, htoken, ?_⟩
    cases htier : minted.tier with
    | tier0 => decide
    | tier1 => decide
    | tier2 =>
      have hneeds : args.needsFerrymanDeposit minted = true := by
        simp [needsFerrymanDeposit, htier]
      exact (hnot ⟨hlocal, hproject, ⟨minted, hmints, htier⟩,
        (hholding.accepted.2 hneeds).mono hsub⟩).elim

end Runs

theorem keptOffVault_iff_sample :
    KeptOffVault (sampleArgs secretsRead) (samplePlay secretsRead "ghs_a".toList).1 ↔
      ¬ ((sampleArgs secretsRead).forRecipient = false ∧
        trim (sampleArgs secretsRead).project ≠ [] ∧
        (∃ minted, Mints (sampleArgs secretsRead) (samplePlay secretsRead "ghs_a".toList).1 minted ∧
          minted.tier = .tier2) ∧ Accepted (samplePlay secretsRead "ghs_a".toList).1) :=
  keptOffVault_iff (Program.run_play samplePlay_succeeds)

/-- A token that can read secrets is deposited and then cached as well. -/
theorem not_keptOffVault :
    ¬ ∀ (args : MintGithub) (trace : Trace SampleInstant) (value : Option (Except CliError Unit)),
      Run (run sampleJwt symbolicCrypto args).run trace value → KeptOffVault args trace := by
  intro hall
  have hrun := Program.run_play samplePlay_succeeds
  obtain ⟨-, minted, hmints, -, hcached⟩ := goal_of_run hrun
  obtain ⟨entry, hcaches, hsecret⟩ := hcached rfl
  have htier : minted.tier = .tier2 := by
    obtain ⟨request, reply, hmem, hread⟩ := hmints
    have hanswer := Program.answer_of_mem_play hmem
    cases hanswer
    have hscored : (readAccessToken (sampleArgs secretsRead).grant
        (.ok ⟨201, .ok [], .ok (sampleBody "ghs_a".toList secretsRead)⟩)).map (·.tier) =
        .ok .tier2 := by decide
    rw [hread] at hscored
    exact Except.ok.inj hscored
  exact hall _ _ _ hrun minted hmints (.inl htier) entry hcaches hsecret

end Custodly.Cli.MintGithub
