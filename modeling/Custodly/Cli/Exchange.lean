import Custodly.Cli.Custody

/-! The deposit exchange of `mint-github` against `docs/BOUNDARY.md`: which project a deposit
names, and which contract version its payload and the two replies carry. -/
namespace Custodly.Cli.MintGithub
open Library Library.Strings Library.Interaction Custodly.Core Github Host

variable {T EncodingKey Key Cipher : Type} [DateTimeUtc T] {jwt : Jwt EncodingKey}
  {crypto : Crypto Key Cipher} {args : MintGithub} {trace : Trace T}
  {value : Option (Except CliError Unit)} {request : DepositRequest T}
  {reply : HttpReply (DepositReceipt T)}

theorem ferryman_eq_some_iff {baseUrl project token : Text} :
    args.ferryman = some (baseUrl, project, token) ↔ args.ferrymanBaseUrl = some baseUrl ∧
      args.ferrymanProject = some project ∧ args.ferrymanToken = some token := by
  unfold ferryman
  cases args.ferrymanBaseUrl <;> cases args.ferrymanProject <;> cases args.ferrymanToken <;> simp

theorem sealedDeposit_of_run (h : Run (run jwt crypto args).run trace value)
    (hdeposit : ⟨.deposit request, reply⟩ ∈ trace) :
    ∃ before minted, before ⊆ trace ∧ Mints args before minted ∧
      SealedDeposit crypto args before minted request := by
  obtain ⟨before, hsub, minted, hmints, -, hsealed⟩ := rule_of_mem h hdeposit
  exact ⟨before, minted, hsub, hmints, hsealed⟩

/-- Metadata, both URLs and the data the token is sealed under name one project. -/
structure NamesOneProject (crypto : Crypto Key Cipher) (args : MintGithub) (trace : Trace T)
    (request : DepositRequest T) : Prop where
  named : trim request.metadata.project ≠ []
  depositUrl : ∃ baseUrl, args.ferrymanBaseUrl = some baseUrl ∧
    request.url = depositUrl baseUrl request.metadata.project
  ingestionKeyUrl : ∀ keyRequest keyReply, ⟨.ingestionKey keyRequest, keyReply⟩ ∈ trace →
    ∃ baseUrl, args.ferrymanBaseUrl = some baseUrl ∧
      keyRequest.url = ingestionKeyUrl baseUrl request.metadata.project
  sealed : ∃ minted recipientPublic ephemeral nonce, Mints args trace minted ∧
    sealWith crypto recipientPublic ephemeral nonce (depositAad request.metadata.project)
      minted.token = .ok request.sealedSecret

theorem depositUrl_injective (baseUrl : Text) : Function.Injective (depositUrl baseUrl) := by
  intro project other h
  unfold depositUrl boundaryUrl at h
  exact List.append_cancel_left (List.append_cancel_right (List.append_cancel_right h))

/-- A deposit names one project just when the command line gives a non-blank one twice. -/
theorem namesOneProject_iff (h : Run (run jwt crypto args).run trace value)
    (hdeposit : ⟨.deposit request, reply⟩ ∈ trace) :
    NamesOneProject crypto args trace request ↔
      trim args.project ≠ [] ∧ args.ferrymanProject = some args.project := by
  obtain ⟨before, minted, hbefore, hmints, baseUrl, project, token, hferryman, _, _,
    recipientPublic, ephemeral, nonce, _, _, _, -, -, -, -, -, -, -, -, hsealed, hrequest⟩ :=
    sealedDeposit_of_run h hdeposit
  obtain ⟨hbaseUrl, hproject, -⟩ := ferryman_eq_some_iff.1 hferryman
  have hurl : request.url = depositUrl baseUrl project := by rw [hrequest]
  have hmetadata : request.metadata.project = args.project := by
    rw [hrequest]
    rfl
  constructor
  · intro hnames
    obtain ⟨baseUrl', hbaseUrl', hurl'⟩ := hnames.depositUrl
    rw [hbaseUrl, Option.some.injEq] at hbaseUrl'
    rw [hurl, ← hbaseUrl', hmetadata] at hurl'
    have hsame : project = args.project := depositUrl_injective baseUrl hurl'
    have hnamed := hnames.named
    rw [hmetadata] at hnamed
    exact ⟨hnamed, by rw [hproject, hsame]⟩
  · rintro ⟨hnamed, hsame⟩
    rw [hproject, Option.some.injEq] at hsame
    constructor
    · rwa [hmetadata]
    · exact ⟨baseUrl, hbaseUrl, by rw [hurl, hmetadata, hsame]⟩
    · intro keyRequest keyReply hkey
      obtain ⟨earlier, -, _, -, -, baseUrl', project', token', hferryman', hkeyRequest⟩ :=
        rule_of_mem h hkey
      rw [hferryman, Option.some.injEq, Prod.mk.injEq, Prod.mk.injEq] at hferryman'
      refine ⟨baseUrl, hbaseUrl, ?_⟩
      rw [hkeyRequest, ← hferryman'.1, ← hferryman'.2.1, hmetadata, hsame]
    · refine ⟨minted, recipientPublic, ephemeral, nonce, hmints.mono hbefore, ?_⟩
      rwa [hmetadata, ← hsame]

def sendsDeposit : Event (Call T) (Reply T) → Bool
  | ⟨.deposit _, _⟩ => true
  | _ => false

omit [DateTimeUtc T] in
theorem exists_deposit_of_any (h : trace.any sendsDeposit) :
    ∃ request reply, ⟨.deposit request, reply⟩ ∈ trace := by
  obtain ⟨⟨request, reply⟩, hmem, hsends⟩ := List.any_eq_true.1 h
  cases request with
  | deposit request => exact ⟨request, reply, hmem⟩
  | _ => cases hsends

theorem samplePlay_sendsDeposit :
    (samplePlay secretsRead "ghs_a".toList).1.any sendsDeposit := by decide +kernel

theorem namesOneProject_iff_sample :
    ∃ request reply, ⟨.deposit request, reply⟩ ∈ (samplePlay secretsRead "ghs_a".toList).1 ∧
      (NamesOneProject symbolicCrypto (sampleArgs secretsRead)
          (samplePlay secretsRead "ghs_a".toList).1 request ↔
        trim (sampleArgs secretsRead).project ≠ [] ∧
          (sampleArgs secretsRead).ferrymanProject = some (sampleArgs secretsRead).project) := by
  obtain ⟨request, reply, hdeposit⟩ := exists_deposit_of_any samplePlay_sendsDeposit
  exact ⟨request, reply, hdeposit,
    namesOneProject_iff (Program.run_play samplePlay_succeeds) hdeposit⟩

/-- With `--project redaktly --ferryman-project acme` the metadata names another project than
the URLs and the seal. -/
theorem not_namesOneProject :
    ¬ ∀ (args : MintGithub) (trace : Trace SampleInstant) (value : Option (Except CliError Unit))
      (request : DepositRequest SampleInstant) (reply : HttpReply (DepositReceipt SampleInstant)),
      Run (run sampleJwt symbolicCrypto args).run trace value →
      ⟨.deposit request, reply⟩ ∈ trace → NamesOneProject symbolicCrypto args trace request := by
  intro hall
  have hrun := Program.run_play samplePlay_succeeds
  obtain ⟨request, reply, hdeposit⟩ := exists_deposit_of_any samplePlay_sendsDeposit
  obtain ⟨before, minted, -, -, baseUrl, project, token, hferryman, hsent⟩ :=
    sealedDeposit_of_run hrun hdeposit
  obtain ⟨_, _, _, _, _, _, _, _, -, -, -, -, -, -, -, -, -, hrequest⟩ := hsent
  obtain ⟨baseUrl', hbaseUrl, hurl⟩ := (hall _ _ _ request reply hrun hdeposit).depositUrl
  obtain ⟨hbaseUrl', hproject, -⟩ := ferryman_eq_some_iff.1 hferryman
  rw [hbaseUrl', Option.some.injEq] at hbaseUrl
  rw [hrequest, hbaseUrl] at hurl
  have hsame : project = "redaktly".toList := depositUrl_injective baseUrl' hurl
  have hacme : project = "acme".toList := (Option.some.inj hproject).symm
  rw [hsame] at hacme
  exact absurd hacme (by decide)

def Recognised (reply : HttpReply IngestionKeyBody) : Prop :=
  ∃ response body, reply = .ok response ∧ response.isSuccess ∧ response.json = .ok body ∧
    checkVersion body.contractVersion = .ok ()

/-- The receipt proves that custody was transferred: both replies were successes in the
version of the contract, and it is the receipt of this deposit. -/
structure Acknowledged (trace : Trace T) (request : DepositRequest T)
    (reply : HttpReply (DepositReceipt T)) (receipt : DepositReceipt T) : Prop where
  key : ∃ keyRequest keyReply, ⟨.ingestionKey keyRequest, keyReply⟩ ∈ trace ∧ Recognised keyReply
  success : ∃ response, reply = .ok response ∧ response.isSuccess ∧ response.json = .ok receipt
  version : checkVersion receipt.contractVersion = .ok ()
  depositId : receipt.depositId = request.depositId

/-- Every deposit that is sent carries the version, and none passes for accepted unless the
receipt proves it. -/
def Versioned (serialized : T → Text) (trace : Trace T) : Prop :=
  ∀ request reply, ⟨.deposit request, reply⟩ ∈ trace →
    (depositPayload serialized request).values "contract_version".toList =
        [.string contractVersion] ∧
      ∀ receipt, readReceipt request.url reply = .ok receipt →
        Acknowledged trace request reply receipt

omit [DateTimeUtc T] in
theorem depositPayload_values (serialized : T → Text) (request : DepositRequest T) :
    (depositPayload serialized request).values "contract_version".toList = [] := by
  simp [depositPayload, Json.values]

theorem acknowledged_iff (h : Run (run jwt crypto args).run trace value)
    (hdeposit : ⟨.deposit request, reply⟩ ∈ trace) {receipt : DepositReceipt T}
    (hreceipt : readReceipt request.url reply = .ok receipt) :
    Acknowledged trace request reply receipt ↔
      checkVersion receipt.contractVersion = .ok () ∧ receipt.depositId = request.depositId := by
  constructor
  · exact fun hacknowledged => ⟨hacknowledged.version, hacknowledged.depositId⟩
  · rintro ⟨hversion, hid⟩
    obtain ⟨before, minted, hbefore, -, baseUrl, project, token, -, keyReply, hex, _, _, _, _, _, _,
      hkey, hread, -⟩ := sealedDeposit_of_run h hdeposit
    obtain ⟨response, hreply, hsuccess, hjson⟩ := readIngestionKey_eq_ok_iff.1 hread
    constructor
    · refine ⟨_, keyReply, hbefore hkey, response, _, hreply, hsuccess, hjson, ?_⟩
      exact checkVersion_eq_ok_iff.2 rfl
    · exact readReceipt_eq_ok_iff.1 hreceipt
    · exact hversion
    · exact hid

/-- An exchange is versioned throughout only where no deposit is sent; and a receipt that is
accepted proves the transfer just when it happens to carry the version and the id. -/
theorem versioned_iff (serialized : T → Text) (h : Run (run jwt crypto args).run trace value) :
    (Versioned serialized trace ↔ ∀ request reply, ⟨.deposit request, reply⟩ ∉ trace) ∧
      ∀ request reply receipt, ⟨.deposit request, reply⟩ ∈ trace →
        readReceipt request.url reply = .ok receipt →
          (Acknowledged trace request reply receipt ↔
            checkVersion receipt.contractVersion = .ok () ∧
              receipt.depositId = request.depositId) := by
  constructor
  · constructor
    · intro hversioned request reply hdeposit
      have hcarried := (hversioned request reply hdeposit).1
      rw [depositPayload_values] at hcarried
      cases hcarried
    · exact fun hnone request reply hdeposit => (hnone request reply hdeposit).elim
  · exact fun request reply receipt hdeposit hreceipt => acknowledged_iff h hdeposit hreceipt

theorem versioned_iff_sample :
    (Versioned DateTimeUtc.toRfc3339 (samplePlay secretsRead "ghs_a".toList).1 ↔
        ∀ request reply, ⟨.deposit request, reply⟩ ∉ (samplePlay secretsRead "ghs_a".toList).1) ∧
      ∀ request reply receipt,
        ⟨.deposit request, reply⟩ ∈ (samplePlay secretsRead "ghs_a".toList).1 →
        readReceipt request.url reply = .ok receipt →
          (Acknowledged (samplePlay secretsRead "ghs_a".toList).1 request reply receipt ↔
            checkVersion receipt.contractVersion = .ok () ∧
              receipt.depositId = request.depositId) :=
  versioned_iff _ (Program.run_play samplePlay_succeeds)

def strangeAnswer (request : Call SampleInstant) : Option (Reply SampleInstant request) :=
  match request with
  | .deposit _ => some (.ok ⟨200, .ok [], .ok ⟨"another".toList, .noon, "boundary/v2".toList⟩⟩)
  | request => sampleAnswer (sampleBody "ghs_a".toList secretsRead) request

def strangePlay : Trace SampleInstant × Option (Except CliError Unit) :=
  (run sampleJwt symbolicCrypto (sampleArgs secretsRead)).run.play strangeAnswer

theorem strangePlay_succeeds : strangePlay.2 = some (.ok ()) := by decide +kernel

/-- The run ends as a success although neither the payload nor the receipt carries the
version, and the receipt is another's. -/
theorem not_versioned :
    ∃ trace : Trace SampleInstant,
      Run (run sampleJwt symbolicCrypto (sampleArgs secretsRead)).run trace (some (.ok ())) ∧
        ¬ Versioned DateTimeUtc.toRfc3339 trace ∧
        ∃ request reply receipt, ⟨.deposit request, reply⟩ ∈ trace ∧
          readReceipt request.url reply = .ok receipt ∧
          receipt.contractVersion ≠ contractVersion ∧ receipt.depositId ≠ request.depositId := by
  have hrun := Program.run_play strangePlay_succeeds
  obtain ⟨request, reply, hdeposit⟩ := exists_deposit_of_any
    (show strangePlay.1.any sendsDeposit by decide +kernel)
  have hanswer := Program.answer_of_mem_play hdeposit
  refine ⟨_, hrun, ?_, request, reply, ?_⟩
  · intro hversioned
    have hcarried := (hversioned request reply hdeposit).1
    rw [depositPayload_values] at hcarried
    cases hcarried
  · obtain ⟨_, _, -, -, _, _, _, -, _, _, _, _, _, idBytes, _, now, -, -, -, -, -, -, -, -, -,
      hrequest⟩ := sealedDeposit_of_run hrun hdeposit
    have hid : request.depositId.head? = some '2' := by
      rw [hrequest]
      cases now <;> rfl
    cases hanswer
    refine ⟨_, hdeposit, rfl, by decide, fun hsame => ?_⟩
    rw [← hsame] at hid
    exact absurd hid (by decide)

end Custodly.Cli.MintGithub
