import Custodly.Cli.Exchange

/-! What Ferryman can make of a deposit (`custodly-cli/src/main.rs`, `custodly-core/src/seal.rs`,
`policy.rs`): it opens to the minted token for the project's own key and project, for no other,
and its tier is the one `policy()` gives for its provider and scope. -/
namespace Custodly.Cli.MintGithub
open Library Library.Strings Library.Interaction Custodly.Core Github Host

variable {T EncodingKey Key Cipher : Type} [DateTimeUtc T] {jwt : Jwt EncodingKey}
  {crypto : Crypto Key Cipher} {args : MintGithub} {trace : Trace T}
  {value : Option (Except CliError Unit)} {request : DepositRequest T}
  {reply : HttpReply (DepositReceipt T)}

/-- The key Ferryman hands out in a run is that of one secret. -/
def KeyOf (crypto : Crypto Key Cipher) (secret : Octets 32) (trace : Trace T) : Prop :=
  ∀ request reply hex, ⟨.ingestionKey request, reply⟩ ∈ trace →
    readIngestionKey request.url reply = .ok hex →
      hex = crypto.hexEncode (crypto.publicKey secret).toList

/-- A deposit that opens to a token minted in the run, for one secret and one project only, at
that project's route, with the tier `policy()` would give. -/
structure Delivers (crypto : Crypto Key Cipher) (secret : Octets 32) (args : MintGithub)
    (trace : Trace T) (request : DepositRequest T) (minted : MintedToken T)
    (baseUrl project : Text) : Prop where
  mints : Mints args trace minted
  ferrymanBaseUrl : args.ferrymanBaseUrl = some baseUrl
  ferrymanProject : args.ferrymanProject = some project
  url : request.url = depositUrl baseUrl project
  opens : ∀ secret' project', openForTests crypto secret' request.sealedSecret
    (depositAad project') = if secret' = secret ∧ project' = project then .ok minted.token
      else .error .decrypt
  tier : (evaluate request.metadata.provider request.metadata.scope).tier = request.metadata.tier
  gated : gateHumanApproval ∈ (evaluate request.metadata.provider request.metadata.scope).requires ↔
    minted.tier = .tier2

/-- Every deposit of a run delivers: where it had to be gated, a receiver that asks `policy()`
about it is told so. -/
theorem deposit_delivers (laws : Symbolic crypto) {secret : Octets 32}
    (h : Run (run jwt crypto args).run trace value) (hkey : KeyOf crypto secret trace)
    (hdeposit : ⟨.deposit request, reply⟩ ∈ trace) :
    ∃ minted baseUrl project, Delivers crypto secret args trace request minted baseUrl project := by
  obtain ⟨before, minted, hbefore, hmints, baseUrl, project, token, hferryman, keyReply, hex,
    recipientPublic, ephemeral, nonce, idBytes, acquiredAt, now, hanswered, hread, hdecoded, -, -,
    -, -, -, hsealed, hrequest⟩ := sealedDeposit_of_run h hdeposit
  obtain ⟨hbaseUrl, hproject, -⟩ := ferryman_eq_some_iff.1 hferryman
  rw [hkey _ _ _ (hbefore hanswered) hread, laws.hexDecode32_hexEncode,
    Except.ok.injEq] at hdecoded
  rw [← hdecoded] at hsealed
  have hmetadata : request.metadata =
      args.depositMetadata { minted with token := [] } acquiredAt := by rw [hrequest]
  have hscored : Tier.score (assess github minted.scopeString) = minted.tier := by
    obtain ⟨_, _, -, hread⟩ := hmints
    obtain ⟨_, _, -, -, -, -, rfl⟩ := readAccessToken_eq_ok_iff.1 hread
    unfold assess
    rw [if_pos rfl]
    rfl
  have hevaluated : (evaluate request.metadata.provider request.metadata.scope).tier =
      minted.tier.asU8 := by
    rw [hmetadata, ← hscored]
    rfl
  refine ⟨minted, baseUrl, project, hmints.mono hbefore, hbaseUrl, hproject, by rw [hrequest],
    fun secret' project' => ?_, ?_, ?_⟩
  · rw [laws.opens_iff hsealed]
    simp only [depositAad_injective.eq_iff]
  · rw [hevaluated, hmetadata]
    rfl
  · rw [mem_requires_gate_iff, hevaluated]
    exact Tier.asU8_injective.eq_iff' rfl

def sampleSecret : Octets 32 := .replicate 32 1

theorem keyOf_samplePlay (permissions : List (Text × Text)) (token : Text) :
    KeyOf symbolicCrypto sampleSecret (samplePlay permissions token).1 := by
  intro request reply hex hmem hread
  have hanswer := Program.answer_of_mem_play hmem
  cases hanswer
  obtain ⟨response, hreply, -, hjson⟩ := readIngestionKey_eq_ok_iff.1 hread
  rw [Except.ok.injEq] at hreply
  rw [← hreply, Except.ok.injEq, IngestionKeyBody.mk.injEq] at hjson
  exact hjson.1.symm

theorem deposit_delivers_sample :
    ∃ request reply, ⟨.deposit request, reply⟩ ∈ (samplePlay secretsRead "ghs_a".toList).1 ∧
      ∃ minted baseUrl project, Delivers symbolicCrypto sampleSecret (sampleArgs secretsRead)
        (samplePlay secretsRead "ghs_a".toList).1 request minted baseUrl project := by
  obtain ⟨request, reply, hdeposit⟩ := exists_deposit_of_any samplePlay_sendsDeposit
  exact ⟨request, reply, hdeposit, deposit_delivers symbolicCrypto_laws
    (Program.run_play samplePlay_succeeds) (keyOf_samplePlay _ _) hdeposit⟩

end Custodly.Cli.MintGithub
