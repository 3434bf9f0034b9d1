import Custodly.Cli.Custody

/-! The order of effects in `mint-github` (`custodly-cli/src/main.rs`), over every run:
what is verified before a sink is given the token, when Ferryman is asked, what it is
sent, and when the vault is out of reach. -/
namespace Custodly.Cli.MintGithub
open Library.Strings Library.Interaction Custodly.Core Github Host

variable {T EncodingKey Key Cipher : Type}

/-- The functions that are given the token, with the token. -/
def sinkToken : Callee T → Option Text
  | .sealForIngestion _ _ value => some value
  | .vaultPut entry => some entry.secret
  | _ => none

/-- The token comes from a successful reply of GitHub's that grants no more than the command
line asks for. -/
def Verified (args : MintGithub) (trace : Trace T) (token : Text) : Prop :=
  ∃ request response body, ⟨.accessToken request, .ok response⟩ ∈ trace ∧ response.isSuccess ∧
    response.json = .ok body ∧
    verifyNoScopeCreep (.ofList args.permissions) (body.permissions.getD ∅) = .ok () ∧
    body.token = token

def MustLeave (args : MintGithub) (trace : Trace T) : Prop :=
  (∃ minted, Mints args trace minted ∧ minted.tier = .tier2) ∨ args.forRecipient = true

def ToFerryman : Call T → Prop
  | .ingestionKey _ | .deposit _ => True
  | _ => False

def FerrymanStep : Callee T → Prop
  | .fetchIngestionKey _ _ | .sealForIngestion _ _ _ | .deposit _ => True
  | _ => False

structure OrderOfEffects (crypto : Crypto Key Cipher) [DateTimeUtc T] (args : MintGithub)
    (trace : Trace T) (value : Option (Except CliError Unit)) : Prop where
  verified : ∀ before callee token after, trace = before ++ ⟨.enter callee, ()⟩ :: after →
    sinkToken callee = some token →
      Verified args before token ∧ ∀ event ∈ before, Succeeded event
  deposited : MustLeave args trace → value = some (.ok ()) → depositsReturned trace = 1
  uncached : MustLeave args trace →
    (args.ferryman = none ∨ ∃ callee, FerrymanStep callee ∧ ⟨.leave callee false, ()⟩ ∈ trace) →
      ∀ entry, ¬ Caches trace entry
  unsent : ¬ MustLeave args trace → ∀ event ∈ trace, ¬ ToFerryman event.1
  keyRequest : ∀ request reply, ⟨.ingestionKey request, reply⟩ ∈ trace →
    ∃ baseUrl project token, args.ferryman = some (baseUrl, project, token) ∧
      request = ⟨ingestionKeyUrl baseUrl project, token⟩
  sealedOnly : ∀ before request reply after, trace = before ++ ⟨.deposit request, reply⟩ :: after →
    ∃ minted, Mints args before minted ∧ SealedDeposit crypto args before minted request

variable {args : MintGithub} {trace : Trace T} {value : Option (Except CliError Unit)}

theorem Mints.verified {minted : MintedToken T} (h : Mints args trace minted) :
    Verified args trace minted.token := by
  obtain ⟨request, reply, hmem, hread⟩ := h
  obtain ⟨response, body, rfl, hsuccess, hjson, hverified, rfl⟩ := readAccessToken_eq_ok_iff.1 hread
  exact ⟨request, response, body, hmem, hsuccess, hjson, hverified, rfl⟩

theorem mustLeave_of_needs {minted : MintedToken T} (h : Mints args trace minted)
    (hneeds : args.needsFerrymanDeposit minted) : MustLeave args trace := by
  simp only [needsFerrymanDeposit, Bool.or_eq_true, decide_eq_true_eq] at hneeds
  exact hneeds.imp_left fun htier => ⟨minted, h, htier⟩

theorem needs_of_mustLeave (hended : Ended args trace) {minted : MintedToken T}
    (h : Mints args trace minted) (hleave : MustLeave args trace) :
    args.needsFerrymanDeposit minted = true := by
  rcases hleave with ⟨other, hother, htier⟩ | hrecipient
  · rw [← hended.single minted other h hother] at htier
    simp [needsFerrymanDeposit, htier]
  · simp [needsFerrymanDeposit, hrecipient]

section Runs

variable [DateTimeUtc T] {jwt : Jwt EncodingKey} {crypto : Crypto Key Cipher}

theorem mustLeave_of_toFerryman (h : Run (run jwt crypto args).run trace value)
    {event : Event (Call T) (Reply T)} (hmem : event ∈ trace) (hsent : ToFerryman event.1) :
    MustLeave args trace ∧ args.ferryman ≠ none := by
  obtain ⟨before, hsub, hrule⟩ := rule_of_mem h hmem
  obtain ⟨request, reply⟩ := event
  cases request with
  | ingestionKey request =>
    obtain ⟨minted, hmints, hneeds, baseUrl, project, token, hferryman, -⟩ := hrule
    exact ⟨mustLeave_of_needs (hmints.mono hsub) hneeds, by simp [hferryman]⟩
  | deposit request =>
    obtain ⟨minted, hmints, hneeds, baseUrl, project, token, hferryman, -⟩ := hrule
    exact ⟨mustLeave_of_needs (hmints.mono hsub) hneeds, by simp [hferryman]⟩
  | _ => exact hsent.elim

theorem not_caches_of_failed (h : Run (run jwt crypto args).run trace value) {callee : Callee T}
    (hstep : FerrymanStep callee) (hfailed : ⟨.leave callee false, ()⟩ ∈ trace)
    (entry : VaultEntry T) : ¬ Caches trace entry := by
  intro hcaches
  obtain ⟨before, after, htrace⟩ := List.append_of_mem hfailed
  rw [htrace, Caches, List.mem_append, List.mem_cons] at hcaches
  rcases hcaches with hbefore | hsame | hafter
  · have hrule : ∀ entry, ¬ Caches before entry := by
      have := rule_of_run h htrace
      cases callee with
      | fetchIngestionKey | sealForIngestion | deposit => exact this
      | mintInstallationToken | vaultPut => exact hstep.elim
    exact hrule entry hbefore
  · cases hsame
  · obtain ⟨between, rest, hafter⟩ := List.append_of_mem hafter
    have htrace' : trace = (before ++ ⟨.leave callee false, ()⟩ :: between) ++
        ⟨.enter (.vaultPut entry), ()⟩ :: rest := by
      rw [htrace, hafter, List.append_assoc, List.cons_append]
    obtain ⟨minted, hholding, -⟩ := rule_of_run h htrace'
    have hsucceeded := hholding.succeeded ⟨.leave callee false, ()⟩ (by simp)
    cases hsucceeded

/-- Effects come in order, whatever the arguments and however the calls turn out. -/
theorem order_of_effects (h : Run (run jwt crypto args).run trace value) :
    OrderOfEffects crypto args trace value where
  verified := by
    intro before callee token after htrace htoken
    have hrule := rule_of_run h htrace
    cases callee with
    | sealForIngestion hex aad value =>
      cases htoken
      obtain ⟨minted, hholding, rfl⟩ := hrule
      exact ⟨hholding.mints.verified, hholding.succeeded⟩
    | vaultPut entry =>
      cases htoken
      obtain ⟨minted, hholding, hsecret, -⟩ := hrule
      rw [← hsecret]
      exact ⟨hholding.mints.verified, hholding.succeeded⟩
    | mintInstallationToken | fetchIngestionKey | deposit => cases htoken
  deposited := by
    intro hleave hvalue
    rw [hvalue] at h
    obtain ⟨hended, minted, hmints, hreturned, -⟩ := goal_of_run h
    rw [hreturned, needs_of_mustLeave hended hmints hleave, if_pos rfl]
  uncached := by
    rintro hleave (hferryman | ⟨callee, hstep, hfailed⟩) entry
    · intro hcaches
      obtain ⟨before, minted, hsub, hholding, -⟩ := holding_of_caches h hcaches
      have hneeds := needs_of_mustLeave (ended_of_run h) (hholding.mints.mono hsub) hleave
      obtain ⟨request, reply, hmem, -⟩ := hholding.accepted.2 hneeds
      exact (mustLeave_of_toFerryman h (hsub hmem) trivial).2 hferryman
    · exact not_caches_of_failed h hstep hfailed entry
  unsent := fun hstay event hmem hsent => hstay (mustLeave_of_toFerryman h hmem hsent).1
  keyRequest := by
    intro request reply hmem
    obtain ⟨before, -, minted, -, -, hflags⟩ := rule_of_mem h hmem
    exact hflags
  sealedOnly := by
    intro before request reply after htrace
    obtain ⟨minted, hmints, -, hsealed⟩ := rule_of_run h htrace
    exact ⟨minted, hmints, hsealed⟩

end Runs

theorem order_of_effects_sample :
    OrderOfEffects symbolicCrypto (sampleArgs secretsRead) (samplePlay secretsRead "ghs_a".toList).1
      (some (.ok ())) :=
  order_of_effects (Program.run_play samplePlay_succeeds)

end Custodly.Cli.MintGithub
