import Custodly.Cli.Command
import Mathlib.Data.List.Sort

/-! The course of a mint (`custodly-cli/src/main.rs`) as a machine of its own: the stages a
mint goes through and the events that take it from one to the next.  The command follows it,
whatever the replies, so a run has each of its effects once at most and in one order, what it
has printed is what the stage says, and it reports success just when it is done. -/
namespace Custodly.Cli.MintGithub
open Library.Strings Library.Interaction Library.Surroundings Custodly.Core Github Host Vault
open GitCredential (printedLine printedLines)

variable {T EncodingKey Key Cipher : Type}

structure Departing (T : Type) (args : MintGithub) where
  minted : MintedToken T
  needs : args.needsFerrymanDeposit minted = true

structure Cleared (T : Type) (args : MintGithub) where
  minted : MintedToken T
  receipt : Option (DepositReceipt T)
  deposited : receipt.isSome = args.needsFerrymanDeposit minted

/-- How far a mint has come. -/
inductive Stage (T : Type) (args : MintGithub) where
  | start
  | handed (privateKeyPem : Text)
  | minted (departing : Departing T args)
  | keyed (departing : Departing T args) (ingestionKeyHex : Text)
  | accepted (departing : Departing T args) (receipt : DepositReceipt T)
  | cleared (cleared : Cleared T args)
  | storing (cleared : Cleared T args) (entry : VaultEntry T)
  | stored (cleared : Cleared T args) (entry : VaultEntry T)
  | handedOver (cleared : Cleared T args)
  | cached (cleared : Cleared T args) (entry : VaultEntry T)
  /-- Nothing was printed, or nothing but of the deposit. -/
  | failed (cleared : Option (Cleared T args))

variable {args : MintGithub}

def Stage.Done : Stage T args → Prop
  | .handedOver _ => args.forRecipient = true
  | .cached _ _ => args.forRecipient = false
  | _ => False

def afterRead : Except Text Text → Stage T args
  | .error _ => .failed none
  | .ok privateKeyPem => if trim privateKeyPem = [] then .failed none else .handed privateKeyPem

def Stage.ofMinted (minted : MintedToken T) : Stage T args :=
  if h : args.needsFerrymanDeposit minted = true then .minted ⟨minted, h⟩
  else .cleared ⟨minted, none, by simpa using h⟩

def afterMint (reply : HttpReply (AccessTokenBody T)) : Stage T args :=
  match readAccessToken args.grant reply with
  | .error _ => .failed none
  | .ok minted => .ofMinted minted

def afterKey (departing : Departing T args) (url : Text) (reply : HttpReply IngestionKeyBody) :
    Stage T args :=
  match readIngestionKey url reply with
  | .error _ => .failed none
  | .ok ingestionKeyHex => .keyed departing ingestionKeyHex

def afterDeposit (departing : Departing T args) (url : Text)
    (reply : HttpReply (DepositReceipt T)) : Stage T args :=
  match readReceipt url reply with
  | .error _ => .failed none
  | .ok receipt => .accepted departing receipt

def Departing.cleared (departing : Departing T args) (receipt : DepositReceipt T) :
    Cleared T args :=
  ⟨departing.minted, some receipt, departing.needs.symm⟩

def afterPut (cleared : Cleared T args) (entry : VaultEntry T) (ok : Bool) : Stage T args :=
  if ok then .stored cleared entry else .failed (some cleared)

def Aside : Call T → Prop
  | .now | .randomBytes _ | .log _ => True
  | .enter (.vaultPut _) | .leave (.vaultPut _) _ => False
  | .enter _ | .leave _ _ => True
  | _ => False

variable [DateTimeUtc T]

inductive MintStep (jwt : Jwt EncodingKey) (crypto : Crypto Key Cipher) (args : MintGithub) :
    Stage T args → Event (Call T) (Reply T) → Stage T args → Prop
  | aside {s : Stage T args} (request : Call T) (h : Aside request) (reply : Reply T request) :
      MintStep jwt crypto args s ⟨request, reply⟩ s
  | read (reply : Except Text Text) :
      MintStep jwt crypto args .start ⟨.readStdin, reply⟩ (afterRead reply)
  | mint {privateKeyPem bearer : Text} {now : T}
      (hjwt : mintJwt jwt (args.app privateKeyPem) now = .ok bearer)
      (reply : HttpReply (AccessTokenBody T)) :
      MintStep jwt crypto args (.handed privateKeyPem)
        ⟨.accessToken ⟨accessTokenUrl args.grant, bearer, accessTokenHeaders,
          args.grant.repositoryIds, args.grant.permissions⟩, reply⟩ (afterMint reply)
  | fetchKey {departing : Departing T args} {baseUrl project token : Text}
      (hferryman : args.ferryman = some (baseUrl, project, token))
      (reply : HttpReply IngestionKeyBody) :
      MintStep jwt crypto args (.minted departing)
        ⟨.ingestionKey ⟨ingestionKeyUrl baseUrl project, token⟩, reply⟩
        (afterKey departing (ingestionKeyUrl baseUrl project) reply)
  | deposit {departing : Departing T args} {ingestionKeyHex baseUrl project token : Text}
      {recipientPublic ephemeral : Octets 32} {nonce : Octets 24} {idBytes : Octets 8}
      {sealedSecret : SealedSecret} {acquiredAt now : T}
      (hferryman : args.ferryman = some (baseUrl, project, token))
      (hkey : hexDecode32 crypto ingestionKeyHex = .ok recipientPublic)
      (hsealed : sealWith crypto recipientPublic ephemeral nonce (depositAad project)
        departing.minted.token = .ok sealedSecret)
      (reply : HttpReply (DepositReceipt T)) :
      MintStep jwt crypto args (.keyed departing ingestionKeyHex)
        ⟨.deposit ⟨depositUrl baseUrl project, token, depositId crypto now idBytes, sealedSecret,
          args.depositMetadata departing.minted acquiredAt⟩, reply⟩
        (afterDeposit departing (depositUrl baseUrl project) reply)
  | report {departing : Departing T args} {receipt : DepositReceipt T} :
      MintStep jwt crypto args (.accepted departing receipt)
        ⟨.println (depositedLine departing.minted receipt), ()⟩
        (.cleared (departing.cleared receipt))
  | handOver {cleared : Cleared T args} (hforeign : args.forRecipient = true) :
      MintStep jwt crypto args (.cleared cleared) ⟨.println notCachedLine, ()⟩
        (.handedOver cleared)
  | put {cleared : Cleared T args} {acquiredAt : T} {metadata : EntryMetadata T}
      (hlocal : args.forRecipient = false)
      (hmetadata : args.newMetadata cleared.minted acquiredAt = .ok metadata) :
      MintStep jwt crypto args (.cleared cleared)
        ⟨.enter (.vaultPut (VaultEntry.new args.label metadata cleared.minted.token)), ()⟩
        (.storing cleared (VaultEntry.new args.label metadata cleared.minted.token))
  | work {cleared : Cleared T args} {entry : VaultEntry T} {request : Call T}
      (h : Spawning (PutArgs entry) request) (reply : Reply T request) :
      MintStep jwt crypto args (.storing cleared entry) ⟨request, reply⟩ (.storing cleared entry)
  | leave {cleared : Cleared T args} {entry : VaultEntry T} (ok : Bool) :
      MintStep jwt crypto args (.storing cleared entry) ⟨.leave (.vaultPut entry) ok, ()⟩
        (afterPut cleared entry ok)
  | tell {cleared : Cleared T args} {entry : VaultEntry T} :
      MintStep jwt crypto args (.stored cleared entry)
        ⟨.println (cachedLine args.label cleared.minted entry.metadata), ()⟩
        (.cached cleared entry)

inductive Effect where
  | stdin
  | mint
  | key
  | deposit
  | put
  deriving DecidableEq

def effectOf : Event (Call T) (Reply T) → Option Effect
  | ⟨.readStdin, _⟩ => some .stdin
  | ⟨.accessToken _, _⟩ => some .mint
  | ⟨.ingestionKey _, _⟩ => some .key
  | ⟨.deposit _, _⟩ => some .deposit
  | ⟨.enter (.vaultPut _), _⟩ => some .put
  | _ => none

def effects (trace : Trace T) : List Effect := trace.filterMap effectOf

/-- The effects of a mint in their order. -/
def courseOfEffects : List Effect := [.stdin, .mint, .key, .deposit, .put]

def Effect.rank : Effect → Nat
  | .stdin => 0
  | .mint => 1
  | .key => 2
  | .deposit => 3
  | .put => 5

def Stage.height : Stage T args → Nat
  | .start => 0
  | .handed _ => 1
  | .minted _ => 2
  | .keyed _ _ => 3
  | .accepted _ _ => 4
  | .cleared _ => 5
  | .storing _ _ => 6
  | .stored _ _ => 7
  | .handedOver _ | .cached _ _ | .failed _ => 8

def Cleared.told (held : Cleared T args) : List Text :=
  held.receipt.toList.map (depositedLine held.minted)

def Stage.told : Stage T args → List Text
  | .start | .handed _ | .minted _ | .keyed _ _ | .accepted _ _ | .failed none => []
  | .cleared held | .storing held _ | .stored held _ | .failed (some held) => held.told
  | .handedOver held => held.told ++ [notCachedLine]
  | .cached held entry => held.told ++ [cachedLine args.label held.minted entry.metadata]

variable {jwt : Jwt EncodingKey} {crypto : Crypto Key Cipher} {s s' : Stage T args}

omit [DateTimeUtc T] in
theorem Aside.unmarked {request : Call T} (h : Aside request) (reply : Reply T request) :
    effectOf ⟨request, reply⟩ = none ∧ printedLine ⟨request, reply⟩ = none := by
  cases request with
  | now | randomBytes | log => exact ⟨rfl, rfl⟩
  | enter callee | leave callee ok =>
    cases callee with
    | vaultPut entry => exact h.elim
    | _ => exact ⟨rfl, rfl⟩
  | _ => exact h.elim

omit [DateTimeUtc T] in
theorem unmarked_of_asksVault {request : Call T} (h : AsksVault request) (reply : Reply T request) :
    effectOf ⟨request, reply⟩ = none ∧ printedLine ⟨request, reply⟩ = none := by
  cases request with
  | readStdin | accessToken | ingestionKey | deposit | enter | println => exact h.elim
  | _ => exact ⟨rfl, rfl⟩

section Height

omit [DateTimeUtc T]

theorem height_afterRead (reply : Except Text Text) :
    0 < (afterRead reply : Stage T args).height := by
  unfold afterRead
  split
  · exact Nat.zero_lt_succ _
  · split <;> exact Nat.zero_lt_succ _

theorem height_afterMint (reply : HttpReply (AccessTokenBody T)) :
    1 < (afterMint reply : Stage T args).height := by
  unfold afterMint Stage.ofMinted
  split
  · simp [Stage.height]
  · split <;> simp [Stage.height]

theorem height_afterKey (departing : Departing T args) (url : Text)
    (reply : HttpReply IngestionKeyBody) : 2 < (afterKey departing url reply).height := by
  unfold afterKey
  split <;> simp [Stage.height]

theorem height_afterDeposit (departing : Departing T args) (url : Text)
    (reply : HttpReply (DepositReceipt T)) : 3 < (afterDeposit departing url reply).height := by
  unfold afterDeposit
  split <;> simp [Stage.height]

theorem height_afterPut (held : Cleared T args) (entry : VaultEntry T) (ok : Bool) :
    6 < (afterPut held entry ok).height := by
  unfold afterPut
  split <;> simp [Stage.height]

theorem climbs_of_effect {event : Event (Call T) (Reply T)} {effect : Effect}
    (heffect : effectOf event = some effect) (hleft : s.height = effect.rank)
    (hup : effect.rank < s'.height) : s.height ≤ s'.height ∧
      ∀ found ∈ effectOf event, s.height ≤ found.rank ∧ found.rank < s'.height := by
  refine ⟨hleft ▸ hup.le, fun found hfound => ?_⟩
  rw [heffect] at hfound
  obtain rfl := Option.some.inj hfound
  exact ⟨hleft.le, hup⟩

theorem climbs_of_none {event : Event (Call T) (Reply T)} (heffect : effectOf event = none)
    (hup : s.height ≤ s'.height) : s.height ≤ s'.height ∧
      ∀ found ∈ effectOf event, s.height ≤ found.rank ∧ found.rank < s'.height := by
  refine ⟨hup, fun found hfound => ?_⟩
  rw [heffect] at hfound
  cases hfound

end Height

/-- Each step goes up, and an effect is at the height of the stage it leaves. -/
theorem MintStep.climbs {event : Event (Call T) (Reply T)}
    (h : MintStep jwt crypto args s event s') : s.height ≤ s'.height ∧
      ∀ effect ∈ effectOf event, s.height ≤ effect.rank ∧ effect.rank < s'.height := by
  cases h with
  | aside request haside reply => exact climbs_of_none (Aside.unmarked haside reply).1 le_rfl
  | work hwork reply =>
    exact climbs_of_none (unmarked_of_asksVault (asksVault_of_spawning hwork) reply).1 le_rfl
  | read reply => exact climbs_of_effect rfl rfl (height_afterRead reply)
  | mint hjwt reply => exact climbs_of_effect rfl rfl (height_afterMint reply)
  | fetchKey hferryman reply => exact climbs_of_effect rfl rfl (height_afterKey _ _ reply)
  | deposit hferryman hkey hsealed reply =>
    exact climbs_of_effect rfl rfl (height_afterDeposit _ _ reply)
  | put hlocal hmetadata => exact climbs_of_effect rfl rfl (by simp [Stage.height, Effect.rank])
  | leave ok => exact climbs_of_none rfl (height_afterPut _ _ ok).le
  | report | handOver | tell => exact climbs_of_none rfl (by simp [Stage.height])

/-- Each step adds the line it prints to what has been printed. -/
theorem MintStep.tells {event : Event (Call T) (Reply T)}
    (h : MintStep jwt crypto args s event s') :
    s'.told = s.told ++ (printedLine event).toList := by
  cases h with
  | aside request haside reply =>
    rw [(Aside.unmarked haside reply).2, Option.toList_none, List.append_nil]
  | work hwork reply =>
    rw [(unmarked_of_asksVault (asksVault_of_spawning hwork) reply).2, Option.toList_none,
      List.append_nil]
  | read reply =>
    unfold afterRead
    split
    · rfl
    · split <;> rfl
  | mint hjwt reply =>
    unfold afterMint Stage.ofMinted
    split
    · rfl
    · split <;> rfl
  | fetchKey hferryman reply =>
    unfold afterKey
    split <;> rfl
  | deposit hferryman hkey hsealed reply =>
    unfold afterDeposit
    split <;> rfl
  | leave ok => cases ok <;> exact (List.append_nil _).symm
  | put hlocal hmetadata => exact (List.append_nil _).symm
  | report | handOver | tell => rfl

theorem effects_sublist {trace : Trace T} (h : Follows (MintStep jwt crypto args) s trace s') :
    (effects trace).Sublist courseOfEffects := by
  let before (effect later : Effect) : Prop := effect.rank < later.rank
  have hantisymm : Std.Antisymm before := ⟨fun _ _ hlt hgt => (lt_asymm hlt hgt).elim⟩
  have hsorted : (effects trace).Pairwise before :=
    (h.climbs fun _ _ _ hstep => MintStep.climbs hstep).1
  have hcourse : courseOfEffects.Pairwise before := by decide
  have hmem (effect : Effect) : effect ∈ courseOfEffects := by cases effect <;> decide
  have hnodup : (effects trace).Nodup := by
    apply hsorted.imp
    rintro effect _ hlt rfl
    exact lt_irrefl _ hlt
  exact List.sublist_of_subperm_of_pairwise
    (List.subperm_of_subset hnodup fun effect _ => hmem effect) hsorted hcourse

/-- How a part of the command may end: with a value, where the command can go on from, or
before the last stage. -/
def Reaches {ε α : Type} (next : Stage T args → α → Prop) : Stage T args → Except ε α → Prop
  | s, .ok a => next s a
  | s, .error _ => ¬ s.Done

abbrev Leads {ε α : Type} (jwt : Jwt EncodingKey) (crypto : Crypto Key Cipher) (s : Stage T args)
    (body : Action T ε α) (next : Stage T args → α → Prop) : Prop :=
  body.run.Refines (MintStep jwt crypto args) (Reaches next) s

section Parts

variable {ε α β : Type}

theorem Leads.bind {body : Action T ε α} {rest : α → Action T ε β}
    {next : Stage T args → β → Prop}
    (h : Leads jwt crypto s body fun s a => Leads jwt crypto s (rest a) next) :
    Leads jwt crypto s (body >>= rest) next := by
  rw [Leads, Program.refines_tryBind]
  refine h.mono fun s outcome hreached => ?_
  cases outcome with
  | ok a => exact hreached
  | error e => exact hreached

theorem leads_aside (request : Call T) {rest : Reply T request → Action T ε β}
    {next : Stage T args → β → Prop} (hrequest : Aside request)
    (h : ∀ reply, Leads jwt crypto s (rest reply) next) :
    Leads jwt crypto s (call request >>= rest) next := by
  rw [Leads, run_call_bind, Program.refines_ask]
  exact fun reply => ⟨s, .aside request hrequest reply, h reply⟩

theorem leads_traced {callee : Callee T} {body : Action T ε α} {f : ε → CliError}
    {next : Stage T args → α → Prop} (henter : Aside (.enter callee))
    (hleave : ∀ ok, Aside (.leave callee ok)) (h : Leads jwt crypto s body next) :
    Leads jwt crypto s (traced callee (body.adapt f)) next := by
  rw [Leads, refines_traced]
  refine ⟨s, .aside _ henter (), ?_⟩
  rw [refines_adapt]
  refine h.mono fun s outcome hreached => ⟨s, .aside _ (hleave _) (), ?_⟩
  cases outcome with
  | ok a => exact hreached
  | error e => exact hreached

end Parts

theorem leads_readAppKey {next : Stage T args → Text → Prop}
    (hnext : ∀ privateKeyPem, next (.handed privateKeyPem) privateKeyPem) :
    Leads jwt crypto .start readAppKey next := by
  unfold readAppKey
  rw [Leads, run_call_bind, Program.refines_ask]
  refine fun read => ⟨_, .read read, ?_⟩
  rw [refines_attempt_bind]
  cases read with
  | error cause => exact id
  | ok privateKeyPem =>
    simp only [Except.mapError, Program.Proceeds, afterRead]
    split
    · exact id
    · exact hnext privateKeyPem

theorem leads_mintInstallationToken {privateKeyPem : Text}
    {next : Stage T args → MintedToken T → Prop}
    (hnext : ∀ minted, next (.ofMinted minted) minted) :
    Leads jwt crypto (.handed privateKeyPem)
      (mintInstallationToken jwt (args.app privateKeyPem) args.grant) next := by
  unfold mintInstallationToken
  refine leads_aside .now trivial fun now => ?_
  rw [Leads, refines_attempt_bind]
  cases hjwt : mintJwt jwt (args.app privateKeyPem) now with
  | error error => exact id
  | ok bearer =>
    simp only [Program.Proceeds]
    rw [run_call_bind, Program.refines_ask]
    refine fun reply => ⟨_, .mint hjwt reply, ?_⟩
    rw [run_attempt, Program.refines_done, afterMint]
    cases readAccessToken args.grant reply with
    | error error => exact id
    | ok minted => exact hnext minted

section Deposit

variable {departing : Departing T args} {ingestionKeyHex baseUrl project token : Text}

theorem leads_fetchIngestionKey {next : Stage T args → Text → Prop}
    (hferryman : args.ferryman = some (baseUrl, project, token))
    (hnext : ∀ ingestionKeyHex, next (.keyed departing ingestionKeyHex) ingestionKeyHex) :
    Leads jwt crypto (.minted departing) (fetchIngestionKey baseUrl project token) next := by
  unfold fetchIngestionKey
  rw [Leads, run_call_bind, Program.refines_ask]
  refine fun reply => ⟨_, .fetchKey hferryman reply, ?_⟩
  rw [run_attempt, Program.refines_done, afterKey]
  cases readIngestionKey (ingestionKeyUrl baseUrl project) reply with
  | error error => exact id
  | ok ingestionKeyHex => exact hnext ingestionKeyHex

theorem leads_sealForIngestion {value : Text} {aad : Bytes}
    {next : Stage T args → SealedSecret → Prop} (hs : ¬ s.Done)
    (hnext : ∀ recipientPublic ephemeral nonce sealedSecret,
      hexDecode32 crypto ingestionKeyHex = .ok recipientPublic →
      sealWith crypto recipientPublic ephemeral nonce aad value = .ok sealedSecret →
      next s sealedSecret) :
    Leads jwt crypto s (sealForIngestion crypto ingestionKeyHex aad value) next := by
  unfold sealForIngestion
  by_cases hempty : value = []
  · rw [if_pos hempty]
    exact hs
  · rw [if_neg hempty, Leads, refines_attempt_bind]
    cases hpublic : hexDecode32 crypto ingestionKeyHex with
    | error error => exact hs
    | ok recipientPublic =>
      refine leads_aside (.randomBytes 32) trivial fun ephemeral => ?_
      rw [Leads, refines_attempt_bind]
      cases hcipher : cipherFor crypto ephemeral (crypto.publicKey ephemeral) recipientPublic with
      | error error => exact hs
      | ok cipher =>
        refine leads_aside (.randomBytes 24) trivial fun nonce => ?_
        cases hencrypt : crypto.encrypt cipher nonce aad (asBytes value) with
        | none => exact hs
        | some ciphertext =>
          apply hnext recipientPublic ephemeral nonce _ hpublic
          simp [sealWith, hcipher, hencrypt]

theorem leads_deposit {recipientPublic ephemeral : Octets 32} {nonce : Octets 24}
    {idBytes : Octets 8} {sealedSecret : SealedSecret} {acquiredAt now : T}
    {next : Stage T args → DepositReceipt T → Prop}
    (hferryman : args.ferryman = some (baseUrl, project, token))
    (hkey : hexDecode32 crypto ingestionKeyHex = .ok recipientPublic)
    (hsealed : sealWith crypto recipientPublic ephemeral nonce (depositAad project)
      departing.minted.token = .ok sealedSecret)
    (hnext : ∀ receipt, next (.accepted departing receipt) receipt) :
    Leads jwt crypto (.keyed departing ingestionKeyHex)
      (deposit baseUrl project token (depositId crypto now idBytes) sealedSecret
        (args.depositMetadata departing.minted acquiredAt)) next := by
  unfold deposit
  rw [Leads, run_call_bind, Program.refines_ask]
  refine fun reply => ⟨_, .deposit hferryman hkey hsealed reply, ?_⟩
  rw [run_attempt, Program.refines_done, afterDeposit]
  cases readReceipt (depositUrl baseUrl project) reply with
  | error error => exact id
  | ok receipt => exact hnext receipt

theorem leads_depositWithFerryman {next : Stage T args → Unit → Prop}
    (hnext : ∀ receipt, next (.cleared (departing.cleared receipt)) ()) :
    Leads jwt crypto (.minted departing) (depositWithFerryman crypto args departing.minted)
      next := by
  unfold depositWithFerryman
  cases hferryman : args.ferryman with
  | none => exact id
  | some flags =>
    obtain ⟨baseUrl, project, token⟩ := flags
    refine leads_aside .now trivial fun acquiredAt => ?_
    refine Leads.bind (leads_traced trivial (fun _ => trivial) ?_)
    refine leads_fetchIngestionKey hferryman fun ingestionKeyHex => ?_
    refine Leads.bind (leads_traced trivial (fun _ => trivial) ?_)
    refine leads_sealForIngestion id fun _ _ _ sealedSecret hkey hsealed => ?_
    refine leads_aside (.randomBytes 8) trivial fun idBytes => ?_
    refine leads_aside .now trivial fun now => ?_
    refine Leads.bind (leads_traced trivial (fun _ => trivial) ?_)
    refine leads_deposit hferryman hkey hsealed fun receipt => ?_
    refine leads_aside (.log _) trivial fun _ => ?_
    rw [Leads, run_call, Program.refines_ask]
    exact fun _ => ⟨_, .report, hnext receipt⟩

theorem leads_leaveMachine {minted : MintedToken T} {next : Stage T args → Unit → Prop}
    (hnext : ∀ held : Cleared T args, held.minted = minted → next (.cleared held) ()) :
    Leads jwt crypto (.ofMinted minted) (leaveMachine crypto args minted) next := by
  unfold leaveMachine Stage.ofMinted
  by_cases hneeds : args.needsFerrymanDeposit minted = true
  · rw [dif_pos hneeds, if_pos hneeds]
    exact leads_depositWithFerryman fun receipt => hnext _ rfl
  · rw [dif_neg hneeds, if_neg hneeds]
    exact hnext _ rfl

end Deposit

section Local

variable {held : Cleared T args}

theorem leads_cacheLocally (hlocal : args.forRecipient = false) :
    Leads jwt crypto (.cleared held) (cacheLocally args held.minted) fun s _ => s.Done := by
  unfold cacheLocally
  refine leads_aside .now trivial fun acquiredAt => ?_
  rw [Leads, refines_attempt_bind]
  cases hmetadata : args.newMetadata held.minted acquiredAt with
  | error error => exact id
  | ok metadata =>
    apply Leads.bind
    rw [Leads, refines_traced]
    refine ⟨_, .put hlocal hmetadata, ?_⟩
    rw [refines_adapt]
    refine (issues_put_args _ _).refines (fun event hevent => .work hevent event.2)
      fun outcome => ?_
    refine ⟨_, .leave _, ?_⟩
    cases outcome with
    | error error => exact id
    | ok _ =>
      simp only [Except.mapError, Reaches]
      rw [Leads, run_call, Program.refines_ask]
      exact fun _ => ⟨_, .tell, hlocal⟩

theorem leads_stayLocal :
    Leads jwt crypto (.cleared held) (stayLocal args held.minted) fun s _ => s.Done := by
  unfold stayLocal
  cases hforeign : args.forRecipient with
  | false =>
    rw [if_neg (by simp)]
    exact leads_cacheLocally hforeign
  | true =>
    rw [if_pos rfl, Leads, run_call, Program.refines_ask]
    exact fun _ => ⟨_, .handOver hforeign, hforeign⟩

end Local

theorem leads_run :
    Leads jwt crypto (.start : Stage T args) (run jwt crypto args) fun s _ => s.Done := by
  unfold run
  apply Leads.bind
  refine leads_readAppKey fun privateKeyPem => ?_
  refine Leads.bind (leads_traced trivial (fun _ => trivial) ?_)
  refine leads_mintInstallationToken fun minted => ?_
  refine leads_aside (.log _) trivial fun _ => ?_
  apply Leads.bind
  refine leads_leaveMachine fun held hminted => ?_
  rw [← hminted]
  exact leads_stayLocal

/-- A run as the machine sees it. -/
structure Course (jwt : Jwt EncodingKey) (crypto : Crypto Key Cipher) (args : MintGithub)
    (trace : Trace T) (value : Option (Except CliError Unit)) (last : Stage T args) : Prop where
  follows : Follows (MintStep jwt crypto args) .start trace last
  effects : (effects trace).Sublist courseOfEffects
  /-- At any time the command has printed what the stage says. -/
  printed : ∀ before after, trace = before ++ after → ∃ between : Stage T args,
    Follows (MintStep jwt crypto args) .start before between ∧
      Follows (MintStep jwt crypto args) between after last ∧ printedLines before = between.told
  done : ∀ outcome, value = some outcome → (outcome = .ok () ↔ last.Done)

theorem run_takes_course {trace : Trace T} {value : Option (Except CliError Unit)}
    (h : Run (run jwt crypto args).run trace value) :
    ∃ last, Course jwt crypto args trace value last := by
  obtain ⟨last, hfollows, hlast⟩ := h.refines leads_run
  refine ⟨last, hfollows, effects_sublist hfollows, ?_, ?_⟩
  · rintro before after rfl
    obtain ⟨between, hbefore, hafter⟩ := follows_append.1 hfollows
    exact ⟨between, hbefore, hafter, (hbefore.tells fun _ _ _ hstep => MintStep.tells hstep).symm⟩
  · intro outcome houtcome
    have hreached := hlast outcome houtcome
    cases outcome with
    | ok _ => exact iff_of_true rfl hreached
    | error e => exact iff_of_false (fun hok => by cases hok) hreached

theorem run_takes_course_sample :
    ∃ last, Course sampleJwt symbolicCrypto (sampleArgs secretsRead)
      (samplePlay secretsRead "ghs_a".toList).1 (some (.ok ())) last :=
  run_takes_course (Program.run_play samplePlay_succeeds)

end Custodly.Cli.MintGithub
