import Custodly.Core.Contract
import Custodly.Github.Grant
import Custodly.Library.History
import Custodly.Library.Lockstep
import Custodly.Library.Simulation
import Mathlib.Data.Vector.Basic

/-! What the crates ask of the machine and the network: standard input, the clock, random
bytes, two HTTP services, the OS keystore and a `keepassxc-cli` child process.  Nothing is
fixed about the replies beyond their types. -/
namespace Custodly.Host
open Library Library.Strings Library.Interaction Custodly.Core Github

abbrev Bytes := List UInt8

abbrev Octets (n : Nat) := List.Vector UInt8 n

/-- A path of the operating system need not be UTF-8. -/
inductive PathBuf where
  | utf8 (text : Text)
  | other (bytes : Bytes)
  deriving DecidableEq, Repr

def PathBuf.toStr : PathBuf → Option Text
  | .utf8 text => some text
  | .other _ => none

/-- An answer with its status, its body as text, and its body as JSON of the type the
caller reads. -/
structure HttpResponse (Body : Type) where
  status : Nat
  text : Except Text Text
  json : Except Text Body

def HttpResponse.isSuccess {Body : Type} (response : HttpResponse Body) : Bool :=
  200 ≤ response.status && response.status < 300

def HttpResponse.textOrDefault {Body : Type} (response : HttpResponse Body) : Text :=
  response.text.toOption.getD []

/-- No answer at all is a transport error. -/
abbrev HttpReply (Body : Type) := Except Text (HttpResponse Body)

structure AccessTokenRequest where
  url : Text
  bearer : Text
  headers : List (Text × Text)
  repositoryIds : Option (List Nat)
  permissions : Permissions

/-- What GitHub reports of a token; the crate reads the first three fields. -/
structure AccessTokenBody (T : Type) where
  token : Text
  expiresAt : T
  permissions : Option Permissions
  repositories : List Nat

structure IngestionKeyRequest where
  url : Text
  bearer : Text

structure IngestionKeyBody where
  publicKeyHex : Text
  contractVersion : Text

structure DepositRequest (T : Type) where
  url : Text
  bearer : Text
  depositId : Text
  sealedSecret : SealedSecret
  metadata : DepositMetadata T

inductive KeyringError where
  | noEntry
  | other (cause : Text)
  deriving DecidableEq, Inhabited, Repr

structure ProcessOutput where
  success : Bool
  stdout : Text
  stderr : Text
  deriving DecidableEq, Repr

structure LogRecord where
  message : Text
  fields : List (Text × Text)
  deriving DecidableEq, Repr

/-- The functions of the crates whose calls a trace names. -/
inductive Callee (T : Type) where
  | mintInstallationToken (grant : RequestedGrant)
  | fetchIngestionKey (baseUrl project : Text)
  | sealForIngestion (recipientPublicHex : Text) (aad : Bytes) (value : Text)
  | deposit (depositId : Text)
  | vaultPut (entry : VaultEntry T)

inductive Call (T : Type) where
  | readStdin
  | now
  | randomBytes (length : Nat)
  | randomIndex (bound : Nat)
  | accessToken (request : AccessTokenRequest)
  | ingestionKey (request : IngestionKeyRequest)
  | deposit (request : DepositRequest T)
  | keyringEntry (service name : Text)
  | getPassword (service name : Text)
  | setPassword (service name password : Text)
  | exists (path : PathBuf)
  | spawn (path : PathBuf) (args : List Text)
  | writeLine (line : Text)
  | waitWithOutput
  | log (record : LogRecord)
  | println (line : Text)
  /-- A panic. -/
  | abort (message : Text)
  /-- Marks of a call and of its return in the trace; they do nothing. -/
  | enter (callee : Callee T)
  | leave (callee : Callee T) (ok : Bool)

@[reducible] def Reply (T : Type) : Call T → Type
  | .readStdin => Except Text Text
  | .now => T
  | .randomBytes length => Octets length
  | .randomIndex bound => Fin bound
  | .accessToken _ => HttpReply (AccessTokenBody T)
  | .ingestionKey _ => HttpReply IngestionKeyBody
  | .deposit _ => HttpReply (DepositReceipt T)
  | .keyringEntry _ _ => Except KeyringError Unit
  | .getPassword _ _ => Except KeyringError Text
  | .setPassword _ _ _ => Except KeyringError Unit
  | .exists _ => Bool
  | .spawn _ _ => Except Text Unit
  | .writeLine _ => Except Text Unit
  | .waitWithOutput => Except Text ProcessOutput
  | .log _ => Unit
  | .println _ => Unit
  | .abort _ => Empty
  | .enter _ => Unit
  | .leave _ _ => Unit

/-- Code that asks the host and may fail with an error. -/
abbrev Action (T ε α : Type) := ExceptT ε (Program (Call T) (Reply T)) α

variable {T ε ε' α β : Type}

def call (request : Call T) : Action T ε (Reply T request) :=
  ExceptT.lift (Program.request request)

def attempt (outcome : Except ε α) : Action T ε α := ExceptT.mk (pure outcome)

def abort (message : Text) : Action T ε α := do
  let never ← call (.abort message)
  nomatch never

/-- A function of the crates, with its marks around it. -/
def traced (callee : Callee T) (body : Action T ε α) : Action T ε α := ExceptT.mk do
  let _ ← @Program.request _ (Reply T) (.enter callee)
  let outcome ← body.run
  let _ ← @Program.request _ (Reply T) (.leave callee outcome.isOk)
  pure outcome

@[simp] theorem run_call (request : Call T) :
    (call request : Action T ε (no_index (Reply T request))).run =
      .ask request fun reply => .done (.ok reply) := rfl

-- the reply type of a given request unfolds, so `simp` is not to look for it by name
@[simp] theorem run_call_bind (request : Call T) (next : Reply T request → Action T ε β) :
    (@Bind.bind _ _ (no_index (Reply T request)) _ (call request) next : Action T ε β).run =
      .ask request fun reply => (next reply).run := rfl

@[simp] theorem run_attempt (outcome : Except ε α) :
    (attempt outcome : Action T ε α).run = .done outcome := rfl

@[simp] theorem run_attempt_ok_bind (a : α) (next : α → Action T ε β) :
    (attempt (.ok a) >>= next).run = (next a).run := rfl

@[simp] theorem run_attempt_error_bind (e : ε) (next : α → Action T ε β) :
    (attempt (.error e) >>= next).run = .done (.error e) := rfl

@[simp] theorem run_pure (a : α) : (pure a : Action T ε α).run = .done (.ok a) := rfl

@[simp] theorem run_throw (e : ε) : (throw e : Action T ε α).run = .done (.error e) := rfl

theorem run_abort (message : Text) :
    (abort message : Action T ε α).run = .ask (.abort message) fun never => nomatch never := by
  unfold abort
  rw [run_call_bind]
  congr 1

theorem run_traced (callee : Callee T) (body : Action T ε α) :
    (traced callee body).run = .ask (.enter callee) fun _ =>
      body.run >>= fun outcome => .ask (.leave callee outcome.isOk) fun _ => .done outcome := rfl

theorem run_adapt (f : ε → ε') (body : Action T ε α) :
    (body.adapt f).run = Except.mapError f <$> body.run := rfl

theorem issues_adapt {allowed : Call T → Prop} {f : ε → ε'} {body : Action T ε α}
    (h : body.run.Issues allowed) : (body.adapt f).run.Issues allowed := by
  rw [run_adapt, map_eq_pure_bind]
  exact h.bind fun _ => trivial

section Obeys

variable {rule : History (Call T) (Reply T) → Call T → Prop} {past : History (Call T) (Reply T)}

theorem obeys_attempt_bind {goal : History (Call T) (Reply T) → Except ε β → Prop}
    {outcome : Except ε α} {next : α → Action T ε β} :
    (attempt outcome >>= next).run.Obeys rule goal past ↔
      Program.GoesOn (fun past a => (next a).run.Obeys rule goal past) goal past outcome := by
  cases outcome <;> exact Iff.rfl

theorem obeys_adapt {goal : History (Call T) (Reply T) → Except ε' α → Prop} {f : ε → ε'}
    {body : Action T ε α} :
    (body.adapt f).run.Obeys rule goal past ↔
      body.run.Obeys rule (fun past outcome => goal past (outcome.mapError f)) past := by
  rw [run_adapt, Program.obeys_map]

theorem obeys_traced {goal : History (Call T) (Reply T) → Except ε α → Prop} {callee : Callee T}
    {body : Action T ε α} :
    (traced callee body).run.Obeys rule goal past ↔
      rule past (.enter callee) ∧
        body.run.Obeys rule (fun past outcome => rule past (.leave callee outcome.isOk) ∧
          goal (past ++ [⟨.leave callee outcome.isOk, ()⟩]) outcome)
          (past ++ [⟨.enter callee, ()⟩]) := by
  rw [run_traced, Program.obeys_ask]
  refine and_congr_right fun _ => ⟨fun h => ?_, fun h _ => ?_⟩
  · refine (Program.obeys_bind.1 (h ())).mono (fun _ _ h => h) fun past outcome h => ?_
    exact ⟨h.1, h.2 ()⟩
  · refine Program.obeys_bind.2 (h.mono (fun _ _ h => h) fun past outcome h => ?_)
    exact ⟨h.1, fun _ => h.2⟩

end Obeys

section Refines

variable {σ : Type} {step : Surroundings.Step (Call T) (Reply T) σ} {s : σ}

theorem refines_attempt_bind {goal : σ → Except ε β → Prop} {outcome : Except ε α}
    {next : α → Action T ε β} :
    (attempt outcome >>= next).run.Refines step goal s ↔
      Program.Proceeds (fun s a => (next a).run.Refines step goal s) goal s outcome := by
  cases outcome <;> exact Iff.rfl

theorem refines_adapt {goal : σ → Except ε' α → Prop} {f : ε → ε'} {body : Action T ε α} :
    (body.adapt f).run.Refines step goal s ↔
      body.run.Refines step (fun s outcome => goal s (outcome.mapError f)) s := by
  rw [run_adapt, Program.refines_map]

theorem refines_traced {goal : σ → Except ε α → Prop} {callee : Callee T}
    {body : Action T ε α} :
    (traced callee body).run.Refines step goal s ↔ ∃ entered, step s ⟨.enter callee, ()⟩ entered ∧
      body.run.Refines step (fun s outcome => ∃ left,
        step s ⟨.leave callee outcome.isOk, ()⟩ left ∧ goal left outcome) entered := by
  rw [run_traced, Program.refines_ask]
  constructor
  · intro h
    obtain ⟨entered, henter, hbody⟩ := h ()
    exact ⟨entered, henter, (Program.refines_bind.1 hbody).mono fun _ _ hleft => hleft ()⟩
  · rintro ⟨entered, henter, hbody⟩ _
    exact ⟨entered, henter, Program.refines_bind.2 (hbody.mono fun _ _ hleft _ => hleft)⟩

end Refines

section InStep

variable {observer : Lockstep.Observer (Call T) (Reply T)} {related : α → β → Prop}

theorem inStep_adapt {f : ε → ε'} {body : Action T ε α} {body' : Action T ε β}
    (h : Lockstep.InStep observer (Lockstep.SameOutcome related) body.run body'.run) :
    Lockstep.InStep observer (Lockstep.SameOutcome related) (body.adapt f).run
      (body'.adapt f).run := by
  rw [run_adapt, run_adapt, map_eq_pure_bind, map_eq_pure_bind]
  refine h.bind fun outcome outcome' houtcome => .done ?_
  cases outcome with
  | ok a =>
    cases outcome' with
    | ok b => exact houtcome
    | error e => exact houtcome.elim
  | error e =>
    cases outcome' with
    | ok b => exact houtcome.elim
    | error e' => exact congrArg f houtcome

theorem inStep_traced {callee callee' : Callee T} {body : Action T ε α} {body' : Action T ε β}
    (henter : observer.same (.enter callee) (.enter callee'))
    (hleave : ∀ ok, observer.same (.leave callee ok) (.leave callee' ok))
    (h : Lockstep.InStep observer (Lockstep.SameOutcome related) body.run body'.run) :
    Lockstep.InStep observer (Lockstep.SameOutcome related) (traced callee body).run
      (traced callee' body').run := by
  rw [run_traced, run_traced]
  refine .ask henter fun _ _ _ => h.bind fun outcome outcome' houtcome => ?_
  have hok : outcome.isOk = outcome'.isOk := by
    cases outcome <;> cases outcome' <;> first | rfl | exact houtcome.elim
  rw [hok]
  exact .ask (hleave _) fun _ _ _ => .done houtcome

end InStep

theorem exec_call_bind {σ : Type} {step : Surroundings.Step (Call T) (Reply T) σ} {s s' : σ}
    {request : Call T} [nonempty : Nonempty (Reply T request)]
    {next : Reply T request → Action T ε β} {value : Option (Except ε β)} :
    Surroundings.Exec step s (call request >>= next).run value s' ↔
      ∃ reply between, step s ⟨request, reply⟩ between ∧
        Surroundings.Exec step between (next reply).run value s' := by
  rw [run_call_bind, Surroundings.Exec.ask_iff]
  apply or_iff_left
  rintro ⟨empty, -⟩
  exact nonempty.elim empty.false

end Custodly.Host
