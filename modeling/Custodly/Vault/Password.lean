import Custodly.Host

/-! The vault's own unlock password (`custodly-vault/src/password.rs`): whatever the OS
keystore holds under the vault's name, made up and stored there on first use. -/
namespace Custodly.Vault
open Library Library.Strings Library.Interaction Host

variable {T : Type}

def service : Text := "custodly".toList

def generatedLen : Nat := 40

def passwordChars : List Char :=
  "ABCDEFGHIJKLMNOPQRSTUVWXYZabcdefghijklmnopqrstuvwxyz0123456789!@#$%^&*-_=+".toList

/-- One random index for each character. -/
def generateChars : Nat → Action T KeyringError Text
  | 0 => pure []
  | length + 1 => do
      let index ← call (.randomIndex passwordChars.length)
      let rest ← generateChars length
      pure (passwordChars.get index :: rest)

def generate : Action T KeyringError Text := generateChars generatedLen

def getOrCreate (vaultName : Text) : Action T KeyringError Text := do
  let opened ← call (.keyringEntry service vaultName)
  let _ ← attempt opened
  let found ← call (.getPassword service vaultName)
  match found with
  | .ok existing => pure existing
  | .error .noEntry => do
      let generated ← generate
      let stored ← call (.setPassword service vaultName generated)
      let _ ← attempt stored
      pure generated
  | .error (.other cause) => throw (.other cause)

def Generated (length : Nat) (password : Text) : Prop :=
  password.length = length ∧ ∀ c ∈ password, c ∈ passwordChars

instance (length : Nat) (password : Text) : Decidable (Generated length password) :=
  inferInstanceAs (Decidable (_ ∧ _))

theorem generated_zero {password : Text} : Generated 0 password ↔ password = [] := by
  constructor
  · exact fun h => List.length_eq_zero_iff.1 h.1
  · rintro rfl
    exact ⟨rfl, by simp⟩

theorem generated_cons {length : Nat} {c : Char} {rest : Text} :
    Generated (length + 1) (c :: rest) ↔ c ∈ passwordChars ∧ Generated length rest := by
  unfold Generated
  rw [List.length_cons, Nat.add_right_cancel_iff, List.forall_mem_cons]
  exact and_left_comm

def LeavesStore : Call T → Prop
  | .randomIndex _ | .keyringEntry _ _ | .getPassword _ _ | .setPassword _ _ _ => True
  | _ => False

def Draws : Call T → Prop
  | .randomIndex _ => True
  | _ => False

theorem issues_generateChars (length : Nat) :
    (generateChars length : Action T _ _).run.Issues Draws := by
  induction length with
  | zero => exact trivial
  | succ length ih =>
    unfold generateChars
    rw [run_call_bind]
    exact ⟨trivial, fun _ => ih.tryBind fun _ => trivial⟩

theorem issues_generate : (generate : Action T _ _).run.Issues Draws :=
  issues_generateChars generatedLen

theorem leavesStore_of_draws {request : Call T} (h : Draws request) : LeavesStore request := by
  cases request with
  | randomIndex => exact trivial
  | _ => exact h.elim

theorem issues_getOrCreate (name : Text) :
    (getOrCreate name : Action T _ _).run.Issues LeavesStore := by
  unfold getOrCreate
  rw [run_call_bind, Program.issues_ask]
  refine ⟨trivial, fun opened => ?_⟩
  cases opened with
  | error e => exact trivial
  | ok _ =>
    rw [run_attempt_ok_bind, run_call_bind, Program.issues_ask]
    refine ⟨trivial, fun found => ?_⟩
    rcases found with (_ | cause) | existing
    · refine (issues_generate.mono fun _ => leavesStore_of_draws).tryBind fun generated => ?_
      rw [run_call_bind]
      refine ⟨trivial, fun stored => ?_⟩
      cases stored <;> exact trivial
    · exact trivial
    · exact trivial

end Custodly.Vault
