import Custodly.Vault.Store

/-! The children of one process, from its own events alone (`custodly-vault/src/vault.rs`):
which arguments and lines a child has when it is waited for, and which children a put or a
get that succeeds has waited for.  Nothing is said of the database, so all of it holds with
other processes at work on it. -/
namespace Custodly.Vault
open Library Library.Strings Library.Interaction Custodly.Core Host

variable {T Db : Type}

def childAfter : Option (List Text × List Text) → Event (Call T) (Reply T) →
    Option (List Text × List Text)
  | _, ⟨.spawn _ args, .ok _⟩ => some (args, [])
  | child, ⟨.writeLine line, .ok _⟩ => child.map fun child => (child.1, child.2 ++ [line])
  | _, ⟨.waitWithOutput, _⟩ => none
  | child, _ => child

def childOf (past : History (Call T) (Reply T)) : Option (List Text × List Text) :=
  past.foldl childAfter none

theorem childOf_concat (past : History (Call T) (Reply T)) (event : Event (Call T) (Reply T)) :
    childOf (past ++ [event]) = childAfter (childOf past) event := by
  unfold childOf
  rw [List.foldl_append, List.foldl_cons, List.foldl_nil]

theorem step_child {cli : KeepassCli Db} {w w' : World Db} {event : Event (Call T) (Reply T)}
    (h : step cli w event w') : w'.child = childAfter w.child event := by
  obtain ⟨request, reply⟩ := event
  cases request with
  | spawn path args =>
    cases reply with
    | error cause => rw [show w' = _ from h]; rfl
    | ok _ => rw [show w' = _ from h]; rfl
  | writeLine line =>
    cases reply with
    | error cause => rw [show w' = _ from h]; rfl
    | ok _ => rw [show w' = _ from h]; rfl
  | waitWithOutput =>
    cases reply with
    | error cause =>
      obtain hlost | ⟨args, stdin, -, hdone⟩ := h
      · rw [hlost]; rfl
      · rw [hdone]; rfl
    | ok output =>
      obtain ⟨args, stdin, -, -, hdone⟩ := h
      rw [hdone]; rfl
  | getPassword service name =>
    rcases reply with (_ | cause) | found
    · rw [h.2]; rfl
    · rw [show w' = _ from h]; rfl
    · rw [h.2]; rfl
  | setPassword service name password =>
    cases reply with
    | error cause => rw [show w' = _ from h]; rfl
    | ok _ => rw [show w' = _ from h]; rfl
  | _ => rw [show w' = _ from h]; rfl

/-- A child with these arguments and lines was waited for, and answered with this output. -/
def Worked (past : History (Call T) (Reply T)) (args stdin : List Text) (output : ProcessOutput) :
    Prop :=
  ∃ before after, past = before ++ ⟨.waitWithOutput, .ok output⟩ :: after ∧
    childOf before = some (args, stdin)

theorem Worked.append {past : History (Call T) (Reply T)} {args stdin : List Text}
    {output : ProcessOutput} (h : Worked past args stdin output)
    (added : History (Call T) (Reply T)) : Worked (past ++ added) args stdin output := by
  obtain ⟨before, after, rfl, hchild⟩ := h
  exact ⟨before, after ++ added, by simp, hchild⟩

theorem worked_concat {past : History (Call T) (Reply T)} {args stdin : List Text}
    {output : ProcessOutput} (h : childOf past = some (args, stdin)) :
    Worked (past ++ [⟨.waitWithOutput, .ok output⟩]) args stdin output :=
  ⟨past, [], rfl, h⟩

def Asked (past after : History (Call T) (Reply T)) : Prop :=
  ∃ added, after = past ++ added ∧ ∀ event ∈ added, AsksVault event.1

section Asked

variable {past after : History (Call T) (Reply T)}

theorem Asked.refl (past : History (Call T) (Reply T)) : Asked past past :=
  ⟨[], by simp, by simp⟩

theorem Asked.append (h : Asked past after) {added : History (Call T) (Reply T)}
    (hadded : ∀ event ∈ added, AsksVault event.1) : Asked past (after ++ added) := by
  obtain ⟨first, rfl, hfirst⟩ := h
  exact ⟨first ++ added, by simp, List.forall_mem_append.2 ⟨hfirst, hadded⟩⟩

theorem Asked.concat (h : Asked past after) (request : Call T) (hrequest : AsksVault request)
    (reply : Reply T request) : Asked past (after ++ [⟨request, reply⟩]) :=
  h.append fun event hmem => by rwa [List.mem_singleton.1 hmem]

theorem Asked.trans {last : History (Call T) (Reply T)} (h : Asked past after)
    (h' : Asked after last) : Asked past last := by
  obtain ⟨added, rfl, hadded⟩ := h'
  exact h.append hadded

theorem Asked.subset (h : Asked past after) : past ⊆ after := by
  obtain ⟨added, rfl, -⟩ := h
  exact List.subset_append_left _ _

theorem childOf_append_leavesStore {added : History (Call T) (Reply T)}
    (hadded : ∀ event ∈ added, LeavesStore event.1) : childOf (past ++ added) = childOf past := by
  induction added generalizing past with
  | nil => rw [List.append_nil]
  | cons event rest ih =>
    rw [List.forall_mem_cons] at hadded
    rw [List.append_cons, ih hadded.2, childOf_concat]
    obtain ⟨request, reply⟩ := event
    cases request with
    | randomIndex | keyringEntry | getPassword | setPassword => rfl
    | _ => exact hadded.1.elim

end Asked

theorem Spawning.mono {allowed allowed' : List Text → Prop} {request : Call T}
    (h : Spawning allowed request) (weaker : ∀ args, allowed args → allowed' args) :
    Spawning allowed' request := by
  cases request with
  | spawn path args => exact weaker args h
  | _ => exact h

/-- A request of a command: with these arguments for a child, which has all its lines when it
is waited for. -/
def CommandRequest (args lines : List Text) (past : History (Call T) (Reply T)) (request : Call T) :
    Prop :=
  Spawning (· = args) request ∧
    (request = .waitWithOutput → ∃ password, childOf past = some (args, password :: lines))

theorem commandRequest_of_leavesStore {args lines : List Text}
    {past : History (Call T) (Reply T)} {request : Call T} (h : LeavesStore request) :
    CommandRequest args lines past request := by
  refine ⟨spawning_of_leavesStore h, ?_⟩
  rintro rfl
  exact h.elim

section Obeys

variable {rule : History (Call T) (Reply T) → Call T → Prop} {past : History (Call T) (Reply T)}

theorem obeys_writeLines {args lines rest written : List Text} (after : History (Call T) (Reply T))
    {goal : History (Call T) (Reply T) → Except VaultError Unit → Prop}
    (hasked : Asked past after) (hchild : childOf after = some (args, written))
    (hrule : ∀ after request, Asked past after → CommandRequest args lines after request →
      rule after request)
    (hfail : ∀ after error, Asked past after → goal after (.error error))
    (hok : ∀ after, Asked past after → childOf after = some (args, written ++ rest) →
      goal after (.ok ())) :
    (writeLines rest).run.Obeys rule goal after := by
  induction rest generalizing after written with
  | nil =>
    rw [List.append_nil] at hok
    exact hok after hasked hchild
  | cons line rest ih =>
    unfold writeLines
    rw [run_call_bind, Program.obeys_ask]
    refine ⟨hrule after _ hasked ⟨trivial, fun hwait => by cases hwait⟩, fun reply => ?_⟩
    rw [obeys_attempt_bind]
    cases reply with
    | error cause => exact hfail _ _ (hasked.concat (.writeLine line) trivial _)
    | ok _ =>
      simp only [Except.mapError, Program.GoesOn]
      apply @ih (written ++ [line]) _ (hasked.concat (.writeLine line) trivial _)
      · rw [childOf_concat, hchild]
        rfl
      · intro after hasked hchild
        rw [List.append_assoc, List.singleton_append] at hchild
        exact hok after hasked hchild

theorem obeys_run (vault : Vault) (args lines : List Text)
    {goal : History (Call T) (Reply T) → Except VaultError Text → Prop}
    (hrule : ∀ after request, Asked past after → CommandRequest args lines after request →
      rule after request)
    (hgoal : ∀ after outcome, Asked past after → (∀ out, outcome = .ok out → ∃ password output,
      Worked after args (password :: lines) output ∧ output.success ∧ output.stdout = out) →
      goal after outcome) :
    (vault.run args lines).run.Obeys rule goal past := by
  have hfail (after : History (Call T) (Reply T)) (error : VaultError) (hasked : Asked past after) :
      goal after (.error error) := hgoal after _ hasked fun _ hok => by cases hok
  unfold run
  rw [run_call_bind, Program.obeys_ask]
  refine ⟨hrule past _ (.refl past) ⟨trivial, fun hwait => by cases hwait⟩, fun found => ?_⟩
  have hfound : Asked past (past ++ [⟨.exists vault.cliPath, found⟩]) :=
    (Asked.refl past).concat (.exists vault.cliPath) trivial _
  cases found with
  | false =>
    simp only [if_true, run_throw, Program.obeys_done]
    exact hfail _ _ hfound
  | true =>
    simp only [Bool.true_eq_false, if_false]
    rw [run_call_bind, Program.obeys_ask]
    refine ⟨hrule _ _ hfound ⟨rfl, fun hwait => by cases hwait⟩, fun spawned => ?_⟩
    have hspawned := hfound.concat (.spawn vault.cliPath args) trivial spawned
    rw [obeys_attempt_bind]
    cases spawned with
    | error cause => exact hfail _ _ hspawned
    | ok _ =>
      change Program.Obeys _ _ (vault.password >>= _).run _
      rw [Program.obeys_tryBind]
      unfold password
      rw [obeys_adapt]
      apply (issues_getOrCreate vault.keyringName).obeys
      intro asked hleaves
      have hasked := hspawned.append fun event hmem =>
        asksVault_of_spawning (@spawning_of_leavesStore T (· = args) _ (hleaves event hmem))
      have hchild : childOf (past ++ [⟨.exists vault.cliPath, true⟩] ++
          [⟨.spawn vault.cliPath args, .ok ()⟩] ++ asked) = some (args, []) := by
        rw [childOf_append_leavesStore hleaves, childOf_concat]
        rfl
      refine ⟨fun request hrequest => hrule _ _ hasked (commandRequest_of_leavesStore hrequest),
        fun outcome => ?_⟩
      cases outcome with
      | error cause => exact hfail _ _ hasked
      | ok password =>
        change Program.Obeys _ _ (writeLines (password :: lines) >>= _).run _
        rw [Program.obeys_tryBind]
        apply obeys_writeLines _ hasked hchild hrule
        · exact hfail
        · intro after hafter hfed
          simp only [Program.GoesOn]
          rw [run_call_bind, Program.obeys_ask]
          refine ⟨hrule _ _ hafter ⟨trivial, fun _ => ⟨password, hfed⟩⟩, fun waited => ?_⟩
          rw [attempt_answer, Program.obeys_done]
          apply hgoal _ _ (hafter.concat .waitWithOutput trivial _)
          intro out hok
          obtain ⟨output, rfl, hsuccess, hstdout⟩ := answer_eq_ok_iff.1 hok
          exact ⟨password, output, worked_concat hfed, hsuccess, hstdout⟩

theorem obeys_dbStr {vault : Vault}
    {goal : History (Call T) (Reply T) → Except VaultError Text → Prop}
    (hrule : ∀ message, rule past (.abort message)) (hgoal : ∀ db, goal past (.ok db)) :
    vault.dbStr.run.Obeys rule goal past := by
  unfold dbStr
  split
  · exact hgoal _
  · rw [run_abort, Program.obeys_ask]
    exact ⟨hrule _, fun reply => reply.elim⟩

variable [DateTimeUtc T]

def PutWork (entry : VaultEntry T) (args stdin : List Text) : Prop :=
  (∃ db, args = mkdirArgs db entry.metadata.project) ∨
    ∃ db password, args = addArgs (encodeMetadata entry.metadata) db entry.groupPath ∧
      stdin = [password, entry.secret, entry.secret]

/-- A request to the vault, with arguments for this work; a child that is waited for does
it. -/
def VaultRequest (work : List Text → List Text → Prop) (past : History (Call T) (Reply T))
    (request : Call T) : Prop :=
  Spawning (fun args => ∃ stdin, work args stdin) request ∧ (request = .waitWithOutput →
    ∃ args stdin, childOf past = some (args, stdin) ∧ work args stdin)

omit [DateTimeUtc T] in
theorem CommandRequest.vault {work : List Text → List Text → Prop} {args lines : List Text}
    {past : History (Call T) (Reply T)} {request : Call T}
    (h : CommandRequest args lines past request)
    (hwork : ∀ password, work args (password :: lines)) : VaultRequest work past request := by
  refine ⟨h.1.mono ?_, fun hwait => ?_⟩
  · rintro _ rfl
    exact ⟨_, hwork []⟩
  · obtain ⟨password, hchild⟩ := h.2 hwait
    exact ⟨args, password :: lines, hchild, hwork password⟩

/-- A put that succeeds has waited for an `add` of its entry that succeeded. -/
theorem obeys_put (vault : Vault) (entry : VaultEntry T)
    {goal : History (Call T) (Reply T) → Except VaultError Unit → Prop}
    (hrule : ∀ after request, Asked past after → VaultRequest (PutWork entry) after request →
      rule after request)
    (hgoal : ∀ after outcome, Asked past after → (outcome = .ok () → ∃ db password output,
      Worked after (addArgs (encodeMetadata entry.metadata) db entry.groupPath)
        [password, entry.secret, entry.secret] output ∧ output.success) → goal after outcome) :
    (vault.put entry).run.Obeys rule goal past := by
  have habort (after : History (Call T) (Reply T)) (hasked : Asked past after) (message : Text) :
      rule after (.abort message) := hrule after _ hasked ⟨trivial, fun hwait => by cases hwait⟩
  unfold put ensureGroup
  rw [Program.obeys_tryBind, Program.obeys_tryBind]
  apply obeys_dbStr (habort past (.refl past))
  intro db
  change Program.Obeys _ _ (_ >>= _) past
  rw [Program.obeys_bind]
  apply obeys_run
  · intro after request hasked hrequest
    exact hrule after request hasked (hrequest.vault fun password => .inl ⟨db, rfl⟩)
  · rintro made outcome hmade -
    change Program.Obeys _ _ (vault.dbStr >>= _ : Action T VaultError Unit).run made
    rw [Program.obeys_tryBind]
    apply obeys_dbStr (habort made hmade)
    intro db
    simp only [Program.GoesOn]
    rw [Program.obeys_tryBind]
    apply obeys_run
    · intro after request hasked hrequest
      exact hrule after request (hmade.trans hasked)
        (hrequest.vault fun password => .inr ⟨db, password, rfl, rfl⟩)
    · intro after outcome hasked hworked
      cases outcome with
      | error error => exact hgoal after _ (hmade.trans hasked) fun hok => by cases hok
      | ok out =>
        apply hgoal after _ (hmade.trans hasked)
        intro _
        obtain ⟨password, output, hdone, hsuccess, -⟩ := hworked out rfl
        exact ⟨db, password, output, hdone, hsuccess⟩

theorem obeys_get (vault : Vault) (query : SecretQuery)
    {goal : History (Call T) (Reply T) → Except VaultError (VaultEntry T) → Prop}
    (hrule : ∀ after request, Asked past after →
      VaultRequest (fun args _ => ∃ db, args = showArgs db query.groupPath) after request →
      rule after request)
    (hgoal : ∀ after outcome, Asked past after → (∀ entry, outcome = .ok entry →
      ∃ db stdin output, Worked after (showArgs db query.groupPath) stdin output ∧
        output.success ∧ readEntry query output.stdout = .ok entry) → goal after outcome) :
    (vault.get query).run.Obeys rule goal past := by
  unfold get
  rw [Program.obeys_tryBind]
  apply obeys_dbStr fun message => hrule past _ (.refl past) ⟨trivial, fun hwait => by cases hwait⟩
  intro db
  simp only [Program.GoesOn]
  rw [Program.obeys_tryBind, obeys_adapt]
  apply obeys_run
  · intro after request hasked hrequest
    exact hrule after request hasked (hrequest.vault fun password => ⟨db, rfl⟩)
  · intro after outcome hasked hworked
    cases outcome with
    | error error => exact hgoal after _ hasked fun _ hok => by cases hok
    | ok out =>
      apply hgoal after _ hasked
      intro entry hread
      obtain ⟨password, output, hdone, hsuccess, hstdout⟩ := hworked out rfl
      exact ⟨db, _, output, hdone, hsuccess, by rw [hstdout, hread]⟩

end Obeys

end Custodly.Vault
