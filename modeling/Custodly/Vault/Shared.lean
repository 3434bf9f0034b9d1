import Custodly.Library.Processes
import Custodly.Library.WriteOnce
import Custodly.Vault.Children
import Custodly.Vault.RoundTrip
import Custodly.Vault.Rotation

/-! One database and one keystore for any number of processes at work at the same time
(`custodly-vault/src/vault.rs`).  Each has its own child, and a child does its work in one
step.  The entries are then a map in which a path is written once, whatever the order. -/
namespace Custodly.Vault
open Library Library.Strings Library.Interaction Library.Surroundings Library.Interleaving
open Library.Processes Library.WriteOnce Custodly.Core Host

variable {T Db ι : Type}

/-- What the processes share, and the child of each. -/
structure Machine (ι Db : Type) where
  db : Db
  keystore : Text → Option Text
  child : ι → Option (List Text × List Text)

def Machine.view (m : Machine ι Db) (i : ι) : World Db := ⟨m.db, m.keystore, m.child i⟩

/-- A step of one process, with the children of the others as they were. -/
def sharedStep (cli : KeepassCli Db) (i : ι) : Step (Call T) (Reply T) (Machine ι Db) :=
  fun m event m' => step cli (m.view i) event (m'.view i) ∧ ∀ j, j ≠ i → m'.child j = m.child j

def VaultWork (args stdin : List Text) : Prop :=
  (∃ db project, args = mkdirArgs db project) ∨
  (∃ notes db path password secret, args = addArgs notes db path ∧
    stdin = [password, secret, secret]) ∨
  ∃ db path, args = showArgs db path

/-- A child that is waited for does the work of the vault. -/
def Disciplined (past : History (Call T) (Reply T)) (request : Call T) : Prop :=
  request = .waitWithOutput → ∃ args stdin, childOf past = some (args, stdin) ∧ VaultWork args stdin

/-- What a process can have done to the entries, or seen of them, by waiting for its child.  An
`add` whose output is lost may have been done. -/
def Performs (past : History (Call T) (Reply T)) (event : Event (Call T) (Reply T)) :
    Op Text (Text × Text) → Prop
  | .recorded path (password, notes) => ∃ reply db vaultPassword secret,
      event = ⟨.waitWithOutput, reply⟩ ∧ (∀ output, reply = .ok output → output.success) ∧
      childOf past = some (addArgs notes db path, [vaultPassword, secret, secret]) ∧
      TakenFrom secret password
  | .looked path (password, notes) => ∃ output db stdin,
      event = ⟨.waitWithOutput, .ok output⟩ ∧ output.success ∧
      childOf past = some (showArgs db path, stdin) ∧ output.stdout = printed password notes

def Reports (past : History (Call T) (Reply T)) (event : Event (Call T) (Reply T)) : Prop :=
  ∃ output args stdin, event = ⟨.waitWithOutput, .ok output⟩ ∧ output.success ∧
    childOf past = some (args, stdin) ∧
    ((∃ notes db path, args = addArgs notes db path) ∨ ∃ db path, args = showArgs db path)

variable [DecidableEq ι]

/-- An interleaving as a log of the map: each operation where its child is waited for, and none
that was reported left out. -/
inductive Represents :
    Interleaved ι (Call T) (Reply T) → Log ι Text (Text × Text) → Prop
  | start : Represents [] []
  | pass {past log i request reply} (h : Represents past log)
      (hpass : ¬ Reports (own i past) ⟨request, reply⟩) :
      Represents (past ++ [⟨(i, request), reply⟩]) log
  | act {past log i request reply op} (h : Represents past log)
      (hop : Performs (own i past) ⟨request, reply⟩ op) :
      Represents (past ++ [⟨(i, request), reply⟩]) (log ++ [⟨(i, op), ()⟩])

omit [DecidableEq ι] in
theorem step_db {cli : KeepassCli Db} {w w' : World Db} {request : Call T}
    {reply : Reply T request} (hrequest : request ≠ .waitWithOutput)
    (h : step cli w ⟨request, reply⟩ w') : w'.db = w.db := by
  cases request with
  | waitWithOutput => exact (hrequest rfl).elim
  | spawn path args =>
    cases reply with
    | error cause => rw [show w' = _ from h]
    | ok _ => rw [show w' = _ from h]
  | writeLine line =>
    cases reply with
    | error cause => rw [show w' = _ from h]
    | ok _ => rw [show w' = _ from h]
  | getPassword service name =>
    rcases reply with (_ | cause) | found
    · rw [h.2]
    · rw [show w' = _ from h]
    · rw [h.2]
  | setPassword service name password =>
    cases reply with
    | error cause => rw [show w' = _ from h]
    | ok _ => rw [show w' = _ from h]
  | _ => rw [show w' = _ from h]

theorem addArgs_inj {notes notes' db db' path path' : Text}
    (h : addArgs notes db path = addArgs notes' db' path') : notes = notes' ∧ path = path' := by
  simp only [addArgs, List.cons.injEq, true_and, and_true] at h
  exact ⟨h.1, h.2.2⟩

theorem showArgs_inj {db db' path path' : Text} (h : showArgs db path = showArgs db' path') :
    path = path' := by
  simp only [showArgs, List.cons.injEq, true_and, and_true] at h
  exact h.2

theorem addArgs_ne_showArgs {notes db db' path path' : Text} :
    addArgs notes db path ≠ showArgs db' path' := fun h => by
  have := congrArg List.length h
  simp [addArgs, showArgs] at this

theorem not_reports_of_ne {past : History (Call T) (Reply T)} {request : Call T}
    {reply : Reply T request} (h : request ≠ .waitWithOutput) :
    ¬ Reports past ⟨request, reply⟩ := by
  rintro ⟨output, args, stdin, hevent, -⟩
  rw [Sigma.mk.injEq] at hevent
  exact h hevent.1

section Step

variable {cli : KeepassCli Db} {hasGroup : Db → Text → Prop} {past : History (Call T) (Reply T)}

def Moves (past : History (Call T) (Reply T)) (event : Event (Call T) (Reply T))
    (entries entries' : Text → Option (Text × Text)) : Prop :=
  (entries' = entries ∧ ¬ Reports past event) ∨
    ∃ op, Performs past event op ∧ op.Acts entries entries'

theorem moves_add (laws : Documented cli) (refusing : Refusing cli hasGroup) {w w' : World Db}
    {notes db path password secret : Text}
    (hchild : childOf past = some (addArgs notes db path, [password, secret, secret]))
    (hview : w.child = childOf past) {waited : Except Text ProcessOutput}
    (h : step (T := T) cli w ⟨.waitWithOutput, waited⟩ w') :
    Moves past ⟨.waitWithOutput, waited⟩ (cli.entryAt w.db) (cli.entryAt w'.db) := by
  rw [hchild] at hview
  obtain ⟨-, hworked, hdone⟩ := step_waitWithOutput hview h
  have hlost (hsame : cli.entryAt w'.db = cli.entryAt w.db)
      (hfailed : ∀ output, waited = .ok output → output.success = false) :
      Moves past ⟨.waitWithOutput, waited⟩ (cli.entryAt w.db) (cli.entryAt w'.db) := by
    refine .inl ⟨hsame, ?_⟩
    rintro ⟨output, args, stdin, hevent, hsuccess, -⟩
    rw [hfailed output (by simpa using hevent)] at hsuccess
    cases hsuccess
  cases hsuccess : (cli.exec w.db (addArgs notes db path) [password, secret, secret]).1.success with
  | false =>
    have hrefused := laws.add_refused _ _ _ _ _ hsuccess
    apply hlost
    · rcases hworked with hsame | hexec
      · rw [hsame]
      · rw [hexec, hrefused.1]
    · intro output houtput
      rw [← (hdone output houtput).1, hsuccess]
  | true =>
    obtain ⟨-, -, taken, htaken, hentries⟩ := laws.add_accepted _ _ _ _ _ _ hsuccess
    have hperforms (hok : ∀ output, waited = .ok output → output.success)
        (hexec : w'.db = (cli.exec w.db (addArgs notes db path) [password, secret, secret]).2) :
        Moves past ⟨.waitWithOutput, waited⟩ (cli.entryAt w.db) (cli.entryAt w'.db) := by
      refine .inr ⟨.recorded path (taken, notes),
        ⟨waited, db, password, secret, rfl, hok, hchild, htaken⟩, ?_, ?_⟩
      · cases hheld : cli.entryAt w.db path with
        | none => rfl
        | some held =>
          rw [refusing.add_taken _ _ _ _ _ (by rw [hheld]; rfl)] at hsuccess
          cases hsuccess
      · rw [hexec]
        exact hentries
    cases waited with
    | error cause =>
      rcases hworked with hsame | hexec
      · exact hlost (by rw [hsame]) fun _ hok => by cases hok
      · exact hperforms (fun _ hok => by cases hok) hexec
    | ok output =>
      obtain ⟨houtput, hexec⟩ := hdone output rfl
      apply hperforms _ hexec
      rintro _ ⟨⟩
      rw [← houtput, hsuccess]

theorem moves_show (laws : Documented cli) {w w' : World Db} {db path : Text} {stdin : List Text}
    (hchild : childOf past = some (showArgs db path, stdin)) (hview : w.child = childOf past)
    {waited : Except Text ProcessOutput} (h : step (T := T) cli w ⟨.waitWithOutput, waited⟩ w') :
    Moves past ⟨.waitWithOutput, waited⟩ (cli.entryAt w.db) (cli.entryAt w'.db) := by
  rw [hchild] at hview
  obtain ⟨-, hworked, hdone⟩ := step_waitWithOutput hview h
  have hsame : cli.entryAt w'.db = cli.entryAt w.db := by
    rcases hworked with hsame | hexec
    · rw [hsame]
    · rw [hexec, (laws.show_same _ _ _ _).1]
  cases waited with
  | error cause =>
    refine .inl ⟨hsame, ?_⟩
    rintro ⟨output, args, stdin, hevent, -⟩
    simp at hevent
  | ok output =>
    obtain ⟨houtput, -⟩ := hdone output rfl
    cases hsuccess : output.success with
    | false =>
      refine .inl ⟨hsame, ?_⟩
      rintro ⟨output', args, stdin, hevent, hsuccess', -⟩
      simp only [Sigma.mk.injEq, heq_eq_eq, Except.ok.injEq, true_and] at hevent
      rw [← hevent, hsuccess] at hsuccess'
      cases hsuccess'
    | true =>
      rw [← houtput] at hsuccess
      obtain ⟨password, notes, hentry, hstdout⟩ := laws.show_accepted _ _ _ _ hsuccess
      rw [houtput] at hstdout hsuccess
      exact .inr ⟨.looked path (password, notes),
        ⟨output, db, stdin, rfl, hsuccess, hchild, hstdout⟩, hentry, hsame⟩

theorem moves_of_step (laws : Documented cli) (refusing : Refusing cli hasGroup) {w w' : World Db}
    {request : Call T} {reply : Reply T request} (hdiscipline : Disciplined past request)
    (hview : w.child = childOf past) (h : step cli w ⟨request, reply⟩ w') :
    Moves past ⟨request, reply⟩ (cli.entryAt w.db) (cli.entryAt w'.db) := by
  by_cases hrequest : request = .waitWithOutput
  · subst hrequest
    obtain ⟨args, stdin, hchild, hwork⟩ := hdiscipline rfl
    rcases hwork with ⟨db, project, rfl⟩ | ⟨notes, db, path, password, secret, rfl, rfl⟩ |
      ⟨db, path, rfl⟩
    · obtain ⟨-, hworked, -⟩ := step_waitWithOutput (by rw [hview, hchild]) h
      refine .inl ⟨?_, ?_⟩
      · rcases hworked with hsame | hexec
        · rw [hsame]
        · rw [hexec, (laws.mkdir _ _ _ _).1]
      · rintro ⟨output, args, stdin', -, -, hchild', hargs⟩
        rw [hchild, Option.some.injEq, Prod.mk.injEq] at hchild'
        rw [← hchild'.1] at hargs
        rcases hargs with ⟨notes, db', path, hargs⟩ | ⟨db', path, hargs⟩
        · simpa [mkdirArgs, addArgs] using congrArg List.length hargs
        · simpa [mkdirArgs, showArgs] using congrArg List.length hargs
    · exact moves_add laws refusing hchild hview h
    · exact moves_show laws hchild hview h
  · refine .inl ⟨?_, not_reports_of_ne hrequest⟩
    rw [step_db hrequest h]

end Step

variable {α : Type} {cli : KeepassCli Db} {hasGroup : Db → Text → Prop}
  {rule : ι → History (Call T) (Reply T) → Call T → Prop}
  {goal : ι → History (Call T) (Reply T) → α → Prop}
  {c c' : Config ι (Call T) (Reply T) α (Machine ι Db)} {trace : Interleaved ι (Call T) (Reply T)}

/-- Whatever the order, the processes do to the entries what a log of the map says: every
interleaving refines a run of a map in which a path is written once. -/
theorem exists_log (laws : Documented cli) (refusing : Refusing cli hasGroup)
    (hdiscipline : ∀ i past request, rule i past request → Disciplined past request)
    (hobey : AllObey rule goal [] c) (hchildren : ∀ i, c.shared.child i = none)
    (h : Follows (interleaveBy (sharedStep cli)) c trace c') :
    ∃ log, Represents trace log ∧
      Follows register (cli.entryAt c.shared.db) log (cli.entryAt c'.shared.db) := by
  have hkept := (@invariant _ _ _ _ _ _ (sharedStep cli) rule goal (fun past m =>
    (∀ i, m.child i = childOf (own i past)) ∧ ∃ log, Represents past log ∧
      Follows register (cli.entryAt c.shared.db) log (cli.entryAt m.db)) ?_ _ _ _ _ hobey ?_ h).2
  · exact hkept.2
  · rintro past i request reply m m' hrule ⟨hstep, hothers⟩ ⟨hchild, log, hlog, hfollows⟩
    constructor
    · intro j
      rw [own_append]
      by_cases hj : i = j
      · rw [← hj, own_singleton_self, childOf_concat, ← hchild i]
        exact step_child hstep
      · rw [own_singleton_of_ne hj, List.append_nil, hothers j (Ne.symm hj)]
        exact hchild j
    · rcases moves_of_step laws refusing (hdiscipline i _ _ hrule) (hchild i) hstep with
        ⟨hsame, hpass⟩ | ⟨op, hop, hnext⟩
      · refine ⟨log, hlog.pass hpass, ?_⟩
        rw [show cli.entryAt m'.db = cli.entryAt m.db from hsame]
        exact hfollows
      · refine ⟨log ++ [⟨(i, op), ()⟩], hlog.act hop, follows_append.2 ⟨_, hfollows, ?_⟩⟩
        exact ⟨_, hnext, rfl⟩
  · exact ⟨hchildren, [], .start, rfl⟩

omit [DecidableEq ι] in
theorem worked_concat_iff {past : History (Call T) (Reply T)} {event : Event (Call T) (Reply T)}
    {args stdin : List Text} {output : ProcessOutput} :
    Worked (past ++ [event]) args stdin output ↔ Worked past args stdin output ∨
      event = ⟨.waitWithOutput, .ok output⟩ ∧ childOf past = some (args, stdin) := by
  constructor
  · rintro ⟨before, after, heq, hchild⟩
    rcases List.eq_nil_or_concat after with rfl | ⟨front, last, rfl⟩
    · obtain ⟨rfl, hevent⟩ := List.append_inj' heq rfl
      exact .inr ⟨(List.cons.inj hevent).1, hchild⟩
    · rw [List.concat_eq_append, ← List.cons_append, ← List.append_assoc] at heq
      exact .inl ⟨before, front, (List.append_inj' heq rfl).1, hchild⟩
  · rintro (h | ⟨rfl, hchild⟩)
    · exact h.append _
    · exact worked_concat hchild

variable {log : Log ι Text (Text × Text)} {i : ι}

theorem Represents.performed (h : Represents trace log) {op : Op Text (Text × Text)}
    (hmem : ⟨(i, op), ()⟩ ∈ log) :
    ∃ (before after : History (Call T) (Reply T)) (event : Event (Call T) (Reply T)),
      own i trace = before ++ event :: after ∧ Performs before event op := by
  have hlater {past : Interleaved ι (Call T) (Reply T)}
      (hpast : ∃ before after event, own i past = before ++ event :: after ∧
        Performs before event op) (added : Interleaved ι (Call T) (Reply T)) :
      ∃ before after event, own i (past ++ added) = before ++ event :: after ∧
        Performs before event op := by
    obtain ⟨before, after, event, hown, hop⟩ := hpast
    exact ⟨before, after ++ own i added, event, by rw [own_append, hown]; simp, hop⟩
  induction h with
  | start => cases hmem
  | pass _ _ ih => exact hlater (ih hmem) _
  | act _ hop ih =>
    rw [List.mem_append, List.mem_singleton] at hmem
    rcases hmem with hmem | hlast
    · exact hlater (ih hmem) _
    · cases hlast
      exact ⟨_, [], _, by rw [own_append, own_singleton_self], hop⟩

theorem Represents.mem_of_worked (h : Represents trace log) {args stdin : List Text}
    {output : ProcessOutput} (hworked : Worked (own i trace) args stdin output)
    (hsuccess : output.success)
    (hargs : (∃ notes db path, args = addArgs notes db path) ∨ ∃ db path, args = showArgs db path) :
    ∃ (past : History (Call T) (Reply T)) (op : Op Text (Text × Text)),
      childOf past = some (args, stdin) ∧
        Performs past ⟨.waitWithOutput, .ok output⟩ op ∧ ⟨(i, op), ()⟩ ∈ log := by
  induction h with
  | start =>
    obtain ⟨before, after, heq, -⟩ := hworked
    simp [own] at heq
  | @pass past log j request reply _ hpass ih =>
    rw [own_append] at hworked
    by_cases hj : j = i
    · subst hj
      rw [own_singleton_self, worked_concat_iff] at hworked
      rcases hworked with hworked | ⟨hevent, hchild⟩
      · exact ih hworked
      · exact (hpass ⟨output, args, stdin, hevent, hsuccess, hchild, hargs⟩).elim
    · rw [own_singleton_of_ne hj, List.append_nil] at hworked
      exact ih hworked
  | @act past log j request reply op _ hop ih =>
    have hearlier (hworked : Worked (own i past) args stdin output) :
        ∃ (past' : History (Call T) (Reply T)) (op' : Op Text (Text × Text)),
          childOf past' = some (args, stdin) ∧ Performs past' ⟨.waitWithOutput, .ok output⟩ op' ∧
            ⟨(i, op'), ()⟩ ∈ log ++ [⟨(j, op), ()⟩] := by
      obtain ⟨past', op', hchild, hop', hmem⟩ := ih hworked
      exact ⟨past', op', hchild, hop', List.mem_append_left _ hmem⟩
    rw [own_append] at hworked
    by_cases hj : j = i
    · subst hj
      rw [own_singleton_self, worked_concat_iff] at hworked
      rcases hworked with hworked | ⟨hevent, hchild⟩
      · exact hearlier hworked
      · rw [hevent] at hop
        exact ⟨_, op, hchild, hop, by simp⟩
    · rw [own_singleton_of_ne hj, List.append_nil] at hworked
      exact hearlier hworked

theorem Represents.recorded (h : Represents trace log) {notes db path password secret : Text}
    {output : ProcessOutput}
    (hworked : Worked (own i trace) (addArgs notes db path) [password, secret, secret] output)
    (hsuccess : output.success) :
    ∃ taken, TakenFrom secret taken ∧ ⟨(i, .recorded path (taken, notes)), ()⟩ ∈ log := by
  obtain ⟨past, op, hchild, hop, hmem⟩ :=
    h.mem_of_worked hworked hsuccess (.inl ⟨notes, db, path, rfl⟩)
  cases op with
  | recorded key value =>
    obtain ⟨_, _, _, _, -, -, hchild', htaken⟩ := hop
    simp only [hchild, Option.some.injEq, Prod.mk.injEq, List.cons.injEq] at hchild'
    obtain ⟨hnotes, hpath⟩ := addArgs_inj hchild'.1
    rw [← hchild'.2.2.1] at htaken
    rw [hnotes, hpath]
    exact ⟨value.1, htaken, hmem⟩
  | looked key value =>
    obtain ⟨_, _, _, -, -, hchild', -⟩ := hop
    rw [hchild, Option.some.injEq, Prod.mk.injEq] at hchild'
    exact (addArgs_ne_showArgs hchild'.1).elim

theorem Represents.looked (h : Represents trace log) {db path : Text} {stdin : List Text}
    {output : ProcessOutput} (hworked : Worked (own i trace) (showArgs db path) stdin output)
    (hsuccess : output.success) :
    ∃ password notes, output.stdout = printed password notes ∧
      ⟨(i, .looked path (password, notes)), ()⟩ ∈ log := by
  obtain ⟨past, op, hchild, hop, hmem⟩ := h.mem_of_worked hworked hsuccess (.inr ⟨db, path, rfl⟩)
  cases op with
  | recorded key value =>
    obtain ⟨_, _, _, _, -, -, hchild', -⟩ := hop
    rw [hchild, Option.some.injEq, Prod.mk.injEq] at hchild'
    exact (addArgs_ne_showArgs hchild'.1.symm).elim
  | looked key value =>
    obtain ⟨output', _, _, hevent, -, hchild', hstdout⟩ := hop
    rw [hchild, Option.some.injEq, Prod.mk.injEq] at hchild'
    simp only [Sigma.mk.injEq, heq_eq_eq, Except.ok.injEq, true_and] at hevent
    rw [hevent, showArgs_inj hchild'.1]
    exact ⟨value.1, value.2, hstdout, hmem⟩

end Custodly.Vault
