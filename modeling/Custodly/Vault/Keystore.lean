import Custodly.Library.Interleaving
import Custodly.Vault.Password

/-! Several processes that ask one OS keystore for vault passwords
(`custodly-vault/src/password.rs`).  Between the read that finds nothing and the write of
what was generated, another process may have written. -/
namespace Custodly.Vault
open Library Library.Strings Library.Interaction Library.Surroundings Library.Interleaving Host

variable {T ι : Type} {names : ι → Text} {initial : Text → Option Text}

/-- The keystore as a party of its own: which reply it gives, and what becomes of it. -/
def keystoreStep : Step (Call T) (Reply T) (Text → Option Text)
  | keystore, ⟨.getPassword _ name, .ok password⟩, keystore' =>
      keystore name = some password ∧ keystore' = keystore
  | keystore, ⟨.getPassword _ name, .error .noEntry⟩, keystore' =>
      keystore name = none ∧ keystore' = keystore
  | keystore, ⟨.setPassword _ name password, .ok _⟩, keystore' =>
      keystore' = Function.update keystore name (some password)
  | keystore, _, keystore' => keystore' = keystore

abbrev Clients (T ι : Type) :=
  Config ι (Call T) (Reply T) (Except KeyringError Text) (Text → Option Text)

def start (names : ι → Text) (initial : Text → Option Text) : Clients T ι where
  shared := initial
  process i := (getOrCreate (names i)).run

def wrote (name password : Text) : Event (Call T) (Reply T) :=
  ⟨.setPassword service name password, .ok ()⟩

def readSome (name password : Text) : Event (Call T) (Reply T) :=
  ⟨.getPassword service name, .ok password⟩

def readNone (name : Text) : Event (Call T) (Reply T) :=
  ⟨.getPassword service name, .error .noEntry⟩

def Unwritten (name : Text) (past : History (Call T) (Reply T)) : Prop :=
  ∀ password, wrote name password ∉ past

/-- Nothing is asked after a write, and only the own name is written, once nothing was found
under it. -/
def ReadsFirst (name : Text) (past : History (Call T) (Reply T)) (request : Call T) : Prop :=
  Unwritten name past ∧ ∀ service' name' password,
    request = .setPassword service' name' password →
      service' = service ∧ name' = name ∧ readNone name ∈ past

def ReturnsKept (name : Text) (past : History (Call T) (Reply T))
    (outcome : Except KeyringError Text) : Prop :=
  (∀ password, outcome = .ok password → readSome name password ∈ past ∨
    wrote name password ∈ past) ∧ ∀ password, wrote name password ∈ past → outcome = .ok password

theorem Unwritten.append {name : Text} {past added : History (Call T) (Reply T)}
    (h : Unwritten name past) (hadded : Unwritten name added) : Unwritten name (past ++ added) :=
  fun password hmem => (List.mem_append.1 hmem).elim (h password) (hadded password)

theorem Unwritten.returnsError {name : Text} {past : History (Call T) (Reply T)}
    (h : Unwritten name past) (cause : KeyringError) : ReturnsKept name past (.error cause) :=
  ⟨nofun, fun password hmem => (h password hmem).elim⟩

theorem obeys_provision {name : Text} {past : History (Call T) (Reply T)}
    (hunwritten : Unwritten name past) (hnone : readNone name ∈ past) :
    (do
      let generated ← generate
      let stored ← call (.setPassword service name generated)
      let _ ← attempt stored
      pure generated : Action T _ _).run.Obeys (ReadsFirst name) (ReturnsKept name) past := by
  rw [Program.obeys_tryBind]
  apply issues_generate.obeys
  intro drawn hdrawn
  have hpast : Unwritten name (past ++ drawn) :=
    hunwritten.append fun password hmem => hdrawn _ hmem
  constructor
  · intro request hrequest
    apply And.intro hpast
    rintro service' name' password rfl
    exact hrequest.elim
  · intro outcome
    cases outcome with
    | error cause => exact hpast.returnsError cause
    | ok generated =>
      simp only [Program.GoesOn]
      rw [run_call_bind, Program.obeys_ask]
      refine ⟨⟨hpast, ?_⟩, fun stored => ?_⟩
      · intro service' name' password hrequest
        rw [Call.setPassword.injEq] at hrequest
        exact ⟨hrequest.1.symm, hrequest.2.1.symm, List.mem_append_left _ hnone⟩
      · rw [obeys_attempt_bind]
        cases stored with
        | error cause => exact (hpast.append (by simp [Unwritten, wrote])).returnsError cause
        | ok _ =>
          constructor
          · intro password hpassword
            rw [Except.ok.injEq] at hpassword
            rw [hpassword]
            exact .inr (by simp [wrote])
          · intro password hmem
            rcases List.mem_append.1 hmem with hbefore | hlast
            · exact (hpast password hbefore).elim
            · simp only [wrote, List.mem_singleton, Sigma.mk.injEq, Call.setPassword.injEq,
                true_and] at hlast
              rw [hlast.1]

theorem obeys_getOrCreate (name : Text) :
    (getOrCreate name : Action T _ _).run.Obeys (ReadsFirst name) (ReturnsKept name) [] := by
  unfold getOrCreate
  rw [run_call_bind, Program.obeys_ask]
  refine ⟨⟨by simp [Unwritten], nofun⟩, fun opened => ?_⟩
  have hopened : Unwritten name ([] ++ [⟨.keyringEntry service name, opened⟩] :
      History (Call T) (Reply T)) := by simp [Unwritten, wrote]
  rw [obeys_attempt_bind]
  cases opened with
  | error cause => exact hopened.returnsError cause
  | ok _ =>
    simp only [Program.GoesOn]
    rw [run_call_bind, Program.obeys_ask]
    refine ⟨⟨hopened, nofun⟩, fun found => ?_⟩
    have hfound := hopened.append (show Unwritten name
      ([⟨.getPassword service name, found⟩] : History (Call T) (Reply T)) by
        simp [Unwritten, wrote])
    rcases found with (_ | cause) | existing
    · exact obeys_provision hfound (by simp [readNone])
    · exact hfound.returnsError (.other cause)
    · apply And.intro _ fun password hmem => (hfound password hmem).elim
      intro password hpassword
      rw [Except.ok.injEq] at hpassword
      rw [hpassword]
      exact .inl (by simp [readSome])

theorem keystoreStep_cases {keystore keystore' : Text → Option Text}
    {event : Event (Call T) (Reply T)} (h : keystoreStep keystore event keystore') :
    (keystore' = keystore ∧
      (∀ service' name, event = ⟨.getPassword service' name, .error .noEntry⟩ →
        keystore name = none) ∧
      (∀ service' name password, event = ⟨.getPassword service' name, .ok password⟩ →
        keystore name = some password) ∧
      ∀ service' name password, event ≠ ⟨.setPassword service' name password, .ok ()⟩) ∨
    ∃ service' name password, event = ⟨.setPassword service' name password, .ok ()⟩ ∧
      keystore' = Function.update keystore name (some password) := by
  obtain ⟨request, reply⟩ := event
  cases request with
  | getPassword service' name =>
    rcases reply with (_ | cause) | found
    · refine .inl ⟨h.2, ?_, nofun, nofun⟩
      rintro _ _ ⟨⟩
      exact h.1
    · exact .inl ⟨h, nofun, nofun, nofun⟩
    · refine .inl ⟨h.2, nofun, ?_, nofun⟩
      rintro _ _ _ ⟨⟩
      exact h.1
  | setPassword service' name password =>
    cases reply with
    | error cause => exact .inl ⟨h, nofun, nofun, nofun⟩
    | ok _ => exact .inr ⟨service', name, password, rfl, h⟩
  | _ => exact .inl ⟨h, nofun, nofun, nofun⟩

section Clients

variable [DecidableEq ι]

abbrev clientStep : Step (ι × Call T) (fun request => Reply T request.2) (Clients T ι) :=
  interleave keystoreStep

/-- A step overwrites no password by another. -/
def Unraced (c : Clients T ι) (event : Event (ι × Call T) fun request => Reply T request.2) :
    Prop :=
  ∀ i service' name password, event = ⟨(i, .setPassword service' name password), .ok ()⟩ →
    c.shared name = none ∨ c.shared name = some password

/-- One password for each name: the keystore holds what was returned, and names nobody asks
for are as they were. -/
structure Settled (names : ι → Text) (initial : Text → Option Text) (c : Clients T ι) : Prop where
  held : ∀ i password, c.process i = .done (.ok password) → c.shared (names i) = some password
  agree : ∀ i j password other, names i = names j → c.process i = .done (.ok password) →
    c.process j = .done (.ok other) → password = other
  untouched : ∀ name, (∀ i, names i ≠ name) → c.shared name = initial name

/-- What the events so far say of any state: each process obeys, what is stored was there or
was written by a process of that name, and a name under which nothing was found had nothing
at first. -/
structure Traced (names : ι → Text) (initial : Text → Option Text)
    (past : Interleaved ι (Call T) (Reply T)) (c : Clients T ι) : Prop where
  obeys : AllObey (fun i => ReadsFirst (names i)) (fun i => ReturnsKept (names i)) past c
  origin : ∀ name password, c.shared name = some password → initial name = some password ∨
    ∃ i, names i = name ∧ wrote name password ∈ own i past
  empty : ∀ i name, readNone name ∈ own i past → initial name = none
  lasting : ∀ name, c.shared name = none → initial name = none
  untouched : ∀ name, (∀ i, names i ≠ name) → c.shared name = initial name

variable {past : Interleaved ι (Call T) (Reply T)} {c c' : Clients T ι}
  {event : Event (ι × Call T) fun request => Reply T request.2}

theorem traced_start : Traced names initial [] (start names initial : Clients T ι) where
  obeys i := obeys_getOrCreate (names i)
  origin _ _ h := .inl h
  empty _ _ h := by cases h
  lasting _ h := h
  untouched _ _ := rfl

theorem Traced.next (h : Traced names initial past c) (hstep : clientStep c event c') :
    Traced names initial (past ++ [event]) c' := by
  have hissued := h.obeys.issued hstep
  have hobeys := h.obeys.next hstep
  have hearlier {name password : Text} (hstored : c.shared name = some password) :
      initial name = some password ∨
        ∃ i, names i = name ∧ wrote name password ∈ own i (past ++ [event]) := by
    refine (h.origin name password hstored).imp_right fun ⟨i, hi, hmem⟩ => ⟨i, hi, ?_⟩
    rw [own_append]
    exact List.mem_append_left _ hmem
  have hreads (hnow : ∀ i name, event = ⟨(i, .getPassword service name), .error .noEntry⟩ →
      initial name = none) (i : ι) (name : Text)
      (hread : readNone name ∈ own i (past ++ [event])) : initial name = none := by
    unfold readNone at hread
    rw [mem_own_iff, List.mem_append, List.mem_singleton] at hread
    rcases hread with hread | hread
    · exact h.empty i name (mem_own_iff.2 hread)
    · exact hnow i name hread.symm
  obtain ⟨rest, hask, hkeystore, hprocess⟩ := hstep
  obtain ⟨⟨j, request⟩, reply⟩ := event
  rcases keystoreStep_cases hkeystore with ⟨hsame, hnone, -, -⟩ | ⟨service', name', password', hset,
    hshared⟩
  · constructor
    · exact hobeys
    · intro name password hstored
      rw [hsame] at hstored
      exact hearlier hstored
    · apply hreads
      rintro i name ⟨⟩
      exact h.lasting name (hnone _ _ rfl)
    · intro name hnothing
      rw [hsame] at hnothing
      exact h.lasting name hnothing
    · intro name hothers
      rw [hsame]
      exact h.untouched name hothers
  · cases hset
    have hservice : service' = service := (hissued.2 _ _ _ rfl).1
    have hown : name' = names j := (hissued.2 _ _ _ rfl).2.1
    subst hservice hown
    constructor
    · exact hobeys
    · intro name password hstored
      rw [hshared] at hstored
      by_cases hname : name = names j
      · rw [hname, Function.update_self, Option.some.injEq] at hstored
        rw [hname, ← hstored]
        exact .inr ⟨j, rfl, by rw [own_append, own_singleton_self]; simp [wrote]⟩
      · rw [Function.update_of_ne hname] at hstored
        exact hearlier hstored
    · apply hreads
      rintro i name ⟨⟩
    · intro name hnothing
      rw [hshared] at hnothing
      by_cases hname : name = names j
      · simp [hname] at hnothing
      · rw [Function.update_of_ne hname] at hnothing
        exact h.lasting name hnothing
    · intro name hothers
      rw [hshared, Function.update_of_ne (Ne.symm (hothers j))]
      exact h.untouched name hothers

def Stays (past : Interleaved ι (Call T) (Reply T)) (c : Clients T ι) : Prop :=
  ∀ i name password, readSome name password ∈ own i past ∨ wrote name password ∈ own i past →
    c.shared name = some password

theorem Stays.next (h : Stays past c) (hunraced : Unraced c event) (hstep : clientStep c event c') :
    Stays (past ++ [event]) c' := by
  intro i name password hseen
  unfold readSome wrote at hseen
  simp only [mem_own_iff, List.mem_append, List.mem_singleton] at hseen
  obtain ⟨rest, -, hkeystore, -⟩ := hstep
  obtain ⟨⟨j, request⟩, reply⟩ := event
  have hbefore (hseen : ⟨(i, .getPassword service name), .ok password⟩ ∈ past ∨
      ⟨(i, .setPassword service name password), .ok ()⟩ ∈ past) : c.shared name = some password :=
    h i name password (hseen.imp mem_own_iff.2 mem_own_iff.2)
  rcases keystoreStep_cases hkeystore with ⟨hsame, -, hread, hnoWrite⟩ | ⟨service', name',
    password', hset, hshared⟩
  · rw [hsame]
    rcases hseen with (hseen | hnow) | (hseen | hnow)
    · exact hbefore (.inl hseen)
    · cases hnow
      exact hread _ _ _ rfl
    · exact hbefore (.inr hseen)
    · cases hnow
      exact (hnoWrite _ _ _ rfl).elim
  · cases hset
    rw [hshared]
    have hkept (hstored : c.shared name = some password) :
        Function.update c.shared name' (some password') name = some password := by
      by_cases hname : name = name'
      · rcases hunraced j service' name' password' rfl with hnone | hsame
        · rw [← hname, hstored] at hnone
          cases hnone
        · rw [← hname, hstored] at hsame
          rw [hname, Function.update_self, hsame]
      · rwa [Function.update_of_ne hname]
    rcases hseen with (hseen | hnow) | (hseen | hnow)
    · exact hkept (hbefore (.inl hseen))
    · cases hnow
    · exact hkept (hbefore (.inr hseen))
    · cases hnow
      rw [Function.update_self]

theorem Traced.settled (h : Traced names initial past c) (hstays : Stays past c) :
    Settled names initial c := by
  have hheld (i : ι) (password : Text) (hdone : c.process i = .done (.ok password)) :
      c.shared (names i) = some password := by
    have hreturned : (c.process i).Obeys _ _ (own i past) := h.obeys i
    rw [hdone] at hreturned
    exact hstays i (names i) password (hreturned.1 password rfl)
  constructor
  · exact hheld
  · intro i j password other hnames hi hj
    have hstored := hheld i password hi
    rw [hnames, hheld j other hj, Option.some.injEq] at hstored
    exact hstored.symm
  · exact h.untouched

/-- A write over another password leaves the process that wrote that one with a password
that is stored nowhere. -/
theorem Traced.unraced (h : Traced names initial past c) (hstep : clientStep c event c')
    (hsettled : Settled names initial c') : Unraced c event := by
  intro i service' name password hevent
  have hnext := h.next hstep
  have hissued := h.obeys.issued hstep
  obtain ⟨rest, -, hkeystore, -⟩ := hstep
  cases hevent
  have hservice : service' = service := (hissued.2 _ _ _ rfl).1
  have hname : name = names i := (hissued.2 _ _ _ rfl).2.1
  have hread : readNone (names i) ∈ own i past := (hissued.2 _ _ _ rfl).2.2
  cases hstored : c.shared name with
  | none => exact .inl rfl
  | some other =>
    apply Or.inr
    have hwritten : c'.shared name = some password := by
      rw [show c'.shared = _ from hkeystore, Function.update_self]
    rcases h.origin name other hstored with hinitial | ⟨j, hj, hwrote⟩
    · rw [hname, h.empty i (names i) hread] at hinitial
      cases hinitial
    · -- the process that wrote the other password has nothing left to ask, so it has returned it
      subst hj
      have hpast : wrote (names j) other ∈ own j (past ++
          [⟨(i, .setPassword service' (names j) password), .ok ()⟩]) := by
        rw [own_append]
        exact List.mem_append_left _ hwrote
      obtain ⟨value, hdone, hvalue⟩ := hnext.obeys.ended fun request hrequest =>
        hrequest.1 other hpast
      rw [hvalue.2 other hpast] at hdone
      have hheld := hsettled.held j other hdone
      rw [hwritten] at hheld
      exact hheld.symm

/-- An interleaving keeps one password for each name throughout just when no process stores a
password over one that another has stored since it looked. -/
theorem settled_iff_unraced (names : ι → Text) (initial : Text → Option Text)
    (trace : Interleaved ι (Call T) (Reply T)) (c' : Clients T ι) :
    EveryState clientStep (Settled names initial) (start names initial) trace c' ↔
      EveryStep clientStep Unraced (start names initial) trace c' := by
  have htraced {before after : Interleaved ι (Call T) (Reply T)} {c : Clients T ι}
      (htrace : trace = before ++ after)
      (hbefore : Follows clientStep (start names initial) before c)
      (hafter : Follows clientStep c after c') : Traced names initial before c :=
    everyStep_trivial.invariant (fun _ _ _ _ _ hstep hkept => hkept.next hstep) traced_start htrace
      hbefore hafter
  constructor
  · intro hsettled before event after c htrace hbefore hafter
    obtain ⟨next, hstep, hrest⟩ := hafter
    apply (htraced htrace hbefore ⟨next, hstep, hrest⟩).unraced hstep
    apply hsettled (before ++ [event]) after next (by rw [htrace]; simp)
    · exact follows_append.2 ⟨c, hbefore, next, hstep, rfl⟩
    · exact hrest
  · intro hunraced before after c htrace hbefore hafter
    apply (htraced htrace hbefore hafter).settled
    apply @EveryStep.invariant _ _ _ _ _ Stays _ _ _ _ hunraced _ _ _ _ htrace hbefore hafter
    · exact fun past c event c' hadmits hstep hkept => hkept.next hadmits hstep
    · intro i name password hseen
      rcases hseen with hseen | hseen <;> cases hseen

end Clients

def sampleKeystore (i : Bool) (keystore : Text → Option Text) :
    (request : Call Unit) → Option (Reply Unit request × (Text → Option Text))
  | .keyringEntry _ _ => some (.ok (), keystore)
  | .getPassword _ name =>
      match keystore name with
      | some password => some (.ok password, keystore)
      | none => some (.error .noEntry, keystore)
  | .randomIndex bound =>
      if h : i.toNat < bound then some (⟨i.toNat, h⟩, keystore) else none
  | .setPassword _ name password =>
      some (.ok (), Function.update keystore name (some password))
  | _ => none

theorem keystoreStep_of_sampleKeystore (i : Bool) (keystore : Text → Option Text)
    (request : Call Unit) (reply : Reply Unit request) (keystore' : Text → Option Text)
    (h : sampleKeystore i keystore request = some (reply, keystore')) :
    keystoreStep keystore ⟨request, reply⟩ keystore' := by
  unfold sampleKeystore at h
  cases request with
  | keyringEntry service' name =>
    cases h
    rfl
  | getPassword service' name =>
    cases hstored : keystore name with
    | some password =>
      simp only [hstored] at h
      cases h
      exact ⟨hstored, rfl⟩
    | none =>
      simp only [hstored] at h
      cases h
      exact ⟨hstored, rfl⟩
  | randomIndex bound =>
    by_cases hbound : i.toNat < bound
    · simp only [hbound, dif_pos] at h
      cases h
      rfl
    · simp [hbound] at h
  | setPassword service' name password =>
    cases h
    rfl
  | _ => cases h

def racingOrder : List Bool :=
  [false, false, true, true] ++ List.replicate (generatedLen + 1) false ++
    List.replicate (generatedLen + 1) true

def racingPlay : Interleaved Bool (Call Unit) (Reply Unit) × Clients Unit Bool :=
  play sampleKeystore racingOrder (start (fun _ => "working".toList) fun _ => none)

/-- Two processes that look before either has written are handed different passwords. -/
theorem not_settled :
    ¬ ∀ (names : Bool → Text) (initial : Text → Option Text)
      (trace : Interleaved Bool (Call Unit) (Reply Unit)) (c' : Clients Unit Bool),
      Follows clientStep (start names initial) trace c' → Settled names initial c' := by
  intro h
  have hfollows := follows_play keystoreStep_of_sampleKeystore racingOrder
    (start (fun _ => "working".toList) fun _ => none : Clients Unit Bool)
  have hsettled := h _ _ _ _ hfollows
  have hfirst : (racingPlay.2.process false).result =
      some (.ok (List.replicate generatedLen 'A')) := by decide +kernel
  have hsecond : (racingPlay.2.process true).result =
      some (.ok (List.replicate generatedLen 'B')) := by decide +kernel
  have hsame := hsettled.agree false true _ _ rfl (Program.result_eq_some_iff.1 hfirst)
    (Program.result_eq_some_iff.1 hsecond)
  exact absurd hsame (by decide)

end Custodly.Vault
