import Custodly.Library.Strings
import Mathlib.Data.List.Perm.Basic

/-! JSON values, and records read from them: an object that gives each field at most once,
or an array of all fields in order. -/
namespace Custodly.Library
open Strings

inductive Json where
  | null
  | boolean (value : Bool)
  | number (literal : Text)
  | string (text : Text)
  | array (elements : List Json)
  | object (members : List (Text × Json))

namespace Json

def values (key : Text) : Json → List Json
  | .object members => (members.filter (·.1 = key)).map (·.2)
  | _ => []

def text : Json → Option Text
  | .string value => some value
  | _ => none

theorem text_eq_some_iff {json : Json} {value : Text} :
    json.text = some value ↔ json = .string value := by
  cases json <;> simp [text]

/-- A member that is given at most once; members of other names are passed over. -/
def member (key : Text) (json : Json) : Option (Option Json) :=
  match json.values key with
  | [] => some none
  | [value] => some (some value)
  | _ => none

def fields (names : List Text) (json : Json) : Option (List (Option Json)) :=
  match json with
  | .array elements => if elements.length = names.length then some (elements.map some) else none
  | .object _ => names.mapM fun name => json.member name
  | _ => none

def optional {A : Type} (read : Json → Option A) : Option Json → Option (Option A)
  | none => some none
  | some .null => some none
  | some value => (read value).map some

def asMember (name : Text) (own : Option Json) : List (Text × Json) :=
  (own.map fun value => (name, value)).toList

/-- Each field is given once or left out: by an object in any order and whatever else it has,
or, none left out, by an array in the order of the names. -/
def Gives (names : List Text) (given : List (Option Json)) : Json → Prop
  | .object members => (members.filter fun member => member.1 ∈ names).Perm
      ((names.zip given).flatMap fun field => asMember field.1 field.2)
  | .array elements => elements.map some = given
  | _ => False

section Gives

variable {name : Text} {names : List Text} {own : Option Json} {given : List (Option Json)}
  {members : List (Text × Json)}

theorem name_of_mem_asMember {member : Text × Json} (h : member ∈ asMember name own) :
    member.1 = name := by
  cases own with
  | none => simp [asMember] at h
  | some value =>
    rw [asMember, Option.map_some, Option.toList_some, List.mem_singleton] at h
    rw [h]

theorem member_eq_some_iff : (Json.object members).member name = some own ↔
    (members.filter fun member => member.1 = name) = asMember name own := by
  rw [member, values]
  have hname : ∀ member ∈ members.filter (fun member => member.1 = name), member.1 = name := by
    intro member hmember
    simpa using (List.mem_filter.1 hmember).2
  generalize members.filter (fun member => member.1 = name) = owns at hname
  match owns with
  | [] => cases own <;> simp [asMember]
  | [(key, value)] =>
    obtain rfl : key = name := hname _ (List.mem_singleton_self _)
    cases own <;> simp [asMember]
  | _ :: _ :: _ => cases own <;> simp [asMember]

theorem filter_mem_cons (hname : name ∉ names) :
    ((members.filter fun member => member.1 = name) ++
      members.filter fun member => member.1 ∈ names).Perm
      (members.filter fun member => member.1 ∈ name :: names) := by
  have hsplit := List.filter_append_perm (fun member : Text × Json => member.1 = name)
    (members.filter fun member => member.1 ∈ name :: names)
  rw [List.filter_filter, List.filter_filter] at hsplit
  have hown : (members.filter fun member => decide (member.1 = name) &&
      decide (member.1 ∈ name :: names)) = members.filter fun member => member.1 = name := by
    apply List.filter_congr
    intro member _
    by_cases h : member.1 = name <;> simp [h]
  have hrest : (members.filter fun member => (!decide (member.1 = name)) &&
      decide (member.1 ∈ name :: names)) = members.filter fun member => member.1 ∈ names := by
    apply List.filter_congr
    intro member _
    by_cases h : member.1 = name <;> simp [h, hname]
  rwa [hown, hrest] at hsplit

theorem gives_cons_iff (hname : name ∉ names) :
    (Json.object members).Gives (name :: names) (own :: given) ↔
      (members.filter fun member => member.1 = name) = asMember name own ∧
        (Json.object members).Gives names given := by
  have hsplit := @filter_mem_cons name names members hname
  unfold Gives
  rw [List.zip_cons_cons, List.flatMap_cons]
  constructor
  · intro hperm
    have hnone {others : List (Text × Json)} (h : ∀ member ∈ others, member.1 ≠ name) :
        (others.filter fun member => member.1 = name) = [] := by
      rw [List.filter_eq_nil_iff]
      intro member hmember
      simpa using h member hmember
    have hrest : ((names.zip given).flatMap fun field => asMember field.1 field.2).filter
        (fun member => member.1 = name) = [] := by
      apply hnone
      intro member hmember heq
      obtain ⟨field, hfield, hmember⟩ := List.mem_flatMap.1 hmember
      rw [name_of_mem_asMember hmember] at heq
      exact hname (by rw [← heq]; exact (List.of_mem_zip hfield).1)
    have hothers : (members.filter fun member => member.1 ∈ names).filter
        (fun member => member.1 = name) = [] := by
      apply hnone
      intro member hmember heq
      rw [List.mem_filter] at hmember
      exact hname (by rw [← heq]; simpa using hmember.2)
    have hself : (asMember name own).filter (fun member => member.1 = name) =
        asMember name own := by
      rw [List.filter_eq_self]
      intro member hmember
      simpa using name_of_mem_asMember hmember
    have hfirst := (hsplit.trans hperm).filter fun member => member.1 = name
    rw [List.filter_append, List.filter_append, hrest, hothers, hself, List.filter_filter,
      List.append_nil, List.append_nil] at hfirst
    simp only [Bool.and_self] at hfirst
    have hone : (members.filter fun member => member.1 = name) = asMember name own := by
      cases own with
      | none => exact hfirst.eq_nil
      | some value => exact List.perm_singleton.1 hfirst
    rw [hone] at hsplit
    exact ⟨hone, (List.perm_append_left_iff _).1 (hsplit.trans hperm)⟩
  · rintro ⟨hone, hrest⟩
    rw [hone] at hsplit
    exact hsplit.symm.trans (hrest.append_left _)

/-- A record's fields are read as what the value gives. -/
theorem fields_eq_some_iff {json : Json} (hnames : names.Nodup)
    (hlength : given.length = names.length) :
    json.fields names = some given ↔ json.Gives names given := by
  cases json with
  | object members =>
    rw [fields]
    induction names generalizing given with
    | nil =>
      rw [List.length_nil, List.length_eq_zero_iff] at hlength
      subst hlength
      simp [Gives, pure]
    | cons name names ih =>
      obtain ⟨own, given, rfl⟩ := List.exists_cons_of_length_eq_add_one hlength
      rw [List.nodup_cons] at hnames
      rw [gives_cons_iff hnames.1, ← ih hnames.2 (Nat.succ.inj hlength), ← member_eq_some_iff,
        List.mapM_cons]
      simp [Option.bind_eq_some_iff]
  | array elements =>
    rw [fields, Gives]
    by_cases h : elements.length = names.length
    · rw [if_pos h, Option.some.injEq]
    · rw [if_neg h]
      refine ⟨fun h' => (by cases h'), ?_⟩
      rintro rfl
      exact absurd (by simpa using hlength) h
  | null => simp [fields, Gives]
  | boolean _ => simp [fields, Gives]
  | number _ => simp [fields, Gives]
  | string _ => simp [fields, Gives]

/-- An object's members in any order and among others, or their values alone. -/
def Shows : Json → Json → Prop
  | .object others, .object members =>
      (others.filter fun member => member.1 ∈ members.map Prod.fst).Perm members
  | .array elements, .object members => elements = members.map Prod.snd
  | _, _ => False

theorem shows_self : (Json.object members).Shows (.object members) := by
  rw [Shows, List.filter_eq_self.2]
  intro member hmember
  simpa using ⟨_, hmember⟩

theorem flatMap_asMember (names : List Text) (values : List Json) :
    ((names.zip (values.map some)).flatMap fun field => asMember field.1 field.2) =
      names.zip values := by
  rw [List.zip_map_right, List.flatMap_map]
  exact List.flatMap_singleton' _

theorem Gives.of_shows {others : List (Text × Json)}
    (hnames : ∀ name ∈ names, name ∈ members.map Prod.fst)
    (hgives : (Json.object members).Gives names given)
    (h : (Json.object others).Shows (.object members)) :
    (Json.object others).Gives names given := by
  rw [Gives] at hgives ⊢
  have hfilter := h.filter fun member => member.1 ∈ names
  rw [List.filter_filter] at hfilter
  refine List.Perm.trans ?_ (hfilter.trans hgives)
  apply List.Perm.of_eq
  apply List.filter_congr
  intro member _
  by_cases hmember : member.1 ∈ names
  · simpa [hmember] using hnames member.1 hmember
  · simp [hmember]

theorem gives_of_shows {values : List Json} {json : Json} (hlength : values.length = names.length)
    (h : json.Shows (.object (names.zip values))) : json.Gives names (values.map some) := by
  cases json with
  | object others =>
    rw [Shows, List.map_fst_zip hlength.ge] at h
    rwa [Gives, flatMap_asMember]
  | array elements =>
    rw [Shows, List.map_snd_zip hlength.le] at h
    rw [Gives, h]
  | null => exact h.elim
  | boolean _ => exact h.elim
  | number _ => exact h.elim
  | string _ => exact h.elim

end Gives

def textMembers : Json → Option (List (Text × Text))
  | .object members => members.mapM fun member => member.2.text.map fun value => (member.1, value)
  | _ => none

def ofTexts (pairs : List (Text × Text)) : Json :=
  .object (pairs.map fun pair => (pair.1, .string pair.2))

theorem textMembers_eq_some_iff {json : Json} {pairs : List (Text × Text)} :
    json.textMembers = some pairs ↔ json = ofTexts pairs := by
  cases json with
  | object members =>
    rw [textMembers, ofTexts, Json.object.injEq]
    induction members generalizing pairs with
    | nil => cases pairs <;> simp [pure]
    | cons member members ih =>
      obtain ⟨name, value⟩ := member
      cases pairs with
      | nil => simp [List.mapM_cons, Option.bind_eq_some_iff]
      | cons pair pairs =>
        rw [List.map_cons, List.cons.injEq, ← ih, List.mapM_cons]
        simp only [Option.bind_eq_bind, Option.bind_eq_some_iff, Option.map_eq_some_iff,
          text_eq_some_iff, Option.pure_def, Option.some.injEq, List.cons.injEq]
        constructor
        · rintro ⟨_, ⟨value', rfl, rfl⟩, rest, hrest, rfl, rfl⟩
          exact ⟨rfl, hrest⟩
        · rintro ⟨hpair, hrest⟩
          rw [Prod.mk.injEq] at hpair
          exact ⟨pair, ⟨pair.2, hpair.2, by rw [hpair.1]⟩, pairs, hrest, rfl, rfl⟩
  | null => simp [textMembers, ofTexts]
  | boolean _ => simp [textMembers, ofTexts]
  | number _ => simp [textMembers, ofTexts]
  | string _ => simp [textMembers, ofTexts]
  | array _ => simp [textMembers, ofTexts]

/-- A map is read member by member: a key that is given twice has what it was given last. -/
def readMap (json : Json) : Option (Std.ExtTreeMap Text Text) :=
  json.textMembers.map fun pairs => .ofList pairs

def writeMap (map : Std.ExtTreeMap Text Text) : Json := ofTexts map.toList

theorem readMap_eq_some_iff {json : Json} {map : Std.ExtTreeMap Text Text} :
    json.readMap = some map ↔ ∃ pairs, json = ofTexts pairs ∧ map = .ofList pairs := by
  rw [readMap, Option.map_eq_some_iff]
  constructor
  · rintro ⟨pairs, hpairs, rfl⟩
    exact ⟨pairs, textMembers_eq_some_iff.1 hpairs, rfl⟩
  · rintro ⟨pairs, hpairs, rfl⟩
    exact ⟨pairs, textMembers_eq_some_iff.2 hpairs, rfl⟩

theorem getElem?_ofList_eq_lookup {K V : Type} [BEq K] [LawfulBEq K] {cmp : K → K → Ordering}
    [Std.TransCmp cmp] [Std.LawfulEqCmp cmp] (pairs : List (K × V)) (key : K) :
    (Std.ExtTreeMap.ofList pairs cmp)[key]? = pairs.reverse.lookup key := by
  induction pairs using List.reverseRecOn with
  | nil => simp
  | append_singleton front last ih =>
    obtain ⟨key', value⟩ := last
    rw [Std.ExtTreeMap.ofList_eq_foldl, List.foldl_append, ← Std.ExtTreeMap.ofList_eq_foldl,
      List.reverse_append]
    simp only [List.foldl_cons, List.foldl_nil, Std.ExtTreeMap.getElem?_insert,
      List.reverse_singleton, List.singleton_append, List.lookup_cons]
    by_cases hkey : key = key'
    · rw [if_pos (Std.LawfulEqCmp.compare_eq_iff_eq.2 hkey.symm), hkey, beq_self_eq_true]
    · rw [if_neg fun h => hkey (Std.LawfulEqCmp.compare_eq_iff_eq.1 h).symm, beq_false_of_ne hkey,
        ih]

theorem readMap_writeMap (map : Std.ExtTreeMap Text Text) : readMap (writeMap map) = some map := by
  refine readMap_eq_some_iff.2 ⟨map.toList, rfl, Std.ExtTreeMap.ext_getElem? fun key => ?_⟩
  cases hvalue : map[key]? with
  | some value =>
    rw [Std.ExtTreeMap.getElem?_ofList_of_mem Std.ReflCmp.compare_self
      Std.ExtTreeMap.distinct_keys_toList (Std.ExtTreeMap.mem_toList_iff_getElem?_eq_some.2 hvalue)]
  | none =>
    rw [getElem?_ofList_eq_lookup, eq_comm, List.lookup_eq_none_iff]
    intro pair hpair
    rw [List.mem_reverse, Std.ExtTreeMap.mem_toList_iff_getElem?_eq_some] at hpair
    rw [bne_iff_ne]
    rintro rfl
    rw [hvalue] at hpair
    cases hpair

end Json

/-- The fields of a type, what a value writes each as, and what is made of fields read. -/
structure Record (A : Type) where
  names : List Text
  names_nodup : names.Nodup
  write : A → List Json
  length_write : ∀ a, (write a).length = names.length
  read : List (Option Json) → Option A

/-- Every value that fits is read from whatever shows what it is written as, and only such
values are read. -/
structure RoundTrips {A : Type} (write : A → Json) (read : Json → Option A) (Fits : A → Prop) :
    Prop where
  read_of_shows : ∀ a, Fits a → ∀ json, json.Shows (write a) → read json = some a
  fits_of_read : ∀ json a, read json = some a → Fits a

namespace Record

variable {A : Type} (record : Record A)

def toJson (a : A) : Json := .object (record.names.zip (record.write a))

def ofJson (json : Json) : Option A := (json.fields record.names).bind record.read

variable {record} {Fits : A → Prop}

theorem roundTrips (hread : ∀ a, Fits a → record.read ((record.write a).map some) = some a)
    (hfits : ∀ given a, record.read given = some a → Fits a) :
    RoundTrips record.toJson record.ofJson Fits where
  read_of_shows a ha json hshows := by
    have hgives := Json.gives_of_shows (record.length_write a) hshows
    rw [← Json.fields_eq_some_iff record.names_nodup (by simp [record.length_write])] at hgives
    rw [ofJson, hgives, Option.bind_some, hread a ha]
  fits_of_read json a h := by
    obtain ⟨given, -, hgiven⟩ := Option.bind_eq_some_iff.1 h
    exact hfits given a hgiven

end Record

end Custodly.Library
