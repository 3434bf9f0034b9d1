import Custodly.Library.Strings
import Mathlib.Logic.Function.Basic

/-! Records written as `key=value` lines and read into a map in which the last line of a
key wins.  Nothing is escaped, so a value that holds a line break adds lines of its own. -/
namespace Custodly.Library.KeyValue
open Strings

abbrev Fields := Text → Option Text

def insertLine (fields : Fields) (line : Text) : Fields :=
  match splitOnce '=' line with
  | some (key, value) => Function.update fields (trim key) (some (trim value))
  | none => fields

def readFields (lines : List Text) : Fields :=
  lines.foldl insertLine fun _ => none

def pairLine (key value : Text) : Text := key ++ '=' :: value

theorem insertLine_apply (fields : Fields) (line key : Text) :
    insertLine fields line key = (insertLine (fun _ => none) line key).or (fields key) := by
  unfold insertLine
  cases splitOnce '=' line with
  | none => rfl
  | some parts =>
    by_cases h : key = trim parts.1
    · simp [h]
    · simp [Function.update_of_ne h]

theorem foldl_insertLine (fields : Fields) (lines : List Text) (key : Text) :
    lines.foldl insertLine fields key = (readFields lines key).or (fields key) := by
  induction lines generalizing fields with
  | nil => rfl
  | cons line rest ih =>
    unfold readFields
    simp only [List.foldl_cons]
    rw [ih, ih (insertLine _ line), insertLine_apply, Option.or_assoc]

theorem readFields_append (front back : List Text) (key : Text) :
    readFields (front ++ back) key = (readFields back key).or (readFields front key) := by
  unfold readFields
  rw [List.foldl_append]
  exact foldl_insertLine _ back key

@[simp] theorem readFields_nil (key : Text) : readFields [] key = none := rfl

theorem readFields_pairLine {key : Text} (value k : Text) (hkey : '=' ∉ key) :
    readFields [pairLine key value] k = if k = trim key then some (trim value) else none := by
  unfold readFields pairLine
  simp only [List.foldl_cons, List.foldl_nil, insertLine, splitOnce_append value hkey]
  by_cases h : k = trim key
  · simp [h]
  · simp [h]

theorem readFields_singleton_of_not_mem {line : Text} (key : Text) (h : '=' ∉ line) :
    readFields [line] key = none := by
  unfold readFields
  simp [insertLine, splitOnce_eq_none_iff.2 h]

def Binds (line key value : Text) : Prop :=
  ∃ left right, splitOnce '=' line = some (left, right) ∧ trim left = key ∧ trim right = value

/-- The last line that binds the key binds it to the value. -/
def LastBinds (lines : List Text) (key value : Text) : Prop :=
  ∃ front line back, lines = front ++ line :: back ∧ Binds line key value ∧
    ∀ later ∈ back, ∀ other, ¬ Binds later key other

theorem readFields_singleton_iff {line key value : Text} :
    readFields [line] key = some value ↔ Binds line key value := by
  unfold readFields Binds
  simp only [List.foldl_cons, List.foldl_nil, insertLine]
  cases splitOnce '=' line with
  | none => simp
  | some parts =>
    obtain ⟨left, right⟩ := parts
    simp only [Option.some.injEq, Prod.mk.injEq]
    by_cases hkey : trim left = key
    · simp [← hkey]
    · rw [Function.update_of_ne (Ne.symm hkey)]
      apply iff_of_false (by simp)
      rintro ⟨_, _, ⟨rfl, rfl⟩, hleft, -⟩
      exact hkey hleft

theorem readFields_eq_none_iff {lines : List Text} {key : Text} :
    readFields lines key = none ↔ ∀ line ∈ lines, ∀ value, ¬ Binds line key value := by
  induction lines with
  | nil => simp
  | cons line rest ih =>
    rw [← List.singleton_append, readFields_append, Option.or_eq_none_iff, ih,
      Option.eq_none_iff_forall_ne_some, List.singleton_append, List.forall_mem_cons, and_comm]
    simp only [ne_eq, readFields_singleton_iff]

/-- Reading gives each key the value of its last line. -/
theorem readFields_eq_some_iff {lines : List Text} {key value : Text} :
    readFields lines key = some value ↔ LastBinds lines key value := by
  constructor
  · intro h
    induction lines using List.reverseRecOn with
    | nil => simp at h
    | append_singleton front line ih =>
      rw [readFields_append, Option.or_eq_some_iff, readFields_singleton_iff] at h
      rcases h with h | ⟨hline, h⟩
      · exact ⟨front, line, [], rfl, h, by simp⟩
      · obtain ⟨front', bound, back, rfl, hbound, hlater⟩ := ih h
        refine ⟨front', bound, back ++ [line], by simp, hbound, ?_⟩
        intro later hmem
        rcases List.mem_append.1 hmem with hback | hlast
        · exact hlater later hback
        · exact readFields_eq_none_iff.1 hline later hlast
  · rintro ⟨front, line, back, rfl, hline, hlater⟩
    rw [readFields_append, ← List.singleton_append, readFields_append,
      readFields_eq_none_iff.2 hlater, readFields_singleton_iff.2 hline]
    rfl

theorem exists_line_of_readFields {lines : List Text} {key value : Text}
    (h : readFields lines key = some value) :
    ∃ line ∈ lines, ∃ left right, splitOnce '=' line = some (left, right) ∧
      trim left = key ∧ trim right = value := by
  obtain ⟨front, line, back, rfl, hline, -⟩ := readFields_eq_some_iff.1 h
  exact ⟨line, by simp, hline⟩

theorem insertLine_stripCr (fields : Fields) (line : Text) :
    insertLine fields (stripCr line) = insertLine fields line := by
  by_cases h : line.getLast? = some '\r'
  · obtain ⟨front, rfl⟩ := List.getLast?_eq_some_iff.1 h
    unfold stripCr
    rw [if_pos h, List.dropLast_concat]
    unfold insertLine
    cases hsplit : splitOnce '=' front with
    | none =>
      have hnone : splitOnce '=' (front ++ ['\r']) = none := by
        rw [splitOnce_eq_none_iff] at hsplit ⊢
        simp [hsplit]
      rw [hnone]
    | some parts =>
      obtain ⟨rfl, hkey⟩ := splitOnce_eq_some_iff.1 hsplit
      rw [List.append_assoc, List.cons_append, splitOnce_append _ hkey]
      simp only
      rw [trim_append_whitespace (by decide)]
  · rw [stripCr_eq_self h]

theorem insertLine_nil (fields : Fields) : insertLine fields [] = fields := rfl

theorem readFields_closeLines (pieces : List Text) :
    readFields (closeLines pieces) = readFields pieces := by
  unfold readFields
  generalize (fun _ => none : Fields) = fields
  induction pieces generalizing fields with
  | nil => rfl
  | cons first rest ih =>
    cases rest with
    | nil =>
      by_cases h : first = []
      · simp [closeLines, h, insertLine_nil]
      · simp [closeLines, h]
    | cons second rest =>
      simp only [closeLines, List.foldl_cons] at ih ⊢
      rw [insertLine_stripCr, ih]

theorem readFields_lines (s : Text) : readFields (lines s) = readFields (s.splitOn '\n') :=
  readFields_closeLines _

theorem readFields_lines_intercalate {pieces : List Text} (h : ∀ piece ∈ pieces, '\n' ∉ piece) :
    readFields (lines (['\n'].intercalate pieces)) = readFields pieces := by
  rw [readFields_lines]
  cases pieces with
  | nil => rfl
  | cons first rest => rw [List.splitOn_intercalate _ h (by simp)]

theorem readFields_eq_or {lines : List Text} {key value : Text}
    (h : ∀ line ∈ lines, ∀ left right, splitOnce '=' line = some (left, right) →
      trim left = key → trim right = value) :
    readFields lines key = none ∨ readFields lines key = some value := by
  cases hread : readFields lines key with
  | none => exact .inl rfl
  | some read =>
    obtain ⟨line, hmem, left, right, hsplit, hkey, rfl⟩ := exists_line_of_readFields hread
    rw [h line hmem left right hsplit hkey]
    exact .inr rfl

/-- The fields of a text that ends in a block: the block's own lines win. -/
theorem readFields_lines_append (front back : Text) (key : Text) :
    readFields (lines (front ++ '\n' :: back)) key =
      (readFields (lines back) key).or (readFields (lines front) key) := by
  simp only [readFields_lines, List.splitOn_append_cons_self, readFields_append]

theorem readFields_lines_value {s key value : Text} (h : readFields (lines s) key = some value) :
    trim value = value ∧ '\n' ∉ value := by
  obtain ⟨line, hmem, left, right, hsplit, -, rfl⟩ := exists_line_of_readFields h
  refine ⟨trim_trim right, fun hnewline => newline_not_mem_lines hmem ?_⟩
  obtain ⟨rfl, -⟩ := splitOnce_eq_some_iff.1 hsplit
  simp [mem_of_mem_trim hnewline]

theorem readFields_lines_append_cr {line : Text} (h : '\n' ∉ line) :
    readFields (lines (line ++ ['\r'])) = readFields (lines line) := by
  have hline : '\n' ∉ line ++ ['\r'] := by simp [h]
  have hstrip : stripCr (line ++ ['\r']) = line := by simp [stripCr]
  have hinsert := insertLine_stripCr (fun _ => none) (line ++ ['\r'])
  rw [hstrip] at hinsert
  rw [readFields_lines, readFields_lines, List.splitOn_eq_singleton h,
    List.splitOn_eq_singleton hline]
  exact hinsert.symm

/-- How line breaks are written changes nothing that is read. -/
theorem readFields_lines_crlf (s : Text) :
    readFields (lines (crlf s)) = readFields (lines s) := by
  have hpieces : ∀ piece ∈ s.splitOn '\n', '\n' ∉ piece := fun _ => not_mem_of_mem_splitOn
  have hjoined : ['\n'].intercalate (s.splitOn '\n') = s := List.intercalate_splitOn _
  rw [← hjoined]
  generalize s.splitOn '\n' = pieces at hpieces
  induction pieces with
  | nil => rfl
  | cons first rest ih =>
    rw [List.forall_mem_cons] at hpieces
    cases rest with
    | nil => rw [List.intercalate_singleton, crlf_of_not_mem hpieces.1]
    | cons second rest =>
      funext key
      rw [List.intercalate_cons_cons, List.append_assoc, List.singleton_append,
        crlf_append_newline, crlf_of_not_mem hpieces.1, readFields_lines_append,
        readFields_lines_append, readFields_lines_append_cr hpieces.1, ih hpieces.2]

end Custodly.Library.KeyValue
