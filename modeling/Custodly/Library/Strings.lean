import Mathlib.Data.List.DropRight
import Mathlib.Data.List.Infix
import Mathlib.Data.List.SplitBy
import Mathlib.Tactic.Common

/-! Text as a sequence of Unicode scalar values, with the string operations of Rust's
standard library: trimming, splitting at a separator and reading lines. -/
namespace Custodly.Library.Strings

abbrev Text := List Char

instance : LawfulBEq Text := inferInstance

/-- The Unicode property White_Space. -/
def isWhitespace (c : Char) : Bool :=
  let n := c.toNat
  (9 ≤ n && n ≤ 13) || n == 0x20 || n == 0x85 || n == 0xA0 || n == 0x1680 ||
    (0x2000 ≤ n && n ≤ 0x200A) || n == 0x2028 || n == 0x2029 || n == 0x202F ||
    n == 0x205F || n == 0x3000

def trimStart (s : Text) : Text := s.dropWhile isWhitespace
def trimEnd (s : Text) : Text := s.rdropWhile isWhitespace
def trim (s : Text) : Text := trimEnd (trimStart s)

theorem trim_isInfix (s : Text) : trim s <:+: s :=
  (List.rdropWhile_prefix isWhitespace _).isInfix.trans (List.dropWhile_suffix isWhitespace).isInfix

theorem mem_of_mem_trim {s : Text} {c : Char} (h : c ∈ trim s) : c ∈ s :=
  (trim_isInfix s).subset h

theorem exists_eq_trim (s : Text) :
    ∃ left right, s = left ++ trim s ++ right ∧ (∀ c ∈ left, isWhitespace c) ∧
      ∀ c ∈ right, isWhitespace c := by
  refine ⟨s.takeWhile isWhitespace, (trimStart s).rtakeWhile isWhitespace, ?_, ?_, ?_⟩
  · rw [List.append_assoc]
    unfold trim trimEnd
    rw [List.rdropWhile_append_rtakeWhile]
    exact (List.takeWhile_append_dropWhile).symm
  · exact fun c h => List.mem_takeWhile_imp h
  · exact fun c h => List.mem_rtakeWhile_imp h

theorem mem_trim_of_mem {s : Text} {c : Char} (h : c ∈ s) (hc : isWhitespace c = false) :
    c ∈ trim s := by
  obtain ⟨left, right, heq, hleft, hright⟩ := exists_eq_trim s
  rw [heq] at h
  rcases List.mem_append.1 h with h | h
  · rcases List.mem_append.1 h with h | h
    · simp [hleft c h] at hc
    · exact h
  · simp [hright c h] at hc

theorem trimStart_eq_self_iff {s : Text} :
    trimStart s = s ↔ ∀ c ∈ s.head?, isWhitespace c = false := by
  cases s with
  | nil => simp [trimStart]
  | cons c rest =>
    unfold trimStart
    by_cases h : isWhitespace c
    · have hlt : (List.dropWhile isWhitespace rest).length < (c :: rest).length := by
        have := (List.dropWhile_sublist (l := rest) isWhitespace).length_le
        simp only [List.length_cons]
        omega
      simp only [List.dropWhile_cons, h, if_true, List.head?_cons, Option.mem_def,
        Option.some.injEq, forall_eq', Bool.true_eq_false, iff_false]
      intro heq
      rw [heq] at hlt
      omega
    · simp [h]

theorem trimEnd_eq_self_iff {s : Text} :
    trimEnd s = s ↔ ∀ c ∈ s.getLast?, isWhitespace c = false := by
  unfold trimEnd
  rw [List.rdropWhile_eq_self_iff]
  cases h : s.getLast? with
  | none => simp_all
  | some c =>
    have hne : s ≠ [] := by
      intro hnil
      simp [hnil] at h
    have hlast : s.getLast hne = c := by
      rw [List.getLast?_eq_some_getLast hne] at h
      exact Option.some.inj h
    simp [hne, hlast]

theorem trim_eq_self_iff {s : Text} :
    trim s = s ↔ (∀ c ∈ s.head?, isWhitespace c = false) ∧
      ∀ c ∈ s.getLast?, isWhitespace c = false := by
  rw [← trimStart_eq_self_iff, ← trimEnd_eq_self_iff]
  refine ⟨fun h => ?_, fun h => ?_⟩
  · have hstart : trimStart s = s := by
      apply (List.dropWhile_suffix isWhitespace).eq_of_length_le
      calc s.length = (trim s).length := by rw [h]
        _ ≤ (trimStart s).length := (List.rdropWhile_prefix isWhitespace _).length_le
    refine ⟨hstart, ?_⟩
    unfold trim at h
    rwa [hstart] at h
  · unfold trim
    rw [h.1, h.2]

theorem trim_eq_self {s : Text} (h : ∀ c ∈ s, isWhitespace c = false) : trim s = s :=
  trim_eq_self_iff.2 ⟨fun c hc => h c (List.mem_of_mem_head? hc),
    fun c hc => h c (List.mem_of_mem_getLast? hc)⟩

@[simp] theorem trimEnd_append_whitespace {s : Text} {c : Char} (h : isWhitespace c) :
    trimEnd (s ++ [c]) = trimEnd s :=
  List.rdropWhile_concat_pos isWhitespace s c h

theorem trim_append_whitespace {s : Text} {c : Char} (h : isWhitespace c) :
    trim (s ++ [c]) = trim s := by
  unfold trim trimStart
  rw [List.dropWhile_append]
  split
  · rename_i hempty
    rw [List.isEmpty_iff] at hempty
    simp [hempty, h, trimEnd]
  · exact trimEnd_append_whitespace h

@[simp] theorem trim_trim (s : Text) : trim (trim s) = trim s := by
  have hend : ∀ c ∈ (trim s).getLast?, isWhitespace c = false :=
    trimEnd_eq_self_iff.1 (List.rdropWhile_idempotent isWhitespace (trimStart s))
  refine trim_eq_self_iff.2 ⟨fun c hc => ?_, hend⟩
  have hhead : (trimStart s).head? = some c := by
    have hprefix : trim s <+: trimStart s := List.rdropWhile_prefix isWhitespace _
    cases htrim : trim s with
    | nil => simp [htrim] at hc
    | cons d rest =>
      rw [htrim] at hprefix hc
      obtain ⟨tail, htail⟩ := hprefix
      rw [← htail]
      simpa using hc
  have := List.head?_dropWhile_not isWhitespace s
  unfold trimStart at hhead
  rw [hhead] at this
  simpa using this

theorem trim_eq_nil_iff {s : Text} : trim s = [] ↔ ∀ c ∈ s, isWhitespace c := by
  unfold trim trimEnd
  rw [List.rdropWhile_eq_nil_iff]
  refine ⟨fun h c hc => ?_, fun h c hc => h c ((List.dropWhile_subset _) hc)⟩
  rw [← @List.takeWhile_append_dropWhile _ isWhitespace s, List.mem_append] at hc
  cases hc with
  | inl hc => exact List.mem_takeWhile_imp hc
  | inr hc => exact h c hc

theorem trimStart_append_cons {c : Char} (front back : Text) (h : isWhitespace c = false) :
    trimStart (front ++ c :: back) = trimStart front ++ c :: back := by
  induction front with
  | nil => simp [trimStart, h]
  | cons d rest ih =>
    unfold trimStart at ih ⊢
    by_cases hd : isWhitespace d
    · simp [hd, ih]
    · simp [hd]

theorem trimEnd_append_cons {c : Char} (front back : Text) (h : isWhitespace c = false) :
    trimEnd (front ++ c :: back) = front ++ c :: trimEnd back := by
  induction back using List.reverseRecOn with
  | nil =>
    have hlast : ¬ isWhitespace c := by simp [h]
    unfold trimEnd
    rw [List.rdropWhile_concat_neg isWhitespace front c hlast]
    rfl
  | append_singleton back d ih =>
    rw [← List.cons_append, ← List.append_assoc]
    by_cases hd : isWhitespace d
    · rw [trimEnd_append_whitespace hd, trimEnd_append_whitespace hd, ih]
    · unfold trimEnd
      rw [List.rdropWhile_concat_neg _ _ _ hd, List.rdropWhile_concat_neg _ _ _ hd]
      simp

theorem trim_append_cons {c : Char} (front back : Text) (h : isWhitespace c = false) :
    trim (front ++ c :: back) = trimStart front ++ c :: trimEnd back := by
  unfold trim
  rw [trimStart_append_cons front back h, trimEnd_append_cons _ back h]

@[simp] theorem trim_trimStart (s : Text) : trim (trimStart s) = trim s := by
  unfold trim trimStart
  rw [List.dropWhile_idempotent isWhitespace s]

theorem trimStart_trimEnd (s : Text) : trimStart (trimEnd s) = trim s := by
  induction s using List.reverseRecOn with
  | nil => rfl
  | append_singleton front c ih =>
    by_cases hc : isWhitespace c
    · rw [trimEnd_append_whitespace hc, trim_append_whitespace hc, ih]
    · have hsolid : isWhitespace c = false := by simpa using hc
      rw [trimEnd_append_cons front [] hsolid, trim_append_cons front [] hsolid]
      exact trimStart_append_cons front [] hsolid

@[simp] theorem trim_trimEnd (s : Text) : trim (trimEnd s) = trim s := by
  unfold trim
  rw [trimStart_trimEnd]
  exact List.rdropWhile_idempotent isWhitespace (trimStart s)

/-- Split at the first separator: `str::split_once` with a character. -/
def splitOnce (sep : Char) : Text → Option (Text × Text)
  | [] => none
  | c :: rest =>
      if c = sep then some ([], rest)
      else (splitOnce sep rest).map fun parts => (c :: parts.1, parts.2)

theorem splitOnce_eq_none_iff {sep : Char} {s : Text} :
    splitOnce sep s = none ↔ sep ∉ s := by
  induction s with
  | nil => simp [splitOnce]
  | cons c rest ih =>
    by_cases h : c = sep
    · simp [splitOnce, h]
    · simp [splitOnce, h, ih, Ne.symm h]

@[simp] theorem splitOnce_append {sep : Char} {before : Text} (after : Text)
    (h : sep ∉ before) : splitOnce sep (before ++ sep :: after) = some (before, after) := by
  induction before with
  | nil => simp [splitOnce]
  | cons c rest ih =>
    simp only [List.mem_cons, not_or] at h
    simp [splitOnce, Ne.symm h.1, ih h.2]

theorem splitOnce_eq_some_iff {sep : Char} {s before after : Text} :
    splitOnce sep s = some (before, after) ↔ s = before ++ sep :: after ∧ sep ∉ before := by
  refine ⟨fun h => ?_, fun h => by rw [h.1, splitOnce_append after h.2]⟩
  induction s generalizing before with
  | nil => simp [splitOnce] at h
  | cons c rest ih =>
    unfold splitOnce at h
    split at h
    · rename_i hc
      cases h
      simp [hc]
    · rename_i hc
      obtain ⟨⟨front, back⟩, hparts, heq⟩ := Option.map_eq_some_iff.1 h
      cases heq
      obtain ⟨rfl, hfront⟩ := ih hparts
      exact ⟨rfl, by simp [hfront, Ne.symm hc]⟩

theorem splitOn_append_of_not_mem {sep : Char} {front : Text} (s : Text) (h : sep ∉ front) :
    (front ++ s).splitOn sep = (s.splitOn sep).modifyHead (front ++ ·) := by
  induction front with
  | nil =>
    rw [List.nil_append]
    cases s.splitOn sep <;> rfl
  | cons c rest ih =>
    simp only [List.mem_cons, not_or] at h
    rw [List.cons_append, List.splitOn_cons_eq_if_modifyHead, ih h.2]
    have hc : (c == sep) = false := by simpa using Ne.symm h.1
    rw [hc]
    cases s.splitOn sep <;> rfl

theorem not_mem_of_mem_splitOn {sep : Char} {s piece : Text} (h : piece ∈ s.splitOn sep) :
    sep ∉ piece := by
  induction s generalizing piece with
  | nil => simp_all
  | cons c rest ih =>
    rw [List.splitOn_cons_eq_if_modifyHead] at h
    split at h
    · rcases List.mem_cons.1 h with rfl | h
      · simp
      · exact ih h
    · rename_i hc
      cases hpieces : rest.splitOn sep with
      | nil => exact absurd hpieces (List.splitOn_ne_nil sep rest)
      | cons first others =>
        rw [hpieces, List.modifyHead_cons, List.mem_cons] at h
        rcases h with rfl | h
        · have hfirst : sep ∉ first := ih (by simp [hpieces])
          simpa [hfirst] using fun heq : sep = c => hc (by simp [heq])
        · exact ih (by simp [hpieces, h])

theorem infix_append_cons_iff {word front back : Text} {sep : Char} (h : sep ∉ word) :
    word <:+: front ++ sep :: back ↔ word <:+: front ∨ word <:+: back := by
  refine ⟨fun hinfix => ?_, fun hinfix => ?_⟩
  · obtain ⟨left, right, heq⟩ := hinfix
    rw [List.append_assoc, List.append_eq_append_iff] at heq
    rcases heq with ⟨rest, rfl, heq⟩ | ⟨rest, rfl, heq⟩
    · rw [List.append_eq_append_iff] at heq
      rcases heq with ⟨tail, rfl, -⟩ | ⟨tail, rfl, heq⟩
      · exact .inl ⟨left, tail, by simp⟩
      · cases tail with
        | nil => exact .inl ⟨left, [], by simp⟩
        | cons c tail =>
          rw [List.cons_append, List.cons.injEq] at heq
          exact absurd (by simp [heq.1]) h
    · cases rest with
      | nil =>
        cases word with
        | nil => exact .inr List.nil_infix
        | cons c word =>
          simp only [List.nil_append, List.cons_append, List.cons.injEq] at heq
          exact absurd (by simp [heq.1]) h
      | cons c rest =>
        rw [List.cons_append, List.cons.injEq] at heq
        exact .inr ⟨rest, right, by rw [heq.2, List.append_assoc]⟩
  · rcases hinfix with hinfix | hinfix
    · exact hinfix.trans (List.prefix_append _ _).isInfix
    · exact hinfix.trans ⟨front ++ [sep], [], by simp⟩

theorem infix_intercalate_iff {word : Text} {sep : Char} {pieces : List Text} (h : sep ∉ word)
    (hne : pieces ≠ []) :
    word <:+: [sep].intercalate pieces ↔ ∃ piece ∈ pieces, word <:+: piece := by
  induction pieces with
  | nil => exact absurd rfl hne
  | cons first rest ih =>
    cases rest with
    | nil => simp
    | cons second rest =>
      rw [List.intercalate_cons_cons, List.append_assoc, List.singleton_append,
        infix_append_cons_iff h, ih (by simp)]
      simp

theorem infix_iff_exists_piece {word s : Text} {sep : Char} (h : sep ∉ word) :
    word <:+: s ↔ ∃ piece ∈ s.splitOn sep, word <:+: piece := by
  rw [← infix_intercalate_iff h (List.splitOn_ne_nil sep s), List.intercalate_splitOn]

theorem infix_of_append {word left middle right : Text} (hleft : ∀ c ∈ left, c ∉ word)
    (hright : ∀ c ∈ right, c ∉ word) (h : word <:+: left ++ middle ++ right) :
    word <:+: middle := by
  induction left with
  | nil =>
    cases right with
    | nil => simpa using h
    | cons c right =>
      rcases (infix_append_cons_iff (hright c (by simp))).1 h with h | h
      · simpa using h
      · cases word with
        | nil => exact List.nil_infix
        | cons d word =>
          exact absurd (by simp) (hright d (List.mem_cons_of_mem _ (h.subset (by simp))))
  | cons c left ih =>
    have hsplit := @infix_append_cons_iff word [] (left ++ middle ++ right) c (hleft c (by simp))
    rcases hsplit.1 (by simpa using h) with h | h
    · rw [List.infix_nil.1 h]
      exact List.nil_infix
    · exact ih (fun d hd => hleft d (List.mem_cons_of_mem _ hd)) h

theorem infix_trim_iff {word s : Text} (h : ∀ c ∈ word, isWhitespace c = false) :
    word <:+: trim s ↔ word <:+: s := by
  refine ⟨fun hinfix => hinfix.trans (trim_isInfix s), fun hinfix => ?_⟩
  obtain ⟨left, right, heq, hleft, hright⟩ := exists_eq_trim s
  rw [heq] at hinfix
  apply infix_of_append _ _ hinfix
  · intro c hc hword
    have := hleft c hc
    simp [h c hword] at this
  · intro c hc hword
    have := hright c hc
    simp [h c hword] at this

theorem splitOn_intercalate_flatMap {sep : Char} {pieces : List Text} (h : pieces ≠ []) :
    ([sep].intercalate pieces).splitOn sep = pieces.flatMap (List.splitOn sep) := by
  induction pieces with
  | nil => exact absurd rfl h
  | cons first rest ih =>
    cases rest with
    | nil => simp
    | cons second rest =>
      simp only [List.intercalate_cons_cons, List.append_assoc, List.cons_append,
        List.nil_append, List.splitOn_append_cons_self, List.flatMap_cons]
      rw [ih (by simp), List.flatMap_cons]

/-- Lines that are each ended by a separator are what the text splits into. -/
theorem splitOn_flatMap_line {sep : Char} {pieces : List Text}
    (h : ∀ piece ∈ pieces, sep ∉ piece) :
    (pieces.flatMap (· ++ [sep])).splitOn sep = pieces ++ [[]] := by
  induction pieces with
  | nil => rfl
  | cons first rest ih =>
    rw [List.forall_mem_cons] at h
    rw [List.flatMap_cons, List.append_assoc, List.singleton_append,
      List.splitOn_append_cons_self, List.splitOn_eq_singleton h.1, ih h.2]
    rfl

/-- Drop one carriage return at the end of a line. -/
def stripCr (line : Text) : Text :=
  if line.getLast? = some '\r' then line.dropLast else line

/-- Every line but the last ends in a line break; an empty last one is not a line. -/
def closeLines : List Text → List Text
  | [] => []
  | [last] => if last = [] then [] else [last]
  | line :: next :: rest => stripCr line :: closeLines (next :: rest)

/-- `str::lines`. -/
def lines (s : Text) : List Text := closeLines (s.splitOn '\n')

theorem closeLines_append {front back : List Text} (h : back ≠ []) :
    closeLines (front ++ back) = front.map stripCr ++ closeLines back := by
  induction front with
  | nil => rfl
  | cons line rest ih =>
    cases hrest : rest ++ back with
    | nil => simp_all
    | cons next others =>
      rw [hrest] at ih
      rw [List.cons_append, hrest, closeLines, ih]
      rfl

theorem lines_append (front back : Text) :
    lines (front ++ '\n' :: back) = (front.splitOn '\n').map stripCr ++ lines back := by
  unfold lines
  rw [List.splitOn_append_cons_self]
  exact closeLines_append (List.splitOn_ne_nil _ _)

theorem lines_eq_singleton {s : Text} (hne : s ≠ []) (h : '\n' ∉ s) : lines s = [s] := by
  unfold lines
  rw [List.splitOn_eq_singleton h]
  simp [closeLines, hne]

theorem stripCr_eq_self {line : Text} (h : line.getLast? ≠ some '\r') : stripCr line = line :=
  if_neg h

theorem mem_of_mem_stripCr {line : Text} {c : Char} (h : c ∈ stripCr line) : c ∈ line := by
  unfold stripCr at h
  split at h
  · exact List.mem_of_mem_dropLast h
  · exact h

theorem newline_not_mem_lines {s line : Text} (h : line ∈ lines s) : '\n' ∉ line := by
  have hclosed : ∀ pieces : List Text, (∀ piece ∈ pieces, '\n' ∉ piece) →
      ∀ line ∈ closeLines pieces, '\n' ∉ line := by
    intro pieces
    induction pieces with
    | nil => simp [closeLines]
    | cons first rest ih =>
      intro hpieces line hline
      cases rest with
      | nil =>
        unfold closeLines at hline
        split at hline
        · simp at hline
        · exact hpieces line hline
      | cons second rest =>
        rcases List.mem_cons.1 hline with rfl | hline
        · exact fun hmem => hpieces first (by simp) (mem_of_mem_stripCr hmem)
        · exact ih (fun piece hpiece => hpieces piece (List.mem_cons_of_mem _ hpiece)) line hline
  exact hclosed _ (fun piece hpiece => not_mem_of_mem_splitOn hpiece) line h

def crlf (s : Text) : Text := s.flatMap fun c => if c = '\n' then ['\r', '\n'] else [c]

theorem crlf_append_newline (front back : Text) :
    crlf (front ++ '\n' :: back) = (crlf front ++ ['\r']) ++ '\n' :: crlf back := by
  simp [crlf]

theorem crlf_of_not_mem {s : Text} (h : '\n' ∉ s) : crlf s = s := by
  induction s with
  | nil => rfl
  | cons c rest ih =>
    rw [List.mem_cons, not_or] at h
    unfold crlf at ih ⊢
    rw [List.flatMap_cons, ih h.2, if_neg (Ne.symm h.1)]
    rfl

theorem toList_toString (n : Nat) : (toString n).toList = Nat.toDigits 10 n := Nat.toList_repr

theorem isDigit_of_mem_digits {n : Nat} {c : Char} (h : c ∈ (toString n).toList) : c.isDigit := by
  rw [toList_toString] at h
  exact Nat.isDigit_of_mem_toDigits (by decide) (by decide) h

theorem not_mem_digits {c : Char} (h : ¬ c.isDigit) (n : Nat) : c ∉ (toString n).toList :=
  fun hmem => h (isDigit_of_mem_digits hmem)

theorem ofDigitChars_digits (n : Nat) : Nat.ofDigitChars 10 (toString n).toList 0 = n := by
  rw [toList_toString, Nat.ofDigitChars_ten_toDigits]

theorem digits_inj {n n' : Nat} (h : (toString n).toList = (toString n').toList) : n = n' := by
  rw [← ofDigitChars_digits n, h, ofDigitChars_digits]

end Custodly.Library.Strings
