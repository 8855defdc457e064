import Mathlib.Algebra.Ring.Parity
import Mathlib.Data.List.Induction
import ImportCycles.Report.Dot
/-!
Labels of drawings. Read up to its closing quote, an escaped label is the label, and it stays on its
line. Its backslashes come in pairs, but for the one before each quote or letter that needs one, so
it neither holds a quote that ends it nor takes the closing quote for its own.
-/
namespace ImportCycles.Report.Dot

/-- The letter for which a letter after a backslash stands. -/
def unescape? : Char → Option Char
  | '\x22' => some '\x22'
  | '\\' => some '\\'
  | 'n' => some '\n'
  | _ => none

/-- What a label says that goes on to the next quote without a backslash of its own, and the rest
after that quote. -/
def readLabel : List Char → Option (List Char × List Char)
  | [] => none
  | '\x22' :: rest => some ([], rest)
  | '\\' :: c :: rest => do
    let d ← unescape? c
    let (label, rest) ← readLabel rest
    some (d :: label, rest)
  | c :: rest => do
    let (label, rest) ← readLabel rest
    some (c :: label, rest)

/-- The text in which every escape, taken from left to right, is the letter it stands for. A
backslash before any other letter stays. -/
def unescape : List Char → List Char
  | [] => []
  | '\\' :: c :: rest =>
    match unescape? c with
    | some d => d :: unescape rest
    | none => '\\' :: unescape (c :: rest)
  | c :: rest => c :: unescape rest

/-- The backslashes at the end of a text, with nothing between them. -/
def backslashesAtEnd (cs : List Char) : Nat := (cs.reverse.takeWhile (· = '\\')).length

variable {c : Char} {label rest front back : List Char}

/-- A letter is written as a backslash and the letter that stands for it, or as it is. -/
theorem escapeChar_cases (c : Char) :
    (∃ d, d ≠ '\n' ∧ unescape? d = some c ∧ escapeChar c = ['\\', d]) ∨
      (c ≠ '\x22' ∧ c ≠ '\\' ∧ c ≠ '\n' ∧ escapeChar c = [c]) := by
  by_cases hquote : c = '\x22'
  · subst hquote
    exact Or.inl ⟨'\x22', by decide, rfl, rfl⟩
  by_cases hbackslash : c = '\\'
  · subst hbackslash
    exact Or.inl ⟨'\\', by decide, rfl, rfl⟩
  by_cases hnewline : c = '\n'
  · subst hnewline
    exact Or.inl ⟨'n', by decide, rfl, rfl⟩
  · exact Or.inr ⟨hquote, hbackslash, hnewline, by simp [escapeChar, hquote, hbackslash, hnewline]⟩

theorem readLabel_cons (hquote : c ≠ '\x22') (hbackslash : c ≠ '\\') :
    readLabel (c :: rest) = (readLabel rest).map fun (label, rest) => (c :: label, rest) := by
  rw [readLabel]
  · cases readLabel rest <;> rfl
  · exact hquote
  · rintro d more rfl
    exact absurd rfl hbackslash

/-- A backslash and the letter for another one. -/
theorem readLabel_pair {d : Char} (h : unescape? d = some c) : readLabel ('\\' :: d :: rest) =
    (readLabel rest).map fun (label, rest) => (c :: label, rest) := by
  rw [readLabel, h]
  cases readLabel rest <;> rfl

theorem readLabel_escapeChar : readLabel (escapeChar c ++ rest) =
    (readLabel rest).map fun (label, rest) => (c :: label, rest) := by
  rcases escapeChar_cases c with ⟨d, -, hd, hc⟩ | ⟨hquote, hbackslash, -, hc⟩
  · rw [hc]
    exact readLabel_pair hd
  · rw [hc]
    exact readLabel_cons hquote hbackslash

/-- An escaped label ends at the quote behind it. -/
theorem readLabel_escape :
    readLabel (label.flatMap escapeChar ++ '\x22' :: rest) = some (label, rest) := by
  induction label with
  | nil => rfl
  | cons c label ih =>
    rw [List.flatMap_cons, List.append_assoc, readLabel_escapeChar, ih]
    rfl

theorem newline_notMem_escapeChar : '\n' ∉ escapeChar c := by
  rcases escapeChar_cases c with ⟨d, hnewline, -, hc⟩ | ⟨-, -, hnewline, hc⟩
  · simp [hc, hnewline.symm]
  · simp [hc, hnewline.symm]

theorem newline_notMem_escape (s : String) : '\n' ∉ (escape s).toList := by
  rw [escape, String.toList_ofList]
  intro h
  obtain ⟨c, -, hc⟩ := List.mem_flatMap.mp h
  exact newline_notMem_escapeChar hc

theorem unescape_pair {d : Char} (h : unescape? d = some c) :
    unescape ('\\' :: d :: rest) = c :: unescape rest := by
  simp only [unescape, h]

theorem unescape_cons (h : c ≠ '\\') : unescape (c :: rest) = c :: unescape rest := by
  rw [unescape]
  rintro d more rfl
  exact absurd rfl h

theorem unescape_flatMap (label : List Char) : unescape (label.flatMap escapeChar) = label := by
  induction label with
  | nil => rfl
  | cons c label ih =>
    rcases escapeChar_cases c with ⟨d, -, hd, hc⟩ | ⟨-, hbackslash, -, hc⟩
    · simp [hc, unescape_pair hd, ih]
    · simp [hc, unescape_cons hbackslash, ih]

theorem backslashesAtEnd_backslash :
    backslashesAtEnd (front ++ ['\\']) = backslashesAtEnd front + 1 := by
  simp [backslashesAtEnd]

theorem backslashesAtEnd_of_ne (h : c ≠ '\\') : backslashesAtEnd (front ++ [c]) = 0 := by
  simp [backslashesAtEnd, h]

/-- What is written for one more letter leaves the backslashes at the end in pairs. -/
theorem even_backslashesAtEnd_append (h : Even (backslashesAtEnd front)) :
    Even (backslashesAtEnd (front ++ escapeChar c)) := by
  rcases escapeChar_cases c with ⟨d, -, -, hc⟩ | ⟨-, hbackslash, -, hc⟩
  · have hsplit : front ++ escapeChar c = front ++ ['\\'] ++ [d] := by simp [hc]
    rw [hsplit]
    by_cases hd : d = '\\'
    · subst hd
      rw [backslashesAtEnd_backslash, backslashesAtEnd_backslash]
      exact h.add_one.add_one
    · simp only [backslashesAtEnd_of_ne hd, Even.zero]
  · simp only [hc, backslashesAtEnd_of_ne hbackslash, Even.zero]

theorem even_backslashesAtEnd (label : List Char) :
    Even (backslashesAtEnd (label.flatMap escapeChar)) := by
  induction label using List.reverseRecOn with
  | nil => exact Even.zero
  | append_singleton label c ih =>
    simpa using even_backslashesAtEnd_append (c := c) ih

/-- A quote is written for a quote only, behind its backslash. -/
theorem eq_backslash_of_quote (h : escapeChar c = front ++ '\x22' :: back) : front = ['\\'] := by
  rcases escapeChar_cases c with ⟨d, -, -, hc⟩ | ⟨hquote, -, -, hc⟩
  · rw [hc] at h
    match front with
    | [] => simp at h
    | [b] =>
      obtain ⟨rfl, -⟩ := List.cons.inj h
      rfl
    | _ :: _ :: front => simp at h
  · rw [hc] at h
    match front with
    | [] => exact absurd (List.cons.inj h).1 hquote
    | _ :: front => simp at h

/-- A quote is behind a backslash of its own, and those before that one are in pairs. -/
theorem odd_backslashesAtEnd (h : label.flatMap escapeChar = front ++ '\x22' :: back) :
    Odd (backslashesAtEnd front) := by
  induction label using List.reverseRecOn generalizing back with
  | nil => simp at h
  | append_singleton label c ih =>
    have hlabel := even_backslashesAtEnd label
    rw [List.flatMap_append, List.flatMap_singleton, List.append_eq_append_iff] at h
    rcases h with ⟨between, rfl, hc⟩ | ⟨between, hbefore, hc⟩
    · obtain rfl := eq_backslash_of_quote hc
      rw [backslashesAtEnd_backslash]
      exact hlabel.add_one
    · cases between with
      | nil =>
        have hfront : [] = ['\\'] := eq_backslash_of_quote hc.symm
        simp at hfront
      | cons b between =>
        obtain ⟨rfl, -⟩ := List.cons.inj hc
        exact ih hbefore

/-- An escaped label says the label again when its escapes are undone from left to right. It has no
newline, and before each of its quotes an odd number of backslashes. So between quotes it is one
string on one line, whatever follows: the closing quote is the first one that ends it. -/
theorem escaped_label_is_one_string (s : String) :
    unescape (escape s).toList = s.toList ∧
    '\n' ∉ (escape s).toList ∧
    (∀ front back, (escape s).toList = front ++ '\x22' :: back → Odd (backslashesAtEnd front)) ∧
    Even (backslashesAtEnd (escape s).toList) ∧
    ∀ rest, readLabel ((escape s).toList ++ '\x22' :: rest) = some (s.toList, rest) := by
  have htext : (escape s).toList = s.toList.flatMap escapeChar := String.toList_ofList
  refine ⟨?_, newline_notMem_escape s, ?_, ?_, ?_⟩
  · rw [htext, unescape_flatMap]
  · intro front back h
    exact odd_backslashesAtEnd (htext.symm.trans h)
  · rw [htext]
    exact even_backslashesAtEnd s.toList
  · intro rest
    rw [htext, readLabel_escape]

/-- A quote behind two backslashes: five backslashes are written before it, of which one is its
own. -/
example : escape "\\\\\x22" = "\\\\\\\\\\\x22" := by decide

end ImportCycles.Report.Dot
