import ImportCycles.Json
import ImportCycles.Proofs.Text.Numeral
/-!
JSON texts cut into tokens, letter by letter. Numbers are whole, without signs and without zeros in
front, and letters beyond the basic plane can be escaped as two halves. The text that a value is
laid out as is cut into the tokens of the value.
-/
namespace ImportCycles.Json

open Text (EndsNumber endsNumber_cons)

inductive Token where
  | number (n : Nat)
  | text (s : String)
  | openArray
  | closeArray
  | openObject
  | closeObject
  | comma
  | colon
deriving DecidableEq, Repr

/-- Where in a token the reader stands. What it has read of a string is kept backwards. -/
inductive Mode where
  | between
  /-- After a zero that begins a number. -/
  | zero
  | digits (n : Nat)
  | inside (front : List Char)
  | escaped (front : List Char)
  /-- In the digits of an escaped letter or of one half of it, with so many more to come after the
  next one. -/
  | hex (front : List Char) (half : Option Nat) (more : Nat) (code : Nat)
  /-- After the first half of a letter. -/
  | halved (front : List Char) (half : Nat)
  | halvedEscaped (front : List Char) (half : Nat)
deriving DecidableEq, Repr

def isBlank (c : Char) : Bool := c = ' ' || c = '\t' || c = '\n' || c = '\r'

def Token.ofChar? : Char → Option Token
  | '[' => some .openArray
  | ']' => some .closeArray
  | '{' => some .openObject
  | '}' => some .closeObject
  | ',' => some .comma
  | ':' => some .colon
  | _ => none

/-- The letter for which a letter after a backslash stands. -/
def unescape? : Char → Option Char
  | '\x22' => some '\x22'
  | '\\' => some '\\'
  | '/' => some '/'
  | 'b' => some '\x08'
  | 'f' => some '\x0c'
  | 'n' => some '\n'
  | 'r' => some '\r'
  | 't' => some '\t'
  | _ => none

def hexValue? (c : Char) : Option Nat :=
  if c.isDigit then some (c.toNat - '0'.toNat)
  else if 'a' ≤ c ∧ c ≤ 'f' then some (c.toNat - 'a'.toNat + 10)
  else if 'A' ≤ c ∧ c ≤ 'F' then some (c.toNat - 'A'.toNat + 10)
  else none

namespace Mode

/-- The letter at the beginning of a token, or one between two. -/
def start (c : Char) : Option (List Token × Mode) :=
  if isBlank c then some ([], between)
  else if c = '\x22' then some ([], inside [])
  else if c = '0' then some ([], zero)
  else if c.isDigit then some ([], digits (c.toNat - '0'.toNat))
  else (Token.ofChar? c).map fun token => ([token], between)

/-- The number that ends before a letter, and then the letter. -/
def startAfter (n : Nat) (c : Char) : Option (List Token × Mode) :=
  (start c).map fun (tokens, mode) => (.number n :: tokens, mode)

/-- A letter with this code, or the first half of one, or with a first half the second one. -/
def coded? (front : List Char) (half : Option Nat) (code : Nat) : Option Mode :=
  match half with
  | none =>
    if 0xd800 ≤ code ∧ code < 0xdc00 then some (halved front code)
    else if 0xdc00 ≤ code ∧ code < 0xe000 then none
    else some (inside (Char.ofNat code :: front))
  | some half =>
    if 0xdc00 ≤ code ∧ code < 0xe000 then
      some (inside (Char.ofNat (0x10000 + 0x400 * (half - 0xd800) + (code - 0xdc00)) :: front))
    else none

/-- One more letter is read: the tokens that end with it, and what comes then. -/
def step : Mode → Char → Option (List Token × Mode)
  | between, c => start c
  | zero, c => if c.isDigit then none else startAfter 0 c
  | digits n, c =>
    if c.isDigit then some ([], digits (10 * n + (c.toNat - '0'.toNat))) else startAfter n c
  | inside front, c =>
    if c = '\x22' then some ([.text (String.ofList front.reverse)], between)
    else if c = '\\' then some ([], escaped front)
    else if c.toNat < 0x20 then none
    else some ([], inside (c :: front))
  | escaped front, c =>
    if c = 'u' then some ([], hex front none 3 0)
    else (unescape? c).map fun d => ([], inside (d :: front))
  | hex front half more code, c =>
    (hexValue? c).bind fun digit =>
      match more with
      | 0 => (coded? front half (16 * code + digit)).map fun mode => ([], mode)
      | more + 1 => some ([], hex front half more (16 * code + digit))
  | halved front half, c => if c = '\\' then some ([], halvedEscaped front half) else none
  | halvedEscaped front half, c => if c = 'u' then some ([], hex front (some half) 3 0) else none

/-- What the end of the text ends. -/
def ended? : Mode → Option (List Token)
  | between => some []
  | zero => some [.number 0]
  | digits n => some [.number n]
  | _ => none

end Mode

/-- The tokens of a text, if it consists of tokens and blanks. -/
def lex (mode : Mode) : List Char → Option (List Token)
  | [] => mode.ended?
  | c :: cs => (mode.step c).bind fun (tokens, next) => (lex next cs).map (tokens ++ ·)

variable {mode : Mode} {c : Char} {cs rest front : List Char} {read : List Token}
  {n depth : Nat}

theorem lex_cons {next : Mode} (h : mode.step c = some (read, next)) :
    lex mode (c :: cs) = (lex next cs).map (read ++ ·) := by
  rw [lex, h, Option.bind_some]

/-- A letter with which no token ends. -/
theorem lex_silent (next : Mode) (h : mode.step c = some ([], next)) :
    lex mode (c :: cs) = lex next cs := by
  rw [lex_cons h]
  simp

theorem isDigit_of_isBlank (h : isBlank c = true) : c.isDigit = false := by
  simp only [isBlank, Bool.or_eq_true, decide_eq_true_eq] at h
  rcases h with ((rfl | rfl) | rfl) | rfl <;> rfl

theorem lex_blanks (h : ∀ c ∈ cs, isBlank c = true) :
    lex .between (cs ++ rest) = lex .between rest := by
  induction cs with
  | nil => rfl
  | cons c cs ih =>
    obtain ⟨hc, hcs⟩ := List.forall_mem_cons.mp h
    rw [List.cons_append, lex_silent .between (by simp [Mode.step, Mode.start, hc]),
      ih hcs]

theorem lex_newline : lex .between (newline depth ++ rest) = lex .between rest := by
  refine lex_blanks fun c hc => ?_
  rcases List.mem_cons.mp hc with rfl | hc
  · rfl
  · rw [List.eq_of_mem_replicate hc]
    rfl

theorem hexValue?_hexDigit (hn : n < 16) : hexValue? (hexDigit n) = some n := by
  revert n
  decide

/-- A control character is the letter that its four digits stand for. -/
theorem coded?_control (hc : c.toNat < 0x20) :
    Mode.coded? front none (16 * (c.toNat / 16) + c.toNat % 16) = some (.inside (c :: front)) := by
  have hcode : 16 * (c.toNat / 16) + c.toNat % 16 = c.toNat := Nat.div_add_mod c.toNat 16
  rw [hcode, Mode.coded?, if_neg (by omega), if_neg (by omega), Char.ofNat_toNat]

/-- A backslash and the letter for another one. -/
theorem lex_pair {d : Char} (hd : d ≠ 'u') (h : unescape? d = some c) :
    lex (.inside front) ('\\' :: d :: rest) = lex (.inside (c :: front)) rest := by
  rw [lex_silent (.escaped front) rfl]
  exact lex_silent _ (by simp [Mode.step, hd, h])

/-- Inside a string an escaped letter stands for the letter. -/
theorem lex_escape : lex (.inside front) (escape c ++ rest) = lex (.inside (c :: front)) rest := by
  rw [escape]
  split
  · next h => subst h; exact lex_pair (by decide) rfl
  split
  · next h => subst h; exact lex_pair (by decide) rfl
  split
  · next h => subst h; exact lex_pair (by decide) rfl
  split
  · next h => subst h; exact lex_pair (by decide) rfl
  split
  · next h => subst h; exact lex_pair (by decide) rfl
  split
  · next h => subst h; exact lex_pair (by decide) rfl
  split
  · next h => subst h; exact lex_pair (by decide) rfl
  split
  · next hcontrol =>
    have hhigh : hexValue? (hexDigit (c.toNat / 16)) = some (c.toNat / 16) :=
      hexValue?_hexDigit (by omega)
    have hlow : hexValue? (hexDigit (c.toNat % 16)) = some (c.toNat % 16) :=
      hexValue?_hexDigit (by omega)
    calc lex (.inside front) ('\\' :: 'u' :: '0' :: '0' :: hexDigit (c.toNat / 16) ::
          hexDigit (c.toNat % 16) :: rest)
      _ = lex (.hex front none 1 0)
          (hexDigit (c.toNat / 16) :: hexDigit (c.toNat % 16) :: rest) := by
        rw [lex_silent (.escaped front) rfl, lex_silent (.hex front none 3 0) rfl,
          lex_silent (.hex front none 2 0) rfl, lex_silent (.hex front none 1 0) rfl]
      _ = lex (.hex front none 0 (c.toNat / 16)) (hexDigit (c.toNat % 16) :: rest) :=
        lex_silent _ (by simp [Mode.step, hhigh])
      _ = lex (.inside (c :: front)) rest :=
        lex_silent _ (by simp [Mode.step, hlow, coded?_control hcontrol])
  · next hquote hbackslash _ _ _ _ _ hcontrol =>
    exact lex_silent _ (by simp [Mode.step, hquote, hbackslash, hcontrol])

theorem lex_inside {s : List Char} : lex (.inside front) (s.flatMap escape ++ '\x22' :: rest) =
    (lex .between rest).map (.text (String.ofList (front.reverse ++ s)) :: ·) := by
  induction s generalizing front with
  | nil =>
    have hend : Mode.step (.inside front) '\x22' =
        some ([.text (String.ofList front.reverse)], .between) := rfl
    rw [List.append_nil]
    exact lex_cons hend
  | cons c s ih =>
    rw [List.flatMap_cons, List.append_assoc, lex_escape, ih]
    simp

theorem lex_quoted {s : String} : lex .between (quoted s ++ rest) =
    (lex .between rest).map (.text s :: ·) := by
  have hopen : lex .between (quoted s ++ rest) =
      lex (.inside []) (s.toList.flatMap escape ++ '\x22' :: rest) := by
    rw [quoted, List.cons_append, List.cons_append, List.append_assoc]
    exact lex_silent _ rfl
  rw [hopen, lex_inside, List.reverse_nil, List.nil_append, String.ofList_toList]

theorem lex_ended (h : EndsNumber rest) (hmode : mode = .digits n ∨ mode = .zero ∧ n = 0) :
    lex mode rest = (lex .between rest).map (.number n :: ·) := by
  cases rest with
  | nil => rcases hmode with rfl | ⟨rfl, rfl⟩ <;> rfl
  | cons c cs =>
    have hc : c.isDigit = false := h c rfl
    have hstep : mode.step c = Mode.startAfter n c := by
      rcases hmode with rfl | ⟨rfl, rfl⟩ <;> simp [Mode.step, hc]
    rw [lex, lex, hstep, Mode.startAfter, Mode.step]
    cases Mode.start c with
    | none => rfl
    | some read => simp [Function.comp_def]

theorem lex_digits {digits : List Char} (hdigits : ∀ c ∈ digits, c.isDigit = true)
    (h : EndsNumber rest) : lex (.digits n) (digits ++ rest) =
      (lex .between rest).map (.number (Nat.ofDigitChars 10 digits n) :: ·) := by
  induction digits generalizing n with
  | nil => exact lex_ended h (.inl rfl)
  | cons c digits ih =>
    obtain ⟨hc, hmore⟩ := List.forall_mem_cons.mp hdigits
    have hstep : Mode.step (.digits n) c =
        some ([], .digits (10 * n + (c.toNat - '0'.toNat))) := by
      simp only [Mode.step, hc, if_true]
    rw [List.cons_append, lex_silent _ hstep, ih hmore, Nat.ofDigitChars_cons]

theorem lex_number (h : EndsNumber rest) : lex .between ((toString n).toList ++ rest) =
    (lex .between rest).map (.number n :: ·) := by
  rw [Text.toList_toString]
  rcases Nat.eq_zero_or_pos n with rfl | hn
  · rw [Nat.toDigits_zero, List.cons_append, lex_silent .zero rfl]
    exact lex_ended h (.inr ⟨rfl, rfl⟩)
  · obtain ⟨c, digits, hdigits, hc⟩ := Text.exists_toDigits_eq_cons hn
    have hall : ∀ d ∈ c :: digits, d.isDigit = true := by
      intro d hd
      rw [← hdigits] at hd
      exact Nat.isDigit_of_mem_toDigits (by decide) (by decide) hd
    obtain ⟨hdigit, hmore⟩ := List.forall_mem_cons.mp hall
    have hstart : Mode.step .between c = some ([], .digits (c.toNat - '0'.toNat)) := by
      have hblank : isBlank c = false := by
        cases hb : isBlank c with
        | false => rfl
        | true => exact absurd hdigit (by simp [isDigit_of_isBlank hb])
      have hquote : c ≠ '\x22' := by
        rintro rfl
        exact absurd hdigit (by decide)
      simp [Mode.step, Mode.start, hblank, hquote, hc, hdigit]
    have hvalue : Nat.ofDigitChars 10 digits (c.toNat - '0'.toNat) = n := by
      have hread : Nat.ofDigitChars 10 (c :: digits) 0 = n := by
        rw [← hdigits, Nat.ofDigitChars_ten_toDigits]
      rwa [Nat.ofDigitChars_cons, Nat.mul_zero, Nat.zero_add] at hread
    rw [hdigits, List.cons_append, lex_silent _ hstart, lex_digits hmore h, hvalue]

mutual

/-- The tokens of the text that a value is laid out as. -/
def tokens : Json → List Token
  | .number n => [.number n]
  | .string s => [.text s]
  | .array [] => [.openArray, .closeArray]
  | .array (item :: items) =>
    .openArray :: (tokens item ++ (itemTokens items ++ [.closeArray]))
  | .object [] => [.openObject, .closeObject]
  | .object ((key, value) :: members) =>
    .openObject :: .text key :: .colon ::
      (tokens value ++ (memberTokens members ++ [.closeObject]))
termination_by structural value => value

/-- Those of the items after the first one. -/
def itemTokens : List Json → List Token
  | [] => []
  | item :: items => .comma :: (tokens item ++ itemTokens items)
termination_by structural items => items

/-- Those of the members after the first one. -/
def memberTokens : List (String × Json) → List Token
  | [] => []
  | (key, value) :: members =>
    .comma :: .text key :: .colon :: (tokens value ++ memberTokens members)
termination_by structural members => members

end

theorem lex_mark {token : Token} (h : Mode.start c = some ([token], .between)) :
    lex .between (c :: cs) = (lex .between cs).map (token :: ·) := by
  have hstep : Mode.step .between c = some ([token], .between) := h
  exact lex_cons hstep

theorem endsNumber_layoutItems {items : List Json} (h : EndsNumber rest) :
    EndsNumber (layoutItems depth items ++ rest) := by
  cases items with
  | nil => exact h
  | cons item items => exact endsNumber_cons rfl

theorem endsNumber_layoutMembers {members : List (String × Json)} (h : EndsNumber rest) :
    EndsNumber (layoutMembers depth members ++ rest) := by
  cases members with
  | nil => exact h
  | cons member members => exact endsNumber_cons rfl

mutual

theorem lex_layout (value : Json) {depth : Nat} {rest : List Char} (h : EndsNumber rest) :
    lex .between (layout depth value ++ rest) =
      (lex .between rest).map (tokens value ++ ·) := by
  match value with
  | .number n => exact lex_number h
  | .string s => exact lex_quoted
  | .array [] =>
    rw [layout, List.cons_append, lex_mark rfl, List.cons_append, lex_mark rfl]
    simp [tokens, Function.comp_def]
  | .array (item :: items) =>
    have hclose : EndsNumber (newline depth ++ (']' :: rest)) := endsNumber_cons rfl
    simp only [layout, List.cons_append, List.append_assoc, List.nil_append]
    rw [lex_mark rfl, lex_newline, lex_layout item (endsNumber_layoutItems hclose),
      lex_layoutItems items hclose, lex_newline, lex_mark rfl]
    simp [tokens, Function.comp_def]
  | .object [] =>
    rw [layout, List.cons_append, lex_mark rfl, List.cons_append, lex_mark rfl]
    simp [tokens, Function.comp_def]
  | .object ((key, value) :: members) =>
    have hclose : EndsNumber (newline depth ++ ('\x7d' :: rest)) := endsNumber_cons rfl
    simp only [layout, List.cons_append, List.append_assoc, List.nil_append]
    rw [lex_mark rfl, lex_newline, lex_quoted, lex_mark rfl, lex_silent .between rfl,
      lex_layout value (endsNumber_layoutMembers hclose), lex_layoutMembers members hclose,
      lex_newline, lex_mark rfl]
    simp [tokens, Function.comp_def]
termination_by structural value

theorem lex_layoutItems (items : List Json) {depth : Nat} {rest : List Char}
    (h : EndsNumber rest) : lex .between (layoutItems depth items ++ rest) =
      (lex .between rest).map (itemTokens items ++ ·) := by
  match items with
  | [] => simp [layoutItems, itemTokens]
  | item :: items =>
    simp only [layoutItems, List.cons_append, List.append_assoc]
    rw [lex_mark rfl, lex_newline, lex_layout item (endsNumber_layoutItems h),
      lex_layoutItems items h]
    simp [itemTokens, Function.comp_def]
termination_by structural items

theorem lex_layoutMembers (members : List (String × Json)) {depth : Nat} {rest : List Char}
    (h : EndsNumber rest) : lex .between (layoutMembers depth members ++ rest) =
      (lex .between rest).map (memberTokens members ++ ·) := by
  match members with
  | [] => simp [layoutMembers, memberTokens]
  | (key, value) :: members =>
    simp only [layoutMembers, List.cons_append, List.append_assoc, List.nil_append]
    rw [lex_mark rfl, lex_newline, lex_quoted, lex_mark rfl, lex_silent .between rfl,
      lex_layout value (endsNumber_layoutMembers h), lex_layoutMembers members h]
    simp [memberTokens, Function.comp_def]
termination_by structural members

end

end ImportCycles.Json
