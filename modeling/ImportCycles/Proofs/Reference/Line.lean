import ImportCycles.Reference
import ImportCycles.Proofs.Lists
import ImportCycles.Proofs.Statement.LineBreaks
/-!
Import statements as they are printed, each on a line of its own. Whatever words its clause and its
specifier hold, a line holds no statement but the one that it is the line of.
-/
namespace ImportCycles.Reference

open ImportKind (Shape)
open Statement (isQuote AreBlank IsStatement Leads Closes fromWord)

/-- No quote and no line break. -/
def IsPlain (cs : List Char) : Prop := ∀ c ∈ cs, isQuote c = false ∧ c ≠ '\n'

instance (cs : List Char) : Decidable (IsPlain cs) :=
  List.decidableBAll (fun c => isQuote c = false ∧ c ≠ '\n') cs

/-- An import statement on a line of its own. Only some kinds print the clause. -/
structure Line where
  kind : ImportKind
  clause : List Char
  quote : Char
  specifier : List Char
  plain_clause : IsPlain clause
  no_import : ¬ "import".toList <:+: clause
  no_export : ¬ "export".toList <:+: clause
  isQuote_quote : isQuote quote = true
  plain_specifier : IsPlain specifier

namespace Line

variable (l : Line)

def quoted : List Char := l.quote :: (l.specifier ++ [l.quote])

/-- The line as it is printed. -/
def text : List Char :=
  match l.kind with
  | .namedFrom => "import ".toList ++ l.clause ++ " from ".toList ++ l.quoted ++ [';']
  | .sideEffect => "import ".toList ++ l.quoted ++ [';']
  | .reExport => "export ".toList ++ l.clause ++ " from ".toList ++ l.quoted ++ [';']
  | .dynamic => "import(".toList ++ l.quoted ++ [')', ';']
  | .require => "require(".toList ++ l.quoted ++ [')', ';']

/-- What is printed between the keyword and the specifier's first quote. -/
def lead : List Char :=
  match l.kind.shape with
  | .clause => ' ' :: (l.clause ++ ' ' :: (fromWord ++ [' ']))
  | .plain => [' ']
  | .call => ['(']

/-- What is printed between the specifier's last quote and the semicolon. -/
def ending : List Char :=
  match l.kind.shape with
  | .call => [')']
  | _ => []

def statement : Statement :=
  ⟨l.kind.keyword ++ l.lead ++ [l.quote], l.specifier, l.quote :: l.ending⟩

theorem text_eq_statement : l.text = l.statement.text ++ [';'] := by
  cases hkind : l.kind <;>
    simp [text, quoted, statement, Statement.text, Line.lead, ending, hkind, ImportKind.keyword,
      ImportKind.shape, fromWord]

/-- The reference that the line stands for, with `offset` bytes before the line. -/
def reference (offset : Nat) : Reference :=
  ⟨l.kind, String.ofList l.specifier, offset + Text.Utf8.size l.statement.opening⟩

variable {l} {kind : ImportKind} {shape : Shape} {st : Statement}
  {front before suffix lead gap gap' more cs : List Char} {c c' : Char}

theorem newline_notMem_of_isPlain (h : IsPlain cs) : '\n' ∉ cs := fun hmem => (h _ hmem).2 rfl

theorem leads : Leads l.kind.shape l.lead := by
  have hgap : Statement.IsGap [' '] := ⟨by simp, by simp [AreBlank]; decide⟩
  have hnone : AreBlank [] := by simp [AreBlank]
  unfold Line.lead
  cases l.kind.shape with
  | clause =>
    have hline : '\n' ∉ l.clause ++ [' '] := by
      simp [newline_notMem_of_isPlain l.plain_clause]
    simpa using Leads.clause hgap hline hgap
  | plain => exact .plain hgap
  | call => exact Leads.call hnone hnone

theorem closes : Closes l.kind.shape l.ending := by
  have hnone : AreBlank [] := by simp [AreBlank]
  unfold ending
  cases l.kind.shape with
  | clause => exact .clause
  | plain => exact .plain
  | call => exact Closes.call hnone

theorem isStatement : IsStatement l.kind l.statement :=
  ⟨l.kind.keyword ++ l.lead, _, ⟨l.lead, leads, rfl⟩,
    .intro l.isQuote_quote (newline_notMem_of_isPlain l.plain_specifier) l.isQuote_quote closes, rfl⟩

theorem text_eq : l.text = l.kind.keyword ++ l.lead ++ l.quote ::
    (l.specifier ++ l.quote :: (l.ending ++ [';'])) := by
  simp [text_eq_statement, statement, Statement.text]

theorem countP_of_isPlain (h : IsPlain cs) : cs.countP isQuote = 0 :=
  List.countP_eq_zero.mpr fun c hc => by simp [(h c hc).1]

theorem countP_keyword : kind.keyword.countP isQuote = 0 := by
  cases kind <;> decide

theorem countP_lead : l.lead.countP isQuote = 0 := by
  have hclause := countP_of_isPlain l.plain_clause
  have hfrom : (' ' :: (fromWord ++ [' '])).countP isQuote = 0 := by decide
  unfold Line.lead
  cases l.kind.shape with
  | clause =>
    rw [← List.singleton_append, List.countP_append, List.countP_append, hclause, hfrom]
    decide
  | plain => rfl
  | call => rfl

theorem countP_ending : (l.ending ++ [';']).countP isQuote = 0 := by
  unfold ending
  cases l.kind.shape <;> decide

/-- The last character between keyword and quote that is not blank tells the shape. -/
def mark : Shape → Char
  | .clause => 'm'
  | .plain => 't'
  | .call => '('

theorem exists_mark (h : Leads kind.shape lead) :
    ∃ front gap, kind.keyword ++ lead = front ++ mark kind.shape :: gap ∧ AreBlank gap := by
  generalize hshape : kind.shape = shape at h ⊢
  cases h with
  | @clause gap clause space hgap hline hspace =>
    exact ⟨kind.keyword ++ gap ++ clause ++ ['f', 'r', 'o'], space, by simp [fromWord, mark], hspace.2⟩
  | plain hgap =>
    obtain rfl : kind = .sideEffect := by cases kind <;> simp [ImportKind.shape] at hshape ⊢
    exact ⟨['i', 'm', 'p', 'o', 'r'], lead, rfl, hgap.2⟩
  | @call before inside hbefore hinside =>
    exact ⟨kind.keyword ++ before, inside, by simp [mark], hinside⟩

theorem eq_of_append_blank {front' : List Char} (hgap : AreBlank gap) (hgap' : AreBlank gap')
    (hc : Text.isBlank c = false) (hc' : Text.isBlank c' = false)
    (h : front ++ c :: gap = front' ++ c' :: gap') : c = c' := by
  have hreverse : gap.reverse ++ c :: front.reverse = gap'.reverse ++ c' :: front'.reverse := by
    simpa using congrArg List.reverse h
  have hfirst := Lists.append_cons_inj_of_first (fun c => !Text.isBlank c)
    (fun b hb => by simp [hgap b (List.mem_reverse.mp hb)])
    (fun b hb => by simp [hgap' b (List.mem_reverse.mp hb)]) (by simp [hc]) (by simp [hc']) hreverse
  exact hfirst.2.1

/-- What stands before the quote that opens a specifier tells the shape of the statement. -/
theorem shape_eq_of_openings {other : ImportKind} {before' lead' : List Char}
    (hlead : Leads kind.shape lead) (hlead' : Leads other.shape lead')
    (h : before ++ (kind.keyword ++ lead) = before' ++ (other.keyword ++ lead')) :
    kind.shape = other.shape := by
  have hmark : ∀ shape, Text.isBlank (mark shape) = false := by
    intro shape
    cases shape <;> decide
  obtain ⟨front, gap, heq, hgap⟩ := exists_mark hlead
  obtain ⟨front', gap', heq', hgap'⟩ := exists_mark hlead'
  have hends : before ++ front ++ mark kind.shape :: gap =
      before' ++ front' ++ mark other.shape :: gap' := by
    rw [List.append_assoc, List.append_assoc, ← heq, ← heq', h]
  have hsame := eq_of_append_blank hgap hgap' (hmark _) (hmark _) hends
  revert hsame
  cases kind.shape <;> cases other.shape <;> decide

theorem shape_eq_of_leads (hlead : Leads kind.shape lead)
    (h : before ++ kind.keyword ++ lead = l.kind.keyword ++ l.lead) :
    kind.shape = l.kind.shape := by
  rw [List.append_assoc] at h
  exact shape_eq_of_openings hlead l.leads (h.trans (List.nil_append _).symm)

theorem keyword_not_in_tail {other : ImportKind} :
    ¬ kind.keyword <:+: other.keyword.tail ++ [' '] ∧
      ¬ kind.keyword <:+: other.keyword.tail ++ ['('] := by
  cases kind <;> cases other <;> decide

/-- A keyword that leads to the line's shape is nowhere behind the front of the line. -/
theorem keyword_not_behind (hshape : kind.shape = l.kind.shape) :
    ¬ kind.keyword <:+: l.kind.keyword.tail ++ l.lead := by
  intro h
  unfold Line.lead at h
  cases hl : l.kind.shape with
  | clause =>
    have hspace : ' ' ∉ kind.keyword := by cases kind <;> decide
    rw [hl] at h hshape
    rcases Lists.infix_append_cons hspace h with h | h
    · exact keyword_not_in_tail.1 (h.trans (List.prefix_append _ _).isInfix)
    rcases Lists.infix_append_cons hspace h with h | h
    · cases kind with
      | namedFrom => exact l.no_import h
      | reExport => exact l.no_export h
      | _ => simp [ImportKind.shape] at hshape
    · revert h
      cases kind <;> decide
  | plain =>
    rw [hl] at h
    exact keyword_not_in_tail.1 h
  | call =>
    rw [hl] at h
    exact keyword_not_in_tail.2 h

theorem kind_eq_of_keyword {other : ImportKind} (hshape : kind.shape = other.shape)
    (h : kind.keyword ++ front = other.keyword ++ more) : kind = other := by
  cases kind <;> cases other <;> simp [ImportKind.shape, ImportKind.keyword] at hshape h ⊢

/-- A statement can begin only where the line begins, and is of its kind. -/
theorem eq_of_leads (hlead : Leads kind.shape lead)
    (h : before ++ kind.keyword ++ lead = l.kind.keyword ++ l.lead) :
    before = [] ∧ kind = l.kind ∧ lead = l.lead := by
  have hshape := shape_eq_of_leads hlead h
  cases before with
  | nil =>
    obtain rfl := kind_eq_of_keyword hshape h
    exact ⟨rfl, rfl, List.append_cancel_left h⟩
  | cons c before =>
    have htail : before ++ kind.keyword ++ lead = l.kind.keyword.tail ++ l.lead := by
      have hne : l.kind.keyword ≠ [] := by cases l.kind <;> decide
      rw [← List.tail_append_of_ne_nil hne, ← h]
      rfl
    exact absurd ⟨before, lead, htail⟩ (keyword_not_behind hshape)

theorem countP_quoted {specifier : List Char} (hc : isQuote c = true) (hc' : isQuote c' = true) :
    (front ++ c :: (specifier ++ c' :: more)).countP isQuote =
      front.countP isQuote + specifier.countP isQuote + more.countP isQuote + 2 := by
  rw [List.countP_append, List.countP_cons_of_pos hc, List.countP_append, List.countP_cons_of_pos hc']
  omega

/-- In a line there is one statement only. -/
theorem eq_of_isStatement (hst : IsStatement kind st) (h : before ++ st.text ++ more = l.text) :
    before = [] ∧ kind = l.kind ∧ st.opening = l.statement.opening ∧
      st.specifier = l.specifier := by
  obtain ⟨-, -, ⟨lead, hlead, rfl⟩, @⟨q, q', specifier, ending, hq, hline, hq', hcloses⟩, rfl⟩ := hst
  have heq : before ++ kind.keyword ++ lead ++ q :: (specifier ++ q' :: (ending ++ more)) =
      l.kind.keyword ++ l.lead ++ l.quote :: (l.specifier ++ l.quote :: (l.ending ++ [';'])) := by
    rw [← text_eq, ← h]
    simp [Statement.text, Statement.after]
  -- The line has two quotes, so these are the quotes of the statement.
  have hhead : (l.kind.keyword ++ l.lead).countP isQuote = 0 := by
    rw [List.countP_append, countP_keyword, countP_lead]
  have hspecifier := countP_of_isPlain l.plain_specifier
  have hcount := congrArg (List.countP isQuote) heq
  rw [countP_quoted hq hq', countP_quoted l.isQuote_quote l.isQuote_quote, hhead, hspecifier,
    countP_ending] at hcount
  have hfront : (before ++ kind.keyword ++ lead).countP isQuote = 0 := by omega
  have hinside : specifier.countP isQuote = 0 := by omega
  obtain ⟨hleads, rfl, hrest⟩ := Lists.append_cons_inj_of_first isQuote
    (List.countP_eq_zero.mp hfront) (List.countP_eq_zero.mp hhead) hq l.isQuote_quote heq
  obtain ⟨rfl, -, -⟩ := Lists.append_cons_inj_of_first isQuote
    (List.countP_eq_zero.mp hinside) (List.countP_eq_zero.mp hspecifier) hq' l.isQuote_quote hrest
  obtain ⟨rfl, rfl, rfl⟩ := eq_of_leads hlead hleads
  exact ⟨rfl, rfl, rfl, rfl⟩

/-- A statement that begins in a line ends in it. -/
theorem prefix_of_prefix (hst : IsStatement kind st) (hsuffix : suffix ≠ [])
    (hl : before ++ suffix = l.text) (hmore : more = [] ∨ ∃ rest, more = '\n' :: rest)
    (h : st.text <+: suffix ++ more) : st.text <+: suffix := by
  rcases hmore with rfl | ⟨rest, rfl⟩
  · rwa [List.append_nil] at h
  have hlast : suffix.getLast? = some ';' := by
    have := congrArg List.getLast? hl
    rwa [List.getLast?_append_of_ne_nil _ hsuffix, text_eq_statement, List.getLast?_concat] at this
  refine hst.prefix_of_prefix (fun hopen => ?_) h
  rcases hopen.getLast? hlast with (hc | hc | hc) | hc <;> exact absurd hc (by decide)

/-- What is read in a line is the statement of the line, and it is read at its front. -/
theorem eq_of_atFront? (hsuffix : suffix ≠ []) (hl : before ++ suffix = l.text)
    (hmore : more = [] ∨ ∃ rest, more = '\n' :: rest)
    (h : Statement.atFront? kind (suffix ++ more) = some st) :
    before = [] ∧ kind = l.kind ∧ st.opening = l.statement.opening ∧
      st.specifier = l.specifier ∧ st.text.length ≤ l.text.length := by
  obtain ⟨hst, hstart⟩ := (Statement.reads_atFront? kind).sound h
  obtain ⟨rest, rfl⟩ := prefix_of_prefix hst hsuffix hl hmore hstart
  rw [← List.append_assoc] at hl
  obtain ⟨hbefore, hkind, hopening, hspecifier⟩ := eq_of_isStatement hst hl
  refine ⟨hbefore, hkind, hopening, hspecifier, ?_⟩
  rw [← hl, hbefore]
  simp

/-- No other statement is read in a line. -/
theorem atFront?_eq_none (hsuffix : suffix ≠ []) (hl : before ++ suffix = l.text)
    (hmore : more = [] ∨ ∃ rest, more = '\n' :: rest) (h : before ≠ [] ∨ l.kind ≠ kind) :
    Statement.atFront? kind (suffix ++ more) = none := by
  by_contra hsome
  obtain ⟨st, hst⟩ := Option.ne_none_iff_exists'.mp hsome
  obtain ⟨hbefore, hkind, -⟩ := eq_of_atFront? hsuffix hl hmore hst
  exact h.elim (· hbefore) (· hkind.symm)

theorem text_ne_nil : l.text ≠ [] := by
  simp [text_eq_statement]

theorem exists_atFront? (hmore : more = [] ∨ ∃ rest, more = '\n' :: rest) :
    ∃ st, Statement.atFront? l.kind (l.text ++ more) = some st ∧
      st.opening = l.statement.opening ∧ st.specifier = l.specifier ∧
      st.text.length ≤ l.text.length := by
  have hstart : l.statement.text <+: l.text ++ more := ⟨';' :: more, by simp [text_eq_statement]⟩
  obtain ⟨st, hst⟩ := Option.isSome_iff_exists.mp
    ((Statement.reads_atFront? l.kind).complete l.isStatement hstart)
  obtain ⟨-, -, hopening, hspecifier, hlength⟩ :=
    eq_of_atFront? text_ne_nil (List.nil_append _) hmore hst
  exact ⟨st, hst, hopening, hspecifier, hlength⟩

end Line

end ImportCycles.Reference
