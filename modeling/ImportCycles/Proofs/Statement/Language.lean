import ImportCycles.Statement
import Mathlib.Data.List.Infix
import Mathlib.Data.List.TakeWhile
/-!
The language of statements. What is read at the front of a text is a statement of it, and where a
text begins with a statement of it, one is read.
-/
namespace ImportCycles.Statement

open ImportKind (Shape)

def AreBlank (gap : List Char) : Prop := ∀ c ∈ gap, Text.isBlank c = true

def IsGap (gap : List Char) : Prop := gap ≠ [] ∧ AreBlank gap

/-- What may stand between the keyword and the quote that opens the specifier. -/
inductive Leads : Shape → List Char → Prop
  | clause {gap clause space : List Char} (hgap : IsGap gap) (line : '\n' ∉ clause)
      (hspace : IsGap space) : Leads .clause (gap ++ (clause ++ (fromWord ++ space)))
  | plain {gap : List Char} (hgap : IsGap gap) : Leads .plain gap
  | call {before inside : List Char} (hbefore : AreBlank before) (hinside : AreBlank inside) :
      Leads .call (before ++ '(' :: inside)

/-- What may follow the quote that closes the specifier. -/
inductive Closes : Shape → List Char → Prop
  | clause : Closes .clause []
  | plain : Closes .plain []
  | call {gap : List Char} (hgap : AreBlank gap) : Closes .call (gap ++ [')'])

/-- A quote with this text behind it can close a statement of the shape. -/
def CanClose (shape : Shape) (rest : List Char) : Prop :=
  ∃ ending, Closes shape ending ∧ ending <+: rest

/-- Of a text read from the opening quote on: the specifier, the quote that closes it, and the rest.
No quote before that one can close the statement. -/
structure EndsFirst (shape : Shape) (specifier : List Char) (q : Char) (rest : List Char) :
    Prop where
  quote : isQuote q = true
  line : '\n' ∉ specifier
  canClose : CanClose shape rest
  first : ∀ front c back, specifier = front ++ c :: back → isQuote c = true →
    ¬ CanClose shape (back ++ q :: rest)

/-- A statement from the quote that opens its specifier on. -/
inductive Quoted (shape : Shape) : Statement → Prop
  | intro {q q' : Char} {specifier ending : List Char} (hq : isQuote q = true)
      (line : '\n' ∉ specifier) (hq' : isQuote q' = true) (closes : Closes shape ending) :
      Quoted shape ⟨[q], specifier, q' :: ending⟩

/-- A quoted specifier, led to by text that `lead` describes. -/
def Led (lead : List Char → Prop) (shape : Shape) (st : Statement) : Prop :=
  ∃ front inner, lead front ∧ Quoted shape inner ∧ st = inner.after front

/-- A statement of this kind. -/
def IsStatement (kind : ImportKind) : Statement → Prop :=
  Led (fun front => ∃ lead, Leads kind.shape lead ∧ front = kind.keyword ++ lead) kind.shape

/-- What `read` finds at the front of a text is described by `P`, and where a text begins with what
`P` describes, it finds something. -/
structure Reads (read : List Char → Option Statement) (P : Statement → Prop) : Prop where
  sound : ∀ {cs st}, read cs = some st → P st ∧ st.text <+: cs
  complete : ∀ {cs st}, P st → st.text <+: cs → (read cs).isSome = true

variable {shape : Shape} {kind : ImportKind} {cs rest gap lead seen specifier ending : List Char}
  {st inner : Statement} {q c : Char} {read : List Char → Option Statement}
  {P : Statement → Prop}

@[simp] theorem text_after : (inner.after lead).text = lead ++ inner.text := by
  simp [text, after]

theorem after_after {front : List Char} :
    (inner.after lead).after front = inner.after (front ++ lead) := by
  simp [after]

theorem isBlank_of_isQuote (h : isQuote q = true) : Text.isBlank q = false := by
  simp only [isQuote, Bool.or_eq_true, decide_eq_true_eq] at h
  rcases h with rfl | rfl <;> decide

theorem ne_newline_of_isQuote (h : isQuote q = true) : q ≠ '\n' := by
  rintro rfl
  exact absurd h (by decide)

theorem areBlank_takeWhile : AreBlank (cs.takeWhile Text.isBlank) := by
  intro c hc
  exact List.mem_takeWhile_imp hc

theorem areBlank_append {space : List Char} (hgap : AreBlank gap) (hspace : AreBlank space) :
    AreBlank (gap ++ space) :=
  fun c hc => (List.mem_append.mp hc).elim (hgap c) (hspace c)

theorem dropWhile_blank (hgap : AreBlank gap) (hrest : ∀ c ∈ rest.head?, Text.isBlank c = false) :
    (gap ++ rest).dropWhile Text.isBlank = rest := by
  rw [List.dropWhile_append_of_pos hgap]
  cases rest with
  | nil => rfl
  | cons c rest => rw [List.dropWhile_cons_of_neg (by simp [hrest c rfl])]

theorem text_after_takeWhile (h : inner.text <+: cs.dropWhile Text.isBlank) :
    (inner.after (cs.takeWhile Text.isBlank)).text <+: cs := by
  obtain ⟨more, hmore⟩ := h
  refine ⟨more, ?_⟩
  rw [text_after, List.append_assoc, hmore, List.takeWhile_append_dropWhile]

theorem ending?_sound (h : ending? shape cs = some ending) :
    Closes shape ending ∧ ending <+: cs := by
  unfold ending? at h
  split at h
  · split at h
    · next rest hrest =>
      obtain rfl := Option.some.inj h
      refine ⟨.call areBlank_takeWhile, rest, ?_⟩
      have hsplit := List.takeWhile_append_dropWhile (p := Text.isBlank) (l := cs)
      rw [hrest] at hsplit
      simpa using hsplit
    · simp at h
  · next hshape =>
    obtain rfl := Option.some.inj h
    refine ⟨?_, List.nil_prefix⟩
    cases shape with
    | clause => exact .clause
    | plain => exact .plain
    | call => exact absurd rfl hshape

theorem ending?_complete (h : Closes shape ending) (hcs : ending <+: cs) :
    (ending? shape cs).isSome = true := by
  cases h with
  | clause => rfl
  | plain => rfl
  | call hgap =>
    obtain ⟨rest, rfl⟩ := hcs
    rw [List.append_assoc, ending?, dropWhile_blank hgap (by simp; decide)]
    rfl

theorem canClose_iff : CanClose shape cs ↔ (ending? shape cs).isSome = true := by
  constructor
  · rintro ⟨ending, hcloses, hcs⟩
    exact ending?_complete hcloses hcs
  · intro h
    obtain ⟨ending, hending⟩ := Option.isSome_iff_exists.mp h
    exact ⟨ending, ending?_sound hending⟩

/-- A character that does not close the statement belongs to the specifier. -/
theorem EndsFirst.cons (h : EndsFirst shape specifier q rest) (hc : c ≠ '\n')
    (hopen : isQuote c = true → ¬ CanClose shape (specifier ++ q :: rest)) :
    EndsFirst shape (c :: specifier) q rest where
  quote := h.quote
  line := by simpa [List.mem_cons, not_or] using ⟨hc.symm, h.line⟩
  canClose := h.canClose
  first front d back heq hd := by
    cases front with
    | nil =>
      obtain ⟨rfl, rfl⟩ := List.cons.inj heq
      exact hopen hd
    | cons a front => exact h.first front d back (List.cons.inj heq).2 hd

theorem specifierFrom_endsFirst (h : specifierFrom shape seen cs = some st) :
    ∃ specifier q ending more, st = ⟨[], seen.reverse ++ specifier, q :: ending⟩ ∧
      cs = specifier ++ q :: (ending ++ more) ∧ Closes shape ending ∧
      EndsFirst shape specifier q (ending ++ more) := by
  induction cs generalizing seen with
  | nil => simp [specifierFrom] at h
  | cons c rest ih =>
    have hmore : c ≠ '\n' → (isQuote c = true → ending? shape rest = none) →
        specifierFrom shape (c :: seen) rest = some st →
        ∃ specifier q ending more, st = ⟨[], seen.reverse ++ specifier, q :: ending⟩ ∧
          c :: rest = specifier ++ q :: (ending ++ more) ∧ Closes shape ending ∧
          EndsFirst shape specifier q (ending ++ more) := by
      intro hc hnone hst
      obtain ⟨specifier, q, ending, more, rfl, rfl, hcloses, hends⟩ := ih hst
      refine ⟨c :: specifier, q, ending, more, by simp, rfl, hcloses, hends.cons hc ?_⟩
      intro hquote hclose
      simp [canClose_iff, hnone hquote] at hclose
    simp only [specifierFrom] at h
    split at h
    · next hquote =>
      split at h
      · next ending hending =>
        obtain ⟨hcloses, more, rfl⟩ := ending?_sound hending
        refine ⟨[], c, ending, more, by simpa using (Option.some.inj h).symm, rfl, hcloses, ?_⟩
        exact ⟨hquote, by simp, ⟨ending, hcloses, List.prefix_append _ _⟩, by simp⟩
      · next hnone => exact hmore (ne_newline_of_isQuote hquote) (fun _ => hnone) h
    · next hquote =>
      split at h
      · simp at h
      · next hc => exact hmore hc (fun hq => absurd hq hquote) h

theorem specifierFrom_complete (hline : '\n' ∉ specifier) (hq : isQuote q = true)
    (hcloses : Closes shape ending) (hcs : specifier ++ q :: ending <+: cs) :
    (specifierFrom shape seen cs).isSome = true := by
  induction specifier generalizing cs seen with
  | nil =>
    obtain ⟨more, rfl⟩ := hcs
    obtain ⟨found, hfound⟩ :=
      Option.isSome_iff_exists.mp (ending?_complete hcloses (List.prefix_append ending more))
    simp [specifierFrom, hq, hfound]
  | cons c specifier ih =>
    obtain ⟨hc, hline⟩ := not_or.mp (List.mem_cons.not.mp hline)
    obtain ⟨more, rfl⟩ := hcs
    have hmore : (specifierFrom shape (c :: seen) (specifier ++ q :: ending ++ more)).isSome = true :=
      ih hline (List.prefix_append _ more)
    rw [List.cons_append, List.cons_append, specifierFrom]
    split
    · split
      · rfl
      · exact hmore
    · rwa [if_neg (Ne.symm hc)]

theorem reads_quoted? : Reads (quoted? shape) (Quoted shape) where
  sound {cs st} h := by
    cases cs with
    | nil => simp [quoted?] at h
    | cons q rest =>
      simp only [quoted?] at h
      split at h
      · next hq =>
        obtain ⟨inner, hinner, rfl⟩ := Option.map_eq_some_iff.mp h
        obtain ⟨specifier, q', ending, more, rfl, rfl, hcloses, hends⟩ := specifierFrom_endsFirst hinner
        exact ⟨.intro hq hends.line hends.quote hcloses, more, by simp [text, after]⟩
      · simp at h
  complete {cs st} h hcs := by
    obtain ⟨hq, hline, hq', hcloses⟩ := h
    obtain ⟨more, rfl⟩ := hcs
    simp only [text, List.cons_append, List.nil_append, quoted?, hq, if_true, Option.isSome_map]
    exact specifierFrom_complete hline hq' hcloses ⟨more, by simp⟩

/-- A fixed word, and then what `read` finds. -/
theorem Reads.afterWord (h : Reads read P) (word : List Char) :
    Reads (fun cs => match word.isPrefixOf? cs with
      | none => none
      | some rest => (read rest).map (after word))
      fun st => ∃ inner, P inner ∧ st = inner.after word where
  sound {cs st} hst := by
    split at hst
    · simp at hst
    · next rest hrest =>
      obtain ⟨inner, hinner, rfl⟩ := Option.map_eq_some_iff.mp hst
      obtain ⟨hp, hstart⟩ := h.sound hinner
      obtain rfl := List.isPrefixOf?_eq_some_iff_append_eq.mp hrest
      exact ⟨⟨inner, hp, rfl⟩, by simpa using hstart⟩
  complete {cs st} hst hcs := by
    obtain ⟨inner, hp, rfl⟩ := hst
    obtain ⟨more, rfl⟩ := hcs
    have hrest : word.isPrefixOf? ((inner.after word).text ++ more) = some (inner.text ++ more) := by
      rw [List.isPrefixOf?_eq_some_iff_append_eq]
      simp
    simp only [hrest, Option.isSome_map]
    exact h.complete hp (List.prefix_append _ more)

/-- Blanks at the front of what `P` describes can be taken off it. -/
def Unindents (P : Statement → Prop) : Prop :=
  ∀ st, P st → ∃ gap inner, AreBlank gap ∧ P inner ∧ st = inner.after gap ∧
    ∃ c ∈ inner.text.head?, Text.isBlank c = false

theorem unindents_quoted : Unindents (Quoted shape) := by
  intro st hst
  refine ⟨[], st, by simp [AreBlank], hst, rfl, ?_⟩
  obtain ⟨hq, -, -, -⟩ := hst
  exact ⟨_, rfl, isBlank_of_isQuote hq⟩

/-- Blanks, and then what `read` finds. -/
theorem Reads.afterBlanks (h : Reads read P) (hp : Unindents P) :
    Reads (fun cs => (read (cs.dropWhile Text.isBlank)).map (after (cs.takeWhile Text.isBlank)))
      fun st => ∃ gap inner, AreBlank gap ∧ P inner ∧ st = inner.after gap where
  sound {cs st} hst := by
    obtain ⟨inner, hinner, rfl⟩ := Option.map_eq_some_iff.mp hst
    obtain ⟨hp, hstart⟩ := h.sound hinner
    exact ⟨⟨_, inner, areBlank_takeWhile, hp, rfl⟩, text_after_takeWhile hstart⟩
  complete {cs st} hst hcs := by
    obtain ⟨gap, outer, hgap, houter, rfl⟩ := hst
    obtain ⟨gap', inner, hgap', hinner, rfl, c, hc, hblank⟩ := hp outer houter
    obtain ⟨more, rfl⟩ := hcs
    obtain ⟨rest, hrest⟩ := List.head?_eq_some_iff.mp hc
    have hdrop : (((inner.after gap').after gap).text ++ more).dropWhile Text.isBlank =
        inner.text ++ more := by
      rw [after_after, text_after, List.append_assoc]
      exact dropWhile_blank (areBlank_append hgap hgap') (by simp [hrest, hblank])
    rw [Option.isSome_map, hdrop]
    exact h.complete hinner (List.prefix_append _ more)

/-- At least one blank, and then what `read` finds. -/
theorem Reads.afterGap (h : Reads read P) (hp : Unindents P) :
    Reads (fun cs => if cs.head?.any Text.isBlank then
        (read (cs.dropWhile Text.isBlank)).map (after (cs.takeWhile Text.isBlank))
      else none)
      fun st => ∃ gap inner, IsGap gap ∧ P inner ∧ st = inner.after gap where
  sound {cs st} hst := by
    split at hst
    · next hhead =>
      obtain ⟨inner, hinner, rfl⟩ := Option.map_eq_some_iff.mp hst
      obtain ⟨hp, hstart⟩ := h.sound hinner
      have hne : cs.takeWhile Text.isBlank ≠ [] := by
        cases cs with
        | nil => simp at hhead
        | cons c cs =>
          have hc : Text.isBlank c = true := by simpa using hhead
          simp [hc]
      exact ⟨⟨_, inner, ⟨hne, areBlank_takeWhile⟩, hp, rfl⟩, text_after_takeWhile hstart⟩
    · simp at hst
  complete {cs st} hst hcs := by
    obtain ⟨gap, inner, ⟨hne, hgap⟩, hinner, rfl⟩ := hst
    have hsome := (h.afterBlanks hp).complete ⟨gap, inner, hgap, hinner, rfl⟩ hcs
    obtain ⟨c, gap, rfl⟩ := List.exists_cons_of_ne_nil hne
    obtain ⟨more, rfl⟩ := hcs
    have hhead : (((inner.after (c :: gap)).text ++ more).head?.any Text.isBlank) = true := by
      simpa using hgap c (by simp)
    rw [if_pos hhead]
    exact hsome

theorem Reads.congr {P' : Statement → Prop} (h : Reads read P) (hp : ∀ st, P st ↔ P' st) :
    Reads read P' where
  sound hst := ⟨(hp _).mp (h.sound hst).1, (h.sound hst).2⟩
  complete hst hcs := h.complete ((hp _).mpr hst) hcs

theorem reads_spacedQuoted? : Reads (spacedQuoted? shape) (Led AreBlank shape) :=
  reads_quoted?.afterBlanks unindents_quoted

theorem source?_eq : source? = fun cs => match fromWord.isPrefixOf? cs with
    | none => none
    | some rest => (if rest.head?.any Text.isBlank then spacedQuoted? .clause rest else none).map
        (after fromWord) := by
  funext cs
  unfold source?
  cases fromWord.isPrefixOf? cs with
  | none => rfl
  | some rest => dsimp only; split <;> rfl

theorem reads_source? :
    Reads source? (Led (fun lead => ∃ gap, IsGap gap ∧ lead = fromWord ++ gap) .clause) := by
  have hquoted : Reads (quoted? .clause) (Quoted .clause) := reads_quoted?
  have h := (hquoted.afterGap unindents_quoted).afterWord fromWord
  rw [source?_eq]
  refine h.congr fun st => ?_
  constructor
  · rintro ⟨-, ⟨gap, inner, hgap, hinner, rfl⟩, rfl⟩
    exact ⟨_, inner, ⟨gap, hgap, rfl⟩, hinner, after_after⟩
  · rintro ⟨-, inner, ⟨gap, hgap, rfl⟩, hinner, rfl⟩
    exact ⟨_, ⟨gap, inner, hgap, hinner, rfl⟩, after_after.symm⟩

/-- A clause on one line, the word `from` and a gap. -/
def IsClause (lead : List Char) : Prop :=
  ∃ clause gap, '\n' ∉ clause ∧ IsGap gap ∧ lead = clause ++ (fromWord ++ gap)

theorem clauseFrom_sound (h : clauseFrom seen cs = some st) :
    ∃ inner, Led IsClause .clause inner ∧ st = inner.after seen.reverse ∧ inner.text <+: cs := by
  induction cs generalizing seen with
  | nil => simp [clauseFrom] at h
  | cons c rest ih =>
    simp only [clauseFrom] at h
    split at h
    · next found hfound =>
      obtain rfl := Option.some.inj h
      obtain ⟨⟨-, inner, ⟨gap, hgap, rfl⟩, hinner, rfl⟩, hstart⟩ := reads_source?.sound hfound
      exact ⟨_, ⟨_, inner, ⟨[], gap, by simp, hgap, rfl⟩, hinner, rfl⟩, rfl, hstart⟩
    · split at h
      · simp at h
      · next hc =>
        obtain ⟨-, ⟨-, inner, ⟨clause, gap, hline, hgap, rfl⟩, hinner, rfl⟩, rfl, hstart⟩ := ih h
        refine ⟨_, ⟨_, inner, ⟨c :: clause, gap, ?_, hgap, rfl⟩, hinner, rfl⟩, ?_, ?_⟩
        · simpa [List.mem_cons, not_or] using ⟨Ne.symm hc, hline⟩
        · simp [after_after]
        · simpa using hstart

theorem clauseFrom_complete (h : Led IsClause .clause st) (hcs : st.text <+: cs) :
    (clauseFrom seen cs).isSome = true := by
  obtain ⟨-, inner, ⟨clause, gap, hline, hgap, rfl⟩, hinner, rfl⟩ := h
  induction clause generalizing cs seen with
  | nil =>
    have hsome : (source? cs).isSome = true :=
      reads_source?.complete ⟨_, inner, ⟨gap, hgap, rfl⟩, hinner, rfl⟩ hcs
    cases cs with
    | nil => simp [show source? [] = none from rfl] at hsome
    | cons c rest =>
      obtain ⟨found, hfound⟩ := Option.isSome_iff_exists.mp hsome
      simp [clauseFrom, hfound]
  | cons c clause ih =>
    obtain ⟨hc, hline⟩ := not_or.mp (List.mem_cons.not.mp hline)
    obtain ⟨more, rfl⟩ := hcs
    rw [text_after, List.cons_append, List.cons_append, List.cons_append, clauseFrom]
    split
    · rfl
    · rw [if_neg (Ne.symm hc)]
      exact ih hline ⟨more, by simp⟩

theorem reads_clauseFrom : Reads (clauseFrom []) (Led IsClause .clause) where
  sound h := by
    obtain ⟨inner, hinner, rfl, hstart⟩ := clauseFrom_sound h
    exact ⟨hinner, hstart⟩
  complete := clauseFrom_complete

theorem unindents_clause : Unindents (Led IsClause .clause) := by
  rintro - ⟨-, inner, ⟨clause, gap, hline, hgap, rfl⟩, hinner, rfl⟩
  have hsplit := List.takeWhile_append_dropWhile (p := Text.isBlank) (l := clause)
  refine ⟨clause.takeWhile Text.isBlank, _, areBlank_takeWhile,
    ⟨_, inner, ⟨clause.dropWhile Text.isBlank, gap, ?_, hgap, rfl⟩, hinner, rfl⟩, ?_, ?_⟩
  · exact fun h => hline (List.dropWhile_suffix _ |>.subset h)
  · rw [after_after, ← List.append_assoc (clause.takeWhile Text.isBlank), hsplit]
  · cases hclause : clause.dropWhile Text.isBlank with
    | nil => exact ⟨'f', by simp [fromWord], by decide⟩
    | cons c rest =>
      refine ⟨c, by simp, ?_⟩
      have := List.head?_dropWhile_not Text.isBlank clause
      rw [hclause] at this
      simpa using this

theorem tail?_call_eq : tail? .call = fun cs =>
    (match ['('].isPrefixOf? (cs.dropWhile Text.isBlank) with
      | none => none
      | some rest => (spacedQuoted? .call rest).map (after ['('])).map
      (after (cs.takeWhile Text.isBlank)) := by
  funext cs
  simp only [tail?]
  cases cs.dropWhile Text.isBlank with
  | nil => rfl
  | cons c rest =>
    by_cases hc : '(' = c
    · subst hc
      simp [List.isPrefixOf?, Function.comp_def, after_after]
    · simp [List.isPrefixOf?, hc, Ne.symm hc]

theorem unindents_paren : Unindents fun st =>
    ∃ inner, Led AreBlank .call inner ∧ st = inner.after ['('] := by
  rintro - ⟨inner, hinner, rfl⟩
  exact ⟨[], _, by simp [AreBlank], ⟨inner, hinner, rfl⟩, rfl, '(', by simp, by decide⟩

theorem reads_tail? : ∀ shape, Reads (tail? shape) (Led (Leads shape) shape)
  | .clause => by
    refine (reads_clauseFrom.afterGap unindents_clause).congr fun st => ?_
    constructor
    · rintro ⟨gap, -, hgap, ⟨-, inner, ⟨clause, space, hline, hspace, rfl⟩, hinner, rfl⟩, rfl⟩
      exact ⟨_, inner, .clause hgap hline hspace, hinner, after_after⟩
    · rintro ⟨lead, inner, hlead, hinner, rfl⟩
      cases hlead with
      | clause hgap hline hspace =>
        exact ⟨_, _, hgap, ⟨_, inner, ⟨_, _, hline, hspace, rfl⟩, hinner, rfl⟩, after_after.symm⟩
  | .plain => by
    have hquoted : Reads (quoted? .plain) (Quoted .plain) := reads_quoted?
    refine (hquoted.afterGap unindents_quoted).congr fun st => ?_
    constructor
    · rintro ⟨gap, inner, hgap, hinner, rfl⟩
      exact ⟨gap, inner, .plain hgap, hinner, rfl⟩
    · rintro ⟨gap, inner, hlead, hinner, rfl⟩
      cases hlead with
      | plain hgap => exact ⟨gap, inner, hgap, hinner, rfl⟩
  | .call => by
    have hspaced : Reads (spacedQuoted? .call) (Led AreBlank .call) := reads_spacedQuoted?
    have h := (hspaced.afterWord ['(']).afterBlanks unindents_paren
    rw [tail?_call_eq]
    refine h.congr fun st => ?_
    constructor
    · rintro ⟨before, -, hbefore, ⟨-, ⟨inside, inner, hinside, hinner, rfl⟩, rfl⟩, rfl⟩
      exact ⟨_, inner, .call hbefore hinside, hinner, by simp [after_after]⟩
    · rintro ⟨lead, inner, hlead, hinner, rfl⟩
      cases hlead with
      | call hbefore hinside =>
        exact ⟨_, _, hbefore, ⟨_, ⟨_, inner, hinside, hinner, rfl⟩, rfl⟩, by simp [after_after]⟩

/-- What is read at the front of a text is a statement, and where a text begins with a statement,
one is read. -/
theorem reads_atFront? (kind : ImportKind) : Reads (atFront? kind) (IsStatement kind) := by
  refine ((reads_tail? kind.shape).afterWord kind.keyword).congr fun st => ?_
  constructor
  · rintro ⟨-, ⟨lead, inner, hlead, hinner, rfl⟩, rfl⟩
    exact ⟨_, inner, ⟨lead, hlead, rfl⟩, hinner, after_after⟩
  · rintro ⟨-, inner, ⟨lead, hlead, rfl⟩, hinner, rfl⟩
    exact ⟨_, ⟨lead, inner, hlead, hinner, rfl⟩, after_after.symm⟩

end ImportCycles.Statement
