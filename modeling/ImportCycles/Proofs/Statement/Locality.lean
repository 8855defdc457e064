import ImportCycles.Proofs.Lists
import ImportCycles.Proofs.Statement.LineBreaks
/-!
What is read at the front of a text depends on no more of it than the statement takes up. So a text
is read alike with and without more lines behind it, unless the text has an open end.
-/
namespace ImportCycles.Statement

open ImportKind (Shape)

/-- A statement that `read` finds at the front of a text is found there as well when the text is
shorter and still holds it. -/
def IsLocal (read : List Char → Option Statement) : Prop :=
  ∀ ⦃cs more st⦄, read (cs ++ more) = some st → st.text <+: cs → read cs = some st

variable {shape : Shape} {kind : ImportKind}
  {cs more rest front gap seen ending ending' : List Char} {st inner : Statement}
  {read : List Char → Option Statement} {P : Statement → Prop}

theorem Reads.eq_none_of_append (h : Reads read P) (hnone : read (cs ++ more) = none) :
    read cs = none := by
  by_contra hsome
  obtain ⟨st, hst⟩ := Option.ne_none_iff_exists'.mp hsome
  obtain ⟨hp, hstart⟩ := h.sound hst
  have hlonger := h.complete hp (hstart.trans (List.prefix_append cs more))
  rw [hnone] at hlonger
  simp at hlonger

/-- A text holds one closing of a shape only. -/
theorem Closes.unique (h : Closes shape ending) (h' : Closes shape ending') (hcs : ending <+: cs)
    (hcs' : ending' <+: cs) : ending = ending' := by
  cases h with
  | clause => cases h'; rfl
  | plain => cases h'; rfl
  | @call gap hgap =>
    cases h' with
    | @call gap' hgap' =>
      obtain ⟨rest, rfl⟩ := hcs
      obtain ⟨rest', heq⟩ := hcs'
      have hparen : (!Text.isBlank ')') = true := by decide
      have hsame : gap ++ ')' :: rest = gap' ++ ')' :: rest' := by simpa using heq.symm
      obtain ⟨rfl, -, -⟩ := Lists.append_cons_inj_of_first (fun c => !Text.isBlank c)
        (fun b hb => by simp [hgap b hb]) (fun b hb => by simp [hgap' b hb]) hparen hparen hsame
      rfl

theorem ending?_local (h : ending? shape (cs ++ more) = some ending) (hcs : ending <+: cs) :
    ending? shape cs = some ending := by
  obtain ⟨hcloses, -⟩ := ending?_sound h
  obtain ⟨ending', hread⟩ := Option.isSome_iff_exists.mp (ending?_complete hcloses hcs)
  obtain ⟨hcloses', hcs'⟩ := ending?_sound hread
  rw [hread, hcloses.unique hcloses' hcs hcs']

theorem ending?_eq_none_of_append (h : ending? shape (cs ++ more) = none) :
    ending? shape cs = none := by
  by_contra hsome
  obtain ⟨ending, hending⟩ := Option.ne_none_iff_exists'.mp hsome
  obtain ⟨hcloses, hcs⟩ := ending?_sound hending
  have hlonger := ending?_complete hcloses (hcs.trans (List.prefix_append cs more))
  rw [h] at hlonger
  simp at hlonger

theorem specifierFrom_local (h : specifierFrom shape seen (cs ++ more) = some st)
    (hcs : st.text <+: seen.reverse ++ cs) : specifierFrom shape seen cs = some st := by
  induction cs generalizing seen with
  | nil =>
    -- Beyond what was seen a statement holds at least the quote that closes it.
    obtain ⟨specifier, q, ending, -, rfl, -⟩ := specifierFrom_endsFirst h
    have hlength := hcs.length_le
    simp only [text, List.nil_append, List.length_append, List.length_reverse, List.append_nil,
      List.length_cons] at hlength
    omega
  | cons c cs ih =>
    have hseen : (c :: seen).reverse ++ cs = seen.reverse ++ c :: cs := by simp
    rw [List.cons_append, specifierFrom] at h
    rw [specifierFrom]
    split at h
    · next hquote =>
      rw [if_pos hquote]
      split at h
      · next ending hending =>
        obtain rfl := Option.some.inj h
        have hprefix : c :: ending <+: c :: cs := by simpa [text] using hcs
        rw [ending?_local hending (List.cons_prefix_cons.mp hprefix).2]
      · next hnone =>
        rw [ending?_eq_none_of_append hnone]
        exact ih h (hseen ▸ hcs)
    · next hquote =>
      rw [if_neg hquote]
      split at h
      · simp at h
      · next hc =>
        rw [if_neg hc]
        exact ih h (hseen ▸ hcs)

theorem isLocal_quoted? : IsLocal (quoted? shape) := by
  intro cs more st h hcs
  cases cs with
  | nil =>
    obtain ⟨⟨-, -, -, -⟩, -⟩ := reads_quoted?.sound h
    simp [text] at hcs
  | cons q cs =>
    simp only [List.cons_append, quoted?] at h ⊢
    split at h
    · next hq =>
      obtain ⟨inner, hinner, rfl⟩ := Option.map_eq_some_iff.mp h
      rw [text_after, List.singleton_append] at hcs
      rw [if_pos hq, specifierFrom_local hinner (List.cons_prefix_cons.mp hcs).2]
      rfl
    · simp at h

theorem IsLocal.afterWord (h : IsLocal read) (word : List Char) :
    IsLocal fun cs => match word.isPrefixOf? cs with
      | none => none
      | some rest => (read rest).map (after word) := by
  intro cs more st hst hcs
  dsimp only at hst ⊢
  split at hst
  · simp at hst
  · next rest hrest =>
    obtain ⟨inner, hinner, rfl⟩ := Option.map_eq_some_iff.mp hst
    rw [text_after] at hcs
    obtain ⟨between, rfl⟩ := hcs
    have hword : word ++ rest = word ++ (inner.text ++ between ++ more) := by
      rw [List.isPrefixOf?_eq_some_iff_append_eq.mp hrest]
      simp
    have hshorter : word.isPrefixOf? (word ++ inner.text ++ between) =
        some (inner.text ++ between) := by
      rw [List.isPrefixOf?_eq_some_iff_append_eq, List.append_assoc]
    rw [List.append_cancel_left hword] at hinner
    rw [hshorter]
    simp only [h hinner (List.prefix_append _ _), Option.map_some]

theorem takeWhile_blank (hgap : AreBlank gap) (hrest : ∀ c ∈ rest.head?, Text.isBlank c = false) :
    (gap ++ rest).takeWhile Text.isBlank = gap := by
  rw [List.takeWhile_append_of_pos hgap]
  cases rest with
  | nil => simp
  | cons c rest => rw [List.takeWhile_cons_of_neg (by simp [hrest c rfl]), List.append_nil]

/-- What is read behind blanks does not begin with another one. -/
theorem head?_not_blank (rest : List Char) (hinner : inner.text ≠ [])
    (h : inner.text <+: cs.dropWhile Text.isBlank) :
    ∀ c ∈ (inner.text ++ rest).head?, Text.isBlank c = false := by
  intro c hc
  obtain ⟨d, ds, htext⟩ := List.exists_cons_of_ne_nil hinner
  obtain ⟨more, hmore⟩ := h
  have hfirst := List.head?_dropWhile_not Text.isBlank cs
  rw [← hmore, htext] at hfirst
  obtain rfl : d = c := by simpa [htext] using hc
  simpa using hfirst

theorem Unindents.text_ne_nil (hp : Unindents P) (h : P st) : st.text ≠ [] := by
  obtain ⟨gap, inner, -, -, rfl, c, hc, -⟩ := hp st h
  obtain ⟨rest, hrest⟩ := List.head?_eq_some_iff.mp hc
  simp [hrest]

theorem IsLocal.afterBlanks (h : IsLocal read) (hread : Reads read P) (hp : Unindents P) :
    IsLocal fun cs =>
      (read (cs.dropWhile Text.isBlank)).map (after (cs.takeWhile Text.isBlank)) := by
  intro cs more st hst hcs
  obtain ⟨inner, hinner, rfl⟩ := Option.map_eq_some_iff.mp hst
  obtain ⟨hpinner, hstart⟩ := hread.sound hinner
  have hhead := fun rest => head?_not_blank rest (hp.text_ne_nil hpinner) hstart
  obtain ⟨gap, hgap⟩ : ∃ gap, (cs ++ more).takeWhile Text.isBlank = gap := ⟨_, rfl⟩
  have hblank : AreBlank gap := hgap ▸ areBlank_takeWhile
  have hsplit : gap ++ (cs ++ more).dropWhile Text.isBlank = cs ++ more :=
    hgap ▸ List.takeWhile_append_dropWhile
  rw [hgap] at hcs ⊢
  obtain ⟨between, hcs⟩ := hcs
  rw [text_after, List.append_assoc] at hcs
  have hdrop : (cs ++ more).dropWhile Text.isBlank = inner.text ++ between ++ more := by
    refine List.append_cancel_left (hsplit.trans ?_)
    rw [← hcs]
    simp
  rw [hdrop] at hinner
  have hshorter := h hinner (List.prefix_append _ _)
  simp only [← hcs, dropWhile_blank hblank (hhead _), takeWhile_blank hblank (hhead _),
    hshorter, Option.map_some]

theorem IsLocal.afterGap (h : IsLocal read) (hread : Reads read P) (hp : Unindents P) :
    IsLocal fun cs => if cs.head?.any Text.isBlank then
        (read (cs.dropWhile Text.isBlank)).map (after (cs.takeWhile Text.isBlank))
      else none := by
  intro cs more st hst hcs
  dsimp only at hst ⊢
  split at hst
  · next hblank =>
    have hshorter := (h.afterBlanks hread hp) hst hcs
    cases cs with
    | nil =>
      obtain ⟨inner, hinner, rfl⟩ := Option.map_eq_some_iff.mp hst
      have hempty := List.prefix_nil.mp hcs
      rw [text_after, List.append_eq_nil_iff] at hempty
      exact absurd hempty.2 (hp.text_ne_nil (hread.sound hinner).1)
    | cons c cs =>
      have hc : (c :: cs).head?.any Text.isBlank = true := hblank
      rwa [if_pos hc]
  · simp at hst

theorem isLocal_spacedQuoted? : IsLocal (spacedQuoted? shape) :=
  isLocal_quoted?.afterBlanks reads_quoted? unindents_quoted

theorem isLocal_source? : IsLocal source? := by
  have hquoted : IsLocal (quoted? .clause) := isLocal_quoted?
  rw [source?_eq]
  exact (hquoted.afterGap reads_quoted? unindents_quoted).afterWord fromWord

theorem clauseFrom_local (h : clauseFrom seen (cs ++ more) = some st)
    (hcs : st.text <+: seen.reverse ++ cs) : clauseFrom seen cs = some st := by
  induction cs generalizing seen with
  | nil =>
    obtain ⟨inner, hinner, rfl, -⟩ := clauseFrom_sound h
    have hempty : inner.text = [] := by
      have hlength := hcs.length_le
      rw [text_after, List.length_append, List.append_nil] at hlength
      exact List.eq_nil_of_length_eq_zero (by omega)
    exact absurd hempty (unindents_clause.text_ne_nil hinner)
  | cons c cs ih =>
    rw [List.cons_append, clauseFrom] at h
    rw [clauseFrom]
    split at h
    · next found hfound =>
      obtain rfl := Option.some.inj h
      rw [text_after] at hcs
      have hread : source? (c :: cs ++ more) = some found := hfound
      simp only [isLocal_source? hread ((List.prefix_append_right_inj _).mp hcs)]
    · next hnone =>
      have hread : source? (c :: cs ++ more) = none := hnone
      simp only [reads_source?.eq_none_of_append hread]
      split at h
      · simp at h
      · next hc =>
        rw [if_neg hc]
        exact ih h (by simpa using hcs)

theorem isLocal_clauseFrom : IsLocal (clauseFrom []) :=
  fun _ _ _ h hcs => clauseFrom_local h hcs

theorem isLocal_tail? : ∀ shape, IsLocal (tail? shape)
  | .clause => isLocal_clauseFrom.afterGap reads_clauseFrom unindents_clause
  | .plain => isLocal_quoted?.afterGap reads_quoted? unindents_quoted
  | .call => by
    have hspaced : IsLocal (spacedQuoted? .call) := isLocal_spacedQuoted?
    have hread : Reads (spacedQuoted? .call) (Led AreBlank .call) := reads_spacedQuoted?
    rw [tail?_call_eq]
    exact (hspaced.afterWord ['(']).afterBlanks (hread.afterWord ['(']) unindents_paren

theorem isLocal_atFront? (kind : ImportKind) : IsLocal (atFront? kind) :=
  (isLocal_tail? kind.shape).afterWord kind.keyword

/-- More lines behind a text without an open end do not change what is read at its front. -/
theorem atFront?_append_newline (hclosed : ¬ EndsOpen cs) :
    atFront? kind (cs ++ '\n' :: more) = atFront? kind cs := by
  cases hread : atFront? kind (cs ++ '\n' :: more) with
  | none => exact ((reads_atFront? kind).eq_none_of_append hread).symm
  | some st =>
    obtain ⟨hst, hstart⟩ := (reads_atFront? kind).sound hread
    exact (isLocal_atFront? kind hread (hst.prefix_of_prefix hclosed hstart)).symm

end ImportCycles.Statement
