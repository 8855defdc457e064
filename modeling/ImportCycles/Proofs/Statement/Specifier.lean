import ImportCycles.Proofs.Statement.Language
/-!
Where the specifier of a statement ends: at the first quote of either kind that can close the
statement, whichever quote opened it.
-/
namespace ImportCycles.Statement

open ImportKind (Shape)

/-- Further on in the text stands a quoted specifier, and the statement is all up to its end. -/
def Finds (shape : Shape) (cs : List Char) (st : Statement) : Prop :=
  ∃ front rest inner, cs = front ++ rest ∧ quoted? shape rest = some inner ∧ st = inner.after front

variable {shape : Shape} {kind : ImportKind} {cs rest front seen specifier specifier' : List Char}
  {st : Statement} {q q' : Char} {rest' : List Char}

theorem finds_quoted? (h : quoted? shape cs = some st) : Finds shape cs st :=
  ⟨[], cs, st, rfl, h, rfl⟩

theorem Finds.after (front : List Char) (h : Finds shape rest st) : Finds shape (front ++ rest) (st.after front) := by
  obtain ⟨between, rest, inner, rfl, hinner, rfl⟩ := h
  exact ⟨front ++ between, rest, inner, by simp, hinner, after_after⟩

theorem finds_spacedQuoted? (h : spacedQuoted? shape cs = some st) : Finds shape cs st := by
  obtain ⟨inner, hinner, rfl⟩ := Option.map_eq_some_iff.mp h
  have hfinds := (finds_quoted? hinner).after (cs.takeWhile Text.isBlank)
  rwa [List.takeWhile_append_dropWhile] at hfinds

theorem finds_source? (h : source? cs = some st) : Finds .clause cs st := by
  simp only [source?] at h
  split at h
  · simp at h
  · next rest hrest =>
    obtain rfl := List.isPrefixOf?_eq_some_iff_append_eq.mp hrest
    split at h
    · obtain ⟨inner, hinner, rfl⟩ := Option.map_eq_some_iff.mp h
      exact (finds_spacedQuoted? hinner).after _
    · simp at h

theorem finds_clauseFrom (h : clauseFrom seen cs = some st) :
    ∃ inner, Finds .clause cs inner ∧ st = inner.after seen.reverse := by
  induction cs generalizing seen with
  | nil => simp [clauseFrom] at h
  | cons c rest ih =>
    simp only [clauseFrom] at h
    split at h
    · next inner hinner => exact ⟨inner, finds_source? hinner, (Option.some.inj h).symm⟩
    · split at h
      · simp at h
      · obtain ⟨inner, hinner, rfl⟩ := ih h
        refine ⟨inner.after [c], hinner.after [c], ?_⟩
        simp [after_after]

theorem finds_tail? : ∀ {shape}, tail? shape cs = some st → Finds shape cs st
  | .clause, h => by
    simp only [tail?] at h
    split at h
    · obtain ⟨outer, houter, rfl⟩ := Option.map_eq_some_iff.mp h
      obtain ⟨inner, hinner, rfl⟩ := finds_clauseFrom houter
      have hfinds := hinner.after (cs.takeWhile Text.isBlank)
      rwa [List.takeWhile_append_dropWhile] at hfinds
    · simp at h
  | .plain, h => by
    simp only [tail?] at h
    split at h
    · exact finds_spacedQuoted? h
    · simp at h
  | .call, h => by
    simp only [tail?] at h
    split at h
    · next rest hrest =>
      obtain ⟨inner, hinner, rfl⟩ := Option.map_eq_some_iff.mp h
      have hfinds := (finds_spacedQuoted? hinner).after
        (cs.takeWhile Text.isBlank ++ ['('])
      rwa [List.append_assoc, List.singleton_append, ← hrest,
        List.takeWhile_append_dropWhile] at hfinds
    · simp at h

theorem finds_atFront? (h : atFront? kind cs = some st) : Finds kind.shape cs st := by
  simp only [atFront?] at h
  split at h
  · simp at h
  · next rest hrest =>
    obtain rfl := List.isPrefixOf?_eq_some_iff_append_eq.mp hrest
    obtain ⟨inner, hinner, rfl⟩ := Option.map_eq_some_iff.mp h
    exact (finds_tail? hinner).after _

/-- What is read at the front of a text ends at the first quote that can close it. -/
theorem endsFirst_of_atFront? (h : atFront? kind cs = some st) :
    ∃ front q q' rest, cs = front ++ q :: (st.specifier ++ q' :: rest) ∧
      st.opening = front ++ [q] ∧ isQuote q = true ∧
      EndsFirst kind.shape st.specifier q' rest := by
  obtain ⟨front, rest, inner, rfl, hinner, rfl⟩ := finds_atFront? h
  cases rest with
  | nil => simp [quoted?] at hinner
  | cons q rest =>
    simp only [quoted?] at hinner
    split at hinner
    · next hq =>
      obtain ⟨found, hfound, rfl⟩ := Option.map_eq_some_iff.mp hinner
      obtain ⟨specifier, q', ending, more, rfl, rfl, -, hends⟩ := specifierFrom_endsFirst hfound
      exact ⟨front, q, q', ending ++ more, rfl, rfl, hq, hends⟩
    · simp at hinner

/-- A text holds one first quote only that can close the statement. -/
theorem EndsFirst.unique (h : EndsFirst shape specifier q rest)
    (h' : EndsFirst shape specifier' q' rest')
    (heq : specifier ++ q :: rest = specifier' ++ q' :: rest') :
    specifier = specifier' ∧ q = q' ∧ rest = rest' := by
  rcases List.append_eq_append_iff.mp heq with ⟨between, rfl, hrest⟩ | ⟨between, rfl, hrest⟩
  · cases between with
    | nil => exact ⟨by simp, List.cons.inj hrest⟩
    | cons c between =>
      obtain ⟨rfl, rfl⟩ := List.cons.inj hrest
      exact absurd h.canClose (h'.first _ _ _ rfl h.quote)
  · cases between with
    | nil =>
      obtain ⟨rfl, rfl⟩ := List.cons.inj hrest
      exact ⟨by simp, rfl, rfl⟩
    | cons c between =>
      obtain ⟨rfl, rfl⟩ := List.cons.inj hrest
      exact absurd h'.canClose (h.first _ _ _ rfl h'.quote)

/-- Outside calls every quote can close the statement, so a specifier holds none. -/
theorem EndsFirst.isQuote_eq_false (h : EndsFirst shape specifier q rest) (hshape : shape ≠ .call) :
    ∀ c ∈ specifier, isQuote c = false := by
  intro c hc
  obtain ⟨front, back, heq⟩ := List.append_of_mem hc
  by_contra hquote
  refine h.first front c back heq (by simpa using hquote) ⟨[], ?_, List.nil_prefix⟩
  cases shape with
  | clause => exact .clause
  | plain => exact .plain
  | call => exact absurd rfl hshape

end ImportCycles.Statement
