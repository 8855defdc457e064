import ImportCycles.Proofs.Statement.Language
/-!
Line breaks inside statements: the text before one has an open end, that is, its last character
that is not blank is a letter, a quote or an opening parenthesis.
-/
namespace ImportCycles.Statement

def IsOpen (c : Char) : Prop := c.isAlpha = true ∨ isQuote c = true ∨ c = '('

def EndsOpen (cs : List Char) : Prop :=
  ∃ front c gap, cs = front ++ c :: gap ∧ IsOpen c ∧ AreBlank gap

/-- Before every line break the text has an open end. -/
def BreaksOpen (cs : List Char) : Prop :=
  ∀ front rest, cs = front ++ '\n' :: rest → EndsOpen front

variable {kind : ImportKind} {st : Statement} {shape : ImportKind.Shape}
  {front gap cs more word lead : List Char} {c : Char}

theorem endsOpen_concat (hc : IsOpen c) : EndsOpen (front ++ [c]) :=
  ⟨front, c, [], rfl, hc, by simp [AreBlank]⟩

theorem endsOpen_of_getLast? (hc : IsOpen c) (h : cs.getLast? = some c) : EndsOpen cs := by
  obtain ⟨front, rfl⟩ := List.getLast?_eq_some_iff.mp h
  exact endsOpen_concat hc

theorem endsOpen_keyword (kind : ImportKind) : EndsOpen kind.keyword := by
  cases kind <;> exact endsOpen_of_getLast? (.inl (by decide)) rfl

theorem EndsOpen.prepend (h : EndsOpen cs) (lead : List Char) : EndsOpen (lead ++ cs) := by
  obtain ⟨front, c, gap, rfl, hc, hgap⟩ := h
  exact ⟨lead ++ front, c, gap, by simp, hc, hgap⟩

theorem EndsOpen.append (h : EndsOpen cs) (hgap : AreBlank gap) : EndsOpen (cs ++ gap) := by
  obtain ⟨front, c, inner, rfl, hc, hinner⟩ := h
  exact ⟨front, c, inner ++ gap, by simp, hc, areBlank_append hinner hgap⟩

theorem EndsOpen.getLast? (h : EndsOpen cs) (hc : cs.getLast? = some c) :
    IsOpen c ∨ Text.isBlank c = true := by
  obtain ⟨front, d, gap, rfl, hd, hgap⟩ := h
  cases gap with
  | nil =>
    obtain rfl : d = c := by simpa using hc
    exact .inl hd
  | cons b gap =>
    rw [List.getLast?_append_of_ne_nil _ (by simp), List.getLast?_cons_of_ne_nil (by simp)] at hc
    exact .inr (hgap c (List.mem_of_getLast? hc))

theorem toNat_of_isAlpha (h : c.isAlpha = true) : 65 ≤ c.toNat ∧ c.toNat ≤ 122 := by
  rcases Bool.or_eq_true_iff.mp h with hupper | hlower
  · obtain ⟨hlow, hhigh⟩ : 'A'.val ≤ c.val ∧ c.val ≤ 'Z'.val := of_decide_eq_true hupper
    have hlow : 65 ≤ c.toNat := UInt32.le_iff_toNat_le.mp hlow
    have hhigh : c.toNat ≤ 90 := UInt32.le_iff_toNat_le.mp hhigh
    omega
  · obtain ⟨hlow, hhigh⟩ := Bool.and_eq_true_iff.mp hlower
    have hlow : 97 ≤ c.toNat := UInt32.le_iff_toNat_le.mp (of_decide_eq_true hlow)
    have hhigh : c.toNat ≤ 122 := UInt32.le_iff_toNat_le.mp (of_decide_eq_true hhigh)
    omega

theorem IsOpen.isBlank_eq_false (h : IsOpen c) : Text.isBlank c = false := by
  rcases h with halpha | hquote | rfl
  · have hbounds := toNat_of_isAlpha halpha
    simp only [Text.isBlank, Text.blankRanges, List.any_cons, List.any_nil, Bool.or_false,
      Bool.or_eq_false_iff, Bool.and_eq_false_imp, decide_eq_true_eq, decide_eq_false_iff_not]
    omega
  · exact isBlank_of_isQuote hquote
  · decide

/-- It is the last character that is not blank that has to be one of these. -/
theorem endsOpen_iff : EndsOpen cs ↔ ∃ c ∈ (Text.trimEnd cs).getLast?, IsOpen c := by
  rw [Text.trimEnd, List.getLast?_reverse]
  constructor
  · rintro ⟨front, c, gap, rfl, hc, hgap⟩
    have hgap' : AreBlank gap.reverse := fun b hb => hgap b (List.mem_reverse.mp hb)
    refine ⟨c, ?_, hc⟩
    rw [List.reverse_append, List.reverse_cons, List.append_assoc,
      dropWhile_blank hgap' (by simpa using hc.isBlank_eq_false)]
    rfl
  · rintro ⟨c, hlast, hc⟩
    obtain ⟨front, hfront⟩ := List.head?_eq_some_iff.mp hlast
    refine ⟨front.reverse, c, (cs.reverse.takeWhile Text.isBlank).reverse, ?_, hc, fun b hb => ?_⟩
    · calc cs
        _ = (cs.reverse.takeWhile Text.isBlank ++ c :: front).reverse := by
          rw [← hfront, List.takeWhile_append_dropWhile, List.reverse_reverse]
        _ = front.reverse ++ c :: (cs.reverse.takeWhile Text.isBlank).reverse := by simp
    · exact areBlank_takeWhile b (List.mem_reverse.mp hb)

instance : DecidablePred IsOpen := fun _ => inferInstanceAs (Decidable (_ ∨ _ ∨ _))

instance : Decidable (EndsOpen cs) :=
  decidable_of_iff ((Text.trimEnd cs).getLast?.any (fun c => decide (IsOpen c)) = true) <| by
    simp [endsOpen_iff, Option.any_eq_true]

theorem breaksOpen_of_notMem (h : '\n' ∉ cs) : BreaksOpen cs := by
  rintro front rest rfl
  simp at h

theorem BreaksOpen.append (h : BreaksOpen cs) (hword : '\n' ∉ word) : BreaksOpen (cs ++ word) := by
  intro front rest heq
  rcases List.append_eq_append_iff.mp heq with ⟨inner, -, hinner⟩ | ⟨inner, rfl, hinner⟩
  · exact absurd (by rw [hinner]; simp) hword
  · cases inner with
    | nil => exact absurd (by rw [← List.nil_append word, ← hinner]; simp) hword
    | cons c inner =>
      obtain ⟨rfl, -⟩ := List.cons.inj hinner
      exact h front inner rfl

theorem BreaksOpen.append_gap (h : BreaksOpen cs) (hcs : EndsOpen cs) (hgap : AreBlank gap) :
    BreaksOpen (cs ++ gap) := by
  intro front rest heq
  rcases List.append_eq_append_iff.mp heq with ⟨inner, rfl, rfl⟩ | ⟨inner, rfl, hinner⟩
  · exact hcs.append fun c hc => hgap c (by simp [hc])
  · cases inner with
    | nil => rwa [List.append_nil] at hcs
    | cons c inner =>
      obtain ⟨rfl, -⟩ := List.cons.inj hinner
      exact h front inner rfl

theorem newline_notMem_keyword (kind : ImportKind) : '\n' ∉ kind.keyword := by
  cases kind <;> decide

theorem newline_notMem_singleton (h : isQuote c = true) : '\n' ∉ [c] := by
  simpa using (ne_newline_of_isQuote h).symm

theorem breaksOpen_lead (kind : ImportKind) (h : Leads shape lead) :
    BreaksOpen (kind.keyword ++ lead) := by
  have hkeyword := breaksOpen_of_notMem (newline_notMem_keyword kind)
  have hopen := endsOpen_keyword kind
  have hletter : IsOpen 'm' := .inl (by decide)
  cases h with
  | @clause gap clause space hgap hline hspace =>
    have hfrom : BreaksOpen (kind.keyword ++ gap ++ clause ++ fromWord) :=
      ((hkeyword.append_gap hopen hgap.2).append hline).append (by decide)
    have hend : EndsOpen (kind.keyword ++ gap ++ clause ++ fromWord) :=
      endsOpen_of_getLast? hletter (by simp [fromWord])
    simpa using hfrom.append_gap hend hspace.2
  | plain hgap => exact hkeyword.append_gap hopen hgap.2
  | @call before inside hbefore hinside =>
    have hparen : BreaksOpen (kind.keyword ++ before ++ ['(']) :=
      (hkeyword.append_gap hopen hbefore).append (by decide)
    simpa using hparen.append_gap (endsOpen_concat (.inr (.inr rfl))) hinside

theorem breaksOpen_closing (h : BreaksOpen cs) (hq : isQuote c = true) (hcloses : Closes shape gap) :
    BreaksOpen (cs ++ c :: gap) := by
  have hquote : BreaksOpen (cs ++ [c]) := h.append (newline_notMem_singleton hq)
  have hparen : '\n' ∉ [')'] := by decide
  cases hcloses with
  | clause => exact hquote
  | plain => exact hquote
  | call hgap =>
    simpa using (hquote.append_gap (endsOpen_concat (.inr (.inl hq))) hgap).append hparen

/-- Where a line ends inside a statement, what the statement has before has an open end. -/
theorem IsStatement.breaksOpen (h : IsStatement kind st) : BreaksOpen st.text := by
  obtain ⟨-, -, ⟨lead, hlead, rfl⟩, ⟨hq, hline, hq', hcloses⟩, rfl⟩ := h
  have hopening := (breaksOpen_lead kind hlead).append (newline_notMem_singleton hq)
  simpa [text, after] using breaksOpen_closing (hopening.append hline) hq' hcloses

/-- A statement that begins before a line break begins and ends there, unless the text before the
break has an open end. -/
theorem IsStatement.prefix_of_prefix (h : IsStatement kind st) (hclosed : ¬ EndsOpen cs)
    (hst : st.text <+: cs ++ '\n' :: more) : st.text <+: cs := by
  have hbreak : cs ++ ['\n'] <+: cs ++ '\n' :: more := ⟨more, by simp⟩
  have hnot : ¬ cs ++ ['\n'] <+: st.text := by
    rintro ⟨after, hafter⟩
    exact hclosed (h.breaksOpen cs after (by simp [← hafter]))
  rcases List.prefix_or_prefix_of_prefix hst hbreak with hst | hst
  · rcases List.prefix_concat_iff.mp hst with hst | hst
    · exact absurd (by rw [hst]) hnot
    · exact hst
  · exact absurd hst hnot

end ImportCycles.Statement
