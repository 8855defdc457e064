import ImportCycles.Proofs.Reference.Spans
/-!
Which references are whole literals. A reference reads on to the first quote that can close its
statement, and this need not be the quote that ends the literal.
-/
namespace ImportCycles.Reference

open Statement (isQuote EndsFirst)
open Text.Utf8 (size)

/-- The reference is all that stands between two equal quotes, and holds no such quote. -/
def IsWholeLiteral (source : List Char) (r : Reference) : Prop :=
  ∃ before q after, source = before ++ q :: (r.specifier.toList ++ q :: after) ∧
    r.offset = size (before ++ [q]) ∧ isQuote q = true ∧ q ∉ r.specifier.toList

variable {kind : ImportKind} {kinds : List ImportKind}
  {source front front' before rest rest' : List Char} {r : Reference} {q : Char}

theorem eq_nil_of_size_append (h : size (front ++ rest) = size front) : rest = [] := by
  by_contra hne
  have hpos := size_pos hne
  rw [size_append] at h
  omega

/-- An offset cuts a text in one way only. -/
theorem eq_of_size_eq (h : front ++ rest = front' ++ rest') (hsize : size front = size front') :
    front = front' ∧ rest = rest' := by
  rcases List.append_eq_append_iff.mp h with ⟨between, rfl, rfl⟩ | ⟨between, rfl, rfl⟩
  · obtain rfl := eq_nil_of_size_append hsize.symm
    simp
  · obtain rfl := eq_nil_of_size_append hsize
    simp

theorem isWholeLiteral_iff (before : List Char) (hsource : source = before ++ q :: rest)
    (hoffset : r.offset = size (before ++ [q])) (hq : isQuote q = true) :
    IsWholeLiteral source r ↔
      q ∉ r.specifier.toList ∧ r.specifier.toList ++ [q] <+: rest := by
  constructor
  · rintro ⟨before', c, after, hsource', hoffset', -, hfree⟩
    have hcut : (before ++ [q]) ++ rest =
        (before' ++ [c]) ++ (r.specifier.toList ++ c :: after) := by
      simpa using hsource.symm.trans hsource'
    obtain ⟨hfront, rfl⟩ := eq_of_size_eq hcut (hoffset.symm.trans hoffset')
    obtain ⟨-, hqc⟩ := List.append_inj' hfront rfl
    obtain rfl := List.singleton_inj.mp hqc
    exact ⟨hfree, after, by simp⟩
  · rintro ⟨hfree, after, rfl⟩
    exact ⟨before, q, after, by simp [hsource], hoffset, hq, hfree⟩

/-- A reference stands behind a quote and ends at the first quote of either kind that can close its
statement; outside calls it holds no quote. It is a whole literal exactly when the literal that
begins at its quote ends where the statement does. -/
theorem reference_ends_at_first_quote {source : String} (h : r ∈ all kinds source) :
    ∃ before q rest, source.toList = before ++ q :: rest ∧ r.offset = size (before ++ [q]) ∧
      isQuote q = true ∧
      (∃ q' after, rest = r.specifier.toList ++ q' :: after ∧
        EndsFirst r.kind.shape r.specifier.toList q' after) ∧
      (r.kind.shape ≠ .call → ∀ c ∈ r.specifier.toList, isQuote c = false) ∧
      (IsWholeLiteral source.toList r ↔
        ∃ literal after, rest = literal ++ q :: after ∧ q ∉ literal ∧
          EndsFirst r.kind.shape literal q after) := by
  obtain ⟨before, q, q', after, hsource, hoffset, hq, hends⟩ := exists_ends_of_mem_all h
  refine ⟨before, q, _, hsource, hoffset, hq, ⟨q', after, rfl, hends⟩, hends.isQuote_eq_false, ?_⟩
  rw [isWholeLiteral_iff before hsource hoffset hq]
  constructor
  · rintro ⟨hfree, hprefix⟩
    obtain ⟨rfl, -⟩ := List.cons_prefix_cons.mp ((List.prefix_append_right_inj _).mp hprefix)
    exact ⟨_, after, rfl, hfree, hends⟩
  -- Both the reference and the literal end at the first quote that can close the statement.
  · rintro ⟨literal, after', hrest, hfree, hends'⟩
    obtain ⟨hliteral, rfl, -⟩ := hends.unique hends' hrest
    rw [hliteral]
    exact ⟨hfree, after, by simp⟩

/-- A call of a literal that holds the other quote. -/
def apostropheCall : String := "require(\"./it's.js\");"

/-- The same literal outside a call. -/
def apostropheImport : String := "import \"./it's.js\";"

/-- A call whose argument is computed from two literals. -/
def computedCall : String := "import('./a' + '/b.js');"

theorem mem_all_apostropheCall : ⟨.require, "./it's.js", 9⟩ ∈ all [.require] apostropheCall := by
  rw [all_singleton (pairwise_ofKind _ _)]
  decide

theorem apostropheCall_is_whole : ⟨.require, "./it's.js", 9⟩ ∈ all [.require] apostropheCall ∧
    IsWholeLiteral apostropheCall.toList ⟨.require, "./it's.js", 9⟩ := by
  obtain ⟨before, q, rest, hsource, hoffset, -, ⟨q', after, hrest, hends⟩, -, hwhole⟩ :=
    reference_ends_at_first_quote mem_all_apostropheCall
  have hcut : (before ++ [q]) ++ rest = "require(\"".toList ++ "./it's.js\");".toList := by
    rw [List.append_assoc]
    exact hsource.symm
  obtain ⟨hfront, hback⟩ := eq_of_size_eq hcut hoffset.symm
  have hq : q = '"' := by
    have hlast := congrArg List.getLast? hfront
    simpa using hlast
  have hq' : q' = '"' := by
    rw [hrest] at hback
    have hnext := congrArg (fun cs => cs[9]?) hback
    simpa using hnext
  subst hq hq'
  exact ⟨mem_all_apostropheCall, hwhole.mpr ⟨_, after, hrest, by decide, hends⟩⟩

/-- A computed argument is read as one specifier, and a literal is cut at the other quote. -/
theorem not_every_reference_is_whole :
    (∃ r ∈ all [.dynamic] computedCall, ¬ IsWholeLiteral computedCall.toList r) ∧
    (∃ r ∈ all [.sideEffect] apostropheImport, ¬ IsWholeLiteral apostropheImport.toList r) := by
  refine ⟨⟨⟨.dynamic, "./a' + '/b.js", 8⟩, ?_, ?_⟩, ⟨⟨.sideEffect, "./it", 8⟩, ?_, ?_⟩⟩
  · rw [all_singleton (pairwise_ofKind _ _)]
    decide
  · intro hwhole
    have hliteral := (isWholeLiteral_iff "import(".toList rfl rfl rfl).mp hwhole
    exact absurd hliteral (by decide)
  · rw [all_singleton (pairwise_ofKind _ _)]
    decide
  · intro hwhole
    have hliteral := (isWholeLiteral_iff "import ".toList rfl rfl rfl).mp hwhole
    exact absurd hliteral (by decide)

end ImportCycles.Reference
