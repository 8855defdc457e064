import ImportCycles.Proofs.Reference.Spans
import ImportCycles.Proofs.Statement.Locality
/-!
Two texts with a line break between them. Unless the first one has an open end, no statement lies
across the break, and the references are those of the first text and then those of the second.
-/
namespace ImportCycles.Reference

open Statement (EndsOpen atFront?)
open Text.Utf8 (size)

/-- The same reference with so many more bytes before it. -/
def shift (bytes : Nat) (r : Reference) : Reference := { r with offset := r.offset + bytes }

variable {kind : ImportKind} {kinds : List ImportKind} {r : Reference} {cs more : List Char}
  {offset skip : Nat}

theorem ofKindFrom_shift (bytes : Nat) :
    ofKindFrom kind (offset + bytes) skip cs =
      (ofKindFrom kind offset skip cs).map (shift bytes) := by
  induction cs generalizing offset skip with
  | nil => rfl
  | cons c cs ih =>
    have hoffset : offset + bytes + c.utf8Size = offset + c.utf8Size + bytes := by omega
    cases skip with
    | succ skip => rw [ofKindFrom, ofKindFrom, hoffset, ih]
    | zero =>
      rw [ofKindFrom, ofKindFrom]
      cases atFront? kind (c :: cs) with
      | none => simp only [hoffset, ih]
      | some st =>
        have hspecifier : offset + bytes + size st.opening = offset + size st.opening + bytes := by
          omega
        simp only [hoffset, hspecifier, ih, List.map_cons, shift]

/-- Where more text changes nothing of what is read, the references of the two texts come one after
the other. -/
theorem ofKindFrom_append_of_agree (hskip : skip ≤ cs.length)
    (hagree : ∀ suffix, suffix <:+ cs → atFront? kind (suffix ++ more) = atFront? kind suffix) :
    ofKindFrom kind offset skip (cs ++ more) =
      ofKindFrom kind offset skip cs ++ ofKindFrom kind (offset + size cs) 0 more := by
  induction cs generalizing offset skip with
  | nil =>
    obtain rfl : skip = 0 := by simpa using hskip
    rfl
  | cons c cs ih =>
    have hrest : ∀ suffix, suffix <:+ cs → atFront? kind (suffix ++ more) = atFront? kind suffix :=
      fun suffix h => hagree suffix (h.trans (List.suffix_cons c cs))
    rw [size, ← Nat.add_assoc, List.cons_append]
    cases skip with
    | succ skip =>
      rw [ofKindFrom, ofKindFrom]
      exact ih (Nat.le_of_succ_le_succ hskip) hrest
    | zero =>
      have hfront : atFront? kind (c :: (cs ++ more)) = atFront? kind (c :: cs) :=
        hagree _ List.suffix_rfl
      rw [ofKindFrom, ofKindFrom, hfront]
      cases hread : atFront? kind (c :: cs) with
      | none => exact ih (Nat.zero_le _) hrest
      | some st =>
        have hlength := ((Statement.reads_atFront? kind).sound hread).2.length_le
        rw [List.length_cons] at hlength
        exact congrArg _ (ih (by omega) hrest)

/-- A line break at the end of a text without an open end parts the references of a kind. -/
theorem ofKind_append_newline (hclosed : ¬ EndsOpen cs) :
    ofKind kind (cs ++ '\n' :: more) =
      ofKind kind cs ++ (ofKind kind more).map (shift (size cs + 1)) := by
  have hagree : ∀ suffix, suffix <:+ cs →
      atFront? kind (suffix ++ '\n' :: more) = atFront? kind suffix := by
    rintro suffix ⟨front, rfl⟩
    exact Statement.atFront?_append_newline fun h => hclosed (h.prepend front)
  have hsecond : ofKindFrom kind (size cs + 1) 0 more =
      (ofKind kind more).map (shift (size cs + 1)) := by
    rw [← Nat.zero_add (size cs + 1), ofKindFrom_shift, Nat.zero_add]
    rfl
  rw [ofKind, ofKindFrom_append_of_agree (Nat.zero_le _) hagree, ofKindFrom_newline, Nat.zero_add,
    hsecond]
  rfl

theorem offset_lt_of_mem_ofKind (h : r ∈ ofKind kind cs) : r.offset < size cs := by
  rw [ofKind_eq_map] at h
  obtain ⟨span, hspan, rfl⟩ := List.mem_map.mp h
  calc (span.reference kind cs).offset
    _ < size (cs.take span.stop) := offset_lt_size_take (occurs_of_mem_spans hspan)
    _ ≤ size cs := size_le_of_prefix (List.take_prefix _ _)

theorem shift_injective (bytes : Nat) : Function.Injective (shift bytes) := by
  rintro ⟨kind, specifier, offset⟩ ⟨kind', specifier', offset'⟩ h
  simpa [shift] using h

/-- Before the break the references of a kind are those of the first text. -/
theorem find?_before (hclosed : ¬ EndsOpen cs) (h : offset < size cs + 1) :
    (ofKind kind (cs ++ '\n' :: more)).find? (·.offset = offset) =
      (ofKind kind cs).find? (·.offset = offset) := by
  have hnone : ((ofKind kind more).map (shift (size cs + 1))).find? (·.offset = offset) = none := by
    rw [List.find?_eq_none]
    intro s hs
    obtain ⟨r, -, rfl⟩ := List.mem_map.mp hs
    have hne : r.offset + (size cs + 1) ≠ offset := by omega
    exact fun heq => hne (of_decide_eq_true heq)
  rw [ofKind_append_newline hclosed, List.find?_append, hnone, Option.or_none]

/-- Behind the break they are those of the second one. -/
theorem find?_behind (hclosed : ¬ EndsOpen cs) :
    (ofKind kind (cs ++ '\n' :: more)).find? (·.offset = offset + (size cs + 1)) =
      ((ofKind kind more).find? (·.offset = offset)).map (shift (size cs + 1)) := by
  have hnone : (ofKind kind cs).find? (·.offset = offset + (size cs + 1)) = none := by
    rw [List.find?_eq_none]
    intro r hr
    have hlt := offset_lt_of_mem_ofKind hr
    have hne : r.offset ≠ offset + (size cs + 1) := by omega
    exact fun heq => hne (of_decide_eq_true heq)
  have hshift : (fun r : Reference => decide (r.offset = offset + (size cs + 1))) ∘
      shift (size cs + 1) = fun r => decide (r.offset = offset) := by
    funext r
    simp [shift]
  rw [ofKind_append_newline hclosed, List.find?_append, hnone, Option.none_or, List.find?_map,
    hshift]

variable {first : String}

theorem toList_append_newline (first second : String) :
    (first ++ "\n" ++ second).toList = first.toList ++ '\n' :: second.toList := by
  simp

theorem mem_all_before (second : String) (hclosed : ¬ EndsOpen first.toList)
    (h : r.offset < size first.toList + 1) :
    r ∈ all kinds (first ++ "\n" ++ second) ↔ r ∈ all kinds first := by
  rw [mem_all_iff, mem_all_iff, toList_append_newline]
  simp only [find?_before hclosed h]

theorem mem_all_behind (second : String) (hclosed : ¬ EndsOpen first.toList) :
    shift (size first.toList + 1) r ∈ all kinds (first ++ "\n" ++ second) ↔
      r ∈ all kinds second := by
  have hoffset : (shift (size first.toList + 1) r).offset = r.offset + (size first.toList + 1) :=
    rfl
  rw [mem_all_iff, mem_all_iff, toList_append_newline, hoffset]
  simp only [find?_behind hclosed]
  have hmap := List.map_findSome? (g := shift (size first.toList + 1)) (l := kinds.eraseDups)
    (f := fun kind => (ofKind kind second.toList).find? (·.offset = r.offset))
  simp only [Function.comp_def] at hmap
  rw [← hmap, ← Option.map_some]
  exact (Option.map_injective (shift_injective _)).eq_iff

/-- The references of two texts with a line break between them are those of the first text and then
those of the second, that many bytes further on, unless the first text has an open end. -/
theorem references_split_at_newline (kinds : List ImportKind) (second : String)
    (hclosed : ¬ EndsOpen first.toList) :
    all kinds (first ++ "\n" ++ second) =
      all kinds first ++ (all kinds second).map (shift (size first.toList + 1)) := by
  have hfirst : ∀ r ∈ all kinds first, r.offset < size first.toList := by
    intro r hr
    obtain ⟨kind, -, hr⟩ := exists_kind_of_mem_all hr
    exact offset_lt_of_mem_ofKind hr
  have hsecond : ((all kinds second).map (shift (size first.toList + 1))).Pairwise
      fun r s => r.offset < s.offset :=
    List.pairwise_map.mpr ((pairwise_all kinds second).imp fun hlt => Nat.add_lt_add_right hlt _)
  have hparts : (all kinds first ++ (all kinds second).map (shift (size first.toList + 1))).Pairwise
      fun r s => r.offset < s.offset := by
    refine List.pairwise_append.mpr ⟨pairwise_all kinds first, hsecond, fun r hr s hs => ?_⟩
    obtain ⟨t, -, rfl⟩ := List.mem_map.mp hs
    have hlt := hfirst r hr
    simp only [shift]
    omega
  have hwhole := pairwise_all kinds (first ++ "\n" ++ second)
  -- Both sides are sorted, so it is enough that they have the same members.
  apply List.Sublist.antisymm
  · refine Lists.sublist_of_subset hwhole hparts fun r hr => ?_
    by_cases hbefore : r.offset < size first.toList + 1
    · exact List.mem_append_left _ ((mem_all_before second hclosed hbefore).mp hr)
    · have hshift : shift (size first.toList + 1)
          { r with offset := r.offset - (size first.toList + 1) } = r := by
        simp only [shift]
        rw [Nat.sub_add_cancel (Nat.le_of_not_lt hbefore)]
      rw [← hshift] at hr ⊢
      exact List.mem_append_right _
        (List.mem_map_of_mem ((mem_all_behind second hclosed).mp hr))
  · refine Lists.sublist_of_subset hparts hwhole fun r hr => ?_
    rcases List.mem_append.mp hr with hr | hr
    · exact (mem_all_before second hclosed (Nat.lt_succ_of_lt (hfirst r hr))).mpr hr
    · obtain ⟨t, ht, rfl⟩ := List.mem_map.mp hr
      exact (mem_all_behind second hclosed).mpr ht

/-- A statement with a comment and blanks behind it. -/
def commentedLine : String := "import a from './a'; // é  "

theorem commentedLine_splits : ¬ EndsOpen commentedLine.toList ∧
    all [.require, .namedFrom] (commentedLine ++ "\n" ++ "require('./b')") =
      [⟨.namedFrom, "./a", 15⟩, ⟨.require, "./b", 38⟩] := by
  have hclosed : ¬ EndsOpen commentedLine.toList := by decide
  have hfirst : all [.require, .namedFrom] commentedLine = [⟨.namedFrom, "./a", 15⟩] := by
    decide +kernel
  have hsecond : all [.require, .namedFrom] "require('./b')" = [⟨.require, "./b", 9⟩] := by
    decide +kernel
  refine ⟨hclosed, ?_⟩
  rw [references_split_at_newline _ _ hclosed, hfirst, hsecond]
  rfl

/-- Behind an open end a statement goes on over the line break. -/
example : all [.require] ("require(" ++ "\n" ++ "'./a')") = [⟨.require, "./a", 10⟩] ∧
    all [.require] "require(" = [] ∧ all [.require] "'./a')" = [] := by
  decide +kernel

end ImportCycles.Reference
