import ImportCycles.Reference
import ImportCycles.Proofs.Lists
/-!
How references are collected: a stretch of text where no statement begins is passed over, and the
references of all kinds come in the order of their offsets.
-/
namespace ImportCycles.Reference

variable {kind : ImportKind} {kinds : List ImportKind} {r t : Reference} {rs : List Reference}
  {cs more : List Char} {offset skip : Nat}

/-- Where no statement begins, nothing is read. -/
theorem ofKindFrom_append (hskip : skip ≤ cs.length)
    (hnone : ∀ before suffix, suffix ≠ [] → before ++ suffix = cs →
      Statement.atFront? kind (suffix ++ more) = none) :
    ofKindFrom kind offset skip (cs ++ more) =
      ofKindFrom kind (offset + Text.Utf8.size cs) 0 more := by
  induction cs generalizing offset skip with
  | nil =>
    obtain rfl : skip = 0 := by simpa using hskip
    rfl
  | cons c cs ih =>
    have hrest : ∀ before suffix, suffix ≠ [] → before ++ suffix = cs →
        Statement.atFront? kind (suffix ++ more) = none :=
      fun before suffix hsuffix h => hnone (c :: before) suffix hsuffix (by rw [← h]; rfl)
    rw [Text.Utf8.size, ← Nat.add_assoc]
    cases skip with
    | zero =>
      have hfront : Statement.atFront? kind (c :: (cs ++ more)) = none :=
        hnone [] (c :: cs) (by simp) rfl
      rw [List.cons_append, ofKindFrom]
      simp only [hfront]
      exact ih (Nat.zero_le _) hrest
    | succ skip =>
      rw [List.cons_append, ofKindFrom]
      exact ih (Nat.le_of_succ_le_succ hskip) hrest

theorem ofKindFrom_newline :
    ofKindFrom kind offset 0 ('\n' :: more) = ofKindFrom kind (offset + 1) 0 more := by
  have hnone : Statement.atFront? kind ('\n' :: more) = none := by
    cases kind <;> rfl
  rw [ofKindFrom]
  simp only [hnone]
  rfl

theorem size_append : Text.Utf8.size (cs ++ more) = Text.Utf8.size cs + Text.Utf8.size more := by
  induction cs with
  | nil => simp [Text.Utf8.size]
  | cons c cs ih => rw [List.cons_append, Text.Utf8.size, Text.Utf8.size, ih, Nat.add_assoc]

theorem distinctOffsets_of_pairwise (h : rs.Pairwise fun r s => r.offset < s.offset) :
    distinctOffsets rs = rs := by
  induction rs with
  | nil => rfl
  | cons r rest ih =>
    obtain ⟨hr, hrest⟩ := List.pairwise_cons.mp h
    rw [distinctOffsets, ih hrest]
    cases rest with
    | nil => rfl
    | cons s others =>
      have hne : r.offset ≠ s.offset := (hr s (by simp)).ne
      simp only [hne, if_false]

theorem distinctOffsets_sublist (rs : List Reference) : (distinctOffsets rs).Sublist rs := by
  induction rs with
  | nil => exact .slnil
  | cons r rest ih =>
    rw [distinctOffsets]
    cases hrest : distinctOffsets rest with
    | nil => exact List.singleton_sublist.mpr (by simp)
    | cons s others =>
      rw [hrest] at ih
      by_cases hoffset : r.offset = s.offset
      · simpa only [hoffset, if_true] using ((List.sublist_cons_self s others).trans ih).cons_cons r
      · simpa only [hoffset, if_false] using ih.cons_cons r

/-- In sorted references no offset is left twice. -/
theorem pairwise_distinctOffsets (h : rs.Pairwise fun r s => r.offset ≤ s.offset) :
    (distinctOffsets rs).Pairwise fun r s => r.offset < s.offset := by
  induction rs with
  | nil => exact .nil
  | cons r rest ih =>
    obtain ⟨hr, hrest⟩ := List.pairwise_cons.mp h
    have hdistinct := ih hrest
    have hsublist := distinctOffsets_sublist rest
    rw [distinctOffsets]
    cases heq : distinctOffsets rest with
    | nil => exact List.pairwise_singleton _ r
    | cons s others =>
      rw [heq] at hdistinct hsublist
      obtain ⟨hs, hothers⟩ := List.pairwise_cons.mp hdistinct
      have hle : r.offset ≤ s.offset := hr s (hsublist.subset (by simp))
      by_cases hoffset : r.offset = s.offset
      · simp only [hoffset, if_true]
        exact List.pairwise_cons.mpr ⟨fun t ht => hoffset ▸ hs t ht, hothers⟩
      · simp only [hoffset, if_false]
        refine List.pairwise_cons.mpr ⟨fun t ht => ?_, hdistinct⟩
        rcases List.mem_cons.mp ht with rfl | ht
        · omega
        · exact lt_of_le_of_lt hle (hs t ht)

theorem mem_distinctOffsets_cons (h : (r :: rs).Pairwise fun r s => r.offset ≤ s.offset) :
    t ∈ distinctOffsets (r :: rs) ↔ t = r ∨ t.offset ≠ r.offset ∧ t ∈ distinctOffsets rs := by
  obtain ⟨hr, hrs⟩ := List.pairwise_cons.mp h
  have hdistinct := pairwise_distinctOffsets hrs
  have hsublist := distinctOffsets_sublist rs
  rw [distinctOffsets]
  cases heq : distinctOffsets rs with
  | nil => simp
  | cons s others =>
    rw [heq] at hdistinct hsublist
    have hs : r.offset ≤ s.offset := hr s (hsublist.subset (by simp))
    have hothers : ∀ u ∈ others, s.offset < u.offset := (List.pairwise_cons.mp hdistinct).1
    have hlater : t ∈ others → t.offset ≠ r.offset :=
      fun ht => (lt_of_le_of_lt hs (hothers t ht)).ne'
    by_cases hoffset : r.offset = s.offset
    · simp only [hoffset, if_true, List.mem_cons]
      constructor
      · rintro (rfl | ht)
        · exact .inl rfl
        · exact .inr ⟨hoffset ▸ hlater ht, .inr ht⟩
      · rintro (rfl | ⟨hne, rfl | ht⟩)
        · exact .inl rfl
        · exact absurd rfl hne
        · exact .inr ht
    · simp only [hoffset, if_false, List.mem_cons]
      constructor
      · rintro (rfl | rfl | ht)
        · exact .inl rfl
        · exact .inr ⟨Ne.symm hoffset, .inl rfl⟩
        · exact .inr ⟨hlater ht, .inr ht⟩
      · rintro (rfl | ⟨-, ht⟩)
        · exact .inl rfl
        · exact .inr ht

/-- Of sorted references the first one with each offset stays. -/
theorem mem_distinctOffsets_iff (h : rs.Pairwise fun r s => r.offset ≤ s.offset) :
    t ∈ distinctOffsets rs ↔ rs.find? (·.offset = t.offset) = some t := by
  induction rs with
  | nil => simp [distinctOffsets]
  | cons r rest ih =>
    rw [mem_distinctOffsets_cons h, ih (List.pairwise_cons.mp h).2, List.find?_cons]
    by_cases hoffset : r.offset = t.offset
    · simp [hoffset, eq_comm]
    · have hne : t ≠ r := fun heq => hoffset (heq ▸ rfl)
      simp [hoffset, hne, Ne.symm hoffset]

theorem offset_le_trans (r s t : Reference) : decide (r.offset ≤ s.offset) = true →
    decide (s.offset ≤ t.offset) = true → decide (r.offset ≤ t.offset) = true := by
  simpa using Nat.le_trans

theorem offset_le_total (r s : Reference) :
    (decide (r.offset ≤ s.offset) || decide (s.offset ≤ r.offset)) = true := by
  simpa using Nat.le_total r.offset s.offset

theorem pairwise_mergeSort (found : List Reference) :
    (found.mergeSort fun r s => r.offset ≤ s.offset).Pairwise fun r s => r.offset ≤ s.offset := by
  simpa using List.pairwise_mergeSort offset_le_trans offset_le_total found

/-- Sorting leaves references with one offset in their order. -/
theorem find?_mergeSort (found : List Reference) (offset : Nat) :
    (found.mergeSort fun r s => r.offset ≤ s.offset).find? (·.offset = offset) =
      found.find? (·.offset = offset) := by
  have htied : (found.filter (·.offset = offset)).Pairwise fun r s =>
      decide (r.offset ≤ s.offset) = true := by
    refine List.pairwise_of_forall_mem_list fun r hr s hs => ?_
    have hr' : r.offset = offset := by simpa using (List.mem_filter.mp hr).2
    have hs' : s.offset = offset := by simpa using (List.mem_filter.mp hs).2
    simp [hr', hs']
  have hsublist := (List.sublist_mergeSort offset_le_trans offset_le_total htied
    List.filter_sublist).filter (·.offset = offset)
  have hperm := (List.mergeSort_perm found fun r s => r.offset ≤ s.offset).filter
    (·.offset = offset)
  simp only [List.filter_filter, Bool.and_self] at hsublist
  rw [← List.head?_filter, ← List.head?_filter, hsublist.eq_of_length hperm.length_eq.symm]

/-- References in the order of their offsets are sorted, whatever the order in which they come. -/
theorem mergeSort_of_perm {found : List Reference} (h : rs.Pairwise fun r s => r.offset < s.offset)
    (hfound : found.Perm rs) : found.mergeSort (fun r s => r.offset ≤ s.offset) = rs := by
  have hperm := (List.mergeSort_perm found fun r s => r.offset ≤ s.offset).trans hfound
  have hoffsets : (rs.map Reference.offset).Nodup :=
    List.pairwise_map.mpr (h.imp fun hlt => hlt.ne)
  refine hperm.eq_of_pairwise ?_ (pairwise_mergeSort found) (h.imp Nat.le_of_lt)
  intro r s hr hs hle hge
  exact List.inj_on_of_nodup_map hoffsets (hperm.subset hr) hs (Nat.le_antisymm hle hge)

/-- Where the references of each kind are those of one sorted list, so are all together. -/
theorem all_of_ofKind {text : String} (h : rs.Pairwise fun r s => r.offset < s.offset)
    (hkind : ∀ kind, ofKind kind text.toList = rs.filter (·.kind = kind)) :
    all kinds text = rs.filter (·.kind ∈ kinds) := by
  have hsorted := h.filter fun r => decide (r.kind ∈ kinds)
  have hperm : (kinds.eraseDups.flatMap fun kind => ofKind kind text.toList).Perm
      (rs.filter (·.kind ∈ kinds)) := by
    simp only [hkind]
    simpa only [List.mem_eraseDups] using
      Lists.perm_flatMap_filter Reference.kind rs (Lists.nodup_eraseDups kinds)
  rw [all, mergeSort_of_perm hsorted hperm, distinctOffsets_of_pairwise hsorted]

theorem pairwise_all (kinds : List ImportKind) (text : String) :
    (all kinds text).Pairwise fun r s => r.offset < s.offset :=
  pairwise_distinctOffsets (pairwise_mergeSort _)

/-- A reference stays if the first kind with a reference at its offset has this one. -/
theorem mem_all_iff {text : String} : t ∈ all kinds text ↔
    kinds.eraseDups.findSome? (fun kind => (ofKind kind text.toList).find? (·.offset = t.offset)) =
      some t := by
  rw [all, mem_distinctOffsets_iff (pairwise_mergeSort _), find?_mergeSort, List.find?_flatMap]

theorem exists_kind_of_mem_all {text : String} {r : Reference} (h : r ∈ all kinds text) :
    ∃ kind ∈ kinds, r ∈ ofKind kind text.toList := by
  have hmem := List.mem_mergeSort.mp ((distinctOffsets_sublist _).subset h)
  obtain ⟨kind, hkind, hr⟩ := List.mem_flatMap.mp hmem
  exact ⟨kind, List.mem_eraseDups.mp hkind, hr⟩

/-- Of one kind all references stay, when their offsets increase. -/
theorem all_singleton {text : String}
    (h : (ofKind kind text.toList).Pairwise fun r s => r.offset < s.offset) :
    all [kind] text = ofKind kind text.toList := by
  have hflat : (([kind] : List ImportKind).eraseDups.flatMap fun kind => ofKind kind text.toList) =
      ofKind kind text.toList := by
    simp [List.eraseDups_cons]
  rw [all, hflat, mergeSort_of_perm h (List.Perm.refl _), distinctOffsets_of_pairwise h]

end ImportCycles.Reference
