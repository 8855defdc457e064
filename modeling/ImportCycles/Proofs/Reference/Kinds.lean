import ImportCycles.Proofs.Reference.Line
import ImportCycles.Proofs.Reference.Literal
/-!
The kinds asked for count as a set. Where two kinds have a reference at the same offset, what stands
before it gives both the same shape, so both read the same specifier, and it does not matter which
of the two stays.
-/
namespace ImportCycles.Reference

/-- The specifiers of a source text with the offsets at which they stand. -/
def located (kinds : List ImportKind) (source : String) : List (Nat × String) :=
  (all kinds source).map fun r => (r.offset, r.specifier)

variable {kind kind' : ImportKind} {kinds kinds' : List ImportKind} {source : List Char}
  {text : String} {r s : Reference}

/-- References at one offset have one specifier, whatever their kinds. -/
theorem specifier_eq_of_offset_eq (hr : r ∈ ofKind kind source) (hs : s ∈ ofKind kind' source)
    (h : r.offset = s.offset) : r.specifier = s.specifier := by
  obtain ⟨before, lead, q, c, after, hsource, hoffset, -, hlead, hends⟩ :=
    exists_opening_of_mem_ofKind hr
  obtain ⟨before', lead', q', c', after', hsource', hoffset', -, hlead', hends'⟩ :=
    exists_opening_of_mem_ofKind hs
  rw [List.append_cons] at hsource hsource'
  obtain ⟨hfront, hback⟩ :=
    eq_of_size_eq (hsource.symm.trans hsource') (hoffset.symm.trans (h.trans hoffset'))
  obtain ⟨hopening, -⟩ := List.append_inj' hfront rfl
  rw [Line.shape_eq_of_openings hlead hlead' hopening] at hends
  exact String.toList_inj.mp (hends.unique hends' hback).1

/-- Every reference of a kind asked for is listed, for this kind or another one. -/
theorem exists_mem_all_of_mem_ofKind (hkind : kind ∈ kinds) (h : r ∈ ofKind kind text.toList) :
    ∃ s ∈ all kinds text, s.offset = r.offset ∧ s.specifier = r.specifier := by
  have hfound : (kinds.eraseDups.findSome? fun kind =>
      (ofKind kind text.toList).find? (·.offset = r.offset)).isSome = true := by
    rw [List.findSome?_isSome_iff]
    exact ⟨kind, List.mem_eraseDups.mpr hkind, List.find?_isSome.mpr ⟨r, h, by simp⟩⟩
  obtain ⟨s, hs⟩ := Option.isSome_iff_exists.mp hfound
  obtain ⟨kind', -, hfind⟩ := List.exists_of_findSome?_eq_some hs
  have hoffset : s.offset = r.offset := by simpa using List.find?_some hfind
  refine ⟨s, mem_all_iff.mpr (hoffset ▸ hs), hoffset, ?_⟩
  exact specifier_eq_of_offset_eq (List.mem_of_find?_eq_some hfind) h hoffset

theorem located_subset (h : kinds ⊆ kinds') : located kinds text ⊆ located kinds' text := by
  intro place hplace
  obtain ⟨r, hr, rfl⟩ := List.mem_map.mp hplace
  obtain ⟨kind, hkind, hr⟩ := exists_kind_of_mem_all hr
  obtain ⟨s, hs, hoffset, hspecifier⟩ := exists_mem_all_of_mem_ofKind (h hkind) hr
  exact List.mem_map.mpr ⟨s, hs, by rw [hoffset, hspecifier]⟩

theorem pairwise_located (kinds : List ImportKind) (text : String) :
    (located kinds text).Pairwise fun a b => a.1 < b.1 :=
  List.pairwise_map.mpr (pairwise_all kinds text)

theorem located_sublist (h : kinds ⊆ kinds') :
    (located kinds text).Sublist (located kinds' text) :=
  Lists.sublist_of_subset (pairwise_located kinds text) (pairwise_located kinds' text)
    (located_subset h)

theorem map_snd_located (kinds : List ImportKind) (text : String) :
    (located kinds text).map Prod.snd = specifiers kinds text := by
  simp [located, specifiers, Function.comp_def]

/-- Lists of the same kinds give the same specifiers at the same offsets, and more kinds leave every
specifier where it is and only put others in between. -/
theorem kinds_count_as_set (text : String) :
    (∀ kinds kinds', (∀ kind, kind ∈ kinds ↔ kind ∈ kinds') →
      located kinds text = located kinds' text ∧
        specifiers kinds text = specifiers kinds' text) ∧
    ∀ kinds kinds', (∀ kind ∈ kinds, kind ∈ kinds') →
      (located kinds text).Sublist (located kinds' text) ∧
        (specifiers kinds text).Sublist (specifiers kinds' text) := by
  refine ⟨fun kinds kinds' hsame => ?_, fun kinds kinds' hmore => ?_⟩
  · have hlocated : located kinds text = located kinds' text :=
      (located_sublist fun kind => (hsame kind).mp).antisymm
        (located_sublist fun kind => (hsame kind).mpr)
    refine ⟨hlocated, ?_⟩
    rw [← map_snd_located, ← map_snd_located, hlocated]
  · have hlocated : (located kinds text).Sublist (located kinds' text) := located_sublist hmore
    refine ⟨hlocated, ?_⟩
    rw [← map_snd_located, ← map_snd_located]
    exact hlocated.map Prod.snd

/-- A statement that a re-export and a named import have in common, and a call behind it. -/
def exportedImport : String := "export import a from './a'; require('./b')"

theorem exportedImport_kinds :
    located [.reExport, .namedFrom, .require] exportedImport =
        located [.require, .namedFrom, .reExport, .namedFrom] exportedImport ∧
      located [.reExport] exportedImport = [(22, "./a")] ∧
      (located [.reExport] exportedImport).Sublist
        (located [.require, .namedFrom, .reExport, .namedFrom] exportedImport) := by
  refine ⟨?_, by decide +kernel, ?_⟩
  · exact ((kinds_count_as_set exportedImport).1 _ _ fun kind => by cases kind <;> decide).1
  · exact ((kinds_count_as_set exportedImport).2 _ _ (by decide)).1

/-- The statement stays in the list for the kind asked for first. -/
example : all [.reExport, .namedFrom] exportedImport = [⟨.reExport, "./a", 22⟩] ∧
    all [.namedFrom, .reExport] exportedImport = [⟨.namedFrom, "./a", 22⟩] := by
  constructor <;> cbv

end ImportCycles.Reference
