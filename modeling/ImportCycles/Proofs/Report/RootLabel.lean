import Mathlib.Data.List.DropRight
import ImportCycles.Proofs.Report.Naming
/-!
The label of the root and the names of the files below it. A name begins with the label, so that the
label can be taken away from it, unless the root ends in a name with a backslash at its end: among
the slashes that the label drops there it drops the backslash too, and the names of files keep it.
-/
namespace ImportCycles

namespace Path

variable {p base rest : Path} {piece : Name} {parts : List (Name × Option Component)}
  {cs : List Char} {n : Nat}

theorem component?_ne_root : component? piece ≠ some .root := by
  unfold component?
  split
  · simp
  split
  · simp
  · simp

theorem dropComponents_suffix : dropComponents n parts <:+ parts := by
  induction parts generalizing n with
  | nil => cases n <;> exact List.suffix_refl _
  | cons part parts ih =>
    obtain ⟨piece, component⟩ := part
    cases n with
    | zero => exact List.suffix_refl _
    | succ n => cases component <;> exact ih.trans (List.suffix_cons _ _)

/-- Pieces behind the first one of a path do not make an absolute path. -/
theorem isAbsolute_respell (h : ∀ part ∈ parts, slash ∉ part.1 ∧ part.2 = component? part.1) :
    (respell parts).isAbsolute = false := by
  have hkept : ((parts.dropWhile (·.2.isNone)).reverse.dropWhile (·.2.isNone)).reverse <+:
      parts.dropWhile (·.2.isNone) :=
    List.rdropWhile_prefix (fun part : Name × Option Component => part.2.isNone) _
  have hmem : ∀ part ∈ ((parts.dropWhile (·.2.isNone)).reverse.dropWhile (·.2.isNone)).reverse,
      part ∈ parts :=
    fun part hpart => (List.dropWhile_sublist _).subset (hkept.subset hpart)
  rw [respell]
  split
  · next piece hroot =>
    obtain ⟨-, hcomponent⟩ := h (piece, some .root) (hmem _ (by simp [hroot]))
    exact absurd hcomponent.symm component?_ne_root
  · cases hlist : ((parts.dropWhile (·.2.isNone)).reverse.dropWhile (·.2.isNone)).reverse with
    | nil => rfl
    | cons part more =>
      obtain ⟨piece, component⟩ := part
      have hpart := h (piece, component) (hmem _ (by simp [hlist]))
      obtain ⟨hslash, rfl⟩ : slash ∉ piece ∧ component = component? piece := hpart
      have hfirst : (component? piece).isNone = false := by
        have hhead := List.head?_dropWhile_not
          (fun part : Name × Option Component => part.2.isNone) parts
        obtain ⟨behind, hbehind⟩ := hlist ▸ hkept
        simpa [← hbehind] using hhead
      cases piece with
      | nil =>
        have hempty : component? [] = none := by decide
        simp [hempty] at hfirst
      | cons b bytes =>
        have hb : b ≠ slash := by
          rintro rfl
          exact hslash List.mem_cons_self
        simp [isAbsolute, head?_unsplit, hb]

/-- What is left of a path below an absolute one is no absolute path. -/
theorem isAbsolute_of_below? (hbase : base.isAbsolute = true) (h : p.below? base = some rest) :
    rest.isAbsolute = false := by
  unfold below? at h
  split at h
  · next hprefix =>
    obtain rfl := Option.some.inj h
    obtain ⟨baseBytes, -, hbaseComponents⟩ := exists_bytes_of_isAbsolute hbase
    rw [hbaseComponents, List.isPrefixOf_iff_prefix] at hprefix
    obtain ⟨more, hmore⟩ := hprefix
    have habsolute : p.isAbsolute = true := isAbsolute_of_components hmore.symm
    obtain ⟨bytes, hbytes, -⟩ := exists_bytes_of_isAbsolute habsolute
    have hall : p.parts = ([], some .root) ::
        (split bytes).map fun piece => (piece, component? piece) := by
      simp [parts, hbytes, split_slash, habsolute, firstComponent?]
    rw [hbaseComponents, List.length_cons, hall]
    refine isAbsolute_respell fun part hpart => ?_
    have hmem : part ∈ (split bytes).map fun piece => (piece, component? piece) :=
      dropComponents_suffix.subset hpart
    obtain ⟨piece, hpiece, rfl⟩ := List.mem_map.mp hmem
    exact ⟨noSlash_of_mem_split hpiece, rfl⟩
  · simp at h

/-- Only a slash is written as bytes that end in a slash. -/
theorem getLast?_of_encode (h : (Text.Utf8.encode cs).getLast? = some slash) :
    cs.getLast? = some '/' := by
  cases cs using List.reverseRecOn with
  | nil => simp [Text.Utf8.encode] at h
  | append_singleton front c =>
    rw [Text.Utf8.encode_append, List.getLast?_append_of_ne_nil _
      (Text.Utf8.encode_cons_ne_nil c [])] at h
    by_contra hne
    have hslash : '/' ∉ [c] := by simpa [eq_comm] using hne
    exact Extension.slash_not_mem_encode hslash (List.mem_of_getLast? h)

end Path

namespace Report.Naming

open ImportCycles.Path (ofString)

/-- What the label of a root drops from its end. -/
def IsDropped (c : Char) : Prop := c = '/' ∨ c = '\\'

instance (c : Char) : Decidable (IsDropped c) := inferInstanceAs (Decidable (_ ∨ _))

/-- The last name of the root ends in a backslash, whatever slashes and backslashes stand behind. -/
def EndsInBackslash (written : String) : Prop :=
  ∃ front c back, written.toList = front ++ c :: '\\' :: back ∧ ¬ IsDropped c ∧
    ∀ d ∈ back, IsDropped d

variable {root file : Path} {written : String} {front back : List Char} {c : Char}

theorem toList_display_ofString (written : String) :
    (ofString written).display.toList = written.toList := by
  have hread : Text.Utf8.lenient (ofString written).bytes = written.toList :=
    Text.Utf8.lenient_encode written.toList
  rw [Path.display, hread, String.toList_ofList]

/-- The label has one slash behind the last letter that is not dropped. -/
theorem rootLabel_eq (hwritten : written.toList = front ++ c :: back) (hc : ¬ IsDropped c)
    (hback : ∀ d ∈ back, IsDropped d) :
    (rootLabel ⟨root, ofString written⟩).toList = front ++ [c, '/'] := by
  have hkept : written.toList.reverse.dropWhile (fun d => d = '/' || d = '\\') =
      c :: front.reverse := by
    have hdropped : ∀ d ∈ back.reverse, (d = '/' || d = '\\') = true := by
      intro d hd
      simpa [IsDropped] using hback d (List.mem_reverse.mp hd)
    rw [hwritten, List.reverse_append, List.reverse_cons, List.append_assoc,
      List.dropWhile_append_of_pos hdropped, List.singleton_append, List.dropWhile_cons_of_neg]
    simpa [IsDropped] using hc
  simp only [rootLabel, toList_display_ofString, hkept]
  simp

/-- Where nothing would be left the label is the root as it was written. -/
theorem rootLabel_of_dropped (h : ∀ d ∈ written.toList, IsDropped d) :
    (rootLabel ⟨root, ofString written⟩).toList = written.toList := by
  have hkept : written.toList.reverse.dropWhile (fun d => d = '/' || d = '\\') = [] := by
    rw [List.dropWhile_eq_nil_iff]
    intro d hd
    simpa [IsDropped] using h d (List.mem_reverse.mp hd)
  simp only [rootLabel, toList_display_ofString, hkept]
  simp

/-- A text ends in a letter that is not dropped and letters that are, if not all are dropped. -/
theorem exists_last_kept (cs : List Char) : (∀ d ∈ cs, IsDropped d) ∨
    ∃ front c back, cs = front ++ c :: back ∧ ¬ IsDropped c ∧ ∀ d ∈ back, IsDropped d := by
  induction cs with
  | nil => exact Or.inl (by simp)
  | cons a cs ih =>
    rcases ih with hall | ⟨front, c, back, rfl, hc, hback⟩
    · by_cases ha : IsDropped a
      · exact Or.inl (by simpa using ⟨ha, hall⟩)
      · exact Or.inr ⟨[], a, cs, rfl, ha, hall⟩
    · exact Or.inr ⟨a :: front, c, back, rfl, hc, hback⟩

theorem exists_name_eq (hroot : root.isAbsolute = true)
    (hbelow : root.components <+: file.components) : ∃ rest : List UInt8,
      (name ⟨root, ofString written⟩ file).toList = Text.Utf8.lenient
        (Text.Utf8.encode written.toList ++ ((ofString written).separator ++ rest)) := by
  obtain ⟨rest, hrest⟩ : ∃ rest, file.below? root = some rest := by
    rw [Path.below?, if_pos (List.isPrefixOf_iff_prefix.mpr hbelow)]
    exact ⟨_, rfl⟩
  refine ⟨rest.bytes, ?_⟩
  simp only [name, hrest, Path.display, String.toList_ofList,
    Path.bytes_join (Path.isAbsolute_of_below? hroot hrest)]
  rfl

/-- The root as it was written begins every name. -/
theorem written_prefix_name (hroot : root.isAbsolute = true)
    (hbelow : root.components <+: file.components) :
    written.toList <+: (name ⟨root, ofString written⟩ file).toList := by
  obtain ⟨rest, hname⟩ := exists_name_eq hroot hbelow
  rw [hname]
  exact Text.Utf8.prefix_lenient _ _

/-- A root that does not end in a slash is followed by one. -/
theorem written_slash_prefix_name (hroot : root.isAbsolute = true)
    (hbelow : root.components <+: file.components) (hne : written.toList ≠ [])
    (hlast : written.toList.getLast? ≠ some '/') :
    written.toList ++ ['/'] <+: (name ⟨root, ofString written⟩ file).toList := by
  obtain ⟨rest, hname⟩ := exists_name_eq hroot hbelow
  have hseparator : (ofString written).separator = Text.Utf8.encode ['/'] := by
    rw [Path.separator, if_neg]
    · rfl
    rintro (hempty | hslash)
    · obtain ⟨c, cs, hcs⟩ := List.exists_cons_of_ne_nil hne
      rw [ofString, hcs] at hempty
      exact Text.Utf8.encode_cons_ne_nil c cs hempty
    · exact hlast (Path.getLast?_of_encode hslash)
  rw [hname, hseparator, ← List.append_assoc, ← Text.Utf8.encode_append]
  exact Text.Utf8.prefix_lenient _ _

/-- The name of a file below the root begins with the label of the root, so that the label can be
taken away from it, just when the root does not end in a name with a backslash at its end. -/
theorem name_begins_with_label_iff (hroot : root.isAbsolute = true)
    (hbelow : root.components <+: file.components) :
    (rootLabel ⟨root, ofString written⟩).toList <+: (name ⟨root, ofString written⟩ file).toList ↔
      ¬ EndsInBackslash written := by
  have hprefix : written.toList <+: (name ⟨root, ofString written⟩ file).toList :=
    written_prefix_name hroot hbelow
  constructor
  · rintro hlabel ⟨front, c, back, hwritten, hc, hback⟩
    have hdropped : ∀ d ∈ '\\' :: back, IsDropped d := by simpa [IsDropped] using hback
    rw [rootLabel_eq hwritten hc hdropped] at hlabel
    have hwrong : front ++ [c, '/'] <+: front ++ c :: '\\' :: back := by
      rw [← hwritten]
      refine List.prefix_of_prefix_length_le hlabel hprefix ?_
      simp [hwritten]
    simp at hwrong
  · intro hkeeps
    rcases exists_last_kept written.toList with hall | ⟨front, c, back, hwritten, hc, hback⟩
    · rw [rootLabel_of_dropped hall]
      exact hprefix
    · rw [rootLabel_eq hwritten hc hback]
      cases back with
      | nil =>
        have hlast : written.toList.getLast? ≠ some '/' := by
          rintro hslash
          have hslash : c = '/' := by simpa [hwritten] using hslash
          exact hc (Or.inl hslash)
        simpa [hwritten] using written_slash_prefix_name hroot hbelow (by simp [hwritten]) hlast
      | cons d back =>
        rcases hback d List.mem_cons_self with rfl | rfl
        · refine List.IsPrefix.trans ?_ hprefix
          simp [hwritten]
        · refine absurd ⟨front, c, back, hwritten, hc, ?_⟩ hkeeps
          exact fun d hd => hback d (List.mem_cons_of_mem _ hd)

/-- A root with a name that has a backslash in it, but not at its end. -/
def insideNaming : Naming := ⟨ofString "/w/app", ofString "a\\pp//\\"⟩

theorem insideNaming_label_begins_name :
    insideNaming.canonicalRoot.isAbsolute = true ∧
    insideNaming.canonicalRoot.components <+: (ofString "/w/app/x.js").components ∧
    rootLabel insideNaming = "a\\pp/" ∧
    name insideNaming (ofString "/w/app/x.js") = "a\\pp//\\/x.js" ∧
    ¬ EndsInBackslash "a\\pp//\\" := by
  have hroot : insideNaming.canonicalRoot.isAbsolute = true := by decide
  have hbelow : insideNaming.canonicalRoot.components <+: (ofString "/w/app/x.js").components := by
    decide
  have hlabel : rootLabel insideNaming = "a\\pp/" := by rfl
  have hname : name insideNaming (ofString "/w/app/x.js") = "a\\pp//\\/x.js" := by rfl
  have hprefix : (rootLabel insideNaming).toList <+:
      (name insideNaming (ofString "/w/app/x.js")).toList := by
    rw [hlabel, hname]
    decide
  exact ⟨hroot, hbelow, hlabel, hname, (name_begins_with_label_iff hroot hbelow).mp hprefix⟩

/-- Two directories whose names differ by a backslash at the end. -/
def backslashTree : FileSystem where
  root := [((ofString "w").bytes, .directory
    [((ofString "src").bytes, .directory []),
     ((ofString "src\\").bytes, .directory [((ofString "a.js").bytes, .file [])])])]
  workingDirectory := [(ofString "w").bytes]

/-- The files below the one with the backslash, when it is written as the root. -/
def backslashNaming : Naming := ⟨ofString "/w/src\\", ofString "src\\"⟩

/-- The label of a root that ends in a backslash does not begin the names of the files there: it
names another directory. -/
theorem label_names_other_directory : backslashTree.WellFormed ∧
    Scan.root backslashTree (ofString "src\\") = .ok (ofString "/w/src\\") ∧
    Scan.sources backslashTree .defaults (ofString "/w/src\\") =
      .ok [ofString "/w/src\\/a.js"] ∧
    name backslashNaming (ofString "/w/src\\/a.js") = "src\\/a.js" ∧
    rootLabel backslashNaming = "src/" ∧
    ¬ (rootLabel backslashNaming).toList <+:
      (name backslashNaming (ofString "/w/src\\/a.js")).toList ∧
    Scan.root backslashTree (ofString "src/") = .ok (ofString "/w/src") := by
  have hname : name backslashNaming (ofString "/w/src\\/a.js") = "src\\/a.js" := by rfl
  have hlabel : rootLabel backslashNaming = "src/" := by rfl
  refine ⟨⟨by decide +kernel, _, rfl⟩, rfl, ?_, hname, hlabel, ?_, rfl⟩
  · exact Scan.sources_eq rfl rfl (by decide +kernel) (by decide +kernel)
  · rw [hname, hlabel]
    decide

end Report.Naming

end ImportCycles
