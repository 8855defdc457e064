import ImportCycles.Resolution
import ImportCycles.Proofs.Path.NormalForm
/-!
The targets of resolutions: files with plain paths, whose names carry one of the extensions, when
the specifier is taken from an absolute directory.
-/
namespace ImportCycles

open FileSystem (pathOf)

variable {fs : FileSystem} {extensions : List String} {ext specifier : String} {cs : List Char}
  {names : List Name} {n : Name} {base origin t p : Path} {probe : Probe} {aliases : AliasTable}

namespace Extension

/-- No byte of another character is a slash. -/
theorem slash_not_mem_encode (h : '/' ∉ cs) : Path.slash ∉ Text.Utf8.encode cs := by
  intro hmem
  obtain ⟨c, hc, hbyte⟩ := List.mem_flatMap.mp hmem
  have hne : c.toNat ≠ 0x2F := by
    intro hv
    have hslash : c = '/' := Char.ext (UInt32.toNat_inj.mp hv)
    exact h (hslash ▸ hc)
  have hbyte : ∃ b ∈ String.utf8EncodeChar c, b.toNat = 0x2F := ⟨_, hbyte, rfl⟩
  simp only [String.utf8EncodeChar, Char.toNat_val] at hbyte
  -- A character of more than one byte has none below 0x80.
  split at hbyte
  · simp at hbyte
    omega
  split at hbyte
  · simp at hbyte
    omega
  split at hbyte <;> simp at hbyte <;> omega

theorem slash_not_mem_bytes (h : '/' ∉ ext.toList) : Path.slash ∉ bytes ext :=
  slash_not_mem_encode h

theorem carriedBy_append (h : n ≠ []) : carriedBy (n ++ Path.dot :: bytes ext) ext = true := by
  have hlen := List.length_pos_iff.mpr h
  have hrest : (n ++ Path.dot :: bytes ext).length - (bytes ext).length = n.length + 1 := by
    simp
    omega
  simp only [carriedBy, hrest]
  simp [List.drop_append]
  omega

theorem carriedBy_iff :
    carriedBy n ext = true ↔ ∃ stem, stem ≠ [] ∧ n = stem ++ Path.dot :: bytes ext := by
  constructor
  · intro h
    simp only [carriedBy, Bool.and_eq_true, decide_eq_true_eq, beq_iff_eq] at h
    obtain ⟨⟨hrest, hdrop⟩, hdot⟩ := h
    generalize hk : n.length - (bytes ext).length - 1 = k at hdot
    obtain ⟨hlt, hpoint⟩ := List.getElem?_eq_some_iff.mp hdot
    refine ⟨n.take k, ?_, ?_⟩
    · rw [← List.length_pos_iff, List.length_take]
      omega
    · have hnext : k + 1 = n.length - (bytes ext).length := by omega
      calc n = n.take k ++ n.drop k := (List.take_append_drop k n).symm
        _ = n.take k ++ Path.dot :: n.drop (k + 1) := by rw [List.drop_eq_getElem_cons hlt, hpoint]
        _ = n.take k ++ Path.dot :: bytes ext := by rw [hnext, hdrop]
  · rintro ⟨stem, hstem, rfl⟩
    exact carriedBy_append hstem

end Extension

/-- A name that is UTF-8 and a stem with one of the extensions after a point. -/
structure IsSourceName (extensions : List String) (n : Name) : Prop where
  text : (Text.Utf8.read? n).isSome = true
  extended : ∃ ext ∈ extensions, ∃ stem, stem ≠ [] ∧ n = stem ++ Path.dot :: Extension.bytes ext

namespace Probe

theorem recognizes_append (hext : ext ∈ extensions) (hn : n ≠ [])
    (htext : (Text.Utf8.read? (n ++ Path.dot :: Extension.bytes ext)).isSome = true) :
    recognizes extensions (n ++ Path.dot :: Extension.bytes ext) = true := by
  rw [recognizes, htext, Bool.true_and, List.any_eq_true]
  exact ⟨ext, hext, Extension.carriedBy_append hn⟩

theorem recognizes_iff : recognizes extensions n = true ↔ IsSourceName extensions n := by
  simp only [recognizes, Bool.and_eq_true, List.any_eq_true, Extension.carriedBy_iff]
  exact ⟨fun h => ⟨h.1, h.2⟩, fun h => ⟨h.text, h.extended⟩⟩

theorem mem_standard (h : probe ∈ standard extensions) :
    probe = .asIs extensions ∨ ∃ ext ∈ extensions, probe = .append ext ∨ probe = .index ext := by
  rcases List.mem_cons.mp h with rfl | h
  · exact Or.inl rfl
  · rcases List.mem_append.mp h with h | h
    · obtain ⟨ext, hext, rfl⟩ := List.mem_map.mp h
      exact Or.inr ⟨ext, hext, Or.inl rfl⟩
    · obtain ⟨ext, hext, rfl⟩ := List.mem_map.mp h
      exact Or.inr ⟨ext, hext, Or.inr rfl⟩

/-- A plain path that the probes look at: its name is recognized if it is UTF-8. Only beside the
root directory itself there is another one, a name of an extension alone. -/
def IsTarget (extensions : List String) (t : Path) : Prop :=
  (∃ front n, AreEntryNames (front ++ [n]) ∧ t = pathOf (front ++ [n]) ∧
    ((Text.Utf8.read? n).isSome = true → recognizes extensions n = true)) ∨
  ∃ n, Path.slash ∉ n ∧ t = pathOf [n]

theorem isTarget_append (hnames : AreEntryNames (names ++ [n])) (hext : ext ∈ extensions)
    (hslash : '/' ∉ ext.toList) :
    IsTarget extensions (pathOf (names ++ [n ++ Path.dot :: Extension.bytes ext])) := by
  obtain ⟨hfront, hn⟩ := areEntryNames_concat.mp hnames
  exact Or.inl ⟨names, _, areEntryNames_concat.mpr
    ⟨hfront, hn.append (Extension.slash_not_mem_bytes hslash)⟩, rfl,
    recognizes_append hext hn.ne_nil⟩

theorem isTarget_of_candidate? (hslash : ∀ ext ∈ extensions, '/' ∉ ext.toList)
    (hprobe : probe ∈ standard extensions) (hnames : AreEntryNames names)
    (h : probe.candidate? fs (pathOf names) = some t) : IsTarget extensions t := by
  rcases mem_standard hprobe with rfl | ⟨ext, hext, rfl | rfl⟩
  · simp only [candidate?] at h
    split at h
    · next hname =>
      obtain rfl := Option.some.inj h
      rcases List.eq_nil_or_concat' names with rfl | ⟨front, n, rfl⟩
      · simp [Path.fileName?, Path.components_pathOf hnames] at hname
      · rw [Path.fileName?_pathOf hnames] at hname
        exact Or.inl ⟨front, n, hnames, rfl, fun _ => by simpa using hname⟩
    · simp at h
  · obtain rfl := Option.some.inj h
    rcases List.eq_nil_or_concat' names with rfl | ⟨front, n, rfl⟩
    · refine Or.inr ⟨Path.dot :: Extension.bytes ext, ?_, rfl⟩
      have := Extension.slash_not_mem_bytes (hslash ext hext)
      simpa [Extension.bytes, Path.slash, Path.dot] using this
    · rw [Path.pathOf_concat_append]
      exact isTarget_append hnames hext (hslash ext hext)
  · simp only [candidate?] at h
    split at h
    · obtain rfl := Option.some.inj h
      have hindex : IsEntryName (Path.ofString "index").bytes := by decide
      have hbytes : Path.ofString ("index." ++ ext) =
          ⟨(Path.ofString "index").bytes ++ Path.dot :: Extension.bytes ext⟩ := by
        simp [Path.ofString, Text.Utf8.encode, Extension.bytes]
        rfl
      have hno := (hindex.append (Extension.slash_not_mem_bytes (hslash ext hext))).noSlash
      rw [hbytes, Path.join_pathOf_of_noSlash hnames hno]
      exact isTarget_append (areEntryNames_concat.mpr ⟨hnames, hindex⟩) hext (hslash ext hext)
    · simp at h

end Probe

namespace Resolution

theorem exists_probe_of_ofBase (h : ofBase fs extensions base = .resolved t) :
    ∃ probe ∈ Probe.standard extensions, probe.candidate? fs base = some t ∧ fs.isFile t = true := by
  unfold ofBase at h
  split at h
  · next target hfind =>
    obtain rfl := Resolution.resolved.inj h
    obtain ⟨probe, hprobe, hhit⟩ := List.exists_of_findSome?_eq_some hfind
    exact ⟨probe, hprobe, Option.filter_eq_some_iff.mp hhit⟩
  · simp at h

theorem exists_base_of_ofSpecifier
    (h : ofSpecifier fs extensions aliases origin specifier = .resolved t) :
    ∃ base, ofBase fs extensions base = .resolved t := by
  unfold ofSpecifier at h
  split at h
  · split at h
    · simp at h
    · exact ⟨_, h⟩
  · split at h
    · simp at h
    · exact ⟨_, h⟩

end Resolution

namespace AliasTable

/-- The specifier is relative, or the alias that stands for it has an absolute directory. -/
def Anchors (aliases : AliasTable) (specifier : String) : Prop :=
  isRelativeSpecifier specifier = true ∨
    ∃ a ∈ aliases.entries.find? (·.Matches specifier), a.directory.isAbsolute = true

theorem isAbsolute_expand? {a : Alias} (ha : a.directory.isAbsolute = true)
    (h : a.expand? specifier = some p) : p.isAbsolute = true := by
  unfold Alias.expand? at h
  split at h
  · simp at h
  · obtain rfl := Option.some.inj h
    exact ha
  · obtain rfl := Option.some.inj h
    exact Path.isAbsolute_join ha

theorem expand?_eq (aliases : AliasTable) (specifier : String) : aliases.expand? specifier =
    (aliases.entries.find? (·.Matches specifier)).bind (·.expand? specifier) := by
  obtain ⟨entries⟩ := aliases
  induction entries with
  | nil => rfl
  | cons a entries ih =>
    simp only [expand?, List.findSome?_cons, List.find?_cons] at ih ⊢
    cases hrest : Alias.rest? a.front specifier with
    | none =>
      have hexpand : a.expand? specifier = none := by simp [Alias.expand?, hrest]
      have hmatches : decide (a.Matches specifier) = false := by simp [Alias.Matches, hrest]
      rw [hexpand, hmatches]
      exact ih
    | some rest =>
      have hmatches : decide (a.Matches specifier) = true := by simp [Alias.Matches, hrest]
      obtain ⟨p, hp⟩ : ∃ p, a.expand? specifier = some p := by
        cases rest <;> simp [Alias.expand?, hrest]
      rw [hp, hmatches, Option.bind_some, hp]

end AliasTable

namespace Resolution

/-- What an anchored specifier of a file with a plain path resolves to is a target below an
absolute base. -/
theorem isTarget_of_ofSpecifier (hslash : ∀ ext ∈ extensions, '/' ∉ ext.toList)
    (horigin : AreEntryNames (names ++ [n])) (hanchor : aliases.Anchors specifier)
    (h : ofSpecifier fs extensions aliases (pathOf (names ++ [n])) specifier = .resolved t) :
    Probe.IsTarget extensions t ∧ fs.isFile t = true := by
  obtain ⟨base, habsolute, hbase⟩ : ∃ base : Path, base.isAbsolute = true ∧
      ofBase fs extensions base.normal = .resolved t := by
    unfold ofSpecifier at h
    split at h
    · rw [Path.parent?_pathOf horigin] at h
      exact ⟨_, Path.isAbsolute_join Path.isAbsolute_pathOf, h⟩
    · next hrelative =>
      obtain ⟨a, ha, hdirectory⟩ := hanchor.resolve_left hrelative
      rw [aliases.expand?_eq, Option.mem_def.mp ha, Option.bind_some] at h
      split at h
      · simp at h
      · next path hpath => exact ⟨path, AliasTable.isAbsolute_expand? hdirectory hpath, h⟩
  obtain ⟨names, hnames, hnormal⟩ := Path.normal_of_isAbsolute habsolute
  rw [hnormal] at hbase
  obtain ⟨probe, hprobe, hcandidate, hfile⟩ := exists_probe_of_ofBase hbase
  exact ⟨Probe.isTarget_of_candidate? hslash hprobe hnames hcandidate, hfile⟩

end Resolution

end ImportCycles
