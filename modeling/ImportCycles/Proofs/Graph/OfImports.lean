import ImportCycles.Proofs.Graph.Imports
import ImportCycles.Proofs.Lists
/-!
The graph made from files and their targets, whatever the files are: the spellings of one path
become one file, and this has the targets given for all of them.
-/
namespace ImportCycles.Graph

/-- Of each path the first spelling, in the order in which the paths first come. -/
def firstSpellings (files : List Path) : List Path := files.eraseDupsBy Path.same

/-- The targets given for a path under whichever spelling, in their order. -/
def targetsGiven (files : List Path) (targets : List (List Path)) (p : Path) : List Path :=
  ((files.zip targets).filter fun e => e.1.same p).flatMap Prod.snd

/-- The imports of the files at these places, each with the place of its origin. -/
def importsAt (indices : List Nat) (targets : List (List Path)) : List (Nat × Path) :=
  (indices.zip targets).flatMap fun e => e.2.map (e.1, ·)

variable {g : Graph} {files : List Path} {targets : List (List Path)} {indices : List Nat}
  {i : Nat} {p q file : Path}

/-- The first of distinct files is none of the others. -/
theorem same_eq_false_of_distinct (hd : (p :: files).Pairwise fun p q => ¬ p.same q) :
    ∀ q ∈ files, q.same p = false := by
  intro q hq
  have hne := (List.pairwise_cons.mp hd).1 q hq
  rw [same_eq_true] at hne
  simpa [Path.same] using Ne.symm hne

theorem firstSpellings_cons : firstSpellings (p :: files) =
    p :: firstSpellings (files.filter fun q => q.same p = false) :=
  List.eraseDupsBy_cons

theorem firstSpellings_sublist (files : List Path) : (firstSpellings files).Sublist files :=
  Lists.eraseDupsBy_sublist _ _

/-- Files of which no two are the same path are their own first spellings. -/
theorem firstSpellings_of_distinct (hd : files.Pairwise fun p q => ¬ p.same q) :
    firstSpellings files = files := by
  induction files with
  | nil => rfl
  | cons p files ih =>
    have hothers : (files.filter fun q => q.same p = false) = files :=
      List.filter_eq_self.mpr fun q hq => by simp [same_eq_false_of_distinct hd q hq]
    rw [firstSpellings_cons, hothers, ih (List.pairwise_cons.mp hd).2]

theorem indexOf?_congr (h : p.components = q.components) : g.indexOf? p = g.indexOf? q := by
  rw [indexOf?, indexOf?, h]

theorem indexOf?_addFile_self : (g.addFile p).1.indexOf? p = some (g.addFile p).2 := by
  cases hp : g.indexOf? p with
  | some i => rw [addFile_known hp, hp]
  | none => simp [addFile_new hp, indexOf?]

/-- A new file changes only where its own path is found. -/
theorem indexOf?_addFile_of_ne (h : p.components ≠ q.components) :
    (g.addFile p).1.indexOf? q = g.indexOf? q := by
  cases hp : g.indexOf? p with
  | some i => rw [addFile_known hp]
  | none => simp [addFile_new hp, indexOf?, Std.HashMap.getElem?_insert, h]

theorem indexOf?_addFile (h : g.indexOf? q = some i) : (g.addFile p).1.indexOf? q = some i := by
  by_cases hc : p.components = q.components
  · rw [addFile_known ((indexOf?_congr hc).trans h), h]
  · rw [indexOf?_addFile_of_ne hc, h]

theorem indexOf?_addFiles (h : g.indexOf? q = some i) :
    (addFiles g files).1.indexOf? q = some i := by
  induction files generalizing g with
  | nil => exact h
  | cons p files ih => exact ih (indexOf?_addFile h)

/-- Each file is found at the place that adding it gave. -/
theorem map_some_addFiles (g : Graph) (files : List Path) :
    (addFiles g files).2.map some = files.map (addFiles g files).1.indexOf? := by
  induction files generalizing g with
  | nil => rfl
  | cons p files ih =>
    have hp : (addFiles (g.addFile p).1 files).1.indexOf? p = some (g.addFile p).2 :=
      indexOf?_addFiles indexOf?_addFile_self
    simp only [addFiles, List.map_cons, hp, ih]

/-- Behind the files that were there stand the first spellings of the new ones. -/
theorem files_addFiles (g : Graph) (files : List Path) : (addFiles g files).1.files.toList =
    g.files.toList ++ firstSpellings (files.filter fun p => g.indexOf? p = none) := by
  induction files generalizing g with
  | nil => simp [addFiles, firstSpellings]
  | cons p files ih =>
    have hadd : (addFiles g (p :: files)).1 = (addFiles (g.addFile p).1 files).1 := rfl
    rw [hadd, ih]
    cases hp : g.indexOf? p with
    | some i => simp [addFile_known hp, hp]
    | none =>
      have hnew : (files.filter fun q => (g.addFile p).1.indexOf? q = none) =
          (files.filter fun q => g.indexOf? q = none).filter fun q => q.same p = false := by
        rw [List.filter_filter]
        refine List.filter_congr fun q _ => ?_
        by_cases hc : q.components = p.components
        · have hfound := indexOf?_addFile_self (g := g) (p := p)
          rw [← indexOf?_congr hc] at hfound
          simp [hfound, Path.same, hc]
        · simp [indexOf?_addFile_of_ne (Ne.symm hc), Path.same, hc]
      rw [hnew, List.filter_cons_of_pos (by simp [hp]), firstSpellings_cons]
      simp [addFile_new hp]

theorem files_addFiles_empty (files : List Path) :
    (addFiles empty files).1.files.toList = firstSpellings files := by
  have hall : (files.filter fun p => empty.indexOf? p = none) = files :=
    List.filter_eq_self.mpr fun p _ => by simp [indexOf?, empty]
  rw [files_addFiles, hall]
  rfl

/-- The files of a graph find the same paths as the files that it was made from. -/
theorem isSome_placeOf?_firstSpellings :
    (placeOf? (firstSpellings files) p).isSome = true ↔ ∃ q ∈ files, q.same p = true := by
  have hwf := (built_addFiles built_empty files).wellFormed
  have hplace := hwf.indexOf?_eq (files_addFiles_empty files)
  constructor
  · intro h
    rw [placeOf?, List.findIdx?_isSome, List.any_eq_true] at h
    obtain ⟨q, hq, hsame⟩ := h
    exact ⟨q, (firstSpellings_sublist files).subset hq, hsame⟩
  · rintro ⟨q, hq, hsame⟩
    have hsome : (addFiles empty files).1.indexOf? q ∈ (addFiles empty files).2.map some := by
      rw [map_some_addFiles]
      exact List.mem_map_of_mem hq
    obtain ⟨i, -, hi⟩ := List.mem_map.mp hsome
    rw [← hplace p, ← indexOf?_congr (same_eq_true.mp hsame), ← hi]
    rfl

theorem importsAt_cons {given : List Path} : importsAt (i :: indices) (given :: targets) =
    given.map (i, ·) ++ importsAt indices targets := by
  simp [importsAt]

theorem targetsGiven_cons {given : List Path} : targetsGiven (q :: files) (given :: targets) p =
    (if q.same p then given else []) ++ targetsGiven files targets p := by
  by_cases h : q.same p = true <;> simp [targetsGiven, h]

theorem map_snd_importsAt (hl : indices.length = targets.length) :
    (importsAt indices targets).map Prod.snd = targets.flatten := by
  induction indices generalizing targets with
  | nil =>
    obtain rfl := List.length_eq_zero_iff.mp hl.symm
    rfl
  | cons i indices ih =>
    cases targets with
    | nil => simp at hl
    | cons given targets =>
      rw [importsAt_cons, List.map_append, ih (Nat.succ.inj hl)]
      simp

/-- The imports with one origin are those given for the files that stand there. -/
theorem filter_importsAt {place : Path → Option Nat} (hindices : indices.map some = files.map place)
    (hplace : ∀ q, place q = some i ↔ q.same p = true) :
    ((importsAt indices targets).filter fun e => e.1 = i) =
      (targetsGiven files targets p).map (i, ·) := by
  induction files generalizing indices targets with
  | nil =>
    obtain rfl := List.map_eq_nil_iff.mp hindices
    rfl
  | cons q files ih =>
    obtain ⟨k, indices, rfl⟩ := List.exists_cons_of_ne_nil (l := indices) (by
      rintro rfl
      simp at hindices)
    obtain ⟨hk, hindices⟩ := List.cons.inj hindices
    cases targets with
    | nil => simp [importsAt, targetsGiven]
    | cons given targets =>
      rw [importsAt_cons, targetsGiven_cons, List.filter_append, ih hindices, List.map_append]
      have hsame := hplace q
      rw [← hk, Option.some.injEq] at hsame
      by_cases hi : k = i
      · simp [hi, hsame.mp hi, List.filter_map, Function.comp_def]
      · simp [hi, mt hsame.mpr hi, List.filter_map, Function.comp_def]

theorem ofImports_eq_foldl : ofImports files targets =
    (importsAt (addFiles empty files).2 targets).foldl record ((addFiles empty files).1, .none) := by
  rw [ofImports, importsAt, List.foldl_flatMap]
  simp only [List.foldl_map]
  rfl

theorem origin_lt (hg : g.WellFormed) (hindices : indices.map some = files.map g.indexOf?) :
    ∀ e ∈ importsAt indices targets, e.1 < g.fileCount := by
  intro e he
  obtain ⟨k, hk, hmem⟩ := List.mem_flatMap.mp he
  obtain ⟨_, -, rfl⟩ := List.mem_map.mp hmem
  have hsome : some k.1 ∈ files.map g.indexOf? := by
    rw [← hindices]
    exact List.mem_map_of_mem (List.of_mem_zip hk).1
  obtain ⟨p, -, hp⟩ := List.mem_map.mp hsome
  obtain ⟨q, hq, -⟩ := (hg.indexOf?_eq_some p k.1).mp hp
  by_contra hge
  simp [file?_eq_none_iff.mpr (Nat.le_of_not_lt hge)] at hq

/-- The graph of any files, each with its targets. -/
structure OfFiles (files : List Path) (targets : List (List Path)) (made : Graph × Lost) :
    Prop where
  wellFormed : made.1.WellFormed
  files_eq : made.1.files.toList = firstSpellings files
  targets_eq : ∀ i p, made.1.file? i = some p → made.1.targets i =
    ((targetsGiven files targets p).filterMap (placeOf? (firstSpellings files))).eraseDups
  dropped_eq : made.2.dropped =
    targets.flatten.countP fun target => (placeOf? (firstSpellings files) target).isNone
  balance : made.1.edgeCount + made.2.repeated + made.2.dropped = targets.flatten.length

theorem ofFiles_ofImports (hl : targets.length = files.length) :
    OfFiles files targets (ofImports files targets) := by
  have hwf := (built_addFiles built_empty files).wellFormed
  have hfiles := files_addFiles_empty files
  have hindices := map_some_addFiles empty files
  have hlength : (addFiles empty files).2.length = targets.length := by
    simpa [hl] using congrArg List.length hindices
  have hplace : ∀ p, (addFiles empty files).1.indexOf? p = placeOf? (firstSpellings files) p :=
    hwf.indexOf?_eq hfiles
  have hrecorded : Recorded (addFiles empty files).1
      ([] ++ importsAt (addFiles empty files).2 targets) (ofImports files targets) := by
    rw [ofImports_eq_foldl]
    refine (recorded_nil hwf fun i => ?_).foldl (origin_lt hwf hindices)
    rw [targets_addFiles]
    simp [empty, Graph.targets]
  rw [List.nil_append] at hrecorded
  have hsnd := map_snd_importsAt hlength
  refine ⟨hrecorded.wellFormed, by rw [hrecorded.files_eq, hfiles], fun i p hp => ?_, ?_, ?_⟩
  · have hat : ∀ q, (addFiles empty files).1.indexOf? q = some i ↔ q.same p = true := by
      intro q
      rw [file?, hrecorded.files_eq] at hp
      rw [hwf.indexOf?_eq_some, same_eq_true]
      constructor
      · rintro ⟨r, hr, hsame⟩
        obtain rfl := Option.some.inj (hr.symm.trans hp)
        exact hsame.symm
      · exact fun hsame => ⟨p, hp, hsame.symm⟩
    rw [hrecorded.targets_eq, filter_importsAt hindices hat, List.filterMap_map]
    simp only [Function.comp_def, hplace]
  · rw [hrecorded.dropped_eq, ← hsnd, List.countP_map]
    simp only [Function.comp_def, hplace]
  · rw [hrecorded.balance, ← hsnd, List.length_map]

theorem targetsGiven_of_unknown (h : ∀ q ∈ files, q.same p = false) :
    targetsGiven files targets p = [] := by
  have hnone : ((files.zip targets).filter fun e => e.1.same p) = [] := by
    rw [List.filter_eq_nil_iff]
    intro e he
    simp [h e.1 (List.of_mem_zip he).1]
  rw [targetsGiven, hnone]
  rfl

/-- Among distinct files each has only the targets that are given in its own place. -/
theorem targetsGiven_of_distinct (hd : files.Pairwise fun p q => ¬ p.same q)
    (hp : files[i]? = some p) : targetsGiven files targets p = (targets[i]?).getD [] := by
  induction files generalizing targets i with
  | nil => simp at hp
  | cons q files ih =>
    cases targets with
    | nil => simp [targetsGiven]
    | cons given targets =>
      rw [targetsGiven_cons]
      cases i with
      | zero =>
        obtain rfl : q = p := by simpa using hp
        simp [targetsGiven_of_unknown (same_eq_false_of_distinct hd), Path.same]
      | succ i =>
        obtain ⟨hq, hd⟩ := List.pairwise_cons.mp hd
        rw [List.getElem?_cons_succ] at hp ⊢
        rw [if_neg (hq p (List.mem_of_getElem? hp)), ih hd hp, List.nil_append]

/-- The graph of distinct files, each with its targets. -/
structure OfDistinct (files : List Path) (targets : List (List Path)) (made : Graph × Lost) :
    Prop where
  files_eq : made.1.files.toList = files
  targets_eq : ∀ i, made.1.targets i =
    (((targets[i]?).getD []).filterMap (placeOf? files)).eraseDups
  dropped_eq : made.2.dropped = targets.flatten.countP fun target => (placeOf? files target).isNone
  balance : made.1.edgeCount + made.2.repeated + made.2.dropped = targets.flatten.length

theorem ofImports_distinct (hd : files.Pairwise fun p q => ¬ p.same q)
    (hl : targets.length = files.length) : OfDistinct files targets (ofImports files targets) := by
  obtain ⟨hwf, hfiles, htargets, hdropped, hbalance⟩ := ofFiles_ofImports hl
  rw [firstSpellings_of_distinct hd] at hfiles htargets hdropped
  have hfile : ∀ i, (ofImports files targets).1.file? i = files[i]? := by
    intro i
    rw [file?, ← Array.getElem?_toList, hfiles]
  refine ⟨hfiles, fun i => ?_, hdropped, hbalance⟩
  cases hp : files[i]? with
  | some p => rw [htargets i p ((hfile i).trans hp), targetsGiven_of_distinct hd hp]
  | none =>
    have hsize : (ofImports files targets).1.targetTable.size ≤ i := by
      rw [hwf.tableSize]
      exact file?_eq_none_iff.mp ((hfile i).trans hp)
    have hgiven : targets[i]? = none := by
      rw [List.getElem?_eq_none_iff, hl]
      exact List.getElem?_eq_none_iff.mp hp
    rw [targets_of_size_le hsize, hgiven]
    rfl

/-- Every file that was given is found in the graph. -/
theorem OfFiles.exists_indexOf? {made : Graph × Lost} (h : OfFiles files targets made)
    (hp : ∃ q ∈ files, q.same p = true) : ∃ i, made.1.indexOf? p = some i := by
  rw [h.wellFormed.indexOf?_eq h.files_eq]
  exact Option.isSome_iff_exists.mp (isSome_placeOf?_firstSpellings.mpr hp)

/-- A known target given for a file is a target of it. -/
theorem OfFiles.imports {made : Graph × Lost} {origin target : Path} {given : List Path} {i j : Nat}
    (h : OfFiles files targets made) (horigin : (origin, given) ∈ files.zip targets)
    (htarget : target ∈ given) (hi : made.1.indexOf? origin = some i)
    (hj : made.1.indexOf? target = some j) : made.1.Imports i j := by
  obtain ⟨p, hp, hsame⟩ := (h.wellFormed.indexOf?_eq_some origin i).mp hi
  rw [Imports, h.targets_eq i p hp, List.mem_eraseDups, List.mem_filterMap]
  refine ⟨target, ?_, (h.wellFormed.indexOf?_eq h.files_eq target).symm.trans hj⟩
  refine List.mem_flatMap.mpr ⟨(origin, given), List.mem_filter.mpr ⟨horigin, ?_⟩, htarget⟩
  exact same_eq_true.mpr hsame.symm

/-- The graph of any files and targets: its files are the first spellings of their paths, and a file
has as its targets the first occurrences of the known paths among all that is given for it under
any spelling. A target is dropped when it is none of the files, and each is an edge, a repetition
or dropped. An import of a file is kept wherever the file stands in the list. -/
theorem graph_of_imports (hl : targets.length = files.length) :
    let made := ofImports files targets
    made.1.files.toList = firstSpellings files ∧
    (∀ i p, made.1.file? i = some p → made.1.targets i =
      ((targetsGiven files targets p).filterMap (placeOf? (firstSpellings files))).eraseDups) ∧
    made.2.dropped =
      (targets.flatten.filter fun target => ∀ file ∈ files, file.same target = false).length ∧
    made.1.edgeCount + made.2.repeated + made.2.dropped = targets.flatten.length ∧
    (∀ origin given, (origin, given) ∈ files.zip targets →
      ∀ target ∈ given, ∀ file ∈ files, file.same target = true →
        ∃ i j, made.1.indexOf? origin = some i ∧ made.1.indexOf? file = some j ∧
          made.1.Imports i j) := by
  intro made
  have h : OfFiles files targets made := ofFiles_ofImports hl
  refine ⟨h.files_eq, h.targets_eq, ?_, h.balance, ?_⟩
  · rw [h.dropped_eq, List.countP_eq_length_filter]
    refine congrArg List.length (List.filter_congr fun target _ => ?_)
    rw [Bool.eq_iff_iff, Option.isNone_iff_eq_none, ← Option.not_isSome_iff_eq_none,
      isSome_placeOf?_firstSpellings]
    simp
  · intro origin given horigin target htarget file hfile hsame
    obtain ⟨i, hi⟩ := h.exists_indexOf?
      ⟨origin, (List.of_mem_zip horigin).1, same_eq_true.mpr rfl⟩
    obtain ⟨j, hj⟩ := h.exists_indexOf? ⟨file, hfile, same_eq_true.mpr rfl⟩
    refine ⟨i, j, hi, hj, h.imports horigin htarget hi ?_⟩
    rwa [← indexOf?_congr (same_eq_true.mp hsame)]

/-- The first file comes again under another spelling, imports a file listed after it, and has a
target that is no file. -/
theorem graph_of_spellings :
    let files := ["s/a.js", "s/b.js", "s//a.js"].map Path.ofString
    let targets := [["s/./b.js", "t/c.js"], ["s/b.js"], ["s/a.js", "s/b.js"]].map
      (List.map Path.ofString)
    targets.length = files.length ∧
      (ofImports files targets).1.files.toList = ["s/a.js", "s/b.js"].map Path.ofString ∧
      (ofImports files targets).1.targets 0 = [1, 0] ∧
      (ofImports files targets).2.dropped = 1 ∧
      (ofImports files targets).1.edgeCount + (ofImports files targets).2.repeated + 1 = 5 := by
  intro files targets
  have hl : targets.length = files.length := rfl
  obtain ⟨hfiles, htargets, hdropped, hbalance, -⟩ := graph_of_imports hl
  have hspellings : firstSpellings files = ["s/a.js", "s/b.js"].map Path.ofString := by
    decide +kernel
  have hcount : (ofImports files targets).2.dropped = 1 := by
    rw [hdropped]
    decide +kernel
  refine ⟨hl, hfiles.trans hspellings, ?_, hcount, ?_⟩
  · have hfile : (ofImports files targets).1.file? 0 = some (Path.ofString "s/a.js") := by
      rw [file?, ← Array.getElem?_toList, hfiles, hspellings]
      rfl
    rw [htargets 0 _ hfile]
    decide +kernel
  · rw [hcount] at hbalance
    rw [hbalance]
    rfl

end ImportCycles.Graph
