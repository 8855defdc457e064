import ImportCycles.Extension
import ImportCycles.Proofs.Lists
import ImportCycles.Proofs.Statement.Language
/-!
Cleaning a list of extensions. What is left of an extension begins with no point and ends in no
blank, and is left once. Blanks are taken away before points are, so a blank behind points stays, and
then cleaning the list once more changes it again.
-/
namespace ImportCycles

open Statement (AreBlank areBlank_takeWhile dropWhile_blank)

namespace Text

/-- No blank stands at either end of the text. -/
structure IsTrimmed (cs : List Char) : Prop where
  front : ∀ c ∈ cs.head?, isBlank c = false
  back : ∀ c ∈ cs.getLast?, isBlank c = false

variable {cs mid back : List Char}

theorem head?_dropWhile_blank (cs : List Char) :
    ∀ c ∈ (cs.dropWhile isBlank).head?, isBlank c = false := by
  intro c hc
  have hhead := List.head?_dropWhile_not isBlank cs
  rw [Option.mem_def.mp hc] at hhead
  exact hhead

theorem reverse_areBlank (h : AreBlank cs) : AreBlank cs.reverse :=
  fun c hc => h c (List.mem_reverse.mp hc)

theorem exists_trimEnd (cs : List Char) :
    (∀ c ∈ (trimEnd cs).getLast?, isBlank c = false) ∧
      ∃ back, AreBlank back ∧ cs = trimEnd cs ++ back := by
  rw [trimEnd, List.getLast?_reverse]
  refine ⟨head?_dropWhile_blank _, (cs.reverse.takeWhile isBlank).reverse,
    reverse_areBlank areBlank_takeWhile, ?_⟩
  rw [← List.reverse_append, List.takeWhile_append_dropWhile, List.reverse_reverse]

theorem trimEnd_append (hmid : ∀ c ∈ mid.getLast?, isBlank c = false) (hback : AreBlank back) :
    trimEnd (mid ++ back) = mid := by
  rw [trimEnd, List.reverse_append, dropWhile_blank (reverse_areBlank hback)]
  · exact List.reverse_reverse mid
  · rwa [List.head?_reverse]

/-- Trimming finds the one way to cut a text into blanks, a trimmed text, and blanks. -/
theorem trim_eq_iff : trim cs = mid ↔ IsTrimmed mid ∧
    ∃ front back, AreBlank front ∧ AreBlank back ∧ cs = front ++ (mid ++ back) := by
  constructor
  · rintro rfl
    obtain ⟨hlast, back, hback, hcut⟩ := exists_trimEnd (cs.dropWhile isBlank)
    refine ⟨⟨fun c hc => head?_dropWhile_blank cs c ?_, hlast⟩, cs.takeWhile isBlank, back,
      areBlank_takeWhile, hback, ?_⟩
    · rw [hcut]
      exact List.mem_head?_append_of_mem_head? hc
    · rw [trim, ← hcut, List.takeWhile_append_dropWhile]
  · rintro ⟨⟨hfirst, hlast⟩, front, back, hfront, hback, rfl⟩
    cases mid with
    | nil =>
      have hblank : AreBlank (front ++ back) := Statement.areBlank_append hfront hback
      rw [trim, List.nil_append, List.dropWhile_eq_nil_iff.mpr hblank]
      rfl
    | cons c mid =>
      rw [trim, dropWhile_blank hfront (by simpa using hfirst)]
      exact trimEnd_append hlast hback

end Text

namespace Extension

/-- What is left of an extension: some text, no point at its front, and no blank at its end. -/
structure IsBare (ext : String) : Prop where
  text : ∃ c ∈ ext.toList, Text.isBlank c = false
  front : ext.toList.head? ≠ some '.'
  back : ∀ c ∈ ext.toList.getLast?, Text.isBlank c = false

def BeginsBlank (ext : String) : Prop := ∃ c ∈ ext.toList.head?, Text.isBlank c = true

/-- Points stand at the front, but for blanks, and a blank behind them, but not at the end. -/
def HidesBlank (ext : String) : Prop :=
  ∃ blanks points blank rest, ext.toList = blanks ++ (points ++ blank :: rest) ∧
    AreBlank blanks ∧ points ≠ [] ∧ (∀ c ∈ points, c = '.') ∧ Text.isBlank blank = true ∧
    ∃ c ∈ rest, Text.isBlank c = false

variable {ext e : String} {exts : List String}

theorem toList_bare : (bare ext).toList = (Text.trim ext.toList).dropWhile (· = '.') :=
  String.toList_ofList

theorem exists_points (ext : String) : ∃ points, (∀ c ∈ points, c = '.') ∧
    Text.trim ext.toList = points ++ (bare ext).toList := by
  refine ⟨(Text.trim ext.toList).takeWhile (· = '.'), fun c hc => ?_, ?_⟩
  · simpa using List.mem_takeWhile_imp hc
  · rw [toList_bare, List.takeWhile_append_dropWhile]

theorem isBare_bare (h : bare ext ≠ "") : IsBare (bare ext) := by
  obtain ⟨points, -, hcut⟩ := exists_points ext
  obtain ⟨⟨-, hlast⟩, -⟩ := Text.trim_eq_iff.mp hcut
  have hne : (bare ext).toList ≠ [] := fun hnil => h (String.toList_inj.mp hnil)
  rw [List.getLast?_append_of_ne_nil _ hne] at hlast
  obtain ⟨c, hc⟩ := Option.isSome_iff_exists.mp (List.getLast?_isSome.mpr hne)
  refine ⟨⟨c, List.mem_of_getLast? hc, hlast c hc⟩, fun hpoint => ?_, hlast⟩
  have hhead := List.head?_dropWhile_not (· = '.') (Text.trim ext.toList)
  rw [← toList_bare, hpoint] at hhead
  simp at hhead

theorem isBlank_point : Text.isBlank '.' = false := by decide

theorem HidesBlank.beginsBlank (h : HidesBlank ext) : BeginsBlank (bare ext) := by
  obtain ⟨blanks, points, blank, rest, htext, hblanks, hne, hpoints, hblank, c, hc, hnot⟩ := h
  obtain ⟨hlast, back, hback, hrest⟩ := Text.exists_trimEnd rest
  have hsome : Text.trimEnd rest ≠ [] := by
    intro hnil
    rw [hnil, List.nil_append] at hrest
    simp [hback c (hrest ▸ hc)] at hnot
  have htrim : Text.trim ext.toList = points ++ blank :: Text.trimEnd rest := by
    refine Text.trim_eq_iff.mpr ⟨⟨?_, ?_⟩, blanks, back, hblanks, hback, ?_⟩
    · obtain ⟨point, points, rfl⟩ := List.exists_cons_of_ne_nil hne
      obtain rfl : point = '.' := hpoints point (by simp)
      simp [isBlank_point]
    · rwa [List.append_cons, List.getLast?_append_of_ne_nil _ hsome]
    · rw [htext, List.append_assoc, List.cons_append, ← hrest]
  have hpoint : blank ≠ '.' := by
    rintro rfl
    simp [isBlank_point] at hblank
  have hbare : (bare ext).toList = blank :: Text.trimEnd rest := by
    rw [toList_bare, htrim, List.dropWhile_append_of_pos (by simpa using hpoints),
      List.dropWhile_cons_of_neg (by simpa using hpoint)]
  exact ⟨blank, by simp [hbare], hblank⟩

/-- A blank at the front of what is left was hidden behind points. -/
theorem beginsBlank_bare_iff : BeginsBlank (bare ext) ↔ HidesBlank ext := by
  refine ⟨?_, HidesBlank.beginsBlank⟩
  rintro ⟨blank, hhead, hblank⟩
  obtain ⟨points, hpoints, hcut⟩ := exists_points ext
  obtain ⟨⟨hfirst, hlast⟩, front, back, hfront, -, htext⟩ := Text.trim_eq_iff.mp hcut
  obtain ⟨rest, hrest⟩ := List.head?_eq_some_iff.mp hhead
  rw [hrest] at hfirst hlast htext
  refine ⟨front, points, blank, rest ++ back, by simpa using htext, hfront, ?_, hpoints, hblank, ?_⟩
  · rintro rfl
    simp [hblank] at hfirst
  -- What is trimmed does not end in the blank, so there is more behind it.
  · rcases List.eq_nil_or_concat' rest with rfl | ⟨inner, last, rfl⟩
    · simp [hblank] at hlast
    · rw [← List.cons_append, ← List.append_assoc, List.getLast?_concat] at hlast
      exact ⟨last, by simp, hlast last rfl⟩

/-- What is left once is left as it is, unless it begins with a blank. -/
theorem IsBare.bare_eq_iff (h : IsBare e) : bare e = e ↔ ¬ BeginsBlank e := by
  constructor
  · rintro hfixed ⟨c, hc, hblank⟩
    obtain ⟨points, -, hcut⟩ := exists_points e
    rw [hfixed] at hcut
    obtain ⟨⟨hfirst, -⟩, front, back, -, -, htext⟩ := Text.trim_eq_iff.mp hcut
    have hlength := congrArg List.length htext
    simp only [List.length_append] at hlength
    obtain rfl : points = [] := List.eq_nil_of_length_eq_zero (by omega)
    simp [hfirst c hc] at hblank
  · intro hnot
    have htrimmed : Text.IsTrimmed e.toList :=
      ⟨fun c hc => Bool.eq_false_iff.mpr fun hblank => hnot ⟨c, hc, hblank⟩, h.back⟩
    have htrim : Text.trim e.toList = e.toList :=
      Text.trim_eq_iff.mpr ⟨htrimmed, [], [], by simp [AreBlank], by simp [AreBlank], by simp⟩
    have hfront := h.front
    apply String.toList_inj.mp
    rw [toList_bare, htrim]
    generalize e.toList = cs at hfront
    cases cs with
    | nil => rfl
    | cons c cs => exact List.dropWhile_cons_of_neg (by simpa using hfront)

theorem mem_clean_iff : e ∈ clean exts ↔ (∃ ext ∈ exts, bare ext = e) ∧ e ≠ "" := by
  simp [clean, List.mem_eraseDups]

theorem isBare_of_mem_clean (h : e ∈ clean exts) : IsBare e := by
  obtain ⟨⟨ext, -, rfl⟩, hne⟩ := mem_clean_iff.mp h
  exact isBare_bare hne

/-- A list of distinct extensions is clean just when cleaning leaves each of them as it is. -/
theorem clean_eq_self_iff (hnodup : exts.Nodup) (hsome : ∀ e ∈ exts, e ≠ "") :
    clean exts = exts ↔ ∀ e ∈ exts, bare e = e := by
  constructor
  · intro h
    have hsublist : (clean exts).Sublist (exts.map bare) :=
      (Lists.eraseDupsBy_sublist _ _).trans List.filter_sublist
    have hmap : exts.map bare = exts.map id := by
      rw [h] at hsublist
      rw [List.map_id]
      exact (hsublist.eq_of_length (List.length_map bare).symm).symm
    exact List.map_inj_left.mp hmap
  · intro h
    have hmap : exts.map bare = exts := (List.map_congr_left h).trans (List.map_id exts)
    rw [clean, hmap, List.filter_eq_self.mpr (by simpa using hsome), Lists.eraseDups_of_nodup hnodup]

/-- What cleaning makes of a list. Each extension that is left holds more than blanks, begins with no
point, ends in no blank and is left once. None begins with a blank either, and cleaning once more
changes nothing, just when no extension of the list hides a blank behind points. -/
theorem clean_up_to_hidden_blanks (exts : List String) :
    (∀ e ∈ clean exts, IsBare e) ∧ (clean exts).Nodup ∧
    ((∀ e ∈ clean exts, ¬ BeginsBlank e) ↔ ∀ ext ∈ exts, ¬ HidesBlank ext) ∧
    (clean (clean exts) = clean exts ↔ ∀ ext ∈ exts, ¬ HidesBlank ext) := by
  have hnodup : (clean exts).Nodup := Lists.nodup_eraseDups _
  have hhidden : (∀ e ∈ clean exts, ¬ BeginsBlank e) ↔ ∀ ext ∈ exts, ¬ HidesBlank ext := by
    constructor
    · intro h ext hext hhides
      have hbegins := hhides.beginsBlank
      refine h _ (mem_clean_iff.mpr ⟨⟨ext, hext, rfl⟩, fun hempty => ?_⟩) hbegins
      rw [hempty] at hbegins
      simp [BeginsBlank] at hbegins
    · intro h e he hbegins
      obtain ⟨⟨ext, hext, rfl⟩, -⟩ := mem_clean_iff.mp he
      exact h ext hext (beginsBlank_bare_iff.mp hbegins)
  refine ⟨fun e he => isBare_of_mem_clean he, hnodup, hhidden, ?_⟩
  rw [clean_eq_self_iff hnodup fun e he => (mem_clean_iff.mp he).2, ← hhidden]
  exact forall₂_congr fun e he => (isBare_of_mem_clean he).bare_eq_iff

/-- Behind its point the only extension begins with a blank. -/
theorem not_every_list_cleaned_at_once : ¬ ∀ exts : List String,
    (∀ e ∈ clean exts, IsBare e ∧ ¬ BeginsBlank e) ∧ (clean exts).Nodup ∧
      clean (clean exts) = clean exts := by
  intro h
  obtain ⟨hbare, -, -⟩ := h [". js"]
  have hclean : clean [". js"] = [" js"] := by decide
  have hblank : BeginsBlank " js" := ⟨' ', by decide, by decide⟩
  exact (hbare " js" (by simp [hclean])).2 hblank

end Extension

end ImportCycles
