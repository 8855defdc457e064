import ImportCycles.Proofs.Resolution.Targets
/-!
Which alias stands for a specifier. An alias covers the specifiers that begin with its front up to
the end of a segment; of those that cover a specifier the one with the longest front counts, in
whatever order the aliases are given.
-/
namespace ImportCycles

theorem Text.Utf8.encode_cons_ne_nil (c : Char) (cs : List Char) : encode (c :: cs) ≠ [] := by
  simp [encode]

namespace Alias

/-- The front of the alias begins the specifier, and `behind` is the text after it. The front ends
where a segment does: in a slash, before one, or at the end of the specifier. -/
structure Covers (a : Alias) (specifier : String) (behind : List Char) : Prop where
  text_eq : specifier.toList = a.front.toList ++ behind
  boundary : a.front.toList.getLast? = some '/' ∨ behind = [] ∨ behind.head? = some '/'

/-- What of the text after the front is taken below the directory: all of it after a front that
ends in a slash, otherwise what follows its slash. -/
def remainder (a : Alias) (behind : List Char) : List Char :=
  if a.front.toList.getLast? = some '/' then behind else behind.tail

/-- The path that the alias puts in place of a specifier with this text after the front. -/
def pathFor (a : Alias) (behind : List Char) : Path :=
  if a.remainder behind = [] then a.directory
  else a.directory.join (Path.ofString (String.ofList (a.remainder behind)))

/-- No alias that covers the specifier has a longer front. -/
def IsLongest (aliases : List Alias) (specifier : String) (a : Alias) : Prop :=
  ∀ b ∈ aliases, ∀ behind, b.Covers specifier behind → b.front.length ≤ a.front.length

variable {a b : Alias} {specifier : String} {behind behind' rest : List Char}

theorem rest?_eq_some_iff :
    rest? a.front specifier = some rest ↔
      ∃ behind, a.Covers specifier behind ∧ rest = a.remainder behind := by
  constructor
  · intro h
    unfold rest? at h
    split at h
    · simp at h
    · next hsplit =>
      obtain rfl := Option.some.inj h
      rw [List.isPrefixOf?_eq_some_iff_append_eq] at hsplit
      exact ⟨[], ⟨hsplit.symm, .inr (.inl rfl)⟩, by simp [remainder]⟩
    · next c cs hsplit =>
      rw [List.isPrefixOf?_eq_some_iff_append_eq] at hsplit
      split at h
      · next hslash =>
        obtain rfl := Option.some.inj h
        exact ⟨c :: cs, ⟨hsplit.symm, .inl hslash⟩, by rw [remainder, if_pos hslash]⟩
      · next hslash =>
        split at h
        · next hc =>
          obtain rfl := Option.some.inj h
          exact ⟨c :: cs, ⟨hsplit.symm, .inr (.inr (by rw [hc]; rfl))⟩,
            by rw [remainder, if_neg hslash, List.tail_cons]⟩
        · simp at h
  · rintro ⟨behind, ⟨htext, hboundary⟩, rfl⟩
    have hsplit : a.front.toList.isPrefixOf? specifier.toList = some behind :=
      List.isPrefixOf?_eq_some_iff_append_eq.mpr htext.symm
    rw [rest?, hsplit]
    cases behind with
    | nil => simp [remainder]
    | cons c cs =>
      by_cases hslash : a.front.toList.getLast? = some '/'
      · simp [remainder, hslash]
      · have hc : c = '/' := by simpa [hslash] using hboundary
        simp [remainder, hslash, hc]

theorem matches_iff : a.Matches specifier ↔ ∃ behind, a.Covers specifier behind := by
  rw [Matches, Option.isSome_iff_exists]
  constructor
  · rintro ⟨rest, h⟩
    obtain ⟨behind, hcovers, -⟩ := rest?_eq_some_iff.mp h
    exact ⟨behind, hcovers⟩
  · rintro ⟨behind, hcovers⟩
    exact ⟨_, rest?_eq_some_iff.mpr ⟨behind, hcovers, rfl⟩⟩

theorem Covers.expand?_eq (h : a.Covers specifier behind) :
    a.expand? specifier = some (a.pathFor behind) := by
  have hrest : rest? a.front specifier = some (a.remainder behind) :=
    rest?_eq_some_iff.mpr ⟨behind, h, rfl⟩
  unfold expand? pathFor
  rw [hrest]
  cases a.remainder behind <;> rfl

theorem expand?_eq_none_iff :
    a.expand? specifier = none ↔ ∀ behind, ¬ a.Covers specifier behind := by
  constructor
  · intro h behind hcovers
    simp [hcovers.expand?_eq] at h
  · intro h
    cases hrest : rest? a.front specifier with
    | none => rw [expand?, hrest]
    | some rest =>
      obtain ⟨behind, hcovers, -⟩ := rest?_eq_some_iff.mp hrest
      exact absurd hcovers (h behind)

/-- Fronts that cover one specifier differ in their lengths. -/
theorem Covers.front_eq (ha : a.Covers specifier behind) (hb : b.Covers specifier behind')
    (h : a.front.length = b.front.length) : a.front = b.front := by
  rw [← String.length_toList, ← String.length_toList] at h
  exact String.toList_inj.mp (List.append_inj (ha.text_eq.symm.trans hb.text_eq) h).1

/-- An alias that is tried before another one, where both cover the specifier, has no shorter
front: of two beginnings of one text the longer one has more bytes. -/
theorem Covers.length_le (ha : a.Covers specifier behind) (hb : b.Covers specifier behind')
    (h : a.precedes b = true) : b.front.length ≤ a.front.length := by
  by_contra hlt
  rw [Nat.not_le, ← String.length_toList, ← String.length_toList] at hlt
  obtain ⟨more, hmore⟩ : a.front.toList <+: b.front.toList :=
    List.prefix_of_prefix_length_le ⟨behind, ha.text_eq.symm⟩ ⟨behind', hb.text_eq.symm⟩
      (Nat.le_of_lt hlt)
  have hbytes : (Text.Utf8.encode b.front.toList).length =
      (Text.Utf8.encode a.front.toList).length + (Text.Utf8.encode more).length := by
    simp [← hmore, Text.Utf8.encode]
  obtain ⟨c, cs, rfl⟩ := List.exists_cons_of_ne_nil (l := more) fun hnil => by
    simp [← hmore, hnil] at hlt
  have hpos := List.length_pos_iff.mpr (Text.Utf8.encode_cons_ne_nil c cs)
  simp only [precedes, Bool.or_eq_true, Bool.and_eq_true, decide_eq_true_eq] at h
  omega

theorem precedes_trans (a b c : Alias) (hab : a.precedes b = true) (hbc : b.precedes c = true) :
    a.precedes c = true := by
  simp only [precedes, Bool.or_eq_true, Bool.and_eq_true, decide_eq_true_eq] at hab hbc ⊢
  rcases hab with hab | ⟨hab, hle⟩ <;> rcases hbc with hbc | ⟨hbc, hle'⟩
  · exact .inl (Nat.lt_trans hbc hab)
  · exact .inl (hbc ▸ hab)
  · exact .inl (hab ▸ hbc)
  · exact .inr ⟨hab.trans hbc, List.le_trans hle hle'⟩

theorem precedes_total (a b : Alias) : (a.precedes b || b.precedes a) = true := by
  simp only [precedes, Bool.or_eq_true, Bool.and_eq_true, decide_eq_true_eq]
  rcases Nat.lt_trichotomy (Text.Utf8.encode a.front.toList).length
    (Text.Utf8.encode b.front.toList).length with hlt | heq | hlt
  · exact .inr (.inl hlt)
  · rcases List.le_total (Text.Utf8.encode a.front.toList) (Text.Utf8.encode b.front.toList) with
      hle | hle
    · exact .inl (.inr ⟨heq, hle⟩)
    · exact .inr (.inr ⟨heq.symm, hle⟩)
  · exact .inl (.inl hlt)

end Alias

namespace AliasTable

open Alias

variable {a : Alias} {aliases others : List Alias} {specifier : String} {path : Path}

theorem expand?_ofList (aliases : List Alias) (specifier : String) :
    (ofList aliases).expand? specifier =
      ((aliases.mergeSort precedes).find? (·.Matches specifier)).bind (·.expand? specifier) :=
  expand?_eq (ofList aliases) specifier

/-- The alias found first has the longest front of those that cover the specifier. -/
theorem isLongest_of_find? (h : (aliases.mergeSort precedes).find? (·.Matches specifier) = some a) :
    a ∈ aliases ∧ (∃ behind, a.Covers specifier behind) ∧ IsLongest aliases specifier a := by
  obtain ⟨hmatches, before, after, hentries, hbefore⟩ := List.find?_eq_some_iff_append.mp h
  have hmem : ∀ b, b ∈ before ++ a :: after ↔ b ∈ aliases := fun b => by
    rw [← hentries, List.mem_mergeSort]
  obtain ⟨behind, hcovers⟩ := matches_iff.mp (of_decide_eq_true hmatches)
  have hsorted := List.pairwise_mergeSort precedes_trans precedes_total aliases
  rw [hentries, List.pairwise_append, List.pairwise_cons] at hsorted
  refine ⟨(hmem a).mp (by simp), ⟨behind, hcovers⟩, fun b hb rest hrest => ?_⟩
  rcases List.mem_append.mp ((hmem b).mpr hb) with hb | hb
  · have hnot := hbefore b hb
    simp only [Bool.not_eq_true', decide_eq_false_iff_not] at hnot
    exact absurd (matches_iff.mpr ⟨rest, hrest⟩) hnot
  · rcases List.mem_cons.mp hb with rfl | hb
    · exact Nat.le_refl _
    · exact hcovers.length_le hrest (hsorted.2.1.1 b hb)

theorem expand?_eq_none_iff {t : AliasTable} : t.expand? specifier = none ↔
    ∀ a ∈ t.entries, ∀ behind, ¬ a.Covers specifier behind := by
  rw [expand?, List.findSome?_eq_none_iff]
  exact forall₂_congr fun a _ => Alias.expand?_eq_none_iff

theorem mem_entries_ofList : a ∈ (ofList aliases).entries ↔ a ∈ aliases := List.mem_mergeSort

theorem exists_of_expand? (h : (ofList aliases).expand? specifier = some path) :
    ∃ a ∈ aliases, ∃ behind, a.Covers specifier behind ∧ IsLongest aliases specifier a ∧
      path = a.pathFor behind := by
  rw [expand?_ofList, Option.bind_eq_some_iff] at h
  obtain ⟨a, ha, hpath⟩ := h
  obtain ⟨hmem, ⟨behind, hcovers⟩, hlongest⟩ := isLongest_of_find? ha
  rw [hcovers.expand?_eq] at hpath
  exact ⟨a, hmem, behind, hcovers, hlongest, (Option.some.inj hpath).symm⟩

/-- Where the aliases that cover the specifier have fronts of their own, the longest one counts. -/
theorem expand?_eq_some_iff
    (hdistinct : ∀ a ∈ aliases, ∀ b ∈ aliases, a.Matches specifier → b.Matches specifier →
      a.front = b.front → a = b) :
    (ofList aliases).expand? specifier = some path ↔
      ∃ a ∈ aliases, ∃ behind, a.Covers specifier behind ∧ IsLongest aliases specifier a ∧
        path = a.pathFor behind := by
  refine ⟨exists_of_expand?, ?_⟩
  rintro ⟨a, ha, behind, hcovers, hlongest, rfl⟩
  cases hexpand : (ofList aliases).expand? specifier with
  | none =>
    exact absurd hcovers (expand?_eq_none_iff.mp hexpand a (mem_entries_ofList.mpr ha) behind)
  | some path =>
    obtain ⟨b, hb, behind', hcovers', hlongest', rfl⟩ := exists_of_expand? hexpand
    have hfront : b.front = a.front := hcovers'.front_eq hcovers <|
      Nat.le_antisymm (hlongest b hb behind' hcovers') (hlongest' a ha behind hcovers)
    obtain rfl := hdistinct b hb a ha (matches_iff.mpr ⟨_, hcovers'⟩) (matches_iff.mpr ⟨_, hcovers⟩)
      hfront
    rw [List.append_cancel_left (hcovers'.text_eq.symm.trans hcovers.text_eq)]

/-- Only the aliases that cover the specifier matter, and not their order. -/
theorem expand?_congr
    (hdistinct : ∀ a ∈ aliases, ∀ b ∈ aliases, a.Matches specifier → b.Matches specifier →
      a.front = b.front → a = b)
    (hmem : ∀ a, a.Matches specifier → (a ∈ others ↔ a ∈ aliases)) :
    (ofList others).expand? specifier = (ofList aliases).expand? specifier := by
  have hcovered : ∀ {a behind}, a.Covers specifier behind → (a ∈ others ↔ a ∈ aliases) :=
    fun h => hmem _ (matches_iff.mpr ⟨_, h⟩)
  have hlongest : ∀ a, IsLongest others specifier a ↔ IsLongest aliases specifier a := fun a =>
    ⟨fun h b hb behind hc => h b ((hcovered hc).mpr hb) behind hc,
      fun h b hb behind hc => h b ((hcovered hc).mp hb) behind hc⟩
  refine Option.ext fun path => ?_
  rw [expand?_eq_some_iff hdistinct, expand?_eq_some_iff fun a ha b hb hma hmb =>
    hdistinct a ((hmem a hma).mp ha) b ((hmem b hmb).mp hb) hma hmb]
  constructor
  · rintro ⟨a, ha, behind, hcovers, hmax, hpath⟩
    exact ⟨a, (hcovered hcovers).mp ha, behind, hcovers, (hlongest a).mp hmax, hpath⟩
  · rintro ⟨a, ha, behind, hcovers, hmax, hpath⟩
    exact ⟨a, (hcovered hcovers).mpr ha, behind, hcovers, (hlongest a).mpr hmax, hpath⟩

/-- The longest front that a specifier begins with counts, up to the end of a segment. Without one
the specifier stands for no path. Neither the order of the aliases matters nor those that do not
cover the specifier. -/
theorem longest_front_counts (hdistinct : (aliases.map Alias.front).Nodup) (specifier : String) :
    ((ofList aliases).expand? specifier = none ↔
      ∀ a ∈ aliases, ∀ behind, ¬ a.Covers specifier behind) ∧
    (∀ path, (ofList aliases).expand? specifier = some path ↔
      ∃ a ∈ aliases, ∃ behind, a.Covers specifier behind ∧ IsLongest aliases specifier a ∧
        path = a.pathFor behind) ∧
    ∀ more others : List Alias, (∀ a ∈ more, ∀ behind, ¬ a.Covers specifier behind) →
      others.Perm (aliases ++ more) →
      (ofList others).expand? specifier = (ofList aliases).expand? specifier := by
  have hfronts : ∀ a ∈ aliases, ∀ b ∈ aliases, a.Matches specifier → b.Matches specifier →
      a.front = b.front → a = b := fun a ha b hb _ _ => List.inj_on_of_nodup_map hdistinct ha hb
  refine ⟨?_, fun path => expand?_eq_some_iff hfronts, ?_⟩
  · simp only [expand?_eq_none_iff, mem_entries_ofList]
  intro more others hmore hperm
  refine expand?_congr hfronts fun a ha => ?_
  obtain ⟨behind, hcovers⟩ := matches_iff.mp ha
  rw [hperm.mem_iff, List.mem_append]
  exact or_iff_left fun hmem => hmore a hmem behind hcovers

/-- The longest front ends inside a segment of `@/shared/i18n`. -/
def sharedAliases : List Alias :=
  [⟨"@/", Path.ofString "/proj/src"⟩, ⟨"@/shared/i", Path.ofString "/proj/i"⟩,
    ⟨"@/shared/", Path.ofString "/proj/shared"⟩]

theorem sharedAliases_longest : (sharedAliases.map Alias.front).Nodup ∧
    (ofList (⟨"~", Path.ofString "/proj/home"⟩ :: sharedAliases.reverse)).expand?
      "@/shared/i18n" = some (Path.ofString "/proj/shared/i18n") := by
  have hdistinct : (sharedAliases.map Alias.front).Nodup := by decide
  have hother : ∀ a ∈ [(⟨"~", Path.ofString "/proj/home"⟩ : Alias)],
      ¬ a.Matches "@/shared/i18n" := by
    decide +kernel
  have hlongest : ∀ a ∈ sharedAliases, a.Matches "@/shared/i18n" →
      a.front.length ≤ "@/shared/".length := by
    decide +kernel
  obtain ⟨-, hsome, hsame⟩ := longest_front_counts hdistinct "@/shared/i18n"
  refine ⟨hdistinct, ?_⟩
  rw [hsame [⟨"~", Path.ofString "/proj/home"⟩] _
    (fun a ha behind hcovers => hother a ha (matches_iff.mpr ⟨behind, hcovers⟩)) (by decide), hsome]
  exact ⟨⟨"@/shared/", Path.ofString "/proj/shared"⟩, by simp [sharedAliases], "i18n".toList,
    ⟨by decide, .inl (by decide)⟩,
    fun b hb behind hcovers => hlongest b hb (matches_iff.mpr ⟨behind, hcovers⟩), by decide⟩

end AliasTable

end ImportCycles
