import Mathlib.Data.List.Nodup
import Mathlib.Data.List.Rotate
import Mathlib.Data.List.Sort
/-! Facts about lists that more than one part of the theory needs. -/
namespace ImportCycles.Lists

variable {α κ : Type}

/-- The last consecutive pair of a list comes after those of the list without its last entry. -/
theorem zip_tail_concat (front : List α) (u v : α) :
    (front ++ [u, v]).zip (front ++ [u, v]).tail =
      (front ++ [u]).zip (front ++ [u]).tail ++ [(u, v)] := by
  induction front with
  | nil => rfl
  | cons a front ih =>
    cases front with
    | nil => rfl
    | cons b front => simpa using ih

theorem getLast?_zip_tail_eq_some {l : List α} {u v : α} :
    (l.zip l.tail).getLast? = some (u, v) ↔ ∃ front, l = front ++ [u, v] := by
  constructor
  · intro h
    rcases List.eq_nil_or_concat l with rfl | ⟨front, b, rfl⟩
    · simp at h
    rcases List.eq_nil_or_concat front with rfl | ⟨front, a, rfl⟩
    · simp at h
    have hends : (front.concat a).concat b = front ++ [a, b] := by simp
    rw [hends, zip_tail_concat, List.getLast?_concat] at h
    obtain ⟨rfl, rfl⟩ := Prod.mk.inj (Option.some.inj h)
    exact ⟨front, hends⟩
  · rintro ⟨front, rfl⟩
    rw [zip_tail_concat, List.getLast?_concat]

/-- The consecutive pairs of a closed list are those of the list taken as a ring. -/
theorem zip_tail_closed (a : α) (rest : List α) :
    (a :: rest ++ [a]).zip (a :: rest ++ [a]).tail =
      (a :: rest).zip ((a :: rest).rotate 1) := by
  have hzip : (a :: rest ++ [a]).zip (rest ++ [a] ++ []) =
      (a :: rest).zip (rest ++ [a]) ++ [a].zip [] := List.zip_append (by simp)
  simpa using hzip

theorem zip_rotate_one_rotate (l : List α) (n : Nat) :
    (l.rotate n).zip ((l.rotate n).rotate 1) = (l.zip (l.rotate 1)).rotate n := by
  rw [List.zip_eq_zipWith, List.zip_eq_zipWith,
    List.zipWith_rotate_distrib _ _ _ _ (List.length_rotate l 1).symm, List.rotate_rotate,
    List.rotate_rotate, Nat.add_comm]

/-- Lists of which no two entries have the same image are the same if their images are. -/
theorem eq_of_map_eq {β : Type} {f : α → β} {l l' : List α}
    (hinj : ∀ a ∈ l, ∀ b ∈ l', f a = f b → a = b) (h : l.map f = l'.map f) : l = l' := by
  induction l generalizing l' with
  | nil => exact (List.map_eq_nil_iff.mp h.symm).symm
  | cons a l ih =>
    cases l' with
    | nil => simp at h
    | cons b l' =>
      obtain ⟨hab, hrest⟩ := List.cons.inj h
      rw [hinj a (by simp) b (by simp) hab,
        ih (fun a ha b hb => hinj a (by simp [ha]) b (by simp [hb])) hrest]

/-- A list splits in one way only before its first entry with a property. -/
theorem append_cons_inj_of_first (p : α → Bool) {front front' rest rest' : List α} {a a' : α}
    (hfront : ∀ b ∈ front, ¬ p b = true) (hfront' : ∀ b ∈ front', ¬ p b = true) (ha : p a = true)
    (ha' : p a' = true) (h : front ++ a :: rest = front' ++ a' :: rest') :
    front = front' ∧ a = a' ∧ rest = rest' := by
  induction front generalizing front' with
  | nil =>
    cases front' with
    | nil => exact ⟨rfl, List.cons.inj h⟩
    | cons b front' =>
      obtain ⟨rfl, -⟩ := List.cons.inj h
      exact absurd ha (hfront' a (by simp))
  | cons b front ih =>
    cases front' with
    | nil =>
      obtain ⟨rfl, -⟩ := List.cons.inj h
      exact absurd ha' (hfront b (by simp))
    | cons b' front' =>
      rw [List.cons_append, List.cons_append, List.cons.injEq] at h
      obtain ⟨rfl, h⟩ := h
      obtain ⟨rfl, hrest⟩ := ih (fun c hc => hfront c (by simp [hc]))
        (fun c hc => hfront' c (by simp [hc])) h
      exact ⟨rfl, hrest⟩

/-- A word without the separator lies on one side of it. -/
theorem infix_append_cons {word front rest : List α} {a : α} (ha : a ∉ word)
    (h : word <:+: front ++ a :: rest) : word <:+: front ∨ word <:+: rest := by
  have hempty : ∀ {inner}, inner <:+: word → inner <+: a :: rest → inner = [] := by
    rintro (_ | ⟨b, inner⟩) hinner hb
    · rfl
    · obtain ⟨rfl, -⟩ := List.cons_prefix_cons.mp hb
      exact absurd (hinner.subset (by simp)) ha
  rcases List.infix_append_iff.mp h with hfront | hrest | ⟨before, inner, rfl, hbefore, hinner⟩
  · exact .inl hfront
  · rcases List.infix_cons_iff.mp hrest with hinner | hrest
    · rw [hempty List.infix_rfl hinner]
      exact .inl List.nil_infix
    · exact .inr hrest
  · rw [hempty (List.suffix_append _ _).isInfix hinner, List.append_nil]
    exact .inl hbefore.isInfix

/-- Of two lists with increasing keys, one that holds no other entries is a sublist. -/
theorem sublist_of_subset {key : α → Nat} {l l' : List α} (h : l.Pairwise fun a b => key a < key b)
    (h' : l'.Pairwise fun a b => key a < key b) (hsubset : l ⊆ l') : l.Sublist l' := by
  have : Std.Antisymm fun a b : α => key a < key b := ⟨fun a b hab hba => absurd hab hba.asymm⟩
  have hnodup : l.Nodup := h.imp fun hlt heq => absurd hlt (by simp [heq])
  exact List.sublist_of_subperm_of_pairwise (List.subperm_of_subset hnodup hsubset) h h'

section MergeSort

variable {le : α → α → Bool}

theorem mergeSort_cons_eq_orderedInsert (htrans : ∀ a b c, le a b → le b c → le a c)
    (htotal : ∀ a b, le a b || le b a) (a : α) (l : List α) :
    (a :: l).mergeSort le = (l.mergeSort le).orderedInsert (fun b c => le b c = true) a := by
  obtain ⟨front, back, hcons, hsort, hfront⟩ := List.mergeSort_cons htrans htotal a l
  have hback : ∀ b ∈ back, le a b = true := by
    have hsorted := List.pairwise_mergeSort htrans htotal (a :: l)
    rw [hcons, List.pairwise_append] at hsorted
    exact (List.pairwise_cons.mp hsorted.2.1).1
  have hnot : ∀ b ∈ front, decide (¬ le a b = true) = true := fun b hb => by simpa using hfront b hb
  rw [hcons, hsort, List.orderedInsert_eq_take_drop, List.takeWhile_append_of_pos hnot,
    List.dropWhile_append_of_pos hnot]
  cases back with
  | nil => simp
  | cons b back => simp [hback b (by simp)]

/-- What is left of a list is sorted as it stands in the sorted list. -/
theorem mergeSort_sublist (htrans : ∀ a b c, le a b → le b c → le a c)
    (htotal : ∀ a b, le a b || le b a) {l l' : List α} (h : l.Sublist l') :
    (l.mergeSort le).Sublist (l'.mergeSort le) := by
  have htrans' : IsTrans α fun a b => le a b = true := ⟨fun a b c => htrans a b c⟩
  induction h with
  | slnil => exact .refl _
  | cons a h ih =>
    rw [mergeSort_cons_eq_orderedInsert htrans htotal]
    exact ih.trans (List.sublist_orderedInsert _ _)
  | cons_cons a h ih =>
    rw [mergeSort_cons_eq_orderedInsert htrans htotal, mergeSort_cons_eq_orderedInsert htrans htotal]
    exact ih.orderedInsert_sublist a (List.pairwise_mergeSort htrans htotal _)

end MergeSort

/-- Erasing duplicates keeps the order of what stays. -/
theorem eraseDupsBy_sublist (r : α → α → Bool) (l : List α) : (l.eraseDupsBy r).Sublist l := by
  induction hn : l.length using Nat.strong_induction_on generalizing l with
  | _ n ih =>
    cases l with
    | nil => exact .slnil
    | cons a l =>
      rw [List.eraseDupsBy_cons]
      have hlt : (l.filter fun b => r b a = false).length < n := by
        rw [← hn]
        exact Nat.lt_succ_of_le (List.length_filter_le _ _)
      exact ((ih _ hlt _ rfl).trans List.filter_sublist).cons_cons a

variable [DecidableEq κ]

theorem nodup_eraseDups (l : List κ) : l.eraseDups.Nodup := by
  induction hn : l.length using Nat.strong_induction_on generalizing l with
  | _ n ih =>
    cases l with
    | nil => simp
    | cons a l =>
      rw [List.eraseDups_cons, List.nodup_cons]
      refine ⟨by simp [List.mem_eraseDups], ih _ ?_ _ rfl⟩
      rw [← hn]
      exact Nat.lt_succ_of_le (List.length_filter_le _ _)

theorem eraseDups_of_nodup {l : List κ} (h : l.Nodup) : l.eraseDups = l := by
  have hperm : l.eraseDups.Perm l :=
    (List.perm_ext_iff_of_nodup (nodup_eraseDups l) h).mpr fun _ => List.mem_eraseDups
  exact (eraseDupsBy_sublist _ l).eq_of_length hperm.length_eq

/-- Taking the entries of a list by their keys, one key after the other, only reorders them. -/
theorem perm_flatMap_filter (key : α → κ) (l : List α) {keys : List κ} (h : keys.Nodup) :
    (keys.flatMap fun k => l.filter fun a => key a = k).Perm (l.filter fun a => key a ∈ keys) := by
  induction keys with
  | nil => simp
  | cons k keys ih =>
    obtain ⟨hk, hkeys⟩ := List.nodup_cons.mp h
    have hfirst : ((l.filter fun a => key a ∈ k :: keys).filter fun a => key a = k) =
        l.filter fun a => key a = k := by
      rw [List.filter_filter]
      refine List.filter_congr fun a _ => ?_
      by_cases ha : key a = k <;> simp [ha]
    have hrest : ((l.filter fun a => key a ∈ k :: keys).filter fun a => !decide (key a = k)) =
        l.filter fun a => key a ∈ keys := by
      rw [List.filter_filter]
      refine List.filter_congr fun a _ => ?_
      by_cases ha : key a = k <;> simp [ha, hk]
    have hsplit := List.filter_append_perm (fun a => decide (key a = k))
      (l.filter fun a => key a ∈ k :: keys)
    rw [hfirst, hrest] at hsplit
    rw [List.flatMap_cons]
    exact ((ih hkeys).append_left _).trans hsplit

end ImportCycles.Lists
