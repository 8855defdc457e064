import ImportCycles.Path
import ImportCycles.Proofs.Lists
/-!
The order of paths, component by component. Distinct paths are never tied in it, so sorted they are
in strict order.
-/
namespace ImportCycles

theorem Component.orderKey_injective : Function.Injective Component.orderKey := by
  intro c c' h
  cases c <;> cases c' <;> simp_all [Component.orderKey]

namespace Path

variable {p q : Path} {ps qs : List Path}

theorem precedes_trans (a b c : Path) (hab : a.precedes b = true) (hbc : b.precedes c = true) :
    a.precedes c = true := by
  simp only [precedes, decide_eq_true_eq] at hab hbc ⊢
  exact List.le_trans hab hbc

theorem precedes_total (a b : Path) : (a.precedes b || b.precedes a) = true := by
  simp only [precedes, Bool.or_eq_true, decide_eq_true_eq]
  exact List.le_total _ _

/-- Paths that are tied are the same. -/
theorem same_of_orderKey_eq (h : p.orderKey = q.orderKey) : p.same q = true := by
  rw [same, decide_eq_true_eq]
  exact Component.orderKey_injective.list_map h

theorem orderKey_lt_of_precedes (h : p.precedes q = true) (hne : ¬ p.same q = true) :
    p.orderKey < q.orderKey := by
  rw [precedes, decide_eq_true_eq] at h
  exact Std.lt_of_le_of_ne h fun heq => hne (same_of_orderKey_eq heq)

theorem pairwise_orderKey_sort (h : (sort ps).Pairwise fun p q => ¬ p.same q = true) :
    (sort ps).Pairwise fun p q => p.orderKey < q.orderKey :=
  (List.pairwise_mergeSort precedes_trans precedes_total ps).imp₂
    (fun _ _ hle hne => orderKey_lt_of_precedes hle hne) h

/-- Sorted, some of the paths stand as they do among all of them. -/
theorem sort_sublist (h : ps.Sublist qs) : (sort ps).Sublist (sort qs) :=
  Lists.mergeSort_sublist precedes_trans precedes_total h

/-- Paths in strict order are known by which paths they are. -/
theorem eq_of_mem_iff (hps : ps.Pairwise fun p q => p.orderKey < q.orderKey)
    (hqs : qs.Pairwise fun p q => p.orderKey < q.orderKey) (h : ∀ p, p ∈ ps ↔ p ∈ qs) :
    ps = qs := by
  have : Std.Irrefl fun p q : Path => p.orderKey < q.orderKey := ⟨fun _ => List.lt_irrefl _⟩
  have : Std.Antisymm fun p q : Path => p.orderKey < q.orderKey :=
    ⟨fun _ _ hlt hgt => absurd hgt (List.lt_asymm hlt)⟩
  exact hps.eq_of_mem_iff hqs h

end Path

end ImportCycles
