import ImportCycles.Path.Normal
import ImportCycles.Proofs.Path.Plain
/-!
Normal forms of paths. A path is climbed on a stack of components, and its normal form is the stack
that is left; going on from there is the same as going on from the path itself. So the normal form
of a path taken below another one needs only the normal forms of the two.
-/
namespace ImportCycles

open FileSystem (pathOf)

namespace Path

/-- The paths in normal form: the path `.`, names below the root, and steps up with names behind
them. -/
inductive IsNormal : Path → Prop
  | here : IsNormal ⟨[dot]⟩
  | absolute {names : List Name} (hnames : AreEntryNames names) : IsNormal (pathOf names)
  | relative (ups : Nat) {names : List Name} (hnames : AreEntryNames names)
      (hne : 0 < ups ∨ names ≠ []) :
      IsNormal (ofComponents (List.replicate ups .up ++ names.map .name))

/-- What the pieces of a path stand for, the first one taken like the others. -/
def steps (p : Path) : List Component := (split p.bytes).filterMap component?

/-- The stack on which a path is climbed begins with the root, if the path does. -/
def base (p : Path) : List Component := if p.isAbsolute then [.root] else []

/-- The components that are left when the path was climbed, the last one first. -/
def climbed (p : Path) : List Component := p.components.foldl climb []

/-- A step up or a name. -/
def IsStep (c : Component) : Prop := c = .up ∨ ∃ n, IsEntryName n ∧ c = .name n

/-- The stacks that climbing leaves, of absolute paths and of relative ones. -/
inductive IsStack : Bool → List Component → Prop
  | root : IsStack true [.root]
  | ups (n : Nat) : IsStack false (List.replicate n .up)
  | name {absolute : Bool} {stack : List Component} {n : Name} (below : IsStack absolute stack)
      (hn : IsEntryName n) : IsStack absolute (.name n :: stack)

variable {p q : Path} {front back bytes : List UInt8} {cs stack left : List Component}
  {c : Component} {absolute : Bool} {names : List Name} {ups : Nat} {piece : Name}

theorem split_append_slash_append :
    split (front ++ slash :: back) = split front ++ split back := by
  induction front with
  | nil => exact split_slash
  | cons b front ih =>
    by_cases hb : b = slash
    · rw [hb, List.cons_append, split_slash, ih, split_slash, List.cons_append]
    · have hne : split front ≠ [] := split_ne_nil
      obtain ⟨piece, pieces, hsplit⟩ := List.exists_cons_of_ne_nil hne
      rw [hsplit, List.cons_append] at ih
      rw [List.cons_append, split_cons_of_ne hb ih, split_cons_of_ne hb hsplit, List.cons_append]

theorem isStep_of_component? (h : component? piece = some c) (hslash : slash ∉ piece) :
    IsStep c := by
  unfold component? at h
  split at h
  · simp at h
  · next hplain =>
    obtain ⟨hnil, hdot⟩ := not_or.mp hplain
    split at h
    · exact .inl (Option.some.inj h).symm
    · next hup => exact .inr ⟨piece, ⟨hnil, hdot, hup, hslash⟩, (Option.some.inj h).symm⟩

theorem isStep_of_mem_steps (h : c ∈ p.steps) : IsStep c := by
  obtain ⟨piece, hpiece, hc⟩ := List.mem_filterMap.mp h
  exact isStep_of_component? hc (noSlash_of_mem_split hpiece)

theorem normal_eq_of_climbed (h : p.climbed = q.climbed) : p.normal = q.normal := by
  simp only [normal, normalComponents]
  rw [show p.components.foldl climb [] = q.components.foldl climb [] from h]

theorem components_eq_root_cons (h : p.isAbsolute = true) : p.components = .root :: p.steps := by
  obtain ⟨bytes, hbytes, hcomponents⟩ := exists_bytes_of_isAbsolute h
  have hempty : component? [] = none := by decide
  rw [hcomponents, steps, hbytes, split_slash, List.filterMap_cons_none hempty]

/-- Only at the front of a relative path a point is a component. -/
theorem components_of_relative (h : p.isAbsolute = false)
    (hsplit : split p.bytes = piece :: names) :
    p.components = if piece = [dot] then .here :: p.steps else p.steps := by
  simp only [components, steps, parts, hsplit, h, firstComponent?, Bool.false_eq_true, if_false,
    List.filterMap_cons, List.filterMap_map, Function.comp_def]
  by_cases hpoint : piece = [dot]
  · have hnone : component? [dot] = none := by decide
    simp only [hpoint, hnone, if_true]
  · simp only [hpoint, if_false]

/-- Only an absolute path begins with a root. -/
theorem isAbsolute_of_components (h : p.components = .root :: cs) : p.isAbsolute = true := by
  by_contra hrelative
  rw [Bool.not_eq_true] at hrelative
  have hne : split p.bytes ≠ [] := split_ne_nil
  obtain ⟨piece, pieces, hsplit⟩ := List.exists_cons_of_ne_nil hne
  rw [components_of_relative hrelative hsplit] at h
  have hroot : Component.root ∈ p.steps := by
    split at h
    · simp at h
    · simp [h]
  rcases isStep_of_mem_steps hroot with hup | ⟨n, -, hname⟩
  · simp at hup
  · simp at hname

theorem climbed_eq (p : Path) : p.climbed = p.steps.foldl climb p.base := by
  unfold climbed base
  cases habsolute : p.isAbsolute with
  | true => rw [components_eq_root_cons habsolute]; rfl
  | false =>
    have hne : split p.bytes ≠ [] := split_ne_nil
    obtain ⟨piece, pieces, hsplit⟩ := List.exists_cons_of_ne_nil hne
    rw [components_of_relative habsolute hsplit]
    split <;> rfl

theorem climb_ups (n : Nat) :
    climb (List.replicate n .up) .up = List.replicate (n + 1) .up := by
  cases n <;> rfl

theorem IsStack.climb (h : IsStack absolute stack) (hc : IsStep c) :
    IsStack absolute (Path.climb stack c) := by
  rcases hc with rfl | ⟨n, hn, rfl⟩
  · cases h with
    | root => exact .root
    | ups n => exact climb_ups n ▸ .ups (n + 1)
    | name below hn => exact below
  · cases h with
    | root => exact .name .root hn
    | ups n => exact .name (.ups n) hn
    | name below hm => exact .name (.name below hm) hn

theorem IsStack.foldl (h : IsStack absolute stack) (hcs : ∀ c ∈ cs, IsStep c) :
    IsStack absolute (cs.foldl Path.climb stack) := by
  induction cs generalizing stack with
  | nil => exact h
  | cons c cs ih =>
    obtain ⟨hc, hcs⟩ := List.forall_mem_cons.mp hcs
    exact ih (h.climb hc) hcs

theorem isStack_climbed (p : Path) : IsStack p.isAbsolute p.climbed := by
  have hbase : IsStack p.isAbsolute p.base := by
    unfold base
    cases p.isAbsolute with
    | true => exact .root
    | false => exact .ups 0
  rw [climbed_eq]
  exact hbase.foldl fun c hc => isStep_of_mem_steps hc

theorem foldl_climb_names (names : List Name) (stack : List Component) :
    (names.map Component.name).foldl climb stack = (names.map Component.name).reverse ++ stack := by
  induction names generalizing stack with
  | nil => rfl
  | cons n names ih =>
    have hclimb : climb stack (.name n) = .name n :: stack := rfl
    simp [hclimb, ih]

theorem foldl_climb_ups (n : Nat) :
    (List.replicate n Component.up).foldl climb [] = List.replicate n .up := by
  induction n with
  | zero => rfl
  | succ n ih =>
    rw [List.replicate_succ', List.foldl_append, ih, ← List.replicate_succ']
    exact climb_ups n

/-- A stack climbed anew from its bottom is left as it is. -/
theorem IsStack.foldl_reverse (h : IsStack absolute stack) :
    stack.reverse.foldl Path.climb [] = stack := by
  induction h with
  | root => rfl
  | ups n => rw [List.reverse_replicate, foldl_climb_ups]
  | name below hn ih => rw [List.reverse_cons, List.foldl_append, ih]; rfl

/-- One more step on what is left is one more step wherever that leads. -/
theorem IsStack.foldl_reverse_climb (h : IsStack false left) (hc : IsStep c) :
    (Path.climb left c).reverse.foldl Path.climb stack =
      Path.climb (left.reverse.foldl Path.climb stack) c := by
  rcases hc with rfl | ⟨n, -, rfl⟩
  · cases h with
    | ups n =>
      rw [climb_ups, List.reverse_replicate, List.reverse_replicate, List.replicate_succ',
        List.foldl_append]
      rfl
    | name below hn => rw [List.reverse_cons, List.foldl_append]; rfl
  · rw [Path.climb, List.reverse_cons, List.foldl_append]
    · rfl
    all_goals simp

/-- Steps climbed alone leave steps that lead where they lead. -/
theorem IsStack.foldl_left (h : IsStack false left) (hcs : ∀ c ∈ cs, IsStep c) :
    (cs.foldl Path.climb left).reverse.foldl Path.climb stack =
      cs.foldl Path.climb (left.reverse.foldl Path.climb stack) := by
  induction cs generalizing left with
  | nil => rfl
  | cons c cs ih =>
    obtain ⟨hc, hcs⟩ := List.forall_mem_cons.mp hcs
    rw [List.foldl_cons, List.foldl_cons, ih (h.climb hc) hcs, h.foldl_reverse_climb hc]

theorem steps_join (hq : q.isAbsolute = false) : (p.join q).steps = p.steps ++ q.steps := by
  unfold join
  rw [if_neg (by simp [hq])]
  split
  · next hend =>
    rcases hend with hnil | hslash
    · have hempty : component? [] = none := by decide
      simp [steps, hnil, split, hempty]
    · obtain ⟨front, hfront⟩ := List.getLast?_eq_some_iff.mp hslash
      have hempty : component? [] = none := by decide
      simp [steps, hfront, split_append_slash_append, split, hempty]
  · simp [steps, split_append_slash_append]

theorem isAbsolute_join_relative (hq : q.isAbsolute = false) :
    (p.join q).isAbsolute = p.isAbsolute := by
  unfold join
  rw [if_neg (by simp [hq])]
  cases hbytes : p.bytes with
  | nil => simpa [isAbsolute, hbytes] using hq
  | cons b bytes =>
    split
    · simp [isAbsolute, hbytes]
    · simp [isAbsolute, hbytes]

/-- A relative path goes on from where the path before it ends. -/
theorem climbed_join (hq : q.isAbsolute = false) :
    (p.join q).climbed = q.climbed.reverse.foldl climb p.climbed := by
  have hbase : q.base = [] := by simp [base, hq]
  have hleft : IsStack false [] := .ups 0
  calc (p.join q).climbed
    _ = q.steps.foldl climb p.climbed := by
      have hbase : (p.join q).base = p.base := by rw [base, base, isAbsolute_join_relative hq]
      rw [climbed_eq, climbed_eq p, steps_join hq, hbase, List.foldl_append]
    _ = (q.steps.foldl climb []).reverse.foldl climb p.climbed :=
      (hleft.foldl_left fun c hc => isStep_of_mem_steps hc).symm
    _ = q.climbed.reverse.foldl climb p.climbed := by rw [climbed_eq q, hbase]

/-- Of an absolute path the root is left, and names. -/
theorem IsStack.exists_names (h : IsStack true stack) :
    ∃ names, AreEntryNames names ∧ stack.reverse = .root :: names.map .name := by
  generalize habsolute : true = absolute at h
  induction h with
  | root => exact ⟨[], areEntryNames_nil, rfl⟩
  | ups n => simp at habsolute
  | @name absolute stack n below hn ih =>
    obtain ⟨names, hnames, hstack⟩ := ih habsolute
    exact ⟨names ++ [n], areEntryNames_concat.mpr ⟨hnames, hn⟩, by simp [hstack]⟩

/-- Of a relative path steps up are left, and names behind them. -/
theorem IsStack.exists_ups (h : IsStack false stack) :
    ∃ ups names, AreEntryNames names ∧
      stack.reverse = List.replicate ups .up ++ names.map .name := by
  generalize habsolute : false = absolute at h
  induction h with
  | root => simp at habsolute
  | ups n => exact ⟨n, [], areEntryNames_nil, by simp⟩
  | @name absolute stack n below hn ih =>
    obtain ⟨ups, names, hnames, hstack⟩ := ih habsolute
    exact ⟨ups, names ++ [n], areEntryNames_concat.mpr ⟨hnames, hn⟩, by simp [hstack]⟩

theorem IsStep.component?_text (h : IsStep c) : component? c.text = some c := by
  rcases h with rfl | ⟨n, hn, rfl⟩
  · decide
  · exact component?_entryName hn

theorem IsStep.noSlash (h : IsStep c) : slash ∉ c.text := by
  rcases h with rfl | ⟨n, hn, rfl⟩
  · decide
  · exact hn.noSlash

theorem IsStep.exists_text_cons (h : IsStep c) :
    ∃ b bytes, c.text = b :: bytes ∧ b ≠ slash ∧ c.text ≠ [dot] := by
  rcases h with rfl | ⟨n, hn, rfl⟩
  · exact ⟨dot, [dot], rfl, by decide, by decide⟩
  · obtain ⟨b, bytes, rfl⟩ := List.exists_cons_of_ne_nil hn.ne_nil
    exact ⟨b, bytes, rfl, fun hb => hn.noSlash (by simp [hb]), hn.ne_here⟩

theorem ofComponents_of_isStep (h : ∀ c ∈ cs, IsStep c) :
    ofComponents cs = ⟨unsplit (cs.map Component.text)⟩ := by
  unfold ofComponents
  split
  · rcases h .root (by simp) with hroot | ⟨n, -, hroot⟩ <;> simp at hroot
  · rfl

theorem head?_unsplit {b : UInt8} : (unsplit ((b :: bytes) :: names)).head? = some b := by
  cases names <;> rfl

/-- Steps spelled as a path are the components of the path. -/
theorem components_ofComponents (h : ∀ c ∈ cs, IsStep c) (hne : cs ≠ []) :
    (ofComponents cs).components = cs := by
  obtain ⟨c, rest, rfl⟩ := List.exists_cons_of_ne_nil hne
  obtain ⟨hc, hrest⟩ := List.forall_mem_cons.mp h
  obtain ⟨b, bytes, htext, hb, hpoint⟩ := hc.exists_text_cons
  have hsplit : split (unsplit ((c :: rest).map Component.text)) =
      (c :: rest).map Component.text := by
    refine split_unsplit (by simp) fun piece hpiece => ?_
    obtain ⟨d, hd, rfl⟩ := List.mem_map.mp hpiece
    exact (h d hd).noSlash
  have hrelative : (ofComponents (c :: rest)).isAbsolute = false := by
    rw [ofComponents_of_isStep h, List.map_cons, htext]
    simp [isAbsolute, head?_unsplit, hb]
  have hpieces : ((c :: rest).map Component.text).filterMap component? = c :: rest := by
    rw [List.filterMap_map]
    exact (List.filterMap_congr fun d hd => (h d hd).component?_text).trans List.filterMap_some
  rw [ofComponents_of_isStep h] at hrelative ⊢
  rw [components_of_relative hrelative hsplit, if_neg hpoint, steps, hsplit, hpieces]

theorem forall_isStep (ups : Nat) (hnames : AreEntryNames names) :
    ∀ c ∈ List.replicate ups Component.up ++ names.map .name, IsStep c := by
  intro c hc
  rcases List.mem_append.mp hc with hc | hc
  · exact .inl (List.eq_of_mem_replicate hc)
  · obtain ⟨n, hn, rfl⟩ := List.mem_map.mp hc
    exact .inr ⟨n, hnames n hn, rfl⟩

theorem IsStack.forall_isStep (h : IsStack false stack) : ∀ c ∈ stack.reverse, IsStep c := by
  obtain ⟨ups, names, hnames, hstack⟩ := h.exists_ups
  exact hstack ▸ Path.forall_isStep ups hnames

/-- What is left of a path, spelled as a path, has just these components. -/
theorem IsStack.components_ofComponents (h : IsStack absolute stack) (hne : stack ≠ []) :
    (ofComponents stack.reverse).components = stack.reverse := by
  cases absolute with
  | true =>
    obtain ⟨names, hnames, hstack⟩ := h.exists_names
    rw [hstack]
    exact components_pathOf hnames
  | false => exact Path.components_ofComponents h.forall_isStep (by simpa using hne)

theorem normal_eq (p : Path) :
    p.normal = if p.climbed = [] then ⟨[dot]⟩ else ofComponents p.climbed.reverse := by
  have hcomponents : normalComponents p.components = p.climbed.reverse := rfl
  rw [normal, hcomponents]
  cases hclimbed : p.climbed.reverse with
  | nil => rw [if_pos (List.reverse_eq_nil_iff.mp hclimbed)]
  | cons c cs =>
    have hne : p.climbed ≠ [] := fun hnil => by simp [hnil] at hclimbed
    rw [if_neg hne]

/-- A path and its normal form leave the same when they are climbed. -/
theorem climbed_normal (p : Path) : p.normal.climbed = p.climbed := by
  rw [normal_eq]
  split
  · next h => rw [h]; decide
  · next h =>
    rw [climbed, (isStack_climbed p).components_ofComponents h, (isStack_climbed p).foldl_reverse]

theorem IsStack.root_mem_iff (h : IsStack absolute stack) : .root ∈ stack ↔ absolute = true := by
  induction h with
  | root => simp
  | ups n => simp [List.mem_replicate]
  | name below hn ih => simpa using ih

theorem isAbsolute_normal (p : Path) : p.normal.isAbsolute = p.isAbsolute := by
  have hnormal := (isStack_climbed p.normal).root_mem_iff
  rw [climbed_normal, (isStack_climbed p).root_mem_iff] at hnormal
  exact (Bool.eq_iff_iff.mpr hnormal).symm

/-- The normal form of an absolute path is a plain path. -/
theorem normal_of_isAbsolute (h : p.isAbsolute = true) :
    ∃ names, AreEntryNames names ∧ p.normal = pathOf names := by
  obtain ⟨names, hnames, hclimbed⟩ := (h ▸ isStack_climbed p).exists_names
  have hne : p.climbed ≠ [] := by
    intro hnil
    simp [hnil] at hclimbed
  refine ⟨names, hnames, ?_⟩
  rw [normal_eq, if_neg hne, hclimbed]
  rfl

theorem isNormal_normal (p : Path) : p.normal.IsNormal := by
  cases habsolute : p.isAbsolute with
  | true =>
    obtain ⟨names, hnames, hnormal⟩ := normal_of_isAbsolute habsolute
    exact hnormal ▸ .absolute hnames
  | false =>
    obtain ⟨ups, names, hnames, hclimbed⟩ := (habsolute ▸ isStack_climbed p).exists_ups
    rw [normal_eq]
    split
    · exact .here
    · next hne =>
      rw [hclimbed]
      refine .relative ups hnames ?_
      by_contra hnone
      rw [not_or, Nat.pos_iff_ne_zero, not_not, not_not] at hnone
      rw [hnone.1, hnone.2] at hclimbed
      exact hne (by simpa using hclimbed)

/-- A path in normal form is its own normal form. -/
theorem IsNormal.normal_eq (h : p.IsNormal) : p.normal = p := by
  cases h with
  | here => decide
  | @absolute names hnames =>
    have hclimbed : (pathOf names).climbed = (Component.root :: names.map .name).reverse := by
      rw [climbed, components_pathOf hnames, List.foldl_cons, foldl_climb_names, List.reverse_cons]
      rfl
    rw [Path.normal_eq, hclimbed, if_neg (by simp), List.reverse_reverse]
    rfl
  | @relative ups names hnames hne =>
    have hsteps := forall_isStep ups hnames
    have hsome : List.replicate ups Component.up ++ names.map .name ≠ [] := by
      intro hnil
      obtain ⟨hups, hmap⟩ := List.append_eq_nil_iff.mp hnil
      rw [List.replicate_eq_nil_iff] at hups
      rw [List.map_eq_nil_iff] at hmap
      exact hne.elim (fun hpos => Nat.pos_iff_ne_zero.mp hpos hups) fun hsome => hsome hmap
    generalize hcs : List.replicate ups Component.up ++ names.map .name = cs at hsteps hsome
    have hclimbed : (ofComponents cs).climbed = cs.reverse := by
      rw [climbed, components_ofComponents hsteps hsome, ← hcs, List.foldl_append, foldl_climb_ups,
        foldl_climb_names, List.reverse_append, List.reverse_replicate]
    rw [Path.normal_eq, hclimbed, if_neg (by simpa only [List.reverse_eq_nil_iff] using hsome),
      List.reverse_reverse]

theorem normal_congr (h : p.same q = true) : p.normal = q.normal := by
  apply normal_eq_of_climbed
  rw [climbed, of_decide_eq_true h, climbed]

theorem normal_join (p q : Path) : (p.join q).normal = (p.normal.join q.normal).normal := by
  cases hq : q.isAbsolute with
  | true =>
    have hnormal : q.normal.isAbsolute = true := by rw [isAbsolute_normal, hq]
    rw [join, if_pos hq, join, if_pos hnormal, (isNormal_normal q).normal_eq]
  | false =>
    have hnormal : q.normal.isAbsolute = false := by rw [isAbsolute_normal, hq]
    apply normal_eq_of_climbed
    rw [climbed_join hq, climbed_join hnormal, climbed_normal, climbed_normal]

/-- Normal forms are canonical: the normal form of a path is one, absolute when the path is; a path
that is the same as one in normal form has this one; and what a path is taken below and how it is
written do not matter but for their normal forms. -/
theorem normal_is_canonical (p : Path) :
    p.normal.IsNormal ∧ p.normal.isAbsolute = p.isAbsolute ∧
      (p.IsNormal → p.normal = p) ∧
      (∀ q : Path, q.IsNormal → p.same q = true → p.normal = q) ∧
      ∀ q : Path, (p.join q).normal = (p.normal.join q.normal).normal := by
  refine ⟨isNormal_normal p, isAbsolute_normal p, fun h => h.normal_eq, fun q hq hsame => ?_,
    normal_join p⟩
  rw [normal_congr hsame, hq.normal_eq]

theorem normal_above_is_canonical : (ofString "../b").normal = ofString "../b" ∧
    (ofString "..//b/.").normal = ofString "../b" := by
  have hb : AreEntryNames [(ofString "b").bytes] :=
    areEntryNames_cons.mpr ⟨by decide, areEntryNames_nil⟩
  have habove : (ofString "../b").IsNormal := .relative 1 hb (.inl Nat.one_pos)
  obtain ⟨-, -, hfixed, -⟩ := normal_is_canonical (ofString "../b")
  obtain ⟨-, -, -, hsame, -⟩ := normal_is_canonical (ofString "..//b/.")
  exact ⟨hfixed habove, hsame _ habove (by decide)⟩

end Path

end ImportCycles
