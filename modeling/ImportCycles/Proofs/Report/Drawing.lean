import Mathlib.Data.List.Basic
import ImportCycles.Proofs.Report.Label
import ImportCycles.Proofs.Search.Elementary
import ImportCycles.Proofs.Text.Rows
/-!
Drawings read line by line. The drawing of a graph says of each file how it is named and whether it
is on a cycle, and then of each import whether it is on one.
-/
namespace ImportCycles

namespace Report.Dot

/-- What a line of a drawing says. -/
inductive Statement where
  | node (i : Nat) (label : String) (onCycle : Bool)
  | edge (i j : Nat) (onCycle : Bool)
deriving DecidableEq, Repr

/-- The end of the line of a file, behind its label. -/
def readFill? (cs : List Char) : Option Bool :=
  if cs = " fillcolor=\x22#F1948A\x22];".toList then some true
  else if cs = " fillcolor=\x22#EAECEE\x22];".toList then some false
  else none

/-- The end of the line of an import. -/
def readStyle? (cs : List Char) : Option Bool :=
  if cs = " [color=red penwidth=2];".toList then some true
  else if cs = ";".toList then some false
  else none

/-- The line of file `i`, behind its place. -/
def readNode? (i : Nat) (cs : List Char) : Option Statement := do
  let rest ← cs.dropPrefix? " [label=\x22".toList
  let (label, rest) ← readLabel rest
  let onCycle ← readFill? rest
  some (.node i (String.ofList label) onCycle)

/-- The line of an import by file `i`, behind the place of that file. -/
def readEdge? (i : Nat) (cs : List Char) : Option Statement := do
  let rest ← cs.dropPrefix? " -> n".toList
  let (j, rest) ← Text.readNumber rest
  let onCycle ← readStyle? rest
  some (.edge i j onCycle)

def readStatement? (line : String) : Option Statement := do
  let rest ← line.toList.dropPrefix? "    n".toList
  let (i, rest) ← Text.readNumber rest
  (readNode? i rest).or (readEdge? i rest)

/-- The statements of a drawing, between its head and the brace that closes it. -/
def decode (text : String) : Option (List Statement) :=
  match Text.lines text with
  | "digraph imports \x7b" :: "    rankdir=LR;" ::
      "    node [shape=box style=filled fontname=monospace];" :: rest =>
    match rest.reverse with
    | "" :: "\x7d" :: statements => statements.reverse.mapM readStatement?
    | _ => none
  | _ => none

namespace Statement

/-- The line of a statement without its end. -/
def line : Statement → String
  | .node i label onCycle =>
    "    n" ++ toString i ++ " [label=\x22" ++ escape label ++ "\x22 fillcolor=\x22" ++
      fill onCycle ++ "\x22];"
  | .edge i j onCycle =>
    "    n" ++ toString i ++ " -> n" ++ toString j ++
      (if onCycle then " [color=red penwidth=2];" else ";")

variable {i j : Nat} {label : String} {onCycle : Bool}

theorem line_node : (node i label onCycle).line ++ "\n" = Dot.node i label onCycle :=
  String.append_assoc

theorem line_edge : (edge i j onCycle).line ++ "\n" = Dot.edge i j onCycle := by
  cases onCycle <;> exact String.append_assoc

theorem newline_notMem_line (s : Statement) : '\n' ∉ s.line.toList := by
  cases s with
  | node i label onCycle =>
    have hfill : '\n' ∉ (fill onCycle).toList := by cases onCycle <;> decide
    simp only [line, String.toList_append, List.mem_append, not_or]
    exact ⟨⟨⟨⟨⟨⟨by decide, Text.newline_notMem_toString i⟩, by decide⟩,
      newline_notMem_escape label⟩, by decide⟩, hfill⟩, by decide⟩
  | edge i j onCycle =>
    have hstyle : '\n' ∉ (if onCycle then " [color=red penwidth=2];" else ";").toList := by
      cases onCycle <;> decide
    simp only [line, String.toList_append, List.mem_append, not_or]
    exact ⟨⟨⟨⟨by decide, Text.newline_notMem_toString i⟩, by decide⟩,
      Text.newline_notMem_toString j⟩, hstyle⟩

theorem dropPrefix?_append {front rest : List Char} :
    (front ++ rest).dropPrefix? front = some rest :=
  List.dropPrefix?_append_of_beq rest (BEq.refl front)

theorem readStatement?_eq {line : String} {rest : List Char} (hends : Text.EndsNumber rest)
    (hline : line.toList = "    n".toList ++ ((toString i).toList ++ rest)) :
    readStatement? line = (readNode? i rest).or (readEdge? i rest) := by
  rw [readStatement?, hline, dropPrefix?_append, Option.bind_eq_bind, Option.bind_some,
    Text.readNumber_toString hends]
  rfl

theorem readNode?_eq : readNode? i (" [label=\x22".toList ++ (label.toList.flatMap escapeChar ++
    '\x22' :: (" fillcolor=\x22".toList ++ ((fill onCycle).toList ++ "\x22];".toList)))) =
      some (node i label onCycle) := by
  have hfill : readFill? (" fillcolor=\x22".toList ++ ((fill onCycle).toList ++ "\x22];".toList)) =
      some onCycle := by cases onCycle <;> decide
  rewrite [readNode?, dropPrefix?_append]
  simp only [Option.bind_eq_bind, Option.bind_some, readLabel_escape, hfill, String.ofList_toList]

theorem readEdge?_eq : readEdge? i (" -> n".toList ++ ((toString j).toList ++
    (if onCycle then " [color=red penwidth=2];" else ";").toList)) = some (edge i j onCycle) := by
  have hends : Text.EndsNumber (if onCycle then " [color=red penwidth=2];" else ";").toList := by
    cases onCycle <;> exact Text.endsNumber_cons rfl
  have hstyle : readStyle? (if onCycle then " [color=red penwidth=2];" else ";").toList =
      some onCycle := by cases onCycle <;> decide
  rewrite [readEdge?, dropPrefix?_append]
  simp only [Option.bind_eq_bind, Option.bind_some, Text.readNumber_toString hends, hstyle]

/-- Each line says what it was written for. -/
theorem readStatement?_line (s : Statement) : readStatement? s.line = some s := by
  cases s with
  | node i label onCycle =>
    obtain ⟨rest, hread, hends, hline⟩ : ∃ rest, readNode? i rest = some (node i label onCycle) ∧
        Text.EndsNumber rest ∧ (node i label onCycle).line.toList =
          "    n".toList ++ ((toString i).toList ++ rest) :=
      ⟨_, readNode?_eq, Text.endsNumber_cons rfl, by simp [line, escape]⟩
    rw [readStatement?_eq hends hline, hread]
    rfl
  | edge i j onCycle =>
    obtain ⟨rest, hread, hother, hends, hline⟩ : ∃ rest,
        readEdge? i rest = some (edge i j onCycle) ∧ readNode? i rest = none ∧
        Text.EndsNumber rest ∧ (edge i j onCycle).line.toList =
          "    n".toList ++ ((toString i).toList ++ rest) :=
      ⟨_, readEdge?_eq, rfl, Text.endsNumber_cons rfl, by simp [line]⟩
    rw [readStatement?_eq hends hline, hother, hread]
    rfl

theorem mapM_readStatement? (statements : List Statement) :
    (statements.map line).mapM readStatement? = some statements := by
  induction statements with
  | nil => rfl
  | cons s statements ih => simp [List.mapM_cons, readStatement?_line, ih]

end Statement

/-- The drawing with these statements. -/
def ofStatements (statements : List Statement) : String :=
  String.join (("digraph imports \x7b" :: "    rankdir=LR;" ::
    "    node [shape=box style=filled fontname=monospace];" ::
      (statements.map Statement.line ++ ["\x7d"])).map (· ++ "\n"))

/-- The statements are read back from a drawing. -/
theorem decode_ofStatements (statements : List Statement) :
    decode (ofStatements statements) = some statements := by
  have hlines : Text.lines (ofStatements statements) = "digraph imports \x7b" ::
      "    rankdir=LR;" :: "    node [shape=box style=filled fontname=monospace];" ::
        (statements.map Statement.line ++ ["\x7d"]) ++ [""] := by
    refine Text.lines_of_rows ?_
    intro row hrow
    simp only [List.mem_cons, List.mem_append, List.mem_map, List.not_mem_nil, or_false] at hrow
    rcases hrow with rfl | rfl | rfl | ⟨s, -, rfl⟩ | rfl
    · decide
    · decide
    · decide
    · exact s.newline_notMem_line
    · decide
  rw [decode, hlines]
  simp only [List.cons_append, List.append_assoc, List.nil_append, List.reverse_append,
    List.reverse_cons, List.reverse_nil, List.reverse_reverse, Statement.mapM_readStatement?]

open ImportCycles.Graph (mem_files_of_mem_cycles)

variable {g : Graph} {names : Naming} {i j : Nat} {f p q : Path}

theorem contains_filesOn (hg : g.WellFormed) (hf : f ∈ g.files.toList) :
    (filesOn g.cycles).contains f.components = decide (∃ c ∈ g.cycles, f ∈ c.files) := by
  rw [filesOn, Std.HashSet.contains_ofList, Bool.eq_iff_iff, List.contains_iff_mem,
    decide_eq_true_iff]
  simp only [List.mem_flatMap, List.mem_map]
  constructor
  · rintro ⟨c, hc, other, hother, hsame⟩
    obtain rfl := Graph.eq_of_components_of_mem hg (mem_files_of_mem_cycles hg hc hother) hf hsame
    exact ⟨c, hc, hother⟩
  · rintro ⟨c, hc, hfile⟩
    exact ⟨c, hc, f, hfile, rfl⟩

theorem contains_importsOn (hg : g.WellFormed) (hp : p ∈ g.files.toList)
    (hq : q ∈ g.files.toList) : (importsOn g.cycles).contains (p.components, q.components) =
      decide (∃ c ∈ g.cycles, (p, q) ∈ c.edges) := by
  rw [importsOn, Std.HashSet.contains_ofList, Bool.eq_iff_iff, List.contains_iff_mem,
    decide_eq_true_iff]
  simp only [List.mem_flatMap, List.mem_map, Prod.mk.injEq, Prod.exists]
  constructor
  · rintro ⟨c, hc, origin, target, hedge, horigin, htarget⟩
    obtain ⟨horigin', htarget'⟩ := List.of_mem_zip hedge
    obtain rfl := Graph.eq_of_components_of_mem hg
      (mem_files_of_mem_cycles hg hc horigin') hp horigin
    obtain rfl := Graph.eq_of_components_of_mem hg
      (mem_files_of_mem_cycles hg hc (List.mem_of_mem_tail htarget')) hq htarget
    exact ⟨c, hc, hedge⟩
  · rintro ⟨c, hc, hedge⟩
    exact ⟨c, hc, p, q, hedge, rfl, rfl⟩

/-- No import of the graph is left out. -/
theorem edge?_eq (hg : g.WellFormed) (h : (i, j) ∈ g.edges) : edge? g (importsOn g.cycles) i j =
    some (edge i j (decide (∃ c ∈ g.cycles, (g.fileAt i, g.fileAt j) ∈ c.edges))) := by
  have himports := (Graph.mem_edges_iff hg).mp h
  have hi := hg.lt_of_mem_targets himports
  have hj := hg.target_lt i j himports
  have hpair := contains_importsOn hg (Graph.fileAt_mem_files hi) (Graph.fileAt_mem_files hj)
  rw [edge?, Graph.file?_of_lt hi, Graph.file?_of_lt hj]
  simp only [Option.bind_eq_bind, Option.bind_some, Graph.indexOf?_fileAt hg hi,
    Graph.indexOf?_fileAt hg hj, hpair]

/-- What the drawing of a graph says of its files. -/
def nodeStatements (g : Graph) (names : Naming) : List Statement :=
  g.files.toList.mapIdx fun i f => .node i (names.name f) (∃ c ∈ g.cycles, f ∈ c.files)

/-- What it says of the imports. -/
def edgeStatements (g : Graph) : List Statement :=
  g.edges.map fun (i, j) => .edge i j (∃ c ∈ g.cycles, (g.fileAt i, g.fileAt j) ∈ c.edges)

theorem nodes_eq (hg : g.WellFormed) : (g.files.toList.mapIdx fun i f =>
    node i (names.name f) ((filesOn g.cycles).contains f.components)) =
      (nodeStatements g names).map (·.line ++ "\n") := by
  refine List.ext_getElem? fun i => ?_
  rw [nodeStatements, List.getElem?_map, List.getElem?_mapIdx, List.getElem?_mapIdx]
  cases hf : g.files.toList[i]? with
  | none => rfl
  | some f =>
    simp only [Option.map_some, contains_filesOn hg (List.mem_of_getElem? hf), Statement.line_node]

theorem edges_eq (hg : g.WellFormed) :
    (g.edges.filterMap fun (i, j) => edge? g (importsOn g.cycles) i j) =
      (edgeStatements g).map (·.line ++ "\n") := by
  rw [edgeStatements, List.map_map, ← List.filterMap_eq_map]
  refine List.filterMap_congr ?_
  rintro ⟨i, j⟩ hij
  simp only [edge?_eq hg hij, Function.comp_apply, Statement.line_edge]

theorem render_eq (hg : g.WellFormed) : render g names g.cycles =
    ofStatements (nodeStatements g names ++ edgeStatements g) := by
  have hhead : "digraph imports \x7b" ++ "\n" = "digraph imports \x7b\n" := rfl
  have hdirection : "    rankdir=LR;" ++ "\n" = "    rankdir=LR;\n" := rfl
  have hstyle : "    node [shape=box style=filled fontname=monospace];" ++ "\n" =
      "    node [shape=box style=filled fontname=monospace];\n" := rfl
  have hend : "\x7d" ++ "\n" = "\x7d\n" := rfl
  calc render g names g.cycles
    _ = "digraph imports \x7b\n" ++ "    rankdir=LR;\n" ++
          "    node [shape=box style=filled fontname=monospace];\n" ++
          String.join (g.files.toList.mapIdx fun i f =>
            node i (names.name f) ((filesOn g.cycles).contains f.components)) ++
          String.join (g.edges.filterMap fun (i, j) => edge? g (importsOn g.cycles) i j) ++
          "\x7d\n" := rfl
    _ = ofStatements (nodeStatements g names ++ edgeStatements g) := by
      simp only [nodes_eq hg, edges_eq hg, ofStatements, List.map_cons, List.map_append,
        List.map_nil, List.map_map, Function.comp_def, String.join_cons, String.join_append,
        String.join_nil, String.append_empty, hhead, hdirection, hstyle, hend, String.append_assoc]

theorem edge_mem_edgeStatements (hg : g.WellFormed) {c : Cycle} {e : Path × Path}
    (hc : c ∈ g.cycles) (he : e ∈ c.edges) : ∃ i j, g.file? i = some e.1 ∧ g.file? j = some e.2 ∧
      Statement.edge i j true ∈ edgeStatements g := by
  obtain ⟨i, j, hi, hj, himports⟩ := (Graph.isElementary_of_mem_cycles hg hc).imports e he
  refine ⟨i, j, hi, hj, List.mem_map.mpr ⟨(i, j), (Graph.mem_edges_iff hg).mpr himports, ?_⟩⟩
  have hpair : (g.fileAt i, g.fileAt j) = e := by simp [Graph.fileAt, hi, hj]
  simp only [hpair, Statement.edge.injEq, decide_eq_true_eq, true_and]
  exact ⟨c, hc, he⟩

/-- The drawing of a graph with its cycles says of each file in order how it is named and whether it
is on a cycle, and then of each import in order whether it is on one. The files of an import are
found again at their places, so no import is left out, and every import along a cycle, the one that
closes it included, stands out. -/
theorem drawing_reads_back (hg : g.Built) (names : Naming) :
    ∃ nodes edges, decode (render g names g.cycles) = some (nodes ++ edges) ∧
      nodes.length = g.fileCount ∧
      (∀ i f, g.file? i = some f → ∃ onCycle, nodes[i]? = some (.node i (names.name f) onCycle) ∧
        (onCycle = true ↔ ∃ c ∈ g.cycles, f ∈ c.files)) ∧
      edges.length = g.edges.length ∧
      (∀ (k : Nat) i j, g.edges[k]? = some (i, j) → ∃ p q onCycle,
        g.file? i = some p ∧ g.file? j = some q ∧
        g.indexOf? p = some i ∧ g.indexOf? q = some j ∧
        edges[k]? = some (.edge i j onCycle) ∧
        (onCycle = true ↔ ∃ c ∈ g.cycles, (p, q) ∈ c.edges)) ∧
      ∀ c ∈ g.cycles, ∀ e ∈ c.edges, ∃ i j,
        g.file? i = some e.1 ∧ g.file? j = some e.2 ∧ .edge i j true ∈ edges := by
  have hw := hg.wellFormed
  refine ⟨nodeStatements g names, edgeStatements g, ?_, ?_, ?_, ?_, ?_, ?_⟩
  · rw [render_eq hw, decode_ofStatements]
  · rw [nodeStatements, List.length_mapIdx, Array.length_toList]
    rfl
  · intro i f hf
    have hfile : g.files.toList[i]? = some f := Array.getElem?_toList.trans hf
    refine ⟨_, ?_, decide_eq_true_iff⟩
    rw [nodeStatements, List.getElem?_mapIdx, hfile]
    rfl
  · rw [edgeStatements, List.length_map]
  · intro k i j hk
    have himports := (Graph.mem_edges_iff hw).mp (List.mem_of_getElem? hk)
    have hi := hw.lt_of_mem_targets himports
    have hj := hw.target_lt i j himports
    refine ⟨g.fileAt i, g.fileAt j, _, Graph.file?_of_lt hi, Graph.file?_of_lt hj,
      Graph.indexOf?_fileAt hw hi, Graph.indexOf?_fileAt hw hj, ?_, decide_eq_true_iff⟩
    rw [edgeStatements, List.getElem?_map, hk]
    rfl
  · intro c hc e he
    exact edge_mem_edgeStatements hw hc he

open ImportCycles.Graph (detour) in
theorem detour_drawing : detour.Built ∧ ∃ nodes edges,
    decode (render detour ⟨Path.ofString "/", Path.ofString "src"⟩ detour.cycles) =
      some (nodes ++ edges) ∧
    nodes.length = 4 ∧ nodes[2]? = some (.node 2 "c" true) ∧ nodes[3]? = some (.node 3 "d" false) ∧
    edges.length = 5 ∧ edges[3]? = some (.edge 2 0 true) ∧ edges[4]? = some (.edge 3 2 false) := by
  obtain ⟨nodes, edges, hdecode, hnodes, hnode, hedges, hedge, -⟩ :=
    drawing_reads_back Graph.built_detour ⟨Path.ofString "/", Path.ofString "src"⟩
  have hcycles : detour.cycles = [⟨["a", "b", "c", "a"].map Path.ofString⟩] := by cbv
  have ha : detour.file? 0 = some (Path.ofString "a") := by cbv
  have hc : detour.file? 2 = some (Path.ofString "c") := by cbv
  have hd : detour.file? 3 = some (Path.ofString "d") := by cbv
  have hall : detour.edges = [(0, 1), (0, 3), (1, 2), (2, 0), (3, 2)] := by cbv
  have hcount : detour.fileCount = 4 := by cbv
  obtain ⟨cOn, hcNode, hcOn⟩ := hnode 2 _ hc
  obtain ⟨dOn, hdNode, hdOn⟩ := hnode 3 _ hd
  obtain ⟨p, q, closing, hp, hq, -, -, hclosingEdge, hclosing⟩ := hedge 3 2 0 (by rw [hall]; rfl)
  obtain ⟨r, t, aside, hr, ht, -, -, hasideEdge, haside⟩ := hedge 4 3 2 (by rw [hall]; rfl)
  obtain rfl := Option.some.inj (hc.symm.trans hp)
  obtain rfl := Option.some.inj (ha.symm.trans hq)
  obtain rfl := Option.some.inj (hd.symm.trans hr)
  obtain rfl := Option.some.inj (hc.symm.trans ht)
  rw [hcycles] at hcOn hdOn hclosing haside
  obtain rfl : cOn = true := hcOn.mpr (by decide)
  obtain rfl : dOn = false := Bool.eq_false_iff.mpr (mt hdOn.mp (by decide))
  obtain rfl : closing = true := hclosing.mpr (by decide)
  obtain rfl : aside = false := Bool.eq_false_iff.mpr (mt haside.mp (by decide))
  exact ⟨Graph.built_detour, nodes, edges, hdecode, hnodes.trans hcount, hcNode, hdNode,
    hedges.trans (by rw [hall]; rfl), hclosingEdge, hasideEdge⟩

end Report.Dot

end ImportCycles
