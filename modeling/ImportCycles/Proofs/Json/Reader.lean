import ImportCycles.Report
import ImportCycles.Proofs.Json.Tokens
/-!
JSON values read from their tokens, with a stack of the arrays and objects that are open. Reading
what a value is laid out as gives the value, so the report in JSON says what is reported, whatever
letters there are in names.
-/
namespace ImportCycles

namespace Json

/-- An open array or object. What has been read of it is kept backwards. -/
inductive Frame where
  | items (front : List Json)
  | members (front : List (String × Json))
  /-- An object of which a key has been read and its value is to come. -/
  | member (front : List (String × Json)) (key : String)

/-- What must come next. -/
inductive Due where
  | value
  | itemOrClose
  | key
  | keyOrClose
  | colon
  | commaOrClose
  /-- Nothing more, the value has been read. -/
  | nothing (value : Json)

structure Reader where
  due : Due
  frames : List Frame

namespace Reader

/-- A value has been read to its end inside these frames. -/
def take (value : Json) : List Frame → Option Reader
  | [] => some ⟨.nothing value, []⟩
  | .items front :: frames => some ⟨.commaOrClose, .items (value :: front) :: frames⟩
  | .member front key :: frames =>
    some ⟨.commaOrClose, .members ((key, value) :: front) :: frames⟩
  | .members _ :: _ => none

/-- The first token of a value inside these frames. -/
def enter (frames : List Frame) : Token → Option Reader
  | .number n => take (.number n) frames
  | .text s => take (.string s) frames
  | .openArray => some ⟨.itemOrClose, .items [] :: frames⟩
  | .openObject => some ⟨.keyOrClose, .members [] :: frames⟩
  | _ => none

def feed : Reader → Token → Option Reader
  | ⟨.value, frames⟩, token => enter frames token
  | ⟨.itemOrClose, .items [] :: frames⟩, .closeArray => take (.array []) frames
  | ⟨.itemOrClose, frames⟩, token => enter frames token
  | ⟨.keyOrClose, .members [] :: frames⟩, .closeObject => take (.object []) frames
  | ⟨.keyOrClose, .members front :: frames⟩, .text key
  | ⟨.key, .members front :: frames⟩, .text key => some ⟨.colon, .member front key :: frames⟩
  | ⟨.colon, frames⟩, .colon => some ⟨.value, frames⟩
  | ⟨.commaOrClose, .items front :: frames⟩, .comma => some ⟨.value, .items front :: frames⟩
  | ⟨.commaOrClose, .items front :: frames⟩, .closeArray => take (.array front.reverse) frames
  | ⟨.commaOrClose, .members front :: frames⟩, .comma => some ⟨.key, .members front :: frames⟩
  | ⟨.commaOrClose, .members front :: frames⟩, .closeObject =>
    take (.object front.reverse) frames
  | _, _ => none

end Reader

/-- The value of a text that is one value with blanks around it. -/
def decode (s : String) : Option Json := do
  let read ← lex .between s.toList
  match ← read.foldlM Reader.feed ⟨.value, []⟩ with
  | ⟨.nothing value, []⟩ => some value
  | _ => none

example : ["", "01", "1 2", "[1,]", "[,1]", "[1", "1]", "\x22\n\x22", "\x22\\x\x22",
    "\x22\\ud800\x22"].all (fun s => (decode s).isNone) = true := by decide +kernel

open Reader (feed take)

variable {frames : List Frame} {tail : List Token}

theorem exists_tokens_eq_cons (value : Json) :
    ∃ token more, tokens value = token :: more ∧ token ≠ .closeArray := by
  match value with
  | .number _ | .string _ | .array [] | .array (_ :: _) | .object [] | .object (_ :: _) =>
    exact ⟨_, _, by rw [tokens], by simp⟩

/-- The first item of an array begins like any value. -/
theorem foldlM_first (value : Json) :
    (tokens value ++ tail).foldlM feed ⟨.itemOrClose, frames⟩ =
      (tokens value ++ tail).foldlM feed ⟨.value, frames⟩ := by
  obtain ⟨token, more, hvalue, htoken⟩ := exists_tokens_eq_cons value
  have hfeed : feed ⟨.itemOrClose, frames⟩ token = Reader.enter frames token := by
    rw [feed]
    simp [htoken]
  rw [hvalue, List.cons_append, List.foldlM_cons, List.foldlM_cons, hfeed]
  rfl

mutual

theorem foldlM_tokens (value : Json) {frames : List Frame} {tail : List Token} :
    (tokens value ++ tail).foldlM feed ⟨.value, frames⟩ =
      (take value frames).bind (tail.foldlM feed ·) := by
  match value with
  | .number n => rfl
  | .string s => rfl
  | .array [] => rfl
  | .array (item :: items) =>
    calc (tokens (.array (item :: items)) ++ tail).foldlM feed ⟨.value, frames⟩
      _ = (tokens item ++ (itemTokens items ++ .closeArray :: tail)).foldlM feed
          ⟨.itemOrClose, .items [] :: frames⟩ := by
        simp [tokens, List.foldlM_cons, feed, Reader.enter]
      _ = (itemTokens items ++ .closeArray :: tail).foldlM feed
          ⟨.commaOrClose, .items [item] :: frames⟩ := by
        rw [foldlM_first, foldlM_tokens item]
        rfl
      _ = (take (.array (item :: items)) frames).bind (tail.foldlM feed ·) := by
        rw [foldlM_itemTokens items, List.foldlM_cons]
        simp [feed]
  | .object [] => rfl
  | .object ((key, value) :: members) =>
    calc (tokens (.object ((key, value) :: members)) ++ tail).foldlM feed ⟨.value, frames⟩
      _ = (tokens value ++ (memberTokens members ++ .closeObject :: tail)).foldlM feed
          ⟨.value, .member [] key :: frames⟩ := by
        simp [tokens, List.foldlM_cons, feed, Reader.enter]
      _ = (memberTokens members ++ .closeObject :: tail).foldlM feed
          ⟨.commaOrClose, .members [(key, value)] :: frames⟩ := by
        rw [foldlM_tokens value]
        rfl
      _ = (take (.object ((key, value) :: members)) frames).bind (tail.foldlM feed ·) := by
        rw [foldlM_memberTokens members, List.foldlM_cons]
        simp [feed]
termination_by structural value

theorem foldlM_itemTokens (items : List Json) {front : List Json} {frames : List Frame}
    {tail : List Token} :
    (itemTokens items ++ tail).foldlM feed ⟨.commaOrClose, .items front :: frames⟩ =
      tail.foldlM feed ⟨.commaOrClose, .items (items.reverse ++ front) :: frames⟩ := by
  match items with
  | [] => rfl
  | item :: items =>
    have hitem : (itemTokens (item :: items) ++ tail).foldlM feed
        ⟨.commaOrClose, .items front :: frames⟩ =
          (itemTokens items ++ tail).foldlM feed
            ⟨.commaOrClose, .items (item :: front) :: frames⟩ := by
      rw [itemTokens, List.cons_append, List.foldlM_cons, List.append_assoc]
      exact foldlM_tokens item
    rw [hitem, foldlM_itemTokens items, List.reverse_cons, List.append_assoc]
    rfl
termination_by structural items

theorem foldlM_memberTokens (members : List (String × Json)) {front : List (String × Json)}
    {frames : List Frame} {tail : List Token} :
    (memberTokens members ++ tail).foldlM feed ⟨.commaOrClose, .members front :: frames⟩ =
      tail.foldlM feed ⟨.commaOrClose, .members (members.reverse ++ front) :: frames⟩ := by
  match members with
  | [] => rfl
  | (key, value) :: members =>
    have hmember : (memberTokens ((key, value) :: members) ++ tail).foldlM feed
        ⟨.commaOrClose, .members front :: frames⟩ =
          (memberTokens members ++ tail).foldlM feed
            ⟨.commaOrClose, .members ((key, value) :: front) :: frames⟩ := by
      simp only [memberTokens, List.cons_append, List.append_assoc, List.foldlM_cons]
      exact foldlM_tokens value
    rw [hmember, foldlM_memberTokens members, List.reverse_cons, List.append_assoc]
    rfl
termination_by structural members

end

theorem decode_eq_some {s : String} {value : Json}
    (h : lex .between s.toList = some (tokens value)) : decode s = some value := by
  have hread : (tokens value).foldlM feed ⟨.value, []⟩ = some ⟨.nothing value, []⟩ := by
    rw [← List.append_nil (tokens value), foldlM_tokens]
    rfl
  simp [decode, h, hread]

/-- The value is read back from its text, and with blanks after it as well. -/
theorem decode_pretty (value : Json) {blanks : String} (h : blanks.toList.all isBlank = true) :
    decode (value.pretty ++ blanks) = some value := by
  refine decode_eq_some ?_
  have hall : ∀ c ∈ blanks.toList, isBlank c = true := List.all_eq_true.mp h
  have hends : Text.EndsNumber blanks.toList := by
    intro c hc
    exact isDigit_of_isBlank (hall c (List.mem_of_mem_head? hc))
  have hblanks : lex .between blanks.toList = some [] := by
    rw [← List.append_nil blanks.toList, lex_blanks hall]
    rfl
  rw [String.toList_append, pretty, String.toList_ofList, lex_layout value hends, hblanks,
    Option.map_some, List.append_nil]

end Json

namespace Report

/-- The report in JSON is one value and a line break. The value is an object with the root as it was
written, the number of the cycles, the names of their files and the ten counts, and nothing else. -/
theorem json_reads_back (names : Naming) (cycles : List Cycle) (t : Tally) :
    ∃ text, json names cycles t = text ++ "\n" ∧ text.toList.getLast? = some '\x7d' ∧
      ∀ s ∈ [text, json names cycles t], Json.decode s = some (.object
        [("root", .string names.rootLabel),
         ("cycle_count", .number cycles.length),
         ("cycles",
          .array (cycles.map fun c => .array (c.files.map fun f => .string (names.name f)))),
         ("stats", .object
          [("file_count", .number t.files),
           ("skipped", .number t.skipped),
           ("specifiers", .number t.specifiers),
           ("resolved", .number t.resolved),
           ("external", .number t.external),
           ("unresolved", .number t.unresolved),
           ("dropped", .number t.dropped),
           ("duplicates", .number t.duplicates),
           ("edges", .number t.edges),
           ("cycles", .number t.cycles)])]) := by
  refine ⟨(value names cycles t).pretty, rfl, ?_, ?_⟩
  · rw [Json.pretty, String.toList_ofList, value, Json.layout, List.getLast?_concat]
  · intro s hs
    rcases List.mem_cons.mp hs with rfl | hs
    · rw [← String.append_empty (s := (value names cycles t).pretty)]
      exact Json.decode_pretty (value names cycles t) rfl
    · rw [List.mem_singleton.mp hs]
      exact Json.decode_pretty (value names cycles t) rfl

end Report

end ImportCycles
