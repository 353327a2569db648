import GrammarNet.Proofs.Readers
import GrammarNet.Network.Dot

/-!
Reading the text of a graph back.

An escaped text has no line break in it, and a quote only behind a backslash that was put there. So
a line of a graph ends where it was ended, and a label is read up to the quote behind it
(`Reader.quoted_append`), whatever the names of the vocabulary are. A text is therefore taken apart
at its line breaks, each line is read on its own (`Reader.line_node`, `Reader.line_edge`), and the
edges belong to the node above them (`Dot.gather`). What is read is what the states are shown as
(`Network.dot_readable`).
-/

namespace GrammarNet

namespace Dot

/-- An edge as a graph shows it. -/
structure EdgeView where
  source : Nat
  target : Nat
  label : String
  dashed : Bool
  deriving DecidableEq, Repr

/-- A state as a graph shows it. -/
structure NodeView where
  number : Nat
  kind : String
  decision : Option Nat
  edges : List EdgeView
  deriving DecidableEq, Repr

/-- What a graph shows of an edge. -/
def edgeView (names : Vocabulary) (source : Nat) (t : Transition) : EdgeView :=
  ⟨source, t.target, labelText names t.label, t.label.isEpsilon⟩

/-- What a graph shows of a state. -/
def nodeView (names : Vocabulary) (s : State) : NodeView :=
  ⟨s.number, s.kind.name, s.decision, s.transitions.map (edgeView names s.number)⟩

/-- A line between the first ones and the last. -/
inductive Line where
  | node (number : Nat) (kind : String) (decision : Option Nat)
  | edge (edge : EdgeView)
  deriving DecidableEq, Repr

end Dot

namespace Reader

open Dot

variable {text rest : List Char}

/-- What stands between quotes, and what is left behind the second quote. -/
def unquote : List Char → Option (List Char × List Char)
  | '"' :: rest => some ([], rest)
  | '\\' :: 'n' :: rest => (unquote rest).map fun (text, rest) => ('\n' :: text, rest)
  | '\\' :: c :: rest => (unquote rest).map fun (text, rest) => (c :: text, rest)
  | c :: rest => (unquote rest).map fun (text, rest) => (c :: text, rest)
  | [] => none

/-- Takes off a text and the quote behind it. -/
def quoted : Reader String := fun text =>
  (unquote text).map fun (text, rest) => (String.ofList text, rest)

/-- Takes off the number of a decision, if there is one. -/
def decision : Reader (Option Nat) := do
  if ← accepts "\\nd=" then
    let d ← natural
    return some d
  else return none

/-- Takes off a line. -/
def line : Reader Line := do
  expect "  s"
  let number ← natural
  if ← accepts " [label=\"" then
    let _ ← natural
    expect "\\n"
    let kind ← upTo ['\\', '"']
    let decided ← decision
    expect "\", shape="
    let _ ← upTo [']']
    expect "];\n"
    return .node number kind decided
  else
    expect " -> s"
    let target ← natural
    expect " [label=\""
    let label ← quoted
    let dashed ← accepts ", style=dashed"
    expect "];\n"
    return .edge ⟨number, target, label, dashed⟩

/-! ### Texts between quotes -/

theorem unquote_escapeChar (c : Char) (text : List Char) :
    unquote (escapeChar c ++ text) =
      (unquote text).map fun (text, rest) => (c :: text, rest) := by
  unfold escapeChar
  split
  · rfl
  · rfl
  · rfl
  · next backslash quote newline =>
      rw [List.cons_append, List.nil_append, unquote]
      · exact quote
      · exact fun _ same _ => backslash same
      · exact fun _ _ same _ => backslash same

theorem quoted_append (text : String) (rest : List Char) :
    quoted.run ((escape text).toList ++ '"' :: rest) = some (text, rest) := by
  have inner : ∀ chars : List Char,
      unquote (chars.flatMap escapeChar ++ '"' :: rest) = some (chars, rest) := by
    intro chars
    induction chars with
    | nil => rfl
    | cons c chars ih =>
        rw [List.flatMap_cons, List.append_assoc, unquote_escapeChar, ih]
        rfl
  simp only [quoted, StateT.run, escape, String.toList_ofList, inner, Option.map_some,
    String.ofList_toList]

/-! ### Lines -/

theorem kind_plain (kind : StateKind) : ∀ c ∈ kind.name.toList, c ∉ ['\\', '"', '\n'] := by
  cases kind <;> simp [StateKind.name]

theorem shape_plain (s : State) : ∀ c ∈ (shape s).toList, c ∉ [']', '\n'] := by
  unfold shape
  split
  · simp
  split
  · simp
  split
  · simp
  · simp

theorem upTo_kind (kind : StateKind) {mark : Char} (front : rest.head? = some mark)
    (ends : mark ∈ ['\\', '"']) :
    (upTo ['\\', '"']).run (kind.name.toList ++ rest) = some (kind.name, rest) :=
  upTo_append (fun c mem here => kind_plain kind c mem (List.mem_append_left ['\n'] here)) front ends

theorem upTo_shape (s : State) (front : rest.head? = some ']') :
    (upTo [']']).run ((shape s).toList ++ rest) = some (shape s, rest) :=
  upTo_append (fun c mem here => shape_plain s c mem (List.mem_append_left ['\n'] here)) front
    (by decide)

/-- The text of a decision in a node. -/
def decisionText (decided : Option Nat) : String :=
  match decided with
  | some d => "\\nd=" ++ toString d
  | none => ""

theorem dashes_append (dashed : Bool) :
    (accepts ", style=dashed").run
        ((if dashed then ", style=dashed" else "").toList ++ "];\n".toList) =
      some (dashed, "];\n".toList) := by
  cases dashed with
  | false => exact accepts_eq_false (not_prefix_of_head rfl rfl (by decide))
  | true => exact accepts_append ", style=dashed" _

theorem decision_append (decided : Option Nat) (front : rest.head? = some '"') :
    decision.run ((decisionText decided).toList ++ rest) = some (decided, rest) := by
  cases decided with
  | none => exact run_bind (accepts_eq_false (not_prefix_of_head rfl front (by decide)))
  | some d =>
      rw [decisionText, String.toList_append, List.append_assoc]
      exact (run_bind (accepts_append "\\nd=" _)).trans
        (run_bind (natural_append d (undigited_of_head front rfl)))

/-- A decision begins with a backslash, and a quote follows where there is none. -/
theorem head?_decisionText (decided : Option Nat) {rest : List Char}
    (front : rest.head? = some '"') :
    ∃ mark, ((decisionText decided).toList ++ rest).head? = some mark ∧ mark ∈ ['\\', '"'] := by
  cases decided with
  | none => exact ⟨'"', front, by decide⟩
  | some d =>
      refine ⟨'\\', ?_, by decide⟩
      rw [decisionText, String.toList_append]
      rfl

theorem line_node (s : State) :
    line.whole? (nodeLine s).toList = some (.node s.number s.kind.name s.decision) := by
  apply whole?_eq
  have same : nodeLine s = "  s" ++ toString s.number ++ " [label=\"" ++ toString s.number ++ "\\n" ++
    s.kind.name ++ decisionText s.decision ++ "\", shape=" ++ shape s ++ "];\n" := rfl
  rw [same]
  simp only [String.toList_append, List.append_assoc]
  have quote : ("\", shape=".toList ++ ((shape s).toList ++ "];\n".toList)).head? = some '"' := rfl
  obtain ⟨mark, front, ends⟩ := head?_decisionText s.decision quote
  calc line.run _
    _ = _ := run_bind (expect_append _ _)
    _ = _ := run_bind (natural_append s.number (undigited_of_head rfl rfl))
    _ = _ := run_bind (accepts_append _ _)
    _ = _ := run_bind (natural_append s.number (undigited_of_head rfl rfl))
    _ = _ := run_bind (expect_append _ _)
    _ = _ := run_bind (upTo_kind s.kind front ends)
    _ = _ := run_bind (decision_append s.decision quote)
    _ = _ := run_bind (expect_append _ _)
    _ = _ := run_bind (upTo_shape s rfl)
    _ = _ := run_bind (expect_append "];\n" [])
    _ = _ := rfl

theorem line_edge (names : Vocabulary) (source : Nat) (t : Transition) :
    line.whole? (edgeLine names source t).toList = some (.edge (edgeView names source t)) := by
  apply whole?_eq
  unfold edgeLine edgeView
  simp only [String.toList_append, List.append_assoc]
  calc line.run _
    _ = _ := run_bind (expect_append _ _)
    _ = _ := run_bind (natural_append source (undigited_of_head rfl rfl))
    _ = _ := run_bind (accepts_eq_false (by simp))
    _ = _ := run_bind (expect_append _ _)
    _ = _ := run_bind (natural_append t.target (undigited_of_head rfl rfl))
    _ = _ := run_bind (expect_append _ _)
    _ = _ := run_bind (quoted_append (labelText names t.label) _)
    _ = _ := run_bind (dashes_append t.label.isEpsilon)
    _ = _ := run_bind (expect_append "];\n" [])
    _ = _ := rfl

end Reader

namespace Dot

/-! ### Lines of a text -/

/-- A text that breaks at its end and nowhere else. -/
def IsLine (text : String) : Prop :=
  ∃ chars, '\n' ∉ chars ∧ text.toList = chars ++ ['\n']

theorem newline_notMem_escape (text : String) : '\n' ∉ (escape text).toList := by
  rw [escape, String.toList_ofList]
  intro mem
  obtain ⟨c, -, mem⟩ := List.mem_flatMap.mp mem
  unfold escapeChar at mem
  split at mem
  · simp at mem
  · simp at mem
  · simp at mem
  · next newline => exact newline (List.mem_singleton.mp mem).symm

theorem newline_notMem_toDigits (n : Nat) : '\n' ∉ Nat.toDigits 10 n := fun mem =>
  absurd (Nat.isDigit_of_mem_toDigits (by decide) (by decide) mem) (by decide)

theorem newline_notMem_kind (kind : StateKind) : '\n' ∉ kind.name.toList := fun mem =>
  Reader.kind_plain kind '\n' mem (by decide)

theorem newline_notMem_shape (s : State) : '\n' ∉ (shape s).toList := fun mem =>
  Reader.shape_plain s '\n' mem (by decide)

theorem isLine_end {text : String} (plain : '\n' ∉ text.toList) : IsLine (text ++ "];\n") := by
  refine ⟨text.toList ++ "];".toList, ?_, ?_⟩
  · simp [plain]
  · simp

theorem isLine_node (s : State) : IsLine (nodeLine s) := by
  apply isLine_end
  cases s.decision <;>
    simp [newline_notMem_toDigits, newline_notMem_kind, newline_notMem_shape]

theorem isLine_edge (names : Vocabulary) (source : Nat) (t : Transition) :
    IsLine (edgeLine names source t) := by
  apply isLine_end
  cases t.label.isEpsilon <;> simp [newline_notMem_toDigits, newline_notMem_escape]

/-- The line breaks of lines take them apart again. -/
theorem splitOn_lines {texts : List String} (lines : ∀ text ∈ texts, IsLine text) :
    (texts.flatMap String.toList).splitOn '\n' = texts.map (·.toList.dropLast) ++ [[]] := by
  induction texts with
  | nil => exact List.splitOn_nil _
  | cons text texts ih =>
      obtain ⟨⟨chars, plain, split⟩, others⟩ := List.forall_mem_cons.mp lines
      rw [List.flatMap_cons, split, List.append_assoc, List.singleton_append,
        List.splitOn_append_cons_self_of_not_mem plain, ih others, List.map_cons, split,
        List.dropLast_concat, List.cons_append]

/-- The lines between the first three and the last, with the line breaks that end them. -/
def innerLines (text : String) : List (List Char) :=
  ((text.toList.splitOn '\n').drop 3).dropLast.dropLast.map (· ++ ['\n'])

theorem innerLines_eq {texts : List String} (lines : ∀ text ∈ texts, IsLine text) :
    innerLines (opening ++ String.join texts ++ "\x7d\n") = texts.map String.toList := by
  let first : List String :=
    ["digraph ATN \x7b\n", "  rankdir=LR;\n", "  fontname=\"monospace\";\n"]
  have text : (opening ++ String.join texts ++ "\x7d\n").toList =
      (first ++ (texts ++ ["\x7d\n"])).flatMap String.toList := by
    rw [String.toList_append, String.toList_append, String.toList_join, List.flatMap_append,
      List.flatMap_append, List.append_assoc]
    rfl
  have all : ∀ text ∈ first ++ (texts ++ ["\x7d\n"]), IsLine text := by
    refine List.forall_mem_append.mpr ⟨?_, List.forall_mem_append.mpr ⟨lines, ?_⟩⟩
    · refine List.forall_mem_cons.mpr ⟨⟨"digraph ATN \x7b".toList, by decide, rfl⟩, ?_⟩
      refine List.forall_mem_cons.mpr ⟨⟨"  rankdir=LR;".toList, by decide, rfl⟩, ?_⟩
      exact List.forall_mem_singleton.mpr ⟨"  fontname=\"monospace\";".toList, by decide, rfl⟩
    · exact List.forall_mem_singleton.mpr ⟨['\x7d'], by decide, rfl⟩
  have whole : ∀ text ∈ texts, text.toList.dropLast ++ ['\n'] = text.toList := by
    intro text mem
    obtain ⟨chars, -, split⟩ := lines text mem
    rw [split, List.dropLast_concat]
  rw [innerLines, text, splitOn_lines all]
  simp only [first, List.map_append, List.map_cons, List.map_nil, List.cons_append,
    List.nil_append, List.drop_succ_cons, List.drop_zero]
  rw [List.dropLast_concat, List.dropLast_concat, List.map_map]
  exact List.map_congr_left whole

/-! ### Nodes with their edges -/

/-- Puts a line in front of the edges and nodes below it. A node takes the edges up to the next. -/
def place : Line → List EdgeView × List NodeView → List EdgeView × List NodeView
  | .edge edge, (edges, nodes) => (edge :: edges, nodes)
  | .node number kind decision, (edges, nodes) => ([], ⟨number, kind, decision, edges⟩ :: nodes)

/-- The nodes of lines, each with the edges below it. -/
def gather (lines : List Line) : List NodeView :=
  (lines.foldr place ([], [])).2

/-- The lines of a state. -/
def linesOf (names : Vocabulary) (s : State) : List Line :=
  .node s.number s.kind.name s.decision ::
    s.transitions.map fun t => .edge (edgeView names s.number t)

theorem gather_lines (names : Vocabulary) (states : List State) :
    gather (states.flatMap (linesOf names)) = states.map (nodeView names) := by
  have edges : ∀ (l : List EdgeView) (nodes : List NodeView),
      (l.map Line.edge).foldr place ([], nodes) = (l, nodes) := by
    intro l nodes
    induction l with
    | nil => rfl
    | cons edge l ih => rw [List.map_cons, List.foldr_cons, ih, place]
  have all : (states.flatMap (linesOf names)).foldr place ([], []) =
      ([], states.map (nodeView names)) := by
    induction states with
    | nil => rfl
    | cons s states ih =>
        have own := edges (s.transitions.map (edgeView names s.number)) (states.map (nodeView names))
        rw [List.map_map] at own
        rw [List.flatMap_cons, List.foldr_append, ih, linesOf, List.foldr_cons]
        exact congrArg (place _) own
  rw [gather, all]

/-- The nodes that a text shows, with their edges. -/
def read? (text : String) : Option (List NodeView) :=
  ((innerLines text).mapM Reader.line.whole?).map gather

theorem isLine_of_mem_stateLines {names : Vocabulary} {s : State} {text : String}
    (mem : text ∈ stateLines names s) : IsLine text := by
  rcases List.mem_cons.mp mem with rfl | mem
  · exact isLine_node s
  · obtain ⟨t, -, rfl⟩ := List.mem_map.mp mem
    exact isLine_edge names s.number t

theorem stateLines_read (names : Vocabulary) (s : State) :
    (stateLines names s).mapM (Reader.line.whole? ∘ String.toList) = some (linesOf names s) := by
  have edge : ∀ t, (Reader.line.whole? ∘ String.toList) (edgeLine names s.number t) =
      some (.edge (edgeView names s.number t)) := fun t => by
    rw [Function.comp_apply, Reader.line_edge]
  rw [stateLines, List.mapM_cons, Function.comp_apply, Reader.line_node,
    Reader.mapM_map_eq edge s.transitions]
  rfl

end Dot

namespace Network

/-- The states that are there, in the order of their slots. -/
def liveStates (net : Network) : List State :=
  net.states.toList.filterMap id

theorem dot_eq (net : Network) (names : Vocabulary) :
    net.dot names =
      Dot.opening ++ String.join (net.liveStates.flatMap (Dot.stateLines names)) ++ "\x7d\n" := by
  unfold dot liveStates
  congr 3
  induction net.states.toList with
  | nil => rfl
  | cons slot slots ih =>
      cases slot with
      | none => exact ih
      | some s => exact congrArg (Dot.stateLines names s ++ ·) ih

/-- The text of a graph shows each state with its number, kind and decision and each of its edges
with its target, its label and whether it is dashed, all in their order, whatever names there are for
symbols. For no text between quotes breaks the line, and it ends at the quote that was put behind
it, whatever follows. -/
theorem dot_readable (net : Network) (names : Vocabulary) :
    Dot.read? (net.dot names) = some (net.liveStates.map (Dot.nodeView names)) ∧
      ∀ text rest, '\n' ∉ (Dot.escape text).toList ∧
        Reader.quoted.run ((Dot.escape text).toList ++ '"' :: rest) = some (text, rest) := by
  refine ⟨?_, fun text rest =>
    ⟨Dot.newline_notMem_escape text, Reader.quoted_append text rest⟩⟩
  have lines : ∀ text ∈ net.liveStates.flatMap (Dot.stateLines names), Dot.IsLine text := by
    intro text mem
    obtain ⟨s, -, mem⟩ := List.mem_flatMap.mp mem
    exact Dot.isLine_of_mem_stateLines mem
  rw [Dot.read?, dot_eq, Dot.innerLines_eq lines, List.mapM_map,
    Reader.mapM_flatMap_eq (Dot.stateLines_read names), Option.map_some, Dot.gather_lines]

end Network

end GrammarNet
