import GrammarNet.PredictionDfa
import Mathlib.Data.Finset.Card
import Mathlib.Data.List.Induction

/-!
Runs of calls on a prediction automaton.

What an automaton answers after any calls is read off their history: `inserted` lists the
signatures by the order in which they came first, `firstStart` is the first start state given, and
`targets` lists what an edge was set to. The numbers of the automaton are places in `inserted`, a
list that later calls only continue, so they stay.

* `PredictionDfa.Records`: how answers and history belong together.
* `PredictionDfa.records_after`: they do so after every run on states of the automaton.
-/

namespace GrammarNet

/-- A call on a prediction automaton or on one of its states. -/
inductive DfaCall where
  | add (signature : List Int)
  | find (signature : List Int)
  | setStart (state : Option Nat)
  | setEdge (source : Nat) (symbol : Int) (target : Option Nat)
  | edge (source : Nat) (symbol : Int)
  | mark (state : Nat) (accepting : Bool) (prediction : Int)
  deriving DecidableEq, Repr

namespace DfaCall

/-- The automaton after a call; looking changes nothing. -/
def exec (dfa : PredictionDfa) : DfaCall → PredictionDfa
  | add signature => (dfa.add signature).2
  | find _ => dfa
  | setStart state => (dfa.setStartIfAbsent state).2
  | setEdge source symbol target => dfa.setEdge source symbol target
  | edge _ _ => dfa
  | mark state accepting prediction => dfa.mark state accepting prediction

/-- The signature that a call adds. -/
def added? : DfaCall → Option (List Int)
  | add signature => some signature
  | _ => none

/-- The start state that a call gives. -/
def start? : DfaCall → Option Nat
  | setStart state => state
  | _ => none

/-- The symbol whose edge a call sets on a state. -/
def symbol? (source : Nat) : DfaCall → Option Int
  | setEdge n x _ => if n = source then some x else none
  | _ => none

/-- What a call sets an edge to. -/
def target? (source : Nat) (symbol : Int) : DfaCall → Option (Option Nat)
  | setEdge n x target => if n = source ∧ x = symbol then some target else none
  | _ => none

/-- The states that a call is made on. -/
def callees : DfaCall → List Nat
  | setEdge source _ _ => [source]
  | edge source _ => [source]
  | mark state _ _ => [state]
  | _ => []

/-! ### Histories -/

/-- The signatures added so far, by their first insertion. -/
def inserted (calls : List DfaCall) : List (List Int) :=
  (calls.filterMap added?).eraseDups

/-- The first start state given. -/
def firstStart (calls : List DfaCall) : Option Nat :=
  calls.findSome? start?

/-- The symbols set on a state. -/
def symbols (calls : List DfaCall) (source : Nat) : Finset Int :=
  (calls.filterMap (symbol? source)).toFinset

/-- What an edge was set to, in the order of the calls. -/
def targets (calls : List DfaCall) (source : Nat) (symbol : Int) : List (Option Nat) :=
  calls.filterMap (target? source symbol)

/-- Each call on a state comes after that state was made. -/
def OnOwnStates (calls : List DfaCall) : Prop :=
  ∀ i (h : i < calls.length), ∀ n ∈ calls[i].callees, n < (inserted (calls.take i)).length

instance (calls : List DfaCall) : Decidable (OnOwnStates calls) :=
  inferInstanceAs (Decidable (∀ i (h : i < calls.length),
    ∀ n ∈ calls[i].callees, n < (inserted (calls.take i)).length))

theorem inserted_concat_add (calls : List DfaCall) (signature : List Int) :
    inserted (calls ++ [add signature]) =
      if signature ∈ inserted calls then inserted calls else inserted calls ++ [signature] := by
  have added : (calls ++ [add signature]).filterMap added? =
      calls.filterMap added? ++ [signature] := by
    simp [added?]
  rw [inserted, inserted, added, List.eraseDups_append, List.removeAll]
  by_cases old : signature ∈ calls.filterMap added?
  · have none : [signature].filter (fun s => !(calls.filterMap added?).elem s) = [] := by
      simpa using old
    rw [if_pos (List.mem_eraseDups.mpr old), none, List.eraseDups_nil, List.append_nil]
  · have one : [signature].filter (fun s => !(calls.filterMap added?).elem s) = [signature] := by
      simpa using old
    rw [if_neg (mt List.mem_eraseDups.mp old), one]
    rfl

theorem inserted_concat_of_none {call : DfaCall} (none : call.added? = none)
    (calls : List DfaCall) : inserted (calls ++ [call]) = inserted calls := by
  simp [inserted, none]

theorem nodup_inserted (calls : List DfaCall) : (inserted calls).Nodup := by
  induction calls using List.reverseRecOn with
  | nil => exact List.nodup_nil
  | append_singleton calls call ih =>
      cases h : call.added? with
      | none => rwa [inserted_concat_of_none h]
      | some signature =>
          cases call with
          | add other =>
              rw [inserted_concat_add]
              split
              · exact ih
              · next new => exact List.nodup_append_comm.mp (List.nodup_cons.mpr ⟨new, ih⟩)
          | _ => cases h

/-- Later calls put signatures behind those that are there. -/
theorem inserted_grows (calls later : List DfaCall) :
    inserted calls <+: inserted (calls ++ later) := by
  rw [inserted, inserted, List.filterMap_append, List.eraseDups_append]
  exact List.prefix_append _ _

theorem onOwnStates_concat {calls : List DfaCall} {call : DfaCall} :
    OnOwnStates (calls ++ [call]) ↔
      OnOwnStates calls ∧ ∀ n ∈ call.callees, n < (inserted calls).length := by
  constructor
  · intro own
    refine ⟨fun i h n mem => ?_, fun n mem => ?_⟩
    · have := own i (by simp; omega) n (by rwa [List.getElem_append_left h])
      rwa [List.take_append_of_le_length (Nat.le_of_lt h)] at this
    · have := own calls.length (by simp) n (by simpa using mem)
      rwa [List.take_left'] at this
      rfl
  · rintro ⟨own, last⟩ i h n mem
    rcases Nat.lt_or_ge i calls.length with early | late
    · rw [List.getElem_append_left early] at mem
      rw [List.take_append_of_le_length (Nat.le_of_lt early)]
      exact own i early n mem
    · obtain rfl : i = calls.length := by
        rw [List.length_append, List.length_singleton] at h
        omega
      rw [List.getElem_concat_length rfl] at mem
      rw [List.take_left' rfl]
      exact last n mem

theorem targets_concat (calls : List DfaCall) (call : DfaCall) (source : Nat) (x : Int) :
    targets (calls ++ [call]) source x =
      targets calls source x ++ (call.target? source x).toList := by
  cases h : call.target? source x <;> simp [targets, h]

theorem symbols_concat (calls : List DfaCall) (call : DfaCall) (source : Nat) :
    symbols (calls ++ [call]) source =
      (call.symbol? source).elim (symbols calls source) (insert · (symbols calls source)) := by
  cases h : call.symbol? source with
  | none => simp [symbols, h]
  | some x => simp [symbols, h, Finset.union_comm]

theorem mem_symbols_iff {calls : List DfaCall} {source : Nat} {x : Int} :
    x ∈ symbols calls source ↔ (targets calls source x).getLast?.isSome := by
  rw [symbols, List.mem_toFinset, List.mem_filterMap, List.getLast?_isSome, targets, ne_eq,
    List.filterMap_eq_nil_iff, not_forall]
  simp only [Classical.not_imp]
  refine exists_congr fun call => and_congr_right fun _ => ?_
  cases call with
  | setEdge n y target => by_cases h : n = source <;> simp [symbol?, target?, h]
  | _ => simp [symbol?, target?]

end DfaCall

namespace PredictionDfa

open DfaCall

variable {dfa : PredictionDfa} {l : List (List Int)} {calls : List DfaCall}

/-- The automaton after calls on a new one. -/
def after (networkState : Option Nat) (number : Int) (calls : List DfaCall) : PredictionDfa :=
  calls.foldl exec { networkState, number }

theorem after_concat (networkState : Option Nat) (number : Int) (calls : List DfaCall)
    (call : DfaCall) :
    after networkState number (calls ++ [call]) = call.exec (after networkState number calls) := by
  simp [after]

/-! ### Numbers of states -/

/-- The states have these signatures, and are found by their places among them. -/
structure Stores (dfa : PredictionDfa) (l : List (List Int)) : Prop where
  signatures : dfa.states.toList.map (·.signature) = l
  found : ∀ signature, dfa.find? signature =
    if signature ∈ l then some (l.idxOf signature) else none

theorem Stores.size (stores : dfa.Stores l) : dfa.states.size = l.length := by
  simp [← stores.signatures]

theorem Stores.add (stores : dfa.Stores l) (signature : List Int) :
    (dfa.add signature).1 = (l.idxOf signature, !decide (signature ∈ l)) ∧
      (dfa.add signature).2.Stores (if signature ∈ l then l else l ++ [signature]) := by
  have found := stores.found signature
  by_cases old : signature ∈ l
  · rw [if_pos old] at found
    simp only [PredictionDfa.add, found, if_pos old]
    exact ⟨by simp [old], stores⟩
  · rw [if_neg old] at found
    rw [if_neg old]
    refine ⟨?_, ?_, fun other => ?_⟩
    · simp [PredictionDfa.add, found, old, stores.size]
    · simp [PredictionDfa.add, found, stores.signatures]
    · have number : (dfa.add signature).1.1 = l.length := by
        simp [PredictionDfa.add, found, stores.size]
      rw [find?_add, number, stores.found]
      by_cases same : other = signature
      · subst same
        simp [List.idxOf_append_of_notMem old]
      · by_cases known : other ∈ l
        · simp [same, known, List.idxOf_append_of_mem known]
        · simp [same, known]

/-- Calls that keep the signatures and the numbers keep what is stored. -/
theorem Stores.congr {other : PredictionDfa} (stores : dfa.Stores l)
    (signatures : other.states.map (·.signature) = dfa.states.map (·.signature))
    (numbers : other.numbers = dfa.numbers) : other.Stores l := by
  constructor
  · rw [← stores.signatures, ← Array.toList_map, ← Array.toList_map, signatures]
  · intro signature
    rw [← stores.found, find?, find?, numbers]

/-- A change of one entry keeps what it keeps of the entry. -/
theorem map_modify {α β : Type} (view : α → β) {f : α → α} (keeps : ∀ a, view (f a) = view a)
    (entries : Array α) (n : Nat) : (entries.modify n f).map view = entries.map view := by
  apply Array.ext_getElem?
  intro i
  rw [Array.getElem?_map, Array.getElem?_map, Array.getElem?_modify]
  split
  · cases entries[i]? <;> simp [keeps]
  · rfl

theorem stores_after (networkState : Option Nat) (number : Int) (calls : List DfaCall) :
    (after networkState number calls).Stores (inserted calls) := by
  induction calls using List.reverseRecOn with
  | nil => exact ⟨rfl, fun signature => Std.TreeMap.getElem?_emptyc⟩
  | append_singleton calls call ih =>
      rw [after_concat]
      cases call with
      | add signature =>
          rw [inserted_concat_add]
          exact (ih.add signature).2
      | setStart state =>
          rw [inserted_concat_of_none rfl]
          refine ih.congr ?_ ?_ <;> simp only [exec, setStartIfAbsent] <;> split <;> rfl
      | setEdge source symbol target =>
          rw [inserted_concat_of_none rfl]
          have keeps : ∀ s : DfaState, (s.setEdge symbol target).signature = s.signature :=
            fun _ => rfl
          exact ih.congr (map_modify _ keeps _ source) rfl
      | mark state accepting prediction =>
          rw [inserted_concat_of_none rfl]
          have keeps : ∀ s : DfaState,
              DfaState.signature { s with accepting, prediction } = s.signature := fun _ => rfl
          exact ih.congr (map_modify _ keeps _ state) rfl
      | find signature =>
          rw [inserted_concat_of_none rfl]
          exact ih
      | edge source symbol =>
          rw [inserted_concat_of_none rfl]
          exact ih

/-! ### The start state -/

theorem start_after (networkState : Option Nat) (number : Int) (calls : List DfaCall) :
    (after networkState number calls).start = firstStart calls := by
  induction calls using List.reverseRecOn with
  | nil => rfl
  | append_singleton calls call ih =>
      rw [after_concat, firstStart, List.findSome?_append, ← firstStart, ← ih]
      cases call with
      | setStart state =>
          rw [exec, start_setStartIfAbsent]
          cases state <;> rfl
      | add signature =>
          simp only [exec, PredictionDfa.add]
          split <;> simp [start?]
      | _ => simp [exec, start?, setEdge, mark]

/-! ### Edges -/

/-- What was set on a state; nothing on a state that there is not. -/
def edges (dfa : PredictionDfa) (source : Nat) : Std.TreeMap Int (Option Nat) :=
  dfa.states[source]?.elim ∅ (·.edges)

theorem edge?_eq (source : Nat) (x : Int) :
    dfa.edge? source x = ((dfa.edges source)[x]?).join := by
  unfold edge? edges
  cases dfa.states[source]? with
  | none => simp
  | some s => rfl

theorem edgeCount_eq (source : Nat) : dfa.edgeCount source = (dfa.edges source).size := by
  unfold edgeCount edges
  cases dfa.states[source]? <;> rfl

/-- A new state has no edges, as if there were none. -/
theorem edges_add (signature : List Int) (source : Nat) :
    (dfa.add signature).2.edges source = dfa.edges source := by
  unfold PredictionDfa.add
  split
  · rfl
  · simp only [edges, Array.getElem?_push]
    split
    · next last => simp [last]
    · rfl

theorem edges_setEdge {source : Nat} (bound : source < dfa.states.size) (x : Int)
    (target : Option Nat) (state : Nat) :
    (dfa.setEdge source x target).edges state =
      if source = state then (dfa.edges state).insert x target else dfa.edges state := by
  simp only [edges, setEdge, Array.getElem?_modify]
  split
  · next same =>
      subst same
      simp [bound, DfaState.setEdge]
  · rfl

theorem edges_mark (marked : Nat) (accepting : Bool) (prediction : Int) (state : Nat) :
    (dfa.mark marked accepting prediction).edges state = dfa.edges state := by
  simp only [edges, mark, Array.getElem?_modify]
  split
  · cases dfa.states[state]? <;> rfl
  · rfl

theorem edges_exec {call : DfaCall} (plain : ∀ n x target, call ≠ .setEdge n x target)
    (source : Nat) : (call.exec dfa).edges source = dfa.edges source := by
  cases call with
  | setEdge n x target => exact absurd rfl (plain n x target)
  | add signature => exact edges_add signature source
  | mark state accepting prediction => exact edges_mark state accepting prediction source
  | setStart state =>
      simp only [exec, setStartIfAbsent]
      split <;> rfl
  | find signature => rfl
  | edge n x => rfl

theorem edges_after (networkState : Option Nat) (number : Int) {calls : List DfaCall}
    (own : OnOwnStates calls) (source : Nat) :
    (∀ x, ((after networkState number calls).edges source)[x]? =
        (targets calls source x).getLast?) ∧
      ((after networkState number calls).edges source).size = (symbols calls source).card := by
  induction calls using List.reverseRecOn with
  | nil => exact ⟨fun x => Std.TreeMap.getElem?_emptyc, rfl⟩
  | append_singleton calls call ih =>
      obtain ⟨own, last⟩ := onOwnStates_concat.mp own
      obtain ⟨leads, size⟩ := ih own
      rw [after_concat]
      cases call with
      | setEdge n y target =>
          have bound : n < (after networkState number calls).states.size := by
            rw [(stores_after networkState number calls).size]
            exact last n (List.mem_singleton_self n)
          rw [exec, edges_setEdge bound]
          by_cases same : n = source
          · subst same
            rw [if_pos rfl]
            constructor
            · intro x
              rw [Std.TreeMap.getElem?_insert, targets_concat]
              by_cases at' : y = x
              · simp [at', target?]
              · simp [at', target?, leads]
            · rw [Std.TreeMap.size_insert, symbols_concat, size]
              have known : y ∈ (after networkState number calls).edges n ↔ y ∈ symbols calls n := by
                rw [mem_symbols_iff, ← leads, Std.TreeMap.mem_iff_isSome_getElem?]
              simp [symbol?, Finset.card_insert_eq_ite, known]
          · rw [if_neg same]
            constructor
            · intro x
              rw [leads, targets_concat]
              simp [target?, same]
            · rw [size, symbols_concat]
              simp [symbol?, same]
      | _ =>
          rw [edges_exec (by simp)]
          exact ⟨fun x => by rw [leads, targets_concat]; simp [target?],
            by rw [size, symbols_concat]; simp [symbol?]⟩

/-! ### Whole runs -/

/-- Places in a list without repetitions are numbers of its signatures. -/
theorem Stores.numbers (stores : dfa.Stores l) (nodup : l.Nodup) (n : Nat) :
    n < dfa.states.size ↔ ∃! signature, dfa.find? signature = some n := by
  have found_iff : ∀ signature, dfa.find? signature = some n ↔ l[n]? = some signature := by
    intro signature
    rw [stores.found]
    constructor
    · intro found
      split at found
      · next old =>
          cases found
          rw [List.getElem?_eq_getElem (List.idxOf_lt_length_of_mem old), List.getElem_idxOf]
      · cases found
    · intro at'
      obtain ⟨bound, rfl⟩ := List.getElem?_eq_some_iff.mp at'
      rw [if_pos (List.getElem_mem bound), nodup.idxOf_getElem]
  rw [stores.size]
  constructor
  · intro bound
    refine ⟨l[n], (found_iff _).mpr (List.getElem?_eq_getElem bound), fun other found => ?_⟩
    have at' := (found_iff other).mp found
    rw [List.getElem?_eq_getElem bound] at at'
    exact (Option.some.inj at').symm
  · rintro ⟨signature, found, -⟩
    exact (List.getElem?_eq_some_iff.mp ((found_iff _).mp found)).1

/-- How an automaton and the calls made on it belong together. -/
structure Records (dfa : PredictionDfa) (calls : List DfaCall) : Prop where
  /-- The states have the signatures inserted so far, each once. -/
  signatures : dfa.states.toList.map (·.signature) = inserted calls
  nodup : (inserted calls).Nodup
  /-- Each number below the count of states belongs to one signature, and no other number does. -/
  numbers : ∀ n, n < dfa.states.size ↔ ∃! signature, dfa.find? signature = some n
  /-- Adding gives the state of the first insertion, else a new one with the next number. -/
  add : ∀ signature, (dfa.add signature).1 =
    ((inserted calls).idxOf signature, !decide (signature ∈ inserted calls))
  /-- Exactly the inserted signatures are found, by the number of their state. -/
  found : ∀ signature, dfa.find? signature =
    if signature ∈ inserted calls then some ((inserted calls).idxOf signature) else none
  start : dfa.start = firstStart calls
  /-- Setting the start state answers with the one in effect. -/
  setStart : ∀ state, (dfa.setStartIfAbsent state).1 = (firstStart calls).or state
  /-- An edge leads where it was last set to. -/
  edge : ∀ source x, dfa.edge? source x = (targets calls source x).getLast?.join
  edgeCount : ∀ source, dfa.edgeCount source = (symbols calls source).card

/-- After calls on an automaton and its own states, all answers are those that the calls record,
and whatever is called later, states keep their numbers and signatures, and a start state stays. -/
theorem records_after (networkState : Option Nat) (number : Int) {calls : List DfaCall}
    (own : OnOwnStates calls) :
    (after networkState number calls).Records calls ∧
      ∀ later, inserted calls <+: inserted (calls ++ later) ∧
        (∀ signature n, (after networkState number calls).find? signature = some n →
          (after networkState number (calls ++ later)).find? signature = some n) ∧
        ∀ n, (after networkState number calls).start = some n →
          (after networkState number (calls ++ later)).start = some n := by
  have stores := stores_after networkState number
  have edges := edges_after networkState number own
  have nodup := nodup_inserted calls
  refine ⟨⟨(stores calls).signatures, nodup, (stores calls).numbers nodup, fun signature => ?_,
    (stores calls).found, start_after networkState number calls, fun state => ?_,
    fun source x => ?_, fun source => ?_⟩, fun later => ⟨inserted_grows calls later, ?_, ?_⟩⟩
  · exact ((stores calls).add signature).1
  · rw [setStartIfAbsent_fst, start_setStartIfAbsent, start_after]
  · rw [edge?_eq, (edges source).1]
  · rw [edgeCount_eq, (edges source).2]
  · intro signature n found
    obtain ⟨new, more⟩ := inserted_grows calls later
    rw [(stores calls).found, ite_eq_iff] at found
    obtain ⟨old, found⟩ | ⟨-, found⟩ := found
    · rw [(stores _).found, ← more, if_pos (List.mem_append_left new old),
        List.idxOf_append_of_mem old, found]
    · cases found
  · intro n started
    rw [start_after] at started ⊢
    rw [firstStart, List.findSome?_append, ← firstStart, started]
    rfl

/-- Two states, of which one is added twice; the start is set to nothing, then twice, and an edge
three times. -/
def twoStates : List DfaCall :=
  [.setStart none, .add [1, 2], .add [3], .add [1, 2], .setStart (some 1), .setEdge 0 7 (some 1),
    .setEdge 0 7 none, .setEdge 0 (-1) (some 1), .find [4], .setEdge 0 7 (some 0),
    .setStart (some 0), .mark 1 true 2]

theorem records_after_twoStates :
    OnOwnStates twoStates ∧
      ((after none 3 twoStates).add [3]).1 = (1, false) ∧
      ((after none 3 twoStates).add [4]).1 = (2, true) ∧
      (after none 3 twoStates).find? [4] = none ∧
      ((after none 3 twoStates).setStartIfAbsent (some 0)).1 = some 1 ∧
      (after none 3 twoStates).edge? 0 7 = some 0 ∧
      (after none 3 twoStates).edgeCount 0 = 2 ∧
      (after none 3 (twoStates ++ [.add [4], .setStart none])).find? [3] = some 1 := by
  have own : OnOwnStates twoStates := by decide +kernel
  obtain ⟨records, later⟩ := records_after none 3 own
  have third : (after none 3 twoStates).find? [3] = some 1 :=
    (records.found [3]).trans (by decide +kernel)
  exact ⟨own, (records.add [3]).trans (by decide +kernel),
    (records.add [4]).trans (by decide +kernel), (records.found [4]).trans (by decide +kernel),
    (records.setStart (some 0)).trans (by decide), (records.edge 0 7).trans (by decide),
    (records.edgeCount 0).trans (by decide), (later _).2.1 [3] 1 third⟩

end PredictionDfa

end GrammarNet
