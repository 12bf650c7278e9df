import ClassExpr.Text.Run
import ClassExpr.Token

set_option autoImplicit false

/-! Regular expressions with groups. The ways in which an expression matches the start of a text
come in the order in which they are preferred: the first part of an alternative before the second,
one repetition more before an end if the repetition is greedy, and after it if it is lazy. The
first of all ways is the match. -/

namespace ClassExpr

open Text

inductive Pattern (Group : Type) where
  | char (accepts : Char → Bool)
  | literal (cs : List Char)
  | seq (first second : Pattern Group)
  | either (first second : Pattern Group)
  | many (greedy : Bool) (repeated : Pattern Group)
  | group (name : Group) (inner : Pattern Group)

namespace Pattern

variable {Group : Type}

def optional (inner : Pattern Group) : Pattern Group :=
  either inner (literal [])

def atLeastOne (greedy : Bool) (repeated : Pattern Group) : Pattern Group :=
  seq repeated (many greedy repeated)

/-- One way to match the start of a text, with what each group has matched. -/
structure Run (Group : Type) where
  taken : List Char
  rest : List Char
  groups : List (Group × Token)
deriving Repr, DecidableEq

def Run.andThen (run later : Run Group) : Run Group :=
  ⟨run.taken ++ later.taken, later.rest, run.groups ++ later.groups⟩

/-- The ways to repeat what `inner` matches, at most `turns` times. A turn that takes nothing is
none. -/
def repeats (greedy : Bool) (inner : Nat → List Char → List (Run Group)) :
    Nat → Nat → List Char → List (Run Group)
  | 0, _, cs => [⟨[], cs, []⟩]
  | turns + 1, offset, cs =>
      let more := ((inner offset cs).filter fun run => !run.taken.isEmpty).flatMap fun run =>
        (repeats greedy inner turns (offset + byteLength run.taken) run.rest).map run.andThen
      if greedy then more ++ [⟨[], cs, []⟩] else ⟨[], cs, []⟩ :: more

def runs : Pattern Group → Nat → List Char → List (Run Group)
  | char _, _, [] => []
  | char accepts, _, c :: cs => if accepts c then [⟨[c], cs, []⟩] else []
  | literal word, _, cs =>
      if word.isPrefixOf cs then [⟨word, cs.drop word.length, []⟩] else []
  | seq first second, offset, cs =>
      (runs first offset cs).flatMap fun run =>
        (runs second (offset + byteLength run.taken) run.rest).map run.andThen
  | either first second, offset, cs => runs first offset cs ++ runs second offset cs
  | many greedy repeated, offset, cs => repeats greedy (runs repeated) cs.length offset cs
  | group name inner, offset, cs =>
      (runs inner offset cs).map fun run =>
        { run with groups := (name, .ofChars offset run.taken) :: run.groups }

def first? (pattern : Pattern Group) (offset : Nat) (cs : List Char) : Option (Run Group) :=
  (runs pattern offset cs).head?

variable {p q : Pattern Group} {offset : Nat} {cs : List Char}

theorem runs_char_cons (accepts : Char → Bool) (c : Char) :
    runs (char accepts : Pattern Group) offset (c :: cs) =
      if accepts c then [⟨[c], cs, []⟩] else [] := rfl

theorem runs_literal (word : List Char) :
    runs (literal word : Pattern Group) offset cs =
      if word.isPrefixOf cs then [⟨word, cs.drop word.length, []⟩] else [] := rfl

theorem runs_seq :
    runs (seq p q) offset cs = (runs p offset cs).flatMap fun run =>
      (runs q (offset + byteLength run.taken) run.rest).map run.andThen := rfl

theorem runs_either :
    runs (either p q) offset cs = runs p offset cs ++ runs q offset cs := rfl

theorem runs_group (name : Group) :
    runs (group name p) offset cs = (runs p offset cs).map fun run =>
      { run with groups := (name, .ofChars offset run.taken) :: run.groups } := rfl

theorem head?_runs : (runs p offset cs).head? = first? p offset cs := rfl

theorem runs_eq_nil_iff : runs p offset cs = [] ↔ first? p offset cs = none :=
  List.head?_eq_none_iff.symm

theorem first?_either :
    first? (either p q) offset cs = (first? p offset cs).or (first? q offset cs) := by
  rw [← head?_runs, runs_either, List.head?_append]
  rfl

theorem first?_group (name : Group) :
    first? (group name p) offset cs = (first? p offset cs).map fun run =>
      { run with groups := (name, .ofChars offset run.taken) :: run.groups } := by
  rw [← head?_runs, runs_group, List.head?_map]
  rfl

theorem first?_literal (word : List Char) :
    first? (literal word : Pattern Group) offset cs =
      if word.isPrefixOf cs then some ⟨word, cs.drop word.length, []⟩ else none := by
  rw [← head?_runs, runs_literal]
  split <;> rfl

theorem first?_singleton (c : Char) (offset : Nat) (cs : List Char) :
    first? (literal [c] : Pattern Group) offset cs =
      if cs.head? == some c then some ⟨[c], cs.tail, []⟩ else none := by
  rw [first?_literal]
  cases cs with
  | nil => rfl
  | cons d cs =>
      by_cases same : d = c
      · subst same
        simp
      · simp [same, Ne.symm same]

/-- What follows is matched behind the first way, if it can be matched there or nowhere. -/
theorem first?_seq {run : Run Group} {others : List (Run Group)}
    (begins : runs p offset cs = run :: others)
    (settled : (first? q (offset + byteLength run.taken) run.rest).isSome = true ∨
      ∀ other ∈ others, first? q (offset + byteLength other.taken) other.rest = none) :
    first? (seq p q) offset cs =
      (first? q (offset + byteLength run.taken) run.rest).map run.andThen := by
  rw [← head?_runs, runs_seq, begins, List.flatMap_cons, List.head?_append, List.head?_map,
    head?_runs]
  cases here : first? q (offset + byteLength run.taken) run.rest with
  | some later => rfl
  | none =>
      rw [here] at settled
      have nowhere := settled.resolve_left (by simp)
      have failed : (others.flatMap fun run =>
          (runs q (offset + byteLength run.taken) run.rest).map run.andThen) = [] := by
        rw [List.flatMap_eq_nil_iff]
        intro other member
        rw [runs_eq_nil_iff.2 (nowhere other member), List.map_nil]
      rw [failed]
      rfl

theorem first?_seq_of_none (failed : first? p offset cs = none) :
    first? (seq p q) offset cs = none := by
  rw [← head?_runs, runs_seq, runs_eq_nil_iff.2 failed]
  rfl

theorem first?_group_seq {name : Group} {run : Run Group} {others : List (Run Group)}
    (begins : runs p offset cs = run :: others)
    (fails : ∀ other ∈ others, ∀ place, first? q place other.rest = none) :
    first? (seq (group name p) q) offset cs =
      (first? q (offset + byteLength run.taken) run.rest).map
        (Run.andThen { run with groups := (name, .ofChars offset run.taken) :: run.groups }) := by
  have grouped : runs (group name p) offset cs =
      { run with groups := (name, .ofChars offset run.taken) :: run.groups } ::
        others.map fun other =>
          { other with groups := (name, .ofChars offset other.taken) :: other.groups } := by
    rw [runs_group, begins, List.map_cons]
  rw [first?_seq grouped]
  refine Or.inr fun other member => ?_
  obtain ⟨bare, among, rfl⟩ := List.mem_map.1 member
  exact fails bare among _

theorem runs_seq_cons {run later : Run Group} {others laters : List (Run Group)}
    (begins : runs p offset cs = run :: others)
    (follows : runs q (offset + byteLength run.taken) run.rest = later :: laters) :
    runs (seq p q) offset cs =
      run.andThen later :: (laters.map run.andThen ++ others.flatMap fun other =>
        (runs q (offset + byteLength other.taken) other.rest).map other.andThen) := by
  rw [runs_seq, begins, List.flatMap_cons, follows, List.map_cons, List.cons_append]

/-- The first way behind which `q` matches, if `test` says whether it does. -/
theorem first?_seq_eq_find? {test : List Char → Bool}
    (tested : ∀ place rest, (first? q place rest).isSome = test rest) :
    first? (seq p q) offset cs =
      ((runs p offset cs).find? fun run => test run.rest).bind fun run =>
        (first? q (offset + byteLength run.taken) run.rest).map run.andThen := by
  rw [← head?_runs, runs_seq]
  induction runs p offset cs with
  | nil => rfl
  | cons run others ih =>
      rw [List.flatMap_cons, List.head?_append, List.head?_map, List.find?_cons, ih,
        ← tested (offset + byteLength run.taken) run.rest, head?_runs]
      cases here : first? q (offset + byteLength run.taken) run.rest with
      | none => rfl
      | some later =>
          rw [Option.isSome_some, Option.bind_some, here]
          rfl

theorem runs_optional_cons (c d : Char) (cs : List Char) :
    runs (optional (literal [c]) : Pattern Group) offset (d :: cs) =
      if d = c then [⟨[c], cs, []⟩, ⟨[], d :: cs, []⟩] else [⟨[], d :: cs, []⟩] := by
  by_cases same : d = c
  · subst same
    simp [optional, runs_either, runs_literal]
  · simp [optional, runs_either, runs_literal, same, Ne.symm same]

theorem runs_optional (c : Char) (offset : Nat) (cs : List Char) :
    ∃ others, runs (optional (literal [c]) : Pattern Group) offset cs =
        ⟨cs.take (cs.head? == some c).toNat, cs.drop (cs.head? == some c).toNat, []⟩ :: others ∧
      ∀ other ∈ others, other.rest.head? = some c := by
  cases cs with
  | nil => exact ⟨[], rfl, by simp⟩
  | cons d cs =>
      rw [runs_optional_cons]
      by_cases same : d = c
      · subst same
        exact ⟨[⟨[], d :: cs, []⟩], by simp, by simp⟩
      · exact ⟨[], by simp [same, beq_eq_false_iff_ne.2 same], by simp⟩

/-- What matches at most once at each place, where `split` takes it off again and again. -/
structure Cuts (p : Pattern Group) (split : List Char → List Char × List Char) : Prop where
  ends : ∀ offset cs, first? p offset cs = none → split cs = ([], cs)
  goes : ∀ offset cs run, first? p offset cs = some run →
    runs p offset cs = [run] ∧ run.taken ≠ [] ∧ run.groups = [] ∧ cs = run.taken ++ run.rest ∧
      split cs = (run.taken ++ (split run.rest).1, (split run.rest).2)

namespace Cuts

variable {split : List Char → List Char × List Char}

private theorem split_nil (cuts : Cuts p split) : split [] = ([], []) := by
  cases begins : first? p 0 [] with
  | none => exact cuts.ends 0 [] begins
  | some run =>
      obtain ⟨_, nonempty, _, whole, _⟩ := cuts.goes 0 [] run begins
      exact absurd (List.append_eq_nil_iff.1 whole.symm).1 nonempty

/-- The longest repetition comes first. What matches goes on behind every other one. -/
theorem repeats_eq (cuts : Cuts p split) {turns : Nat} (enough : cs.length ≤ turns) :
    ∃ others, repeats true (runs p) turns offset cs = ⟨(split cs).1, (split cs).2, []⟩ :: others ∧
      ∀ other ∈ others, ∃ place, (first? p place other.rest).isSome = true := by
  induction turns generalizing offset cs with
  | zero =>
      cases List.length_eq_zero_iff.1 (Nat.le_zero.1 enough)
      rw [cuts.split_nil]
      exact ⟨[], rfl, by simp⟩
  | succ turns ih =>
      cases begins : first? p offset cs with
      | none =>
          rw [cuts.ends offset cs begins, repeats, runs_eq_nil_iff.2 begins]
          exact ⟨[], rfl, by simp⟩
      | some run =>
          obtain ⟨single, nonempty, bare, whole, further⟩ := cuts.goes offset cs run begins
          have shorter : run.rest.length ≤ turns := by
            have positive := List.length_pos_iff.2 nonempty
            rw [whole, List.length_append] at enough
            omega
          obtain ⟨others, later, going⟩ := @ih (offset + byteLength run.taken) _ shorter
          refine ⟨others.map run.andThen ++ [⟨[], cs, []⟩], ?_, ?_⟩
          · rw [repeats, single, List.filter_cons_of_pos (by simpa using nonempty), List.filter_nil,
              List.flatMap_singleton, later, List.map_cons, further, Run.andThen, bare]
            rfl
          · intro other member
            rcases List.mem_append.1 member with behind | last
            · obtain ⟨tail, among, rfl⟩ := List.mem_map.1 behind
              exact going tail among
            · cases List.mem_singleton.1 last
              exact ⟨offset, by rw [begins]; rfl⟩

theorem runs_many (cuts : Cuts p split) (offset : Nat) (cs : List Char) :
    ∃ others, runs (many true p) offset cs = ⟨(split cs).1, (split cs).2, []⟩ :: others ∧
      ∀ other ∈ others, ∃ place, (first? p place other.rest).isSome = true :=
  cuts.repeats_eq (Nat.le_refl _)

theorem first?_many (cuts : Cuts p split) :
    first? (many true p) offset cs = some ⟨(split cs).1, (split cs).2, []⟩ := by
  obtain ⟨others, begins, _⟩ := cuts.runs_many offset cs
  rw [← head?_runs, begins]
  rfl

theorem first?_atLeastOne (cuts : Cuts p split) :
    first? (atLeastOne true p) offset cs =
      if (split cs).1.isEmpty then none else some ⟨(split cs).1, (split cs).2, []⟩ := by
  cases begins : first? p offset cs with
  | none =>
      rw [atLeastOne, first?_seq_of_none begins, cuts.ends offset cs begins]
      rfl
  | some run =>
      obtain ⟨single, nonempty, bare, _, further⟩ := cuts.goes offset cs run begins
      rw [atLeastOne, first?_seq single (Or.inr (by simp)), cuts.first?_many, further,
        if_neg (by simp [nonempty]), Option.map_some, Run.andThen, bare]
      rfl

end Cuts

theorem cuts_char (accepts : Char → Bool) :
    Cuts (char accepts : Pattern Group) (splitRun fun c _ => accepts c) where
  ends offset cs failed := by
    cases cs with
    | nil => rfl
    | cons c cs =>
        by_cases accepted : accepts c = true
        · simp [← head?_runs, runs_char_cons, accepted] at failed
        · rw [splitRun_cons, if_neg accepted]
  goes offset cs run begins := by
    cases cs with
    | nil => cases begins
    | cons c cs =>
        by_cases accepted : accepts c = true
        · rw [← head?_runs, runs_char_cons, if_pos accepted] at begins
          cases begins
          rw [runs_char_cons, if_pos accepted, splitRun_cons, if_pos accepted]
          exact ⟨rfl, by simp, rfl, rfl, rfl⟩
        · simp [← head?_runs, runs_char_cons, accepted] at begins

end Pattern

end ClassExpr
