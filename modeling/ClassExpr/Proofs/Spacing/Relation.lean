import ClassExpr.Text.Blank
import ClassExpr.Text.Run

set_option autoImplicit false

/-! Texts that differ in their white space only. Every white space character is replaced by one
space; at the end of a text there may be more or less of it, as a text is read to where something
that is no white space ends. What a reader does at a character that is no white space is the same in
both texts. -/

namespace ClassExpr.Text

def spaced (c : Char) : Char :=
  if isBlank c then ' ' else c

theorem spaced_blank {c : Char} (blank : isBlank c = true) : spaced c = ' ' :=
  if_pos blank

theorem spaced_solid {c : Char} (solid : isBlank c = false) : spaced c = c :=
  if_neg (by rw [solid]; decide)

theorem isBlank_spaced (c : Char) : isBlank (spaced c) = isBlank c := by
  cases blank : isBlank c with
  | true =>
      rw [spaced_blank blank]
      rfl
  | false => rw [spaced_solid blank, blank]

theorem accepts_spaced (accepts : Char → Bool) (refuses : ∀ c, isBlank c = true → accepts c = false)
    (c : Char) : accepts (spaced c) = accepts c := by
  cases blank : isBlank c with
  | true => rw [spaced_blank blank, refuses ' ' rfl, refuses c blank]
  | false => rw [spaced_solid blank]

theorem beq_of_blank {c d : Char} (solid : isBlank d = false) (blank : isBlank c = true) :
    (c == d) = false := by
  rw [beq_eq_false_iff_ne]
  rintro rfl
  rw [solid] at blank
  cases blank

theorem blank_of_spaces {cs : List Char} (spaces : ∀ c ∈ cs, c = ' ') :
    ∀ c ∈ cs, isBlank c = true := by
  intro c member
  rw [spaces c member]
  rfl

theorem spaced_beq {d : Char} (solid : isBlank d = false) (c : Char) : (spaced c == d) = (c == d) :=
  accepts_spaced (· == d) (fun _ => beq_of_blank solid) c

theorem map_spaced {cs : List Char} (solid : ∀ c ∈ cs, isBlank c = false) : cs.map spaced = cs := by
  induction cs with
  | nil => rfl
  | cons c cs ih =>
      rw [List.map_cons, spaced_solid (solid c List.mem_cons_self),
        ih fun d member => solid d (List.mem_cons_of_mem c member)]

/-- The second text is the first one with its white space replaced, but for how much there is of it
at the end. -/
inductive Spaced : List Char → List Char → Prop
  | ended {cs others : List Char} (blank : ∀ c ∈ cs, isBlank c = true)
      (spaces : ∀ c ∈ others, c = ' ') : Spaced cs others
  | cons (c : Char) {cs others : List Char} (later : Spaced cs others) :
      Spaced (c :: cs) (spaced c :: others)

namespace Spaced

variable {cs others : List Char}

theorem map (cs : List Char) : Spaced cs (cs.map spaced) := by
  induction cs with
  | nil => exact ended (by simp) (by simp)
  | cons c cs ih => exact cons c ih

theorem append (front : List Char) (later : Spaced cs others) :
    Spaced (front ++ cs) (front.map spaced ++ others) := by
  induction front with
  | nil => exact later
  | cons c front ih => exact cons c ih

theorem mem_of_mem (later : Spaced cs others) : ∀ c ∈ others, c = ' ' ∨ c ∈ cs := by
  induction later with
  | ended _ spaces => exact fun c member => Or.inl (spaces c member)
  | cons d _ ih =>
      intro c member
      rcases List.mem_cons.1 member with rfl | later
      · cases blank : isBlank d with
        | true => exact Or.inl (spaced_blank blank)
        | false => exact Or.inr (by rw [spaced_solid blank]; exact List.mem_cons_self)
      · exact (ih c later).imp_right (List.mem_cons_of_mem d)

theorem of_cons {c d : Char} (solid : isBlank c = false) (later : Spaced (c :: cs) (d :: others)) :
    Spaced cs others := by
  cases later with
  | ended blank _ =>
      have white := blank c List.mem_cons_self
      rw [solid] at white
      cases white
  | cons _ later => exact later

theorem spaces (later : Spaced cs others) (white : ∀ c ∈ cs, isBlank c = true) :
    ∀ c ∈ others, c = ' ' := by
  induction later with
  | ended _ spaces => exact spaces
  | cons c _ ih =>
      rw [List.forall_mem_cons] at white ⊢
      exact ⟨spaced_blank white.1, ih white.2⟩

theorem head?_any (later : Spaced cs others) (accepts : Char → Bool)
    (refuses : ∀ c, isBlank c = true → accepts c = false) :
    others.head?.any accepts = cs.head?.any accepts := by
  cases later with
  | ended blank spaces =>
      have none : ∀ {run : List Char}, (∀ c ∈ run, isBlank c = true) → run.head?.any accepts = false := by
        intro run blank
        cases run with
        | nil => rfl
        | cons c run => exact refuses c (blank c List.mem_cons_self)
      rw [none blank, none (blank_of_spaces spaces)]
  | cons c _ => exact accepts_spaced accepts refuses c

theorem head?_beq (later : Spaced cs others) {d : Char} (solid : isBlank d = false) :
    (others.head? == some d) = (cs.head? == some d) := by
  have same := later.head?_any (· == d) fun _ => beq_of_blank solid
  have any_eq : ∀ run : List Char, (run.head? == some d) = run.head?.any (· == d) := by
    intro run
    cases run <;> rfl
  rw [any_eq, any_eq, same]

theorem head?_all (later : Spaced cs others) :
    others.head?.all isBlank = cs.head?.all isBlank := by
  have same := later.head?_any (fun c => !isBlank c) (by simp)
  have all_eq : ∀ run : List Char, run.head?.all isBlank = !run.head?.any fun c => !isBlank c := by
    intro run
    cases run <;> simp
  rw [all_eq, all_eq, same]

theorem isPrefixOf (later : Spaced cs others) {run : List Char}
    (solid : ∀ c ∈ run, isBlank c = false) : run.isPrefixOf others = run.isPrefixOf cs := by
  induction run generalizing cs others with
  | nil => rfl
  | cons d run ih =>
      have first := solid d List.mem_cons_self
      cases later with
      | ended blank spaces =>
          have none : ∀ {text : List Char}, (∀ c ∈ text, isBlank c = true) →
              (d :: run).isPrefixOf text = false := by
            intro text blank
            cases text with
            | nil => rfl
            | cons c text =>
                have differs := beq_of_blank first (blank c List.mem_cons_self)
                rw [List.isPrefixOf, Bool.beq_comm, differs, Bool.false_and]
          rw [none blank, none (blank_of_spaces spaces)]
      | cons c later =>
          rw [List.isPrefixOf, List.isPrefixOf, Bool.beq_comm, spaced_beq first,
            Bool.beq_comm (a := d), ih later fun e member => solid e (List.mem_cons_of_mem d member)]

/-- The same front can be taken off both texts where it ends with no white space. -/
theorem exists_rest (front : List Char) (later : Spaced (front ++ cs) others)
    (solid : ∀ c ∈ front.getLast?, isBlank c = false) :
    ∃ rest, others = front.map spaced ++ rest ∧ Spaced cs rest := by
  induction front generalizing others with
  | nil => exact ⟨others, rfl, later⟩
  | cons c front ih =>
      cases later with
      | ended blank _ =>
          obtain ⟨last, isLast⟩ := Option.isSome_iff_exists.1 (by simp : (c :: front).getLast?.isSome)
          have white := blank last (List.mem_append_left _ (List.mem_of_getLast? isLast))
          rw [solid last isLast] at white
          cases white
      | cons _ later =>
          obtain ⟨rest, rfl, spaced⟩ := ih later (by
            intro d isLast
            cases front with
            | nil => cases isLast
            | cons e front => exact solid d (by rw [List.getLast?_cons_cons]; exact isLast))
          exact ⟨rest, rfl, spaced⟩

theorem splitRun (accepts : Char → List Char → Bool)
    (refuses : ∀ c cs, isBlank c = true → accepts c cs = false)
    (same : ∀ c {cs others}, Spaced cs others → accepts c others = accepts c cs)
    (later : Spaced cs others) :
    (splitRun accepts others).1 = (splitRun accepts cs).1 ∧
      Spaced (splitRun accepts cs).2 (splitRun accepts others).2 := by
  induction later with
  | @ended cs others blank spaces =>
      have none : ∀ {run : List Char}, (∀ c ∈ run, isBlank c = true) →
          Text.splitRun accepts run = ([], run) := by
        intro run blank
        cases run with
        | nil => rfl
        | cons c run =>
            rw [splitRun_cons, refuses c run (blank c List.mem_cons_self), if_neg Bool.false_ne_true]
      rw [none blank, none (blank_of_spaces spaces)]
      exact ⟨rfl, ended blank spaces⟩
  | @cons c cs others later ih =>
      rw [splitRun_cons, splitRun_cons]
      cases blank : isBlank c with
      | true =>
          rw [spaced_blank blank, refuses c cs blank, refuses ' ' others rfl,
            if_neg Bool.false_ne_true, if_neg Bool.false_ne_true]
          refine ⟨rfl, ?_⟩
          have kept := later.cons c
          rwa [spaced_blank blank] at kept
      | false =>
          rw [spaced_solid blank, same c later]
          split
          · exact ⟨congrArg (c :: ·) ih.1, ih.2⟩
          · refine ⟨rfl, ?_⟩
            have kept := later.cons c
            rwa [spaced_solid blank] at kept

end Spaced

/-- The same, but for how much white space there is at the start as well. -/
def Loose (cs others : List Char) : Prop :=
  ∃ front rest front' rest', cs = front ++ rest ∧ others = front' ++ rest' ∧
    (∀ c ∈ front, isBlank c = true) ∧ (∀ c ∈ front', isBlank c = true) ∧ Spaced rest rest'

namespace Loose

variable {cs others : List Char}

theorem of_spaced (later : Spaced cs others) : Loose cs others :=
  ⟨[], cs, [], others, rfl, rfl, by simp, by simp, later⟩

theorem append {front front' : List Char} (blank : ∀ c ∈ front, isBlank c = true)
    (blank' : ∀ c ∈ front', isBlank c = true) (later : Loose cs others) :
    Loose (front ++ cs) (front' ++ others) := by
  obtain ⟨more, rest, more', rest', rfl, rfl, white, white', spaced⟩ := later
  refine ⟨front ++ more, rest, front' ++ more', rest', (List.append_assoc ..).symm,
    (List.append_assoc ..).symm, ?_, ?_, spaced⟩
  · exact fun c member => (List.mem_append.1 member).elim (blank c) (white c)
  · exact fun c member => (List.mem_append.1 member).elim (blank' c) (white' c)

theorem of_append {front : List Char} (blank : ∀ c ∈ front, isBlank c = true)
    (later : Spaced (front ++ cs) others) : Loose cs others := by
  induction front generalizing others with
  | nil => exact of_spaced later
  | cons c front ih =>
      cases later with
      | ended white spaces =>
          refine of_spaced (Spaced.ended (fun d member => white d ?_) spaces)
          exact List.mem_append_right _ member
      | cons _ later =>
          have deeper := ih (fun d member => blank d (List.mem_cons_of_mem c member)) later
          have white : ∀ d ∈ [spaced c], isBlank d = true := by
            intro d member
            rw [List.mem_singleton.1 member, isBlank_spaced, blank c List.mem_cons_self]
          have none : ∀ d ∈ ([] : List Char), isBlank d = true := by simp
          exact append none white deeper

end Loose

end ClassExpr.Text
