import ClassExpr.Report.Check
import Mathlib.Algebra.GroupWithZero.Nat
import Mathlib.Data.List.Induction
import Mathlib.Data.List.Nodup

set_option autoImplicit false

/-! The books of a report. Whatever is added to it and whenever it is measured, it lists each path
once, in the order of the first additions and with the report that was added last; its totals are
those of the files it lists, and its statistics those of the files that it listed when it was last
measured. -/

namespace ClassExpr

/-- What statistics say of the files that they are taken of. -/
structure Statistics.Totals (statistics : Statistics) (files : List (String × FileReport)) :
    Prop where
  filesWithFindings :
    statistics.filesWithFindings = (files.filter fun entry => entry.2.findings ≠ []).length
  /-- The items of all files, as long as a machine word holds their number. -/
  items : (files.map (·.2.items)).sum < UInt64.size →
    statistics.items = (files.map (·.2.items)).sum
  kinds : statistics.counts.map (·.1) = FindingKind.all
  counts : ∀ kind count, (kind, count) ∈ statistics.counts →
    count = (files.flatMap (·.2.findings)).countP (·.kind == kind)
  sum : (statistics.counts.map (·.2)).sum = (files.map (·.2.findings.length)).sum

namespace CheckReport

inductive Step where
  | add (path : String) (file : FileReport)
  | measure (elapsed : Option Nat)

def apply (report : CheckReport) : Step → CheckReport
  | .add path file => report.add path file
  | .measure elapsed => report.measure elapsed

/-- The report after some steps, the first of which is done to an empty one. -/
def run (separator : String) (steps : List Step) : CheckReport :=
  steps.foldl apply { separator }

def Step.path? : Step → Option String
  | .add path _ => some path
  | .measure _ => none

def paths (steps : List Step) : List String :=
  (steps.filterMap Step.path?).eraseDups

/-- A file is what the last addition for a path adds. -/
def LastAdded (steps : List Step) (path : String) (file : FileReport) : Prop :=
  ∃ before after, steps = before ++ .add path file :: after ∧ ∀ other, .add path other ∉ after

/-! ### One path -/

section

variable {path other : String} {file found : FileReport} {files : List (String × FileReport)}

private theorem put_of_not_mem (absent : path ∉ files.map (·.1)) :
    put path file files = files ++ [(path, file)] := by
  induction files with
  | nil => rfl
  | cons entry rest ih =>
      rw [List.map_cons, List.mem_cons, not_or] at absent
      rw [put, if_neg (by simpa using Ne.symm absent.1), ih absent.2, List.cons_append]

private theorem map_put_of_mem (present : path ∈ files.map (·.1)) :
    (put path file files).map (·.1) = files.map (·.1) := by
  induction files with
  | nil => cases present
  | cons entry rest ih =>
      rw [put]
      split
      next same => rw [List.map_cons, List.map_cons, eq_of_beq same]
      next different =>
        have later : path ∈ rest.map (·.1) := by
          rw [List.map_cons, List.mem_cons] at present
          exact present.resolve_left fun same => different (by simp [same])
        rw [List.map_cons, List.map_cons, ih later]

private theorem mem_put_iff (distinct : (files.map (·.1)).Nodup) :
    (other, found) ∈ put path file files ↔
      other = path ∧ found = file ∨ other ≠ path ∧ (other, found) ∈ files := by
  induction files with
  | nil => simp [put]
  | cons entry rest ih =>
      obtain ⟨name, report⟩ := entry
      rw [List.map_cons, List.nodup_cons] at distinct
      rw [put]
      split
      next same =>
        obtain rfl : name = path := eq_of_beq same
        have apart : (other, found) ∈ rest → other ≠ name := by
          rintro member rfl
          exact distinct.1 (List.mem_map.2 ⟨_, member, rfl⟩)
        simp only [List.mem_cons, Prod.mk.injEq]
        constructor
        · rintro (replaced | later)
          · exact Or.inl replaced
          · exact Or.inr ⟨apart later, Or.inr later⟩
        · rintro (replaced | ⟨away, ⟨here, _⟩ | later⟩)
          · exact Or.inl replaced
          · exact absurd here away
          · exact Or.inr later
      next different =>
        have apart : name ≠ path := by simpa using different
        have moved := ih distinct.2
        simp only [List.mem_cons, Prod.mk.injEq, moved]
        constructor
        · rintro (⟨rfl, rfl⟩ | ⟨rfl, rfl⟩ | ⟨away, later⟩)
          · exact Or.inr ⟨apart, Or.inl ⟨rfl, rfl⟩⟩
          · exact Or.inl ⟨rfl, rfl⟩
          · exact Or.inr ⟨away, Or.inr later⟩
        · rintro (⟨rfl, rfl⟩ | ⟨away, ⟨rfl, rfl⟩ | later⟩)
          · exact Or.inr (Or.inl ⟨rfl, rfl⟩)
          · exact Or.inl ⟨rfl, rfl⟩
          · exact Or.inr (Or.inr ⟨away, later⟩)

end

/-! ### Sums over all files -/

private theorem total_eq_sum (number : FileReport → Nat) (files : List (String × FileReport)) :
    total number files = (files.map fun entry => number entry.2).sum := by
  have added (start : Nat) : files.foldl (fun sum entry => sum + number entry.2) start =
      start + (files.map fun entry => number entry.2).sum := by
    induction files generalizing start with
    | nil => rfl
    | cons entry rest ih =>
        rw [List.foldl_cons, ih, List.map_cons, List.sum_cons, Nat.add_assoc]
  exact (added 0).trans (Nat.zero_add _)

/-! ### One step more -/

section

variable {separator path : String} {file : FileReport} {steps : List Step} {step : Step}
  {report : CheckReport}

private theorem run_concat (separator : String) (steps : List Step) (step : Step) :
    run separator (steps ++ [step]) = (run separator steps).apply step := by
  rw [run, List.foldl_append, run]
  rfl

private theorem lastAdded_concat_iff :
    LastAdded (steps ++ [step]) path file ↔
      step = .add path file ∨ (∀ other, step ≠ .add path other) ∧ LastAdded steps path file := by
  constructor
  · rintro ⟨before, after, whole, last⟩
    rcases List.eq_nil_or_concat after with rfl | ⟨between, final, rfl⟩
    · exact Or.inl (List.append_inj_right' whole rfl |> List.singleton_inj.1)
    · rw [List.concat_eq_append, ← List.cons_append, ← List.append_assoc] at whole
      obtain ⟨rfl, same⟩ := List.append_inj' whole rfl
      obtain rfl := List.singleton_inj.1 same
      refine Or.inr ⟨fun other same => last other (by simp [same]), before, between, rfl, ?_⟩
      exact fun other member => last other (by simp [member])
  · rintro (rfl | ⟨away, before, after, rfl, last⟩)
    · exact ⟨steps, [], rfl, by simp⟩
    · refine ⟨before, after ++ [step], by simp, fun other member => ?_⟩
      rcases List.mem_append.1 member with earlier | final
      · exact last other earlier
      · exact away other (List.mem_singleton.1 final).symm

private theorem paths_concat_measure (steps : List Step) (elapsed : Option Nat) :
    paths (steps ++ [.measure elapsed]) = paths steps := by
  have added : [Step.measure elapsed].filterMap Step.path? = [] := rfl
  rw [paths, List.filterMap_append, added, List.append_nil, paths]

private theorem paths_concat_add (steps : List Step) (path : String) (file : FileReport) :
    paths (steps ++ [.add path file]) =
      if path ∈ paths steps then paths steps else paths steps ++ [path] := by
  have added : [Step.add path file].filterMap Step.path? = [path] := rfl
  rw [paths, List.filterMap_append, added, List.eraseDups_append, List.cons_removeAll]
  simp only [paths, List.mem_eraseDups, List.contains_eq_mem, decide_eq_false_iff_not]
  by_cases present : path ∈ steps.filterMap Step.path?
  · rw [if_neg (not_not.2 present), if_pos present, List.nil_removeAll, List.eraseDups_nil,
      List.append_nil]
  · rw [if_pos present, if_neg present, List.nil_removeAll]
    rfl

private theorem nodup_paths (steps : List Step) : (paths steps).Nodup := by
  induction steps using List.reverseRecOn with
  | nil => exact List.nodup_nil
  | append_singleton steps step ih =>
      cases step with
      | measure elapsed => rwa [paths_concat_measure]
      | add path file =>
          rw [paths_concat_add]
          split
          · exact ih
          next absent => exact List.concat_eq_append ▸ ih.concat absent

end

/-! ### The files and their totals -/

/-- What the files and the totals of a report are after some steps. -/
structure Keeps (report : CheckReport) (steps : List Step) : Prop where
  order : report.files.map (·.1) = paths steps
  latest : ∀ path file, (path, file) ∈ report.files ↔ LastAdded steps path file
  checked : report.filesChecked = report.files.length
  total : report.findingCount = (report.files.map (·.2.findings.length)).sum

private theorem keeps_empty (separator : String) : Keeps { separator } [] where
  order := rfl
  latest path file := by simp [LastAdded]
  checked := rfl
  total := rfl

theorem Keeps.apply {report : CheckReport} {steps : List Step} (keeps : Keeps report steps)
    (step : Step) : Keeps (report.apply step) (steps ++ [step]) := by
  obtain ⟨order, latest, checked, total⟩ := keeps
  cases step with
  | measure elapsed =>
      refine ⟨by rw [paths_concat_measure]; exact order, fun path file => ?_, checked, total⟩
      rw [lastAdded_concat_iff]
      exact (latest path file).trans (by simp)
  | add path file =>
      refine ⟨?_, fun other found => ?_, rfl, total_eq_sum (·.findings.length) _⟩
      · rw [paths_concat_add, ← order]
        split
        next present => exact map_put_of_mem present
        next absent => exact (congrArg _ (put_of_not_mem absent)).trans (by simp)
      · -- No path is listed twice, so the replaced report is not found behind the new one.
        have distinct : (report.files.map (·.1)).Nodup := order ▸ nodup_paths steps
        have same : Step.add path file = .add other found ↔ other = path ∧ found = file := by
          rw [Step.add.injEq, eq_comm, @eq_comm _ file]
        have away : (∀ later, Step.add path file ≠ .add other later) ↔ other ≠ path := by
          constructor
          · rintro apart rfl
            exact apart file rfl
          · intro apart later equal
            exact apart (Step.add.inj equal).1.symm
        rw [lastAdded_concat_iff, same, away, ← latest]
        exact mem_put_iff distinct

/-- Whatever is done to an empty report, its files and totals are those of the additions. -/
theorem keeps_run (separator : String) (steps : List Step) :
    Keeps (run separator steps) steps := by
  -- By the last step: only the report that all steps lead to is described, none on the way.
  induction steps using List.reverseRecOn with
  | nil => exact keeps_empty separator
  | append_singleton steps step ih =>
      rw [run_concat]
      exact ih.apply step

private theorem separator_run (separator : String) (steps : List Step) :
    (run separator steps).separator = separator := by
  induction steps using List.reverseRecOn with
  | nil => rfl
  | append_singleton steps step ih =>
      rw [run_concat]
      cases step <;> exact ih

private theorem hasFindings_iff {report : CheckReport}
    (total : report.findingCount = (report.files.map (·.2.findings.length)).sum) :
    report.hasFindings = true ↔ ∃ entry, entry ∈ report.files ∧ entry.2.findings ≠ [] := by
  simp only [hasFindings, decide_eq_true_iff, total, List.sum_pos_iff_exists_pos_nat, List.mem_map,
    exists_exists_and_eq_and, List.length_pos_iff]

/-! ### Statistics -/

def countsOf (number : FindingKind → Nat) : List (FindingKind × Nat) :=
  FindingKind.all.map fun kind => (kind, number kind)

private theorem tally_countsOf (kind : FindingKind) (number : FindingKind → Nat) :
    tally kind (countsOf number) =
      countsOf fun other => number other + if kind == other then 1 else 0 := by
  cases kind <;> rfl

private theorem foldl_tally (findings : List Finding) (number : FindingKind → Nat) :
    findings.foldl (fun counts finding => tally finding.kind counts) (countsOf number) =
      countsOf fun kind => number kind + findings.countP (·.kind == kind) := by
  induction findings generalizing number with
  | nil => rfl
  | cons finding rest ih =>
      rw [List.foldl_cons, tally_countsOf, ih]
      congr 1
      funext kind
      rw [List.countP_cons]
      omega

private theorem sum_countsOf (findings : List Finding) :
    ((countsOf fun kind => findings.countP (·.kind == kind)).map (·.2)).sum = findings.length := by
  induction findings with
  | nil => rfl
  | cons finding rest ih =>
      rw [List.length_cons, ← ih]
      simp only [countsOf, FindingKind.all, List.map_cons, List.map_nil, List.sum_cons, List.sum_nil,
        List.countP_cons]
      cases finding.kind <;> simp <;> omega

private theorem totals_measure (report : CheckReport) (elapsed : Option Nat) :
    ∃ statistics, (report.measure elapsed).statistics = some statistics ∧
      statistics.elapsed = elapsed ∧ statistics.Totals report.files := by
  have counted := foldl_tally report.findings fun _ => 0
  simp only [Nat.zero_add] at counted
  refine ⟨_, rfl, rfl, ?_, fun fits => ?_, ?_, ?_, ?_⟩
  · simp only [List.countP_eq_length_filter]
    congr 2
    funext entry
    cases entry.2.findings <;> rfl
  · rw [total_eq_sum]
    exact Nat.mod_eq_of_lt fits
  · exact (congrArg (List.map (·.1)) counted).trans rfl
  · intro kind count member
    obtain ⟨other, _, same⟩ := List.mem_map.1 (counted ▸ member)
    cases same
    rfl
  · refine (congrArg (fun counts => (counts.map (·.2)).sum) counted).trans ?_
    rw [sum_countsOf, findings, List.length_flatMap]

private theorem statistics_foldl_apply (report : CheckReport) {steps : List Step}
    (unmeasured : ∀ elapsed, .measure elapsed ∉ steps) :
    (steps.foldl apply report).statistics = report.statistics := by
  induction steps generalizing report with
  | nil => rfl
  | cons step rest ih =>
      rw [List.foldl_cons, ih _ fun elapsed member => unmeasured elapsed (List.mem_cons_of_mem _ member)]
      cases step with
      | add path file => rfl
      | measure elapsed => exact absurd List.mem_cons_self (unmeasured elapsed)

/-- A report lists each path that is added once, in the order of the first additions and with the
file that was added last. It has as many files as there are paths and as many findings as these
files have, so it has findings if the last file of some path does. It has no statistics before it is
measured, and from then on those of the files that it listed when it was last measured. -/
theorem run_totals (separator : String) (steps : List Step) :
    let report := run separator steps
    report.separator = separator ∧ report.files.map (·.1) = paths steps ∧ (paths steps).Nodup ∧
      (∀ path file, (path, file) ∈ report.files ↔ LastAdded steps path file) ∧
      report.filesChecked = (paths steps).length ∧
      report.findingCount = (report.files.map (·.2.findings.length)).sum ∧
      (report.hasFindings = true ↔ ∃ path file, LastAdded steps path file ∧ file.findings ≠ []) ∧
      ((∀ elapsed, .measure elapsed ∉ steps) → report.statistics = none) ∧
      ∀ before elapsed after, steps = before ++ .measure elapsed :: after →
        (∀ later, .measure later ∉ after) →
        let measured := run separator before
        ∃ statistics, report.statistics = some statistics ∧ statistics.elapsed = elapsed ∧
          statistics.Totals measured.files ∧
          (statistics.counts.map (·.2)).sum = measured.findingCount := by
  intro report
  obtain ⟨order, latest, checked, total⟩ := keeps_run separator steps
  refine ⟨separator_run separator steps, order, nodup_paths steps, latest, ?_, total, ?_, ?_, ?_⟩
  · rw [checked, ← order, List.length_map]
  · rw [hasFindings_iff total, Prod.exists]
    simp only [latest]
  · exact statistics_foldl_apply _
  · rintro before elapsed after rfl unmeasured measured
    obtain ⟨statistics, taken, lasted, totals⟩ := totals_measure measured elapsed
    refine ⟨statistics, ?_, lasted, totals, ?_⟩
    · rw [← taken, show report = after.foldl apply (measured.measure elapsed) from
        List.foldl_append]
      exact statistics_foldl_apply _ unmeasured
    · exact totals.sum.trans (keeps_run separator before).total.symm

/-- A report over a list of files is one that is measured behind all of its additions. -/
theorem build_eq_run (separator : String) (files : List (String × FileReport))
    (elapsed : Option Nat) :
    build separator files elapsed =
      run separator (files.map (fun (path, file) => .add path file) ++ [.measure elapsed]) := by
  rw [run_concat, run, List.foldl_map]
  rfl

end CheckReport

end ClassExpr
