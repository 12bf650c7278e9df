import ClassExpr.Report.Finding
import Mathlib.Data.List.Nodup

set_option autoImplicit false

/-! Reports as JSON. A field that is left out when it has its default is read as that default, so
what is written of a report reads as the same report; and however a report was written, writing it
again does not change what is read. Numbers are read up to 64 bits. -/

namespace ClassExpr

namespace Json

/-- Where no key is repeated a record has, for each field, the member of that name if there is one.
-/
theorem fields?_object {members : List (String × Json)} (names : List String)
    (distinct : (members.map (·.1)).Nodup) :
    (object members).fields? names = some (names.map fun name => members.lookup name) := by
  have single : ∀ name ∈ names, ¬1 < (members.filter (·.1 == name)).length := by
    intro name _
    have once := List.nodup_iff_count_le_one.1 distinct name
    rw [List.count, List.countP_map, List.countP_eq_length_filter] at once
    exact Nat.not_lt.2 once
  rw [fields?, if_neg (by simpa using single)]

private theorem natural?_natural_iff (value : Nat) :
    natural? (.natural value) = some value ↔ value < UInt64.size := by
  simp [natural?, Text.word?]

private theorem natural?_lt {value : Json} {number : Nat} (read : natural? value = some number) :
    number < UInt64.size := by
  cases value with
  | natural found =>
      rw [natural?, Text.word?] at read
      split at read
      next fits => cases read; exact fits
      next => cases read
  | _ => cases read

end Json

private theorem mapM_map_eq_some {α β : Type} {encode : α → β} {decode : β → Option α}
    {values : List α}
    (same : ∀ value ∈ values, decode (encode value) = some value) :
    (values.map encode).mapM decode = some values := by
  induction values with
  | nil => rfl
  | cons value rest ih =>
      rw [List.forall_mem_cons] at same
      simp [List.mapM_cons, same.1, ih same.2]

private theorem exists_of_mem_mapM {α β : Type} {decode : β → Option α} {values : List β}
    {read : List α}
    (found : values.mapM decode = some read) {value : α} (member : value ∈ read) :
    ∃ written ∈ values, decode written = some value := by
  induction values generalizing read with
  | nil => cases found; cases member
  | cons written rest ih =>
      simp only [List.mapM_cons, Option.bind_eq_bind, Option.bind_eq_some_iff, Option.pure_def,
        Option.some.injEq] at found
      obtain ⟨first, isFirst, later, isLater, rfl⟩ := found
      rcases List.mem_cons.1 member with rfl | behind
      · exact ⟨written, List.mem_cons_self, isFirst⟩
      · obtain ⟨other, isOther, same⟩ := ih isLater behind
        exact ⟨other, List.mem_cons_of_mem _ isOther, same⟩

namespace FindingKind

private theorem ofJson?_toJson (kind : FindingKind) : ofJson? kind.toJson = some kind := by
  cases kind <;> rfl

end FindingKind

namespace Finding

/-- The numbers of a finding have no more than 64 bits. -/
def Fits (finding : Finding) : Prop :=
  finding.line < UInt64.size ∧ finding.column < UInt64.size

private theorem fields?_toJson (finding : Finding) :
    finding.toJson.fields? fieldNames =
      some [some finding.kind.toJson, some (.string finding.node), some (.string finding.text),
        some (.natural finding.line), some (.natural finding.column),
        if finding.variants.isEmpty then none
          else some (.array (finding.variants.map .string)),
        some (.bool finding.important)] := by
  rw [toJson, Json.fields?_object]
  · cases finding.variants.isEmpty <;> simp [fieldNames, List.lookup_cons]
  · cases finding.variants.isEmpty <;> simp

private theorem field?_variants (variants : List String) :
    Json.field? Json.texts? []
      (if variants.isEmpty then none else some (.array (variants.map .string))) = some variants := by
  cases variants with
  | nil => rfl
  | cons first rest => exact mapM_map_eq_some fun _ _ => rfl

private theorem ofJson?_toJson {finding : Finding} (fits : finding.Fits) :
    ofJson? finding.toJson = some finding := by
  have line := (Json.natural?_natural_iff finding.line).2 fits.1
  have column := (Json.natural?_natural_iff finding.column).2 fits.2
  have important : Json.field? Json.bool? false (some (.bool finding.important)) =
      some finding.important := rfl
  rw [ofJson?, fields?_toJson]
  simp only [Option.bind_eq_bind, Option.bind_some, Option.pure_def, FindingKind.ofJson?_toJson,
    Json.text?, line, column, field?_variants, important]

private theorem fits_of_ofJson? {value : Json} {finding : Finding}
    (read : ofJson? value = some finding) :
    finding.Fits := by
  rw [ofJson?] at read
  obtain ⟨fields, _, read⟩ := Option.bind_eq_some_iff.1 read
  split at read
  next kind node text line column variants important =>
    simp only [Option.bind_eq_bind, Option.bind_eq_some_iff, Option.pure_def, Option.some.injEq]
      at read
    obtain ⟨_, _, _, _, _, _, _, _, _, _, _, _, lineValue, _, first, isFirst, columnValue, _, second,
      isSecond, _, _, _, _, rfl⟩ := read
    exact ⟨Json.natural?_lt isFirst, Json.natural?_lt isSecond⟩
  next => cases read

end Finding

namespace FileReport

def Fits (file : FileReport) : Prop :=
  file.items < UInt64.size ∧ ∀ finding ∈ file.findings, finding.Fits

private theorem ofJson?_toJson {file : FileReport} (fits : file.Fits) :
    ofJson? file.toJson = some file := by
  have items := (Json.natural?_natural_iff file.items).2 fits.1
  have findings := mapM_map_eq_some fun finding member =>
    Finding.ofJson?_toJson (fits.2 finding member)
  have fields : file.toJson.fields? fieldNames =
      some [some (.natural file.items), some (.array (file.findings.map Finding.toJson))] := by
    rw [toJson, Json.fields?_object _ (by simp)]
    simp [fieldNames, List.lookup_cons]
  rw [ofJson?, fields]
  simp [items, findings]

private theorem fits_of_ofJson? {value : Json} {file : FileReport}
    (read : ofJson? value = some file) :
    file.Fits := by
  rw [ofJson?] at read
  obtain ⟨fields, _, read⟩ := Option.bind_eq_some_iff.1 read
  split at read
  next items findings =>
    simp only [Option.bind_eq_bind, Option.bind_eq_some_iff] at read
    obtain ⟨_, _, number, isNumber, _, _, read⟩ := read
    split at read
    next elements =>
      simp only [Option.bind_eq_some_iff, Option.pure_def, Option.some.injEq] at read
      obtain ⟨found, isFound, rfl⟩ := read
      refine ⟨Json.natural?_lt isNumber, fun finding member => ?_⟩
      obtain ⟨written, _, same⟩ := exists_of_mem_mapM isFound member
      exact Finding.fits_of_ofJson? same
    next => cases read
  next => cases read

/-- A report that is written and read again is the same report, if its numbers are those of a
machine word; and so is every report that was read from any value at all. -/
theorem ofJson?_toJson_stable :
    (∀ file : FileReport, ofJson? file.toJson = some file ↔ file.Fits) ∧
      ∀ (value : Json) (file : FileReport), ofJson? value = some file →
        ofJson? file.toJson = some file :=
  ⟨fun _ => ⟨fits_of_ofJson?, ofJson?_toJson⟩, fun _ _ read => ofJson?_toJson (fits_of_ofJson? read)⟩

/-- Arrays in place of records and an object in place of a kind are read, though never written. -/
example :
    ofJson? (.array [.natural 2, .array [.array [.object [("notClosed", .null)], .string "Group",
      .string "(a", .natural 1, .natural 3]]]) =
        some ⟨2, [⟨.notClosed, "Group", "(a", 1, 3, [], false⟩]⟩ :=
  rfl

end FileReport

end ClassExpr
