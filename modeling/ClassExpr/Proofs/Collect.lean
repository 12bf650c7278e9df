import ClassExpr.Check.Run
import Mathlib.Data.List.Induction
import Mathlib.Data.List.Nodup

set_option autoImplicit false

/-! Collecting loses no file and lists none twice. The loops over patterns and over what a search
finds are one loop over all that is found, and what this loop keeps is said of what it has gone
through: each way that leads to a wanted file is listed where it is found first. The first failure
ends the loops, whichever of them it comes up in. -/

namespace ClassExpr.Check

variable {E T : Type}

/-! ### What is to be listed -/

/-- What the searches give, one after the other. A failed search gives its failure. -/
def outcomes (search : String → Except E (List (Except E String))) (patterns : List String) :
    List (Except E String) :=
  patterns.flatMap fun pattern =>
    match search pattern with
    | .ok entries => entries
    | .error cause => [.error cause]

/-- All results in front of a failure are good. -/
def FirstFailure (results : List (Except E T)) (cause : E) : Prop :=
  ∃ (values : List T) (rest : List (Except E T)), results = values.map .ok ++ .error cause :: rest

section

variable (look : Look) (excluded : String → Bool)

/-- A path is to be checked if it is not excluded, no directory and not too large. -/
def isWanted (path : String) : Bool :=
  !excluded path && !isDirectory look path && sizeOf look path ≤ greatestSize

/-- Another path is to be checked and leads the same way. -/
def standsFor (path other : String) : Bool :=
  isWanted look excluded other && Path.key other == Path.key path

/-- The files of those paths among the found ones that are to be checked. -/
structure Lists (found : List String) (files : List (String × Nat)) : Prop where
  /-- A path is listed, with its size, if it is the first of those that are to be checked and lead
  the same way. -/
  mem_iff : ∀ path size, (path, size) ∈ files ↔
    found.find? (standsFor look excluded path) = some path ∧ size = sizeOf look path
  /-- No path that is to be checked is lost. -/
  complete : ∀ path ∈ found, isWanted look excluded path = true →
    ∃ file ∈ files, Path.key file.1 = Path.key path
  /-- No file is listed twice. -/
  once : (files.map fun file => Path.key file.1).Nodup
  /-- Files are in the order of the first paths that lead to them. -/
  ordered : files.Pairwise fun left right =>
    found.findIdx (standsFor look excluded left.1) < found.findIdx (standsFor look excluded right.1)

end

/-! ### One path -/

section

variable {look : Look} {excluded : String → Bool} {found : List String}
  {files : List (String × Nat)} {path : String}

private theorem standsFor_iff {other : String} :
    standsFor look excluded path other = true ↔
      isWanted look excluded other = true ∧ Path.key other = Path.key path := by
  rw [standsFor, Bool.and_eq_true_iff, beq_iff_eq]

/-- The first path that stands for another one is an earlier one, or the last one if there is none
before it. -/
theorem find?_concat {other : String} {test : String → Bool} :
    (found ++ [path]).find? test = some other ↔
      found.find? test = some other ∨ found.find? test = none ∧ test path = true ∧ path = other := by
  rw [List.find?_append]
  cases found.find? test with
  | some earlier => simp
  | none => simp [List.find?_singleton]

private theorem lists_nil : Lists look excluded [] [] where
  mem_iff path size := by simp
  complete path member := by cases member
  once := List.nodup_nil
  ordered := List.Pairwise.nil

theorem Lists.isFound (lists : Lists look excluded found files) {file : String × Nat}
    (member : file ∈ files) : file.1 ∈ found ∧ isWanted look excluded file.1 = true := by
  have first := ((lists.mem_iff file.1 file.2).1 member).1
  exact ⟨List.mem_of_find?_eq_some first, (standsFor_iff.1 (List.find?_some first)).1⟩

private theorem Lists.findIdx_lt (lists : Lists look excluded found files) {file : String × Nat}
    (member : file ∈ files) :
    found.findIdx (standsFor look excluded file.1) < found.length := by
  obtain ⟨isFound, wanted⟩ := lists.isFound member
  exact List.findIdx_lt_length_of_exists ⟨file.1, isFound, standsFor_iff.2 ⟨wanted, rfl⟩⟩

private theorem Lists.ordered_concat (lists : Lists look excluded found files) (path : String) :
    files.Pairwise fun left right =>
      (found ++ [path]).findIdx (standsFor look excluded left.1) <
        (found ++ [path]).findIdx (standsFor look excluded right.1) := by
  refine lists.ordered.imp_of_mem fun {left right} isLeft isRight before => ?_
  rw [List.findIdx_append, List.findIdx_append, if_pos (lists.findIdx_lt isLeft),
    if_pos (lists.findIdx_lt isRight)]
  exact before

theorem Lists.pass (lists : Lists look excluded found files)
    (passed : isWanted look excluded path = true →
      ∃ file ∈ files, Path.key file.1 = Path.key path) :
    Lists look excluded (found ++ [path]) files where
  mem_iff other size := by
    have unlisted : ¬(found.find? (standsFor look excluded other) = none ∧
        standsFor look excluded other path = true ∧ path = other) := by
      rintro ⟨first, stands, rfl⟩
      obtain ⟨file, member, same⟩ := passed (standsFor_iff.1 stands).1
      obtain ⟨isFound, wanted⟩ := lists.isFound member
      exact List.find?_eq_none.1 first file.1 isFound (standsFor_iff.2 ⟨wanted, same⟩)
    rw [lists.mem_iff, find?_concat, or_iff_left unlisted]
  complete other member wanted := by
    rcases List.mem_append.1 member with earlier | last
    · exact lists.complete other earlier wanted
    · obtain rfl := List.mem_singleton.1 last
      exact passed wanted
  once := lists.once
  ordered := lists.ordered_concat path

theorem Lists.add (lists : Lists look excluded found files)
    (wanted : isWanted look excluded path = true)
    (new : ∀ file ∈ files, Path.key file.1 ≠ Path.key path) :
    Lists look excluded (found ++ [path]) (files ++ [(path, sizeOf look path)]) := by
  have unfound : ∀ other ∈ found, ¬standsFor look excluded path other = true := by
    intro other isFound stands
    obtain ⟨otherWanted, same⟩ := standsFor_iff.1 stands
    obtain ⟨file, member, reached⟩ := lists.complete other isFound otherWanted
    exact new file member (reached.trans same)
  have stands : standsFor look excluded path path = true := standsFor_iff.2 ⟨wanted, rfl⟩
  refine ⟨fun other size => ?_, fun other member otherWanted => ?_, ?_, ?_⟩
  · rw [List.mem_append, lists.mem_iff, find?_concat, List.mem_singleton, Prod.mk.injEq, or_and_right]
    refine or_congr_right ⟨?_, ?_⟩
    · rintro ⟨rfl, rfl⟩
      exact ⟨⟨List.find?_eq_none.2 unfound, stands, rfl⟩, rfl⟩
    · rintro ⟨⟨_, _, rfl⟩, rfl⟩
      exact ⟨rfl, rfl⟩
  · rcases List.mem_append.1 member with earlier | last
    · obtain ⟨file, listed, reached⟩ := lists.complete other earlier otherWanted
      exact ⟨file, List.mem_append_left _ listed, reached⟩
    · obtain rfl := List.mem_singleton.1 last
      exact ⟨_, List.mem_append_right _ List.mem_cons_self, rfl⟩
  · rw [List.map_append, List.map_singleton, ← List.concat_eq_append]
    refine List.Nodup.concat ?_ lists.once
    intro isListed
    obtain ⟨file, member, same⟩ := List.mem_map.1 isListed
    exact new file member same
  · rw [List.pairwise_append]
    refine ⟨lists.ordered_concat path, List.pairwise_singleton _ _, ?_⟩
    intro file member last isLast
    obtain rfl := List.mem_singleton.1 isLast
    have before := lists.findIdx_lt member
    have behind : found.findIdx (standsFor look excluded path) = found.length :=
      List.findIdx_eq_length.2 fun other isFound => Bool.eq_false_iff.2 (unfound other isFound)
    rw [List.findIdx_append, List.findIdx_append, if_pos before, behind,
      if_neg (Nat.lt_irrefl _)]
    omega

/-! ### The loop over what is found -/

/-- What a listing says of all that has been gone through. -/
structure Listing.Covers (look : Look) (excluded : String → Bool) (found : List String)
    (listing : Listing) : Prop where
  lists : Lists look excluded found listing.files.reverse
  seen : listing.seen = listing.files.map fun file => Path.key file.1

private theorem Listing.visit_eq (listing : Listing) (path : String) :
    listing.visit look excluded path =
      if isWanted look excluded path && !listing.seen.contains (Path.key path) then
        ⟨(path, sizeOf look path) :: listing.files, Path.key path :: listing.seen⟩
      else listing := by
  unfold Listing.visit isWanted
  cases excluded path with
  | true => simp
  | false =>
      cases isDirectory look path with
      | true => simp
      | false =>
          by_cases large : greatestSize < sizeOf look path
          · simp [large, Nat.not_le.2 large]
          · cases listing.seen.contains (Path.key path) <;> simp [large, Nat.not_lt.1 large]

theorem Listing.Covers.visit {listing : Listing} (covers : listing.Covers look excluded found)
    (path : String) : (listing.visit look excluded path).Covers look excluded (found ++ [path]) := by
  have seen_iff : listing.seen.contains (Path.key path) = true ↔
      ∃ file ∈ listing.files.reverse, Path.key file.1 = Path.key path := by
    simp [covers.seen]
  rw [Listing.visit_eq]
  split
  next adds =>
    obtain ⟨wanted, isNew⟩ := Bool.and_eq_true_iff.1 adds
    have new : ∀ file ∈ listing.files.reverse, Path.key file.1 ≠ Path.key path := by
      intro file member same
      rw [seen_iff.2 ⟨file, member, same⟩] at isNew
      cases isNew
    refine ⟨?_, by rw [covers.seen, List.map_cons]⟩
    rw [List.reverse_cons]
    exact covers.lists.add wanted new
  next passes =>
    refine ⟨covers.lists.pass fun wanted => seen_iff.1 ?_, covers.seen⟩
    simpa [wanted] using passes

private theorem covers_foldl (found : List String) :
    (found.foldl (Listing.visit look excluded) {}).Covers look excluded found := by
  -- from the end, since a listing is about what has been gone through
  induction found using List.reverseRecOn with
  | nil => exact ⟨lists_nil, rfl⟩
  | append_singleton found path ih =>
      rw [List.foldl_append, List.foldl_cons, List.foldl_nil]
      exact ih.visit path

end

/-! ### Failures -/

section

variable {look : Look} {excluded : String → Bool} {cause : E}

theorem FirstFailure.cons {results : List (Except E T)} {first : Except E T}
    (failure : FirstFailure (first :: results) cause) :
    first = .error cause ∨ ∃ value, first = .ok value ∧ FirstFailure results cause := by
  obtain ⟨values, rest, same⟩ := failure
  cases values with
  | nil => exact Or.inl (List.cons.inj same).1
  | cons value values =>
      obtain ⟨isValue, later⟩ := List.cons.inj same
      exact Or.inr ⟨value, isValue, values, rest, later⟩

private theorem not_firstFailure_nil : ¬FirstFailure ([] : List (Except E T)) cause := by
  rintro ⟨values, rest, same⟩
  simp at same

private theorem mapM_of_firstFailure {A : Type} {f : A → Except E T} {items : List A}
    (failure : FirstFailure (items.map f) cause) : items.mapM f = .error cause := by
  induction items with
  | nil => exact absurd failure not_firstFailure_nil
  | cons item items ih =>
      rw [List.mapM_cons]
      rcases failure.cons with failed | ⟨value, found, later⟩
      · rw [failed]
        rfl
      · rw [found, ih later]
        rfl

private theorem mapM_of_map_eq {A : Type} {f : A → Except E T} {items : List A} {values : List T}
    (found : items.map f = values.map .ok) : items.mapM f = .ok values := by
  induction items generalizing values with
  | nil =>
      rw [List.map_eq_nil_iff.1 found.symm]
      rfl
  | cons item items ih =>
      cases values with
      | nil => cases found
      | cons value values =>
          obtain ⟨first, later⟩ := List.cons.inj found
          rw [List.mapM_cons, first, ih later]
          rfl

private theorem Listing.visitAll_of_firstFailure {entries : List (Except E String)}
    (failure : FirstFailure entries cause) (listing : Listing) :
    listing.visitAll look excluded entries = .error cause := by
  induction entries generalizing listing with
  | nil => exact absurd failure not_firstFailure_nil
  | cons entry entries ih =>
      rw [visitAll, List.foldlM_cons]
      rcases failure.cons with failed | ⟨path, found, later⟩
      · rw [failed]
        rfl
      · rw [found]
        exact ih later (listing.visit look excluded path)

private theorem Listing.visitAll_map_ok (listing : Listing) (found : List String) :
    listing.visitAll look excluded (found.map (.ok : String → Except E String)) =
      .ok (found.foldl (visit look excluded) listing) := by
  induction found generalizing listing with
  | nil => rfl
  | cons path found ih => exact ih (listing.visit look excluded path)

/-- To search for one pattern after the other is to go through all that the searches give. -/
theorem foldlM_visitAll (search : String → Except E (List (Except E String)))
    (patterns : List String) (listing : Listing) :
    patterns.foldlM (fun listing pattern => do
        listing.visitAll look excluded (← search pattern)) listing =
      listing.visitAll look excluded (outcomes search patterns) := by
  induction patterns generalizing listing with
  | nil => rfl
  | cons pattern patterns ih =>
      rw [List.foldlM_cons, outcomes, List.flatMap_cons, Listing.visitAll, List.foldlM_append]
      cases search pattern with
      | error cause => rfl
      | ok entries =>
          refine congrArg (listing.visitAll look excluded entries >>= ·) ?_
          funext next
          exact ih next

/-- Once the exclude patterns are read, the files are those that all the searches give. -/
theorem collect_of_read {test? : String → Except E (String → Bool)} {excludes : List String}
    {tests : List (String → Bool)} (read : excludes.map test? = tests.map .ok)
    (search : String → Except E (List (Except E String))) (patterns : List String) :
    collect look test? search patterns excludes =
      (({} : Listing).visitAll look (fun path => tests.any (· path)) (outcomes search patterns)).map
        (·.files.reverse) := by
  rw [← foldlM_visitAll, collect, mapM_of_map_eq read]
  rfl

end

/-- A failure is reported if it is the first one, exclude patterns coming before input patterns; and
if nothing fails, the files are listed. -/
theorem collect_lists (look : Look) (test? : String → Except E (String → Bool))
    (search : String → Except E (List (Except E String))) (patterns excludes : List String) :
    (∀ cause, FirstFailure (excludes.map test?) cause →
      collect look test? search patterns excludes = .error cause) ∧
    ∀ tests : List (String → Bool), excludes.map test? = tests.map .ok →
      (∀ cause, FirstFailure (outcomes search patterns) cause →
        collect look test? search patterns excludes = .error cause) ∧
      ∀ found : List String, outcomes search patterns = found.map .ok →
        ∃ files, collect look test? search patterns excludes = .ok files ∧
          Lists look (fun path => tests.any (· path)) found files := by
  refine ⟨fun cause failure => ?_, fun tests read => ⟨fun cause failure => ?_, fun found all => ?_⟩⟩
  · rw [collect, mapM_of_firstFailure failure]
    rfl
  · rw [collect_of_read read, Listing.visitAll_of_firstFailure failure]
    rfl
  · rw [collect_of_read read, all, Listing.visitAll_map_ok]
    exact ⟨_, rfl, (covers_foldl found).lists⟩

def sample : FileTree Nat :=
  { entries := [(["a"], .file 3), (["b"], .file 20000000), (["c"], .file 7), (["d"], .directory),
      (["e"], .file 5)] }

private theorem sorted_sample : sample.sorted = sample := by
  have ordered : sample.entries.Pairwise
      (fun left right => (!List.lex right.1 left.1) = true) := by decide +kernel
  rw [FileTree.sorted, List.mergeSort_of_pairwise ordered]

private theorem searchTree_sample {pattern : String} {parts : List Glob.Part} {found : List String}
    (legal : (Glob.tokens? pattern).isSome = true) (split : Glob.parts? pattern = some parts)
    (any : ¬"/".toList <:+ pattern.toList)
    (leads : Glob.fill sample parts (Glob.start pattern) = found) :
    searchTree sample pattern = .ok (found.map .ok) := by
  obtain ⟨tokens, known⟩ := Option.isSome_iff_exists.1 legal
  have noSlash : pattern.endsWith "/" = false := by
    rwa [String.endsWith_eq_endsWith_toSlice, String.Slice.endsWith_string_eq_false_iff,
      String.copy_toSlice]
  simp only [searchTree, Glob.search, known, split, sorted_sample, leads, noSlash]
  rfl

def isA (path : String) : Bool :=
  Glob.isMatch [.char 'a'] path.toList

/-- Two patterns that find the same file in a tree, and failures in both kinds of patterns. -/
theorem collect_lists_sample :
    FirstFailure (["a", "[a", "***"].map Glob.test?) (.pattern "[a") ∧
    collect sample.find Glob.test? (searchTree sample) ["[e"] ["a", "[a", "***"] =
      .error (.pattern "[a") ∧
    FirstFailure (outcomes (searchTree sample) ["e", "a**", "[e"]) (.pattern "a**") ∧
    collect sample.find Glob.test? (searchTree sample) ["e", "a**", "[e"] ["a"] =
      .error (.pattern "a**") ∧
    outcomes (searchTree sample) ["e", "*"] = ["e", "a", "b", "c", "d", "e"].map .ok ∧
    ∃ files, collect sample.find Glob.test? (searchTree sample) ["e", "*"] ["a"] = .ok files ∧
      Lists sample.find (fun path => [isA].any (· path)) ["e", "a", "b", "c", "d", "e"] files ∧
      files = [("e", 5), ("c", 7)] := by
  have read : ["a"].map Glob.test? = [isA].map .ok := rfl
  have unread : FirstFailure (["a", "[a", "***"].map Glob.test?) (.pattern "[a") :=
    ⟨[isA], [.error (.pattern "***")], rfl⟩
  have one : searchTree sample "e" = .ok (["e"].map .ok) :=
    @searchTree_sample "e" [.name "e"] ["e"] (by decide +kernel) (by decide +kernel) (by decide)
      (by decide +kernel)
  have every : searchTree sample "*" = .ok (["a", "b", "c", "d", "e"].map .ok) :=
    @searchTree_sample "*" [.pattern [.anySequence]] ["a", "b", "c", "d", "e"]
      (by decide +kernel) (by decide +kernel) (by decide) (by decide +kernel)
  have unsearched : FirstFailure (outcomes (searchTree sample) ["e", "a**", "[e"])
      (.pattern "a**") := by
    refine ⟨["e"], [.error (.pattern "[e")], ?_⟩
    rw [outcomes, List.flatMap_cons, one]
    rfl
  have found : outcomes (searchTree sample) ["e", "*"] =
      ["e", "a", "b", "c", "d", "e"].map .ok := by
    rw [outcomes, List.flatMap_cons, List.flatMap_cons, one, every]
    rfl
  have refused := (collect_lists sample.find Glob.test? (searchTree sample) ["[e"]
    ["a", "[a", "***"]).1 _ unread
  have stopped := ((collect_lists sample.find Glob.test? (searchTree sample) ["e", "a**", "[e"]
    ["a"]).2 _ read).1 _ unsearched
  obtain ⟨files, collected, lists⟩ := ((collect_lists sample.find Glob.test? (searchTree sample)
    ["e", "*"] ["a"]).2 _ read).2 _ found
  have listed : collect sample.find Glob.test? (searchTree sample) ["e", "*"] ["a"] =
      .ok [("e", 5), ("c", 7)] := by
    rw [collect_of_read read, found, Listing.visitAll_map_ok]
    decide
  exact ⟨unread, refused, unsearched, stopped, found, files, collected, lists,
    Except.ok.inj (collected.symm.trans listed)⟩

end ClassExpr.Check
