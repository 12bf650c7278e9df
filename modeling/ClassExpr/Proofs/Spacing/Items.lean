import ClassExpr.Proofs.Spacing.Reading
import ClassExpr.Proofs.Tree.Origin

set_option autoImplicit false

/-! The items of two texts that differ in white space only. Each turn of the loop takes the same
lexeme off both, so the items say the same on every level; below the last level an interior is kept
as it is. -/

namespace ClassExpr

open Text

namespace Tree

variable {reading : Reading} {interior : Interior}

private theorem map_spaced_ofList {cs : List Char} (solid : ∀ c ∈ cs, isBlank c = false) :
    (String.ofList cs).map spaced = String.ofList cs := by
  apply String.toList_inj.1
  rw [String.toList_map, String.toList_ofList, map_spaced solid]

private theorem node?_matches (sound : Settings.SoundSeparator reading.separator)
    (spaces : Spaces reading.separator interior) (tight : Tight interior)
    (proper : ∀ offset cs, (interior offset cs).AllProper) {offset offset' : Nat}
    {text rest rest' : List Char} {lexeme lexeme' : Lexeme}
    (alike : Lexeme.Alike reading.separator offset offset' text lexeme lexeme')
    (free : Free rest) (later : Spaced rest rest') :
    ∃ node node', node? reading interior offset (text ++ rest) rest lexeme = some node ∧
      node? reading interior offset' (text ++ rest') rest' lexeme' = some node' ∧
      (node.Steady reading.separator →
        Matches offset offset' (text ++ rest) (text ++ rest') node node') := by
  cases alike with
  | variant name =>
      refine ⟨_, _, rfl, rfl, fun steady => ?_⟩
      exact variantSpan_matches sound spaces tight proper (by simp [Variant.range])
        (by simp [Variant.range]) rfl rfl free later steady
  | className solid important =>
      refine ⟨_, _, rfl, rfl, fun _ => Matches.intro rfl rfl rfl rfl (Loose.of_spaced later) ?_⟩
      exact Node.respaced_leaf rfl rfl rfl rfl (map_spaced_ofList solid).symm
  | @group lead _ marked =>
      refine ⟨_, _, rfl, rfl, ?_⟩
      rw [List.append_assoc, List.append_assoc]
      exact group_matches spaces offset offset' marked free later
  | unhandled solid =>
      refine ⟨_, _, rfl, rfl, fun _ => Matches.intro rfl rfl rfl rfl (Loose.of_spaced later) ?_⟩
      exact Node.respaced_leaf rfl rfl rfl rfl (map_spaced_ofList solid).symm

private theorem items_nil_of_blank {offset : Nat} {cs : List Char}
    (blank : ∀ c ∈ cs, isBlank c = true) :
    items reading interior offset 0 cs [] = [] := by
  have read := @items_blanks reading interior cs [] offset [] blank
  rw [List.append_nil] at read
  rw [read]
  rfl

theorem Matches.same {offset offset' : Nat} {cs others : List Char} {node other : Node}
    (matched : Matches offset offset' cs others node other) : node.Respaced other := by
  obtain ⟨_, _, _, _, _, respaced⟩ := matched
  exact respaced

theorem Matches.loose {offset offset' : Nat} {cs others : List Char} {node other : Node}
    (matched : Matches offset offset' cs others node other) {taken rest taken' rest' : List Char}
    (whole : cs = taken ++ rest) (whole' : others = taken' ++ rest')
    (range : node.range = .ofChars offset taken) (range' : other.range = .ofChars offset' taken') :
    Loose rest rest' := by
  obtain ⟨parts, parts', spans, spans', rests, _⟩ := matched
  obtain rfl := Token.ofChars_inj (range.symm.trans spans)
  obtain rfl := Token.ofChars_inj (range'.symm.trans spans')
  rw [whole, List.append_cancel_left_eq] at parts
  rw [whole', List.append_cancel_left_eq] at parts'
  rwa [parts, parts']

private theorem items_node (framed : Framed interior) (endless : reading.limit = none)
    {offset : Nat}
    {c : Char} {cs after : List Char} {lexeme : Lexeme} {node : Node} (solid : isBlank c = false)
    (scanned : Lexeme.scan? reading.separator offset (c :: cs) = some (lexeme, after))
    (begun : node? reading interior offset (c :: cs) after lexeme = some node) :
    ∃ taken rest, c :: cs = taken ++ rest ∧ taken ≠ [] ∧ node.range = .ofChars offset taken ∧
      items reading interior offset 0 (c :: cs) [] =
        node :: items reading interior (offset + byteLength taken) 0 rest [] := by
  obtain ⟨taken, rest, whole, takes, _, turn⟩ :=
    @items_turn reading _ framed offset c cs after lexeme [] solid scanned
  rw [begun] at takes turn
  refine ⟨taken, rest, whole, takes.ne_nil, NodeAt.range_eq takes, ?_⟩
  rw [turn, Reading.endsAt, endless]
  exact items_read reading interior _ 0 rest [node]

private theorem first_items (framed : Framed interior) (endless : reading.limit = none)
    (sound : Settings.SoundSeparator reading.separator)
    (spaces : Spaces reading.separator interior) (tight : Tight interior)
    (proper : ∀ offset cs, (interior offset cs).AllProper) (offset offset' : Nat)
    {c : Char} {cs others : List Char} (solid : isBlank c = false) (free : Free (c :: cs))
    (later : Spaced (c :: cs) (c :: others)) :
    ∃ node node' start start' rest rest',
      items reading interior offset 0 (c :: cs) [] = node :: items reading interior start 0 rest [] ∧
      items reading interior offset' 0 (c :: others) [] =
        node' :: items reading interior start' 0 rest' [] ∧
      rest.length ≤ cs.length ∧ Free rest ∧
      (node.Steady reading.separator → node.Respaced node' ∧ Loose rest rest') := by
  rcases Lexeme.scan?_spaced sound free later offset offset' with ⟨none, _⟩ |
    ⟨text, lexeme, lexeme', after, after', parts, parts', scanned, scanned', alike, afters⟩
  · have found := @Lexeme.scan?_isSome reading.separator c cs offset solid
    rw [none] at found
    cases found
  · obtain ⟨node, node', begun, begun', matched⟩ :=
      node?_matches sound spaces tight proper alike (parts ▸ free).of_append.2 afters
    rw [← parts] at begun matched
    rw [← parts'] at begun' matched
    obtain ⟨taken, rest, cut, nonempty, range, items⟩ :=
      items_node framed endless solid scanned begun
    obtain ⟨taken', rest', cut', _, range', items'⟩ :=
      items_node framed endless solid scanned' begun'
    have shorter : rest.length ≤ cs.length := by
      have positive := List.length_pos_iff.2 nonempty
      have total := congrArg List.length cut
      rw [List.length_cons, List.length_append] at total
      omega
    exact ⟨node, node', _, _, rest, rest', items, items', shorter, (cut ▸ free).of_append.2,
      fun steady => ⟨(matched steady).same, (matched steady).loose cut cut' range range'⟩⟩

/-- Two texts that differ in white space only have items that say the same. -/
theorem items_spaced (framed : Framed interior) (endless : reading.limit = none)
    (sound : Settings.SoundSeparator reading.separator)
    (spaces : Spaces reading.separator interior) (tight : Tight interior)
    (proper : ∀ offset cs, (interior offset cs).AllProper) (offset offset' : Nat)
    {cs others : List Char} (free : Free cs) (later : Loose cs others)
    (steady : ∀ node ∈ items reading interior offset 0 cs [], node.Steady reading.separator) :
    Node.AllRespaced (items reading interior offset 0 cs [])
      (items reading interior offset' 0 others []) := by
  -- on the length, since a turn takes as much of the text as its node does
  induction counted : cs.length using Nat.strongRecOn generalizing offset offset' cs others with
  | ind size ih =>
      obtain ⟨front, rest, front', rest', rfl, rfl, blank, blank', spaced⟩ := later
      rw [items_blanks blank] at steady
      rw [items_blanks blank, items_blanks blank']
      have freeRest := free.of_append.2
      rw [List.length_append] at counted
      cases spaced with
      | ended white spaces =>
          rw [items_nil_of_blank white, items_nil_of_blank (blank_of_spaces spaces)]
          exact Node.AllRespaced.nil
      | @cons c cs others later =>
          rw [List.length_cons] at counted
          cases solid : isBlank c with
          | true =>
              rw [items_blank solid] at steady
              rw [items_blank solid, items_blank ((isBlank_spaced c).trans solid)]
              exact ih cs.length (by omega) _ _ (List.forall_mem_cons.1 freeRest).2
                (Loose.of_spaced later) steady rfl
          | false =>
              have whole := later.cons c
              rw [spaced_solid solid] at whole ⊢
              obtain ⟨node, node', start, start', left, left', first, first', shorter, freeLeft,
                same⟩ := first_items framed endless sound spaces tight proper
                  (offset + byteLength front) (offset' + byteLength front') solid freeRest whole
              rw [first, List.forall_mem_cons] at steady
              rw [first, first']
              obtain ⟨respaced, loose⟩ := same steady.1
              exact Node.AllRespaced.cons respaced
                (ih left.length (by omega) start start' freeLeft loose steady.2 rfl)

/-! ### Levels -/

theorem trimEnd_append {kept back : List Char} (ends : ∀ c ∈ kept.getLast?, isBlank c = false)
    (blank : ∀ c ∈ back, isBlank c = true) : trimEnd (kept ++ back) = kept := by
  rw [trimEnd, List.reverse_append, List.dropWhile_append_of_pos (by simpa using blank)]
  rw [← List.head?_reverse] at ends
  cases reversed : kept.reverse with
  | nil => rw [List.reverse_eq_nil_iff.1 reversed]; rfl
  | cons c cs =>
      rw [reversed] at ends
      rw [List.dropWhile_cons, ends c rfl, if_neg Bool.false_ne_true, ← reversed,
        List.reverse_reverse]

private theorem trimEnd_spaced {cs others : List Char} (later : Spaced cs others) :
    trimEnd others = (trimEnd cs).map spaced := by
  obtain ⟨back, whole, blank⟩ := trimEnd_eq cs
  have ends := getLast?_trimEnd cs
  generalize trimEnd cs = kept at *
  subst whole
  obtain ⟨rest, rfl, spaced⟩ := later.exists_rest kept ends
  apply trimEnd_append
  · intro c isLast
    rw [List.getLast?_map, Option.mem_def, Option.map_eq_some_iff] at isLast
    obtain ⟨d, isLast, rfl⟩ := isLast
    rw [isBlank_spaced]
    exact ends d isLast
  · intro c member
    rw [spaced.spaces blank c member]
    rfl

private theorem skipBlank_blank {cs : List Char} (blank : ∀ c ∈ cs, isBlank c = true)
    (offset : Nat) :
    (skipBlank offset cs).2 = [] := by
  induction cs generalizing offset with
  | nil => rfl
  | cons c cs ih =>
      rw [List.forall_mem_cons] at blank
      rw [skipBlank, if_pos blank.1]
      exact ih blank.2 _

private theorem skipBlank_spaced {cs others : List Char} (later : Spaced cs others)
    (offset offset' : Nat) :
    Spaced (skipBlank offset cs).2 (skipBlank offset' others).2 := by
  induction later generalizing offset offset' with
  | ended blank spaces =>
      rw [skipBlank_blank blank, skipBlank_blank (blank_of_spaces spaces)]
      exact Spaced.map []
  | cons c later ih =>
      rw [skipBlank, skipBlank, isBlank_spaced]
      split
      · exact ih _ _
      · exact later.cons c

private theorem remainder_spaced {cs others : List Char} (later : Spaced cs others)
    (offset offset' : Nat) :
    Node.AllRespaced (remainder offset cs) (remainder offset' others) := by
  have trimmed := trimEnd_spaced (skipBlank_spaced later offset offset')
  unfold remainder
  dsimp only
  rw [trimmed]
  cases trimEnd (skipBlank offset cs).2 with
  | nil => exact Node.AllRespaced.nil
  | cons c kept =>
      refine Node.AllRespaced.cons (Node.respaced_leaf rfl rfl rfl rfl ?_) Node.AllRespaced.nil
      apply String.toList_inj.1
      rw [String.toList_map]
      simp [Leaf.target, Token.toList_ofChars]

private theorem steady_of_collect {separator : List Char} {offset : Nat} {cs : List Char}
    {nodes : List Node}
    (steady : (collect offset cs nodes).Steady separator) :
    ∀ node ∈ nodes, node.Steady separator := by
  rcases collect_cases offset cs nodes with ⟨node, rfl⟩ | several
  · exact List.forall_mem_singleton.2 steady
  · rw [several] at steady
    exact fun node member => steady.child member

/-- On every level, windows that differ in white space only have items that say the same. -/
theorem spaces_sequence (endless : reading.limit = none)
    (sound : Settings.SoundSeparator reading.separator) (levels : Nat) :
    Spaces reading.separator (sequence reading levels) := by
  induction levels with
  | zero =>
      intro offset offset' cs others _ later _
      rw [sequence, sequence]
      exact (remainder_spaced later offset offset').collect _ _ _ _
  | succ levels ih =>
      intro offset offset' cs others free later steady
      rw [sequence] at steady
      rw [sequence, sequence]
      exact (items_spaced (framed_sequence reading levels) endless sound ih
        (tight_sequence endless levels) (fun _ _ => allProper_sequence _ _ _ _) offset offset' free
        (Loose.of_spaced later) (steady_of_collect steady)).collect _ _ _ _

/-! ### Texts without wide white space -/

/-- What a variant applies to, unless it is a group, starts a text that is delimited behind it. -/
theorem split_of_isRead {range : Token} {variant : Variant} {child : Node}
    (isRead : IsRead reading (.variantSpan range variant (some child)))
    (single : child.kind ≠ .group) :
    ∃ tail rest, Body.split reading.separator (child.range.text.toList ++ tail ++ rest) =
      (child.range.text.toList ++ tail, rest) := by
  obtain ⟨_, _, _, _, _, _, spanAt⟩ := spanAt_of_isRead isRead
  cases spanAt with
  | group _ groupAt => cases groupAt <;> exact absurd rfl single
  | item _ _ delimited framed _ _ =>
      rw [framed, Token.toList_ofChars]
      exact ⟨_, _, delimited⟩

private theorem steady_of_narrow (settings : Settings) (text : String)
    (valid : settings.fault? = none)
    (free : ∀ c ∈ text.toList, isFree c = true)
    (narrow : ∀ c ∈ text.toList, Body.isNarrow c = true) :
    (read settings text none).Steady settings.separator.toList := by
  intro inner member
  have isRead : inner.kind ≠ .declaration → IsRead ⟨settings.separator.toList, none⟩ inner := by
    rw [read_eq] at member
    exact allRead_sequence _ _ _ _ inner member
  have proper := allProper_read settings text none
  have inside := (proper.inside inner member).trans (read_partOf settings text none)
  cases inner with
  | declaration => rfl
  | group => rfl
  | leaf => rfl
  | variantSpan range variant child =>
      cases child with
      | none => rfl
      | some child =>
          by_cases group : child.kind = .group
          · rw [Node.keepsBody, group]
            rfl
          · have part := ((proper _ member).2 child (by simp [Node.children])).trans inside
            obtain ⟨_, _, before, after, whole, _⟩ := part
            rw [Token.toList_ofChars] at whole
            have present : ∀ c ∈ child.range.text.toList, c ∈ text.toList := fun c member => by
              rw [whole]
              simp [member]
            obtain ⟨tail, rest, delimited⟩ := split_of_isRead (isRead (by simp [Node.kind])) group
            obtain ⟨back, parts, _⟩ := trimEnd_eq child.range.text.toList
            have core : ∀ c ∈ trimEnd child.range.text.toList, c ∈ text.toList := fun c member =>
              present c (by rw [parts]; exact List.mem_append_left _ member)
            rw [parts, List.append_assoc (trimEnd _)] at delimited
            rw [Node.keepsBody, Body.isSteady, Body.split_narrow (Settings.separator_sound valid)
              (fun c member => free c (core c member)) (fun c member => narrow c (core c member))
              delimited]
            exact Bool.or_true _

end Tree

namespace Spread

private theorem items_ofNode (node : Node) :
    (ofNode node).items.map Item.wording = Entry.wordings {} node :=
  rfl

/-- Which white space stands in a text does not matter to what its items say, as long as every body
of a variant keeps its end; and it does where all white space is of the blanks that may end a body.
-/
theorem ofText_spaced (settings : Settings) (text : String) (valid : settings.fault? = none)
    (free : ∀ c ∈ text.toList, isFree c = true) :
    let steady := (Tree.read settings text none).Steady settings.separator.toList
    ((∀ c ∈ text.toList, Body.isNarrow c = true) → steady) ∧
      (steady → (ofText settings (text.map spaced)).items.map Item.wording =
        (ofText settings text).items.map (fun item => item.wording.spaced)) := by
  refine ⟨Tree.steady_of_narrow settings text valid free, fun steady => ?_⟩
  have spaces := @Tree.spaces_sequence ⟨settings.separator.toList, none⟩ rfl
    (Settings.separator_sound valid) (settings.maxDepth + 1)
  rw [Tree.read_eq] at steady
  have same := spaces 0 0 text.toList (text.toList.map Text.spaced) free (Spaced.map _) steady {} {}
    ⟨rfl, rfl⟩
  rw [ofText, ofText, Tree.read_eq, Tree.read_eq, String.toList_map, items_ofNode, same,
    ← items_ofNode, List.map_map]
  rfl

/-- A wide space between items, in a group and behind a body. -/
theorem ofText_spaced_wide :
    ({} : Settings).fault? = none ∧
      (∀ c ∈ "a:b\u00a0 c\u2003a:(d\u3000!e)".toList, isFree c = true) ∧
      (Tree.read {} "a:b\u00a0 c\u2003a:(d\u3000!e)" none).Steady [':'] ∧
      (ofText {} ("a:b\u00a0 c\u2003a:(d\u3000!e)".map spaced)).items.map Item.wording =
        (ofText {} "a:b\u00a0 c\u2003a:(d\u3000!e)").items.map (fun item => item.wording.spaced) := by
  have valid : ({} : Settings).fault? = none := by decide
  have free : ∀ c ∈ "a:b\u00a0 c\u2003a:(d\u3000!e)".toList, isFree c = true :=
    List.all_eq_true.1 (by decide +kernel)
  have steady : (Tree.read {} "a:b\u00a0 c\u2003a:(d\u3000!e)" none).Steady [':'] := by
    decide +kernel
  exact ⟨valid, free, steady, (ofText_spaced {} _ valid free).2 steady⟩

/-- A body does not end at white space that is not of ASCII: the variant applies to `c` as well,
which it does not once a space stands there. -/
theorem not_ofText_spaced :
    ({} : Settings).fault? = none ∧ (∀ c ∈ "a:b\u00a0c".toList, isFree c = true) ∧
      (ofText {} ("a:b\u00a0c".map spaced)).items.map Item.wording ≠
        (ofText {} "a:b\u00a0c").items.map (fun item => item.wording.spaced) :=
  ⟨by decide, List.all_eq_true.1 (by decide +kernel), by decide +kernel⟩

end Spread

end ClassExpr
