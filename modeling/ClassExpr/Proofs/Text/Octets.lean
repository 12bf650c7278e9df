import ClassExpr.Text.Run
import ClassExpr.Text.Utf8

set_option autoImplicit false

/-! The octets of the UTF-8 form of a text. An octet is written as the character with its number, so
that what looks at single characters can look at octets as well: a character below 0x80 is its own
octet, and no octet of any other character is below 0x80. A text can be cut off the end of another
one by their octets just as by their characters. -/

namespace ClassExpr.Text

def asChar (octet : UInt8) : Char :=
  Char.ofNat octet.toNat

def bytes (cs : List Char) : List UInt8 :=
  cs.flatMap String.utf8EncodeChar

/-- The bytes of a text as characters. -/
def octets (cs : List Char) : List Char :=
  (bytes cs).map asChar

/-- A character that is not its own octet, or an octet of one. -/
def IsWide (c : Char) : Prop :=
  0x80 ≤ c.toNat

instance (c : Char) : Decidable (IsWide c) :=
  inferInstanceAs (Decidable (0x80 ≤ c.toNat))

theorem beq_of_wide {c d : Char} (wide : IsWide c) (narrow : ¬IsWide d) : (c == d) = false := by
  rw [beq_eq_false_iff_ne]
  rintro rfl
  exact narrow wide

private theorem toNat_asChar (octet : UInt8) : (asChar octet).toNat = octet.toNat := by
  have small := octet.toNat_lt
  have valid : octet.toNat.isValidChar := Or.inl (by omega)
  unfold asChar Char.ofNat
  rw [dif_pos valid]
  rfl

private theorem asChar_injective {left right : UInt8} (same : asChar left = asChar right) :
    left = right := by
  rw [← UInt8.toNat_inj, ← toNat_asChar, ← toNat_asChar, same]

@[simp] theorem octets_nil : octets [] = [] := rfl

theorem octets_append (left right : List Char) :
    octets (left ++ right) = octets left ++ octets right := by
  rw [octets, bytes, List.flatMap_append, List.map_append]
  rfl

theorem octets_cons (c : Char) (cs : List Char) : octets (c :: cs) = octets [c] ++ octets cs :=
  octets_append [c] cs

private theorem octets_singleton (c : Char) :
    octets [c] = (String.utf8EncodeChar c).map asChar := by
  rw [octets, bytes, List.flatMap_singleton]

theorem length_octets (cs : List Char) : (octets cs).length = byteLength cs := by
  induction cs with
  | nil => rfl
  | cons c cs ih =>
      rw [octets_cons, List.length_append, ih, octets_singleton, List.length_map,
        String.length_utf8EncodeChar, byteLength_cons]

private theorem isWide_iff (c : Char) : IsWide c ↔ c.utf8Size ≠ 1 := by
  rw [Ne, Char.utf8Size_eq_one_iff, UInt32.le_iff_toNat_le]
  exact (Nat.not_le (a := c.toNat) (b := 127)).symm

theorem octets_of_narrow {c : Char} (narrow : ¬IsWide c) : octets [c] = [c] := by
  have one : c.utf8Size = 1 := by
    by_cases size : c.utf8Size = 1
    · exact size
    · exact absurd ((isWide_iff c).2 size) narrow
  have small : c.val.toNat < 128 := Nat.lt_of_not_le narrow
  rw [octets_singleton, String.utf8EncodeChar_eq_singleton one, List.map_cons, List.map_nil]
  have same : asChar c.val.toUInt8 = c := by
    apply Char.toNat_inj.1
    rw [toNat_asChar, UInt32.toNat_toUInt8]
    exact Nat.mod_eq_of_lt (by omega)
  rw [same]

theorem wide_of_mem_octets {c octet : Char} (wide : IsWide c) (member : octet ∈ octets [c]) :
    IsWide octet := by
  rw [octets_singleton, List.mem_map] at member
  obtain ⟨byte, inside, rfl⟩ := member
  rw [IsWide, toNat_asChar]
  have marked : ∀ (left right : UInt8), 0x80 ≤ right.toNat → 0x80 ≤ (left ||| right).toNat := by
    intro left right atLeast
    rw [UInt8.toNat_or]
    exact Nat.le_trans atLeast Nat.right_le_or
  have many := (isWide_iff c).1 wide
  match size : c.utf8Size, c.utf8Size_pos, c.utf8Size_le_four with
  | 1, _, _ => exact absurd size many
  | 2, _, _ =>
      rw [String.utf8EncodeChar_eq_cons_cons size] at inside
      simp only [List.mem_cons, List.not_mem_nil, or_false] at inside
      rcases inside with rfl | rfl
      · exact marked _ _ (by decide)
      · exact marked _ _ (by decide)
  | 3, _, _ =>
      rw [String.utf8EncodeChar_eq_cons_cons_cons size] at inside
      simp only [List.mem_cons, List.not_mem_nil, or_false] at inside
      rcases inside with rfl | rfl | rfl
      · exact marked _ _ (by decide)
      · exact marked _ _ (by decide)
      · exact marked _ _ (by decide)
  | 4, _, _ =>
      rw [String.utf8EncodeChar_eq_cons_cons_cons_cons size] at inside
      simp only [List.mem_cons, List.not_mem_nil, or_false] at inside
      rcases inside with rfl | rfl | rfl | rfl
      · exact marked _ _ (by decide)
      · exact marked _ _ (by decide)
      · exact marked _ _ (by decide)
      · exact marked _ _ (by decide)

theorem octets_ne_nil (c : Char) : octets [c] ≠ [] := by
  intro empty
  have size := length_octets [c]
  have positive := c.utf8Size_pos
  rw [empty, byteLength_cons] at size
  simp only [List.length_nil, byteLength_nil] at size
  omega

theorem isEmpty_octets (cs : List Char) : (octets cs).isEmpty = cs.isEmpty := by
  cases cs with
  | nil => rfl
  | cons c cs =>
      cases spelled : octets [c] with
      | nil => exact absurd spelled (octets_ne_nil c)
      | cons octet others =>
          rw [octets_cons, spelled]
          rfl

theorem head?_octets {mark : Char} (narrow : ¬IsWide mark) (cs : List Char) :
    ((octets cs).head? == some mark) = (cs.head? == some mark) := by
  cases cs with
  | nil => rfl
  | cons c cs =>
      rw [octets_cons]
      by_cases wide : IsWide c
      · cases first : octets [c] with
        | nil => exact absurd first (octets_ne_nil c)
        | cons octet others =>
            have wideOctet : IsWide octet :=
              wide_of_mem_octets wide (by rw [first]; exact List.mem_cons_self)
            rw [List.cons_append, List.head?_cons, List.head?_cons]
            have left : (some octet == some mark) = false := by
              rw [beq_eq_false_iff_ne]
              rintro ⟨⟩
              exact narrow wideOctet
            have right : (some c == some mark) = false := by
              rw [beq_eq_false_iff_ne]
              rintro ⟨⟩
              exact narrow wide
            rw [left, right]
      · rw [octets_of_narrow wide]
        rfl

/-- A run of a text is a run of its octets, if what is accepted of a narrow character only depends
on narrow characters, and a wide character is accepted if its octets are. -/
theorem splitRun_octets {accepts : Char → List Char → Bool} {wide : Bool}
    (narrow : ∀ c cs, ¬IsWide c → accepts c (octets cs) = accepts c cs)
    (same : ∀ c rest, IsWide c → accepts c rest = wide) (cs : List Char) :
    splitRun accepts (octets cs) =
      (octets (splitRun accepts cs).1, octets (splitRun accepts cs).2) := by
  have passes : wide = true → ∀ others, (∀ octet ∈ others, IsWide octet) → ∀ rest,
      splitRun accepts (others ++ rest) =
        (others ++ (splitRun accepts rest).1, (splitRun accepts rest).2) := by
    intro accepted others wideOthers rest
    induction others with
    | nil => rfl
    | cons octet others ih =>
        have first := same octet (others ++ rest) (wideOthers octet List.mem_cons_self)
        rw [List.cons_append, splitRun_cons, if_pos (by rw [first, accepted]),
          ih fun other member => wideOthers other (List.mem_cons_of_mem octet member)]
        rfl
  induction cs with
  | nil => rfl
  | cons c cs ih =>
      rw [splitRun_cons]
      by_cases isWide : IsWide c
      · have whole := same c cs isWide
        cases accepted : wide with
        | true =>
            rw [if_pos (by rw [whole, accepted]), octets_cons,
              passes accepted _ (fun octet member => wide_of_mem_octets isWide member), ih,
              ← octets_cons]
        | false =>
            rw [if_neg (by rw [whole, accepted]; decide)]
            cases spelled : octets [c] with
            | nil => exact absurd spelled (octets_ne_nil c)
            | cons octet others =>
                have first := same octet (others ++ octets cs)
                  (wide_of_mem_octets isWide (by rw [spelled]; exact List.mem_cons_self))
                rw [octets_cons, spelled, List.cons_append, splitRun_cons,
                  if_neg (by rw [first, accepted]; decide)]
                rfl
      · rw [octets_cons, octets_of_narrow isWide, List.singleton_append, splitRun_cons,
          narrow c cs isWide, ih]
        split
        · rw [octets_cons c, octets_of_narrow isWide]
          rfl
        · rw [octets_cons c, octets_of_narrow isWide]
          rfl

/-- No character is spelled at the end of another one: only the first byte of a character can stand
first. -/
theorem utf8EncodeChar_front_eq_nil {short long : Char} {front : List UInt8}
    (spelled : String.utf8EncodeChar long = front ++ String.utf8EncodeChar short) : front = [] := by
  cases front with
  | nil => rfl
  | cons byte front =>
      have positive := short.utf8Size_pos
      have inShort : 0 < (String.utf8EncodeChar short).length := by
        rw [String.length_utf8EncodeChar]
        exact positive
      have inLong : (byte :: front).length < (String.utf8EncodeChar long).length := by
        rw [spelled, List.length_append]
        omega
      have first : ((String.utf8EncodeChar short)[0]).IsUTF8FirstByte :=
        UInt8.isUTF8FirstByte_getElem_zero_utf8EncodeChar
      have place : (String.utf8EncodeChar long)[(byte :: front).length] =
          (String.utf8EncodeChar short)[0] := by
        simp only [spelled]
        rw [List.getElem_append_right (Nat.le_refl _)]
        simp only [Nat.sub_self]
      rw [← place, UInt8.isUTF8FirstByte_getElem_utf8EncodeChar] at first
      cases first

private theorem utf8EncodeChar_inj {c d : Char}
    (spelled : String.utf8EncodeChar c = String.utf8EncodeChar d) : c = d := by
  have decoded := @ByteArray.utf8DecodeChar?_utf8EncodeChar_append ByteArray.empty c
  rw [spelled, ByteArray.utf8DecodeChar?_utf8EncodeChar_append] at decoded
  exact (Option.some.inj decoded).symm

private theorem bytes_concat_inj {left right : List UInt8} {c d : Char}
    (same : left ++ String.utf8EncodeChar c = right ++ String.utf8EncodeChar d) :
    left = right ∧ c = d := by
  rcases List.append_eq_append_iff.1 same with ⟨middle, rightIs, spelled⟩ | ⟨middle, leftIs, spelled⟩
  · obtain rfl := utf8EncodeChar_front_eq_nil spelled
    rw [List.nil_append] at spelled
    exact ⟨by simpa using rightIs.symm, utf8EncodeChar_inj spelled⟩
  · obtain rfl := utf8EncodeChar_front_eq_nil spelled
    rw [List.nil_append] at spelled
    exact ⟨by simpa using leftIs, (utf8EncodeChar_inj spelled).symm⟩

private theorem bytes_append (left right : List Char) :
    bytes (left ++ right) = bytes left ++ bytes right :=
  List.flatMap_append

private theorem bytes_singleton (c : Char) : bytes [c] = String.utf8EncodeChar c :=
  List.flatMap_singleton _ _

private theorem bytes_suffix_iff {left right : List Char} :
    bytes left <:+ bytes right ↔ left <:+ right := by
  constructor
  · rintro ⟨front, same⟩
    -- character by character from the end, so the induction is on the reversed text
    generalize reversed : left.reverse = turned
    induction turned generalizing left right with
    | nil =>
        rw [List.reverse_eq_nil_iff] at reversed
        rw [reversed]
        exact List.nil_suffix
    | cons c turned ih =>
        rw [List.reverse_eq_cons_iff] at reversed
        subst reversed
        rcases List.eq_nil_or_concat right with rfl | ⟨shorter, d, rfl⟩
        · have size := congrArg List.length same
          have positive := c.utf8Size_pos
          rw [List.length_append, bytes_append, List.length_append, bytes_singleton,
            String.length_utf8EncodeChar] at size
          simp only [bytes, List.flatMap_nil, List.length_nil] at size
          omega
        · rw [List.concat_eq_append, bytes_append, bytes_append, bytes_singleton, bytes_singleton,
            ← List.append_assoc] at same
          obtain ⟨shorterSame, rfl⟩ := bytes_concat_inj same
          have inner := ih shorterSame (List.reverse_reverse turned)
          rw [List.concat_eq_append]
          exact List.suffix_append_self_iff.2 inner
  · rintro ⟨front, rfl⟩
    exact ⟨bytes front, (bytes_append front left).symm⟩

private theorem octets_suffix_iff {left right : List Char} :
    octets left <:+ octets right ↔ left <:+ right := by
  refine Iff.trans ?_ bytes_suffix_iff
  rw [octets, octets]
  constructor
  · rintro ⟨front, same⟩
    obtain ⟨first, second, whole, rfl, back⟩ := List.map_eq_append_iff.1 same.symm
    have tail : second = bytes left :=
      (List.map_inj_right fun _ _ => asChar_injective).1 back
    exact ⟨first, by rw [whole, tail]⟩
  · rintro ⟨front, same⟩
    exact ⟨front.map asChar, by rw [← same, List.map_append]⟩

/-- Octets at the end of a character, without its first one. -/
def IsRemnant (others : List Char) : Prop :=
  ∃ c first, octets [c] = first ++ others ∧ first ≠ []

theorem isRemnant_nil : IsRemnant [] :=
  ⟨'a', octets ['a'], (List.append_nil _).symm, octets_ne_nil 'a'⟩

theorem IsRemnant.wide {others : List Char} (remnant : IsRemnant others) :
    ∀ octet ∈ others, IsWide octet := by
  obtain ⟨c, first, spelled, nonempty⟩ := remnant
  intro octet member
  by_cases wide : IsWide c
  · exact wide_of_mem_octets wide (by rw [spelled]; exact List.mem_append_right first member)
  · rw [octets_of_narrow wide] at spelled
    have size := congrArg List.length spelled
    have positive := List.length_pos_iff.2 nonempty
    have inside := List.length_pos_of_mem member
    rw [List.length_append, List.length_singleton] at size
    omega

theorem IsRemnant.suffix_iff {others : List Char} (remnant : IsRemnant others)
    {left right : List Char} : octets left <:+ others ++ octets right ↔ left <:+ right := by
  obtain ⟨c, first, spelled, nonempty⟩ := remnant
  constructor
  · intro suffix
    have whole : others ++ octets right <:+ octets (c :: right) :=
      ⟨first, by rw [octets_cons, spelled, List.append_assoc]⟩
    rcases List.suffix_cons_iff.1 (octets_suffix_iff.1 (suffix.trans whole)) with rfl | inner
    · have short := suffix.length_le
      have positive := List.length_pos_iff.2 nonempty
      rw [octets_cons, spelled, List.length_append, List.length_append, List.length_append] at short
      omega
    · exact inner
  · intro suffix
    exact (octets_suffix_iff.2 suffix).trans (List.suffix_append others _)

private theorem dropBefore_zero (cs : List Char) : dropBefore 0 cs = cs := by
  cases cs <;> rfl

theorem dropBefore_of_le {cs : List Char} {offset : Nat} (past : byteLength cs ≤ offset) :
    dropBefore offset cs = [] := by
  induction cs generalizing offset with
  | nil => rfl
  | cons c cs ih =>
      have positive := c.utf8Size_pos
      rw [byteLength_cons] at past
      obtain ⟨size, rfl⟩ := Nat.exists_eq_succ_of_ne_zero (by omega : offset ≠ 0)
      rw [dropBefore]
      exact ih (by omega)

/-- An offset inside a character leaves the end of this character in front of the next one. -/
theorem drop_octets {cs : List Char} {offset : Nat} (inside : offset ≤ byteLength cs) :
    ∃ others, IsRemnant others ∧
      (octets cs).drop offset = others ++ octets (dropBefore offset cs) := by
  induction cs generalizing offset with
  | nil =>
      rw [Nat.le_zero.1 inside]
      exact ⟨[], isRemnant_nil, rfl⟩
  | cons c cs ih =>
      have size : (octets [c]).length = c.utf8Size := by
        rw [length_octets]
        simp
      rw [byteLength_cons] at inside
      cases offset with
      | zero => exact ⟨[], isRemnant_nil, rfl⟩
      | succ offset =>
          rw [octets_cons, dropBefore]
          by_cases past : c.utf8Size ≤ offset + 1
          · obtain ⟨others, remnant, dropped⟩ := @ih (offset + 1 - c.utf8Size) (by omega)
            refine ⟨others, remnant, ?_⟩
            rw [List.drop_append, size, List.drop_of_length_le (by omega), List.nil_append, dropped]
          · refine ⟨(octets [c]).drop (offset + 1), ⟨c, (octets [c]).take (offset + 1), ?_, ?_⟩, ?_⟩
            · exact (List.take_append_drop _ _).symm
            · apply List.ne_nil_of_length_pos
              rw [List.length_take]
              omega
            · rw [List.drop_append_of_le_length (by omega),
                show offset + 1 - c.utf8Size = 0 by omega, dropBefore_zero]

end ClassExpr.Text
