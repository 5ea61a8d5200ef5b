import HypercubeSum.Proofs.Decimal.Shortest
import HypercubeSum.Proofs.Record.Tokens
import Mathlib.Data.List.DropRight

/-!
# Fractions on a line are read back

A fraction is shown as the shortest decimal that is taken to it, in one of four layouts. Each of them
is read as a decimal of the same value, so that the fraction is read as what it was.
-/

namespace HypercubeSum.Document

open Text (ofChars)

variable {cs front places rest : List Char}

theorem readPlaces?_point (filled : places ≠ []) (digits : ∀ c ∈ places, c.isDigit = true)
    (ends : ∀ c ∈ rest.head?, c.isDigit = false) :
    readPlaces? ('.' :: (places ++ rest)) = some (places.map fun c => c.toNat - 48, rest) := by
  simp [readPlaces?, readDigits_append digits ends, filled]

theorem readPlaces?_none (other : ∀ c ∈ cs.head?, c ≠ '.') : readPlaces? cs = some ([], cs) := by
  unfold readPlaces?
  split
  next => exact absurd rfl (other '.' rfl)
  next => rfl

theorem readPower?_none (other : ∀ c ∈ cs.head?, c ≠ 'e' ∧ c ≠ 'E') :
    readPower? cs = some (0, cs) := by
  cases cs with
  | nil => rfl
  | cons c cs => simp [readPower?, other c rfl]

/-- A power of ten is shown with its sign and at least two digits. -/
theorem readPower?_written (power : Int) (ends : ∀ c ∈ rest.head?, c.isDigit = false) :
    let size := (toString power.natAbs).toList
    readPower? ('e' :: (if power < 0 then '-' else '+') ::
        ((if size.length < 2 then '0' :: size else size) ++ rest)) = some (power, rest) := by
  intro size
  have shown : size = Nat.toDigits 10 power.natAbs := Nat.toList_repr
  have padded : ∃ cs, (if size.length < 2 then '0' :: size else size) = cs ∧ cs ≠ [] ∧
      (∀ c ∈ cs, c.isDigit = true) ∧ ofChars cs = power.natAbs := by
    refine ⟨_, rfl, ?_⟩
    have digits := Text.isDigit_toDigits power.natAbs
    have value := Text.ofChars_toDigits power.natAbs
    rw [shown]
    split
    next => exact ⟨List.cons_ne_nil _ _, List.forall_mem_cons.2 ⟨rfl, digits⟩, value⟩
    next => exact ⟨Nat.toDigits_ne_nil, digits, value⟩
  obtain ⟨cs, same, filled, digits, value⟩ := padded
  rw [ofChars] at value
  rw [same]
  split
  all_goals
    simp [readPower?, readDigits_append digits ends, filled, value, -Nat.cast_natAbs]
    omega

/-- A decimal is read with its places, if there are any, and its power, if there is one. -/
theorem readUnsigned?_decimal {behind behindPlaces : List Char} {power : Int}
    (filled : front ≠ []) (digits : ∀ c ∈ front, c.isDigit = true) (negative : Bool)
    (mark : ∃ c ∈ behind.head?, c = '.' ∨ c = 'e')
    (point : readPlaces? behind = some (places.map fun c => c.toNat - 48, behindPlaces))
    (scale : readPower? behindPlaces = some (power, rest)) :
    readUnsigned? negative (front ++ behind) =
      some (fraction (.ofDecimal negative (ofChars (front ++ places)) (power - places.length)),
        rest) := by
  obtain ⟨c, head, mark⟩ := mark
  have stop : ∀ d ∈ behind.head?, d.isDigit = false := by
    intro d other
    obtain rfl : c = d := Option.some.inj (head.symm.trans other)
    rcases mark with rfl | rfl <;> decide
  have marked : behind.head?.any (fun c => c = '.' ∨ c = 'e' ∨ c = 'E') = true := by
    rw [head]
    rcases mark with rfl | rfl <;> rfl
  rw [readUnsigned?, readDigits_append digits stop]
  simp only [List.isEmpty_iff, List.map_eq_nil_iff, filled, marked, point, scale, if_false,
    if_true, Option.bind_eq_bind, Option.bind_some, Option.pure_def, List.length_map, ofChars,
    List.map_append]

/-- A decimal with places and without a power of ten. -/
theorem readUnsigned?_places (filled : front ≠ []) (digits : ∀ c ∈ front, c.isDigit = true)
    (filled' : places ≠ []) (digits' : ∀ c ∈ places, c.isDigit = true) (negative : Bool)
    (ends : Ends rest) :
    readUnsigned? negative (front ++ '.' :: (places ++ rest)) =
      some (fraction (.ofDecimal negative (ofChars (front ++ places)) (-places.length)), rest) := by
  rw [readUnsigned?_decimal filled digits negative ⟨'.', rfl, .inl rfl⟩
    (readPlaces?_point filled' digits' fun c head => (ends c head).1)
    (readPower?_none fun c head => (ends c head).2.2), Int.zero_sub]

/-- A decimal with one digit in front of the point and a power of ten. -/
theorem readUnsigned?_scaled {first : Char} (digits : ∀ c ∈ first :: places, c.isDigit = true)
    (power : Int) (negative : Bool) (ends : Ends rest) :
    let size := (toString power.natAbs).toList
    readUnsigned? negative (first :: ((if places.isEmpty then [] else '.' :: places) ++
        'e' :: (if power < 0 then '-' else '+') ::
          ((if size.length < 2 then '0' :: size else size) ++ rest))) =
      some (fraction (.ofDecimal negative (ofChars (first :: places)) (power - places.length)),
        rest) := by
  intro size
  obtain ⟨here, behind⟩ := List.forall_mem_cons.1 digits
  have scale := readPower?_written power fun c head => (ends c head).1
  have front : ∀ c ∈ [first], c.isDigit = true := by simpa using here
  cases places with
  | nil =>
    exact readUnsigned?_decimal (List.cons_ne_nil first []) front negative ⟨'e', rfl, .inr rfl⟩
      (readPlaces?_none (by simp)) scale
  | cons c others =>
    have stop : ∀ d ∈ ('e' :: (if power < 0 then '-' else '+') ::
        ((if size.length < 2 then '0' :: size else size) ++ rest)).head?, d.isDigit = false := by
      simp
    exact readUnsigned?_decimal (List.cons_ne_nil first []) front negative ⟨'.', rfl, .inl rfl⟩
      (readPlaces?_point (List.cons_ne_nil c others) behind stop) scale

/-- A decimal whose point is not far off is its digits, between zeros, with a point among them. -/
theorem exists_layOut {digits : List Char} (filled : digits ≠ []) {point : Int}
    (near : ¬(point ≤ -4 ∨ 16 < point)) :
    ∃ front places before behind, Decimal.layOut digits point = front ++ '.' :: places ∧
      front ≠ [] ∧ places ≠ [] ∧
      front ++ places = List.replicate before '0' ++ digits ++ List.replicate behind '0' ∧
      (places.length : Int) = digits.length + behind - point := by
  rw [Decimal.layOut, if_neg near]
  split
  next small =>
    refine ⟨['0'], List.replicate (-point).toNat '0' ++ digits, (-point).toNat + 1, 0, rfl,
      List.cons_ne_nil '0' [], by simp [filled], by simp [List.replicate_succ], ?_⟩
    simp
    omega
  next large =>
    -- either there are digits behind the point, or zeros fill up those in front of it
    rcases Nat.lt_or_ge point.toNat digits.length with inside | beyond
    · refine ⟨digits.take point.toNat, digits.drop point.toNat, 0, 0, ?_, ?_, ?_, ?_, ?_⟩
      · simp [inside, Nat.sub_eq_zero_of_le inside.le]
      · simp [filled]
        omega
      · simpa using inside
      · simp
      · simp
        omega
    · refine ⟨digits ++ List.replicate (point.toNat - digits.length) '0', ['0'], 0,
        point.toNat - digits.length + 1, ?_, ?_, ?_, ?_, ?_⟩
      · simp [List.take_of_length_le beyond, List.drop_eq_nil_of_le beyond]
      · simp [filled]
      · simp
      · simp [List.replicate_succ']
      · simp
        omega

/-- Zeros around the digits move the point. -/
theorem ofChars_zeros (digits : List Char) (before behind : Nat) (point : Int) :
    (ofChars (List.replicate before '0' ++ digits ++ List.replicate behind '0') *
        10 ^ (-(digits.length + behind - point)) : ℚ) =
      ofChars digits * 10 ^ (point - digits.length) := by
  rw [Text.ofChars_append, Text.ofChars_append, Text.ofChars_replicate_zero,
    Text.ofChars_replicate_zero, List.length_replicate,
    (by ring : -(digits.length + behind - point) = point - digits.length - behind),
    zpow_sub₀ (by norm_num), zpow_natCast]
  push_cast
  field_simp
  ring

theorem isDigit_zeros {digits : List Char} (decimal : ∀ c ∈ digits, c.isDigit = true)
    (before behind : Nat) :
    ∀ c ∈ List.replicate before '0' ++ digits ++ List.replicate behind '0', c.isDigit = true := by
  have zeros (count : Nat) : ∀ c ∈ List.replicate count '0', c.isDigit = true := by
    intro c member
    rw [List.eq_of_mem_replicate member]
    rfl
  exact List.forall_mem_append.2 ⟨List.forall_mem_append.2 ⟨zeros before, decimal⟩, zeros behind⟩

/-- The layouts of a decimal are read as decimals of its value. -/
theorem readUnsigned?_layOut {digits : List Char} (filled : digits ≠ [])
    (decimal : ∀ c ∈ digits, c.isDigit = true) (point : Int) (negative : Bool) (ends : Ends rest) :
    ∃ size power,
      readUnsigned? negative (Decimal.layOut digits point ++ rest) =
        some (fraction (.ofDecimal negative size power), rest) ∧
      (size * 10 ^ power : ℚ) = ofChars digits * 10 ^ (point - digits.length) := by
  by_cases near : point ≤ -4 ∨ 16 < point
  · obtain ⟨first, places, rfl⟩ := List.exists_cons_of_ne_nil filled
    have read := readUnsigned?_scaled decimal (point - 1) negative ends
    refine ⟨_, _, (congrArg _ ?_).trans read, ?_⟩
    · simp [Decimal.layOut, near]
    · rw [List.length_cons, Nat.cast_succ, Int.sub_sub, Int.add_comm 1]
  · obtain ⟨front, places, before, behind, shape, some, some', same, count⟩ :=
      exists_layOut filled near
    have shown := isDigit_zeros decimal before behind
    rw [← same] at shown
    obtain ⟨digits', digits''⟩ := List.forall_mem_append.1 shown
    have read := readUnsigned?_places some digits' some' digits'' negative ends
    refine ⟨_, _, (congrArg _ ?_).trans read, ?_⟩
    · simp [shape]
    · rw [same, count, ofChars_zeros]

theorem isDigit_head_layOut {digits : List Char} (filled : digits ≠ [])
    (decimal : ∀ c ∈ digits, c.isDigit = true) (point : Int) :
    ∀ c ∈ (Decimal.layOut digits point ++ rest).head?, c.isDigit = true := by
  by_cases near : point ≤ -4 ∨ 16 < point
  · obtain ⟨first, places, rfl⟩ := List.exists_cons_of_ne_nil filled
    simpa [Decimal.layOut, near] using decimal first List.mem_cons_self
  · obtain ⟨front, places, before, behind, shape, some, -, same, -⟩ := exists_layOut filled near
    obtain ⟨first, others, rfl⟩ := List.exists_cons_of_ne_nil some
    have shown := isDigit_zeros decimal before behind
    rw [← same] at shown
    simpa [shape] using shown first List.mem_cons_self

/-- Zeros at the end are left out. -/
theorem exists_zeros (cs : List Char) :
    ∃ count, cs = (cs.reverse.dropWhile (· == '0')).reverse ++ List.replicate count '0' := by
  refine ⟨(cs.rtakeWhile (· == '0')).length, ?_⟩
  rw [← List.eq_replicate_of_mem fun c member => by simpa using List.mem_rtakeWhile_imp member]
  exact List.rdropWhile_append_rtakeWhile.symm

/-- The sign of a finite number is read, and its digits are read behind it. -/
theorem readNumber?_signed (negative : Bool)
    (digit : ∀ c ∈ (cs ++ rest).head?, c.isDigit = true) :
    readNumber? ((String.ofList ((if negative then ['-'] else []) ++ cs)).toList ++ rest) =
      readUnsigned? negative (cs ++ rest) := by
  rw [String.toList_ofList, List.append_assoc]
  cases negative with
  | true => rfl
  | false => exact readNumber?_of_isDigit digit

theorem display_of_isZero {x : Decimal.Finite} (zero : x.isZero = true) :
    x.display = String.ofList ((if x.negative then ['-'] else []) ++ ['0', '.', '0']) := by
  rw [Decimal.Finite.display, if_pos zero]

/-- The digits shown of a number other than zero, whose value is covered by the number. -/
theorem exists_display {x : Decimal.Finite} (normal : x.Normal) :
    ∃ shown point, shown ≠ [] ∧ (∀ c ∈ shown, c.isDigit = true) ∧
      x.Covers (ofChars shown * 10 ^ (point - shown.length : Int)) ∧
      x.display =
        String.ofList ((if x.negative then ['-'] else []) ++ Decimal.layOut shown point) := by
  have covers := Decimal.Finite.covers_shortest normal
  rw [Decimal.Finite.display, if_neg (by simp [Decimal.Finite.isZero, normal.some.ne'])]
  generalize x.shortest = found at covers ⊢
  obtain ⟨count, power⟩ := found
  dsimp only at covers ⊢
  rw [Nat.toString_eq_repr, Nat.toList_repr]
  obtain ⟨zeros, split⟩ := exists_zeros (Nat.toDigits 10 count)
  generalize ((Nat.toDigits 10 count).reverse.dropWhile (· == '0')).reverse = shown at split ⊢
  have value := Text.ofChars_toDigits count
  rw [split, Text.ofChars_append, Text.ofChars_replicate_zero, List.length_replicate,
    Nat.add_zero] at value
  refine ⟨shown, _, ?_, ?_, ?_, rfl⟩
  · rintro rfl
    exact covers.ne_zero normal (by rw [← value]; simp [ofChars, Text.ofDigits])
  · exact fun c member => Text.isDigit_toDigits count c (split ▸ List.mem_append_left _ member)
  · convert covers using 1
    rw [split, ← value, List.length_append, List.length_replicate,
      (by push_cast; ring : ((shown.length + zeros : Nat) + power - shown.length : Int) =
        zeros + power), zpow_add₀ (by norm_num), zpow_natCast]
    push_cast
    ring

/-- A finite number is read as what it was. -/
theorem readNumber?_display {x : Decimal.Finite} (regular : (Decimal.Double.finite x).Regular)
    (ends : Ends rest) :
    readNumber? (x.display.toList ++ rest) = some (fraction (.finite x), rest) := by
  rcases regular with normal | zero
  · obtain ⟨shown, point, filled, decimal, covers, display⟩ := exists_display normal
    obtain ⟨size, power, read, same⟩ :=
      readUnsigned?_layOut filled decimal point x.negative ends
    rw [display, readNumber?_signed _ (isDigit_head_layOut filled decimal point), read,
      Decimal.Double.ofDecimal_of_covers normal (same ▸ covers)]
  · have zeros : ∀ c ∈ ['0'], c.isDigit = true := List.forall_mem_singleton.2 rfl
    have read := readUnsigned?_places (List.cons_ne_nil '0' []) zeros
      (List.cons_ne_nil '0' []) zeros x.negative ends
    rw [display_of_isZero (by rw [zero]; rfl), readNumber?_signed _ (by simp)]
    rw [zero]
    exact read

end HypercubeSum.Document
