import HypercubeSum.Proofs.Text.Numerals
import HypercubeSum.Record.Reader
import HypercubeSum.Record.Writer
import Mathlib.Data.List.Basic

/-!
# Texts and integers on a line are read back

What a line shows of a text in quotes or of an integer is read from the front as what it was, and the
reader stops where it ends. A number needs something behind it that does not go on with it.
-/

namespace HypercubeSum

namespace Text

theorem ofDigits_append (front back : List Nat) :
    ofDigits (front ++ back) = ofDigits front * 10 ^ back.length + ofDigits back := by
  induction back using List.reverseRecOn with
  | nil => simp [ofDigits]
  | append_singleton back digit ih =>
    rw [← List.append_assoc, ofDigits_append_singleton, ofDigits_append_singleton, ih,
      List.length_append, List.length_singleton, Nat.pow_succ, Nat.mul_add, ← Nat.mul_assoc,
      ← Nat.mul_assoc, Nat.mul_comm 10, Nat.mul_right_comm, Nat.add_assoc]

/-- The number whose decimal digits are the characters. -/
def ofChars (cs : List Char) : Nat := ofDigits (cs.map fun c => c.toNat - 48)

theorem ofChars_append (front back : List Char) :
    ofChars (front ++ back) = ofChars front * 10 ^ back.length + ofChars back := by
  rw [ofChars, List.map_append, ofDigits_append, List.length_map]
  rfl

theorem ofChars_replicate_zero (count : Nat) : ofChars (List.replicate count '0') = 0 := by
  induction count with
  | zero => rfl
  | succ count ih => rw [List.replicate_succ', ofChars_append, ih]; rfl

theorem isDigit_toDigits (n : Nat) : ∀ c ∈ Nat.toDigits 10 n, c.isDigit = true :=
  fun _ member => Nat.isDigit_of_mem_toDigits (by decide) (by decide) member

theorem ofChars_toDigits (n : Nat) : ofChars (Nat.toDigits 10 n) = n := by
  rw [ofChars, ofDigits_of_isDigit, Nat.ofDigitChars_ten_toDigits]

end Text

namespace Document

variable {c : Char} {cs rest : List Char}

/-! ### Texts -/

theorem hexValue?_hexDigit {n : Nat} (small : n < 16) : hexValue? (Text.hexDigit n) = some n := by
  have each : ∀ n < 16, hexValue? (Text.hexDigit n) = some n := by decide
  exact each n small

theorem readUnit?_hexDigits {n : Nat} (small : n < 65536) (rest : List Char) :
    readUnit? (Text.hexDigits 4 n ++ rest) = some (n, rest) := by
  have digit (n : Nat) : hexValue? (Text.hexDigit (n % 16)) = some (n % 16) :=
    hexValue?_hexDigit (Nat.mod_lt n (by decide))
  have value : 16 * (16 * (16 * (n / 16 / 16 / 16 % 16) + n / 16 / 16 % 16) + n / 16 % 16) + n % 16
      = n := by omega
  simp [Text.hexDigits, readUnit?, digit, value]

/-- The characters that would end a line are no surrogates. -/
theorem readEscaped?_hexDigits (ends : endsLine c = true) (rest : List Char) :
    readEscaped? (Text.hexDigits 4 c.toNat ++ rest) = some (c, rest) := by
  have small : c.toNat < 0xd800 := by
    simp only [endsLine, Bool.or_eq_true, decide_eq_true_eq, List.contains_iff_mem,
      List.mem_cons, List.not_mem_nil, or_false] at ends
    omega
  rw [readEscaped?, readUnit?_hexDigits (by omega)]
  simp [Nat.not_le.2 small]

/-- A character between quotes is read in one step. -/
theorem readText?_writtenChar (fuel : Nat) (done : List Char) (c : Char) (rest : List Char) :
    readText? (fuel + 1) done (writtenChar c ++ rest) = readText? fuel (c :: done) rest := by
  unfold writtenChar
  split
  next quoted =>
    rcases quoted with rfl | rfl <;> simp [readText?, escapedChar?]
  next plain =>
    split
    next ends => simp [readText?, readEscaped?_hexDigits ends]
    next =>
      rw [not_or] at plain
      simp [readText?, plain]

/-- A text is read up to its closing quote. -/
theorem readText?_written {fuel : Nat} (done : List Char) (enough : cs.length < fuel)
    (rest : List Char) :
    readText? fuel done (cs.flatMap writtenChar ++ '"' :: rest) =
      some (String.ofList (done.reverse ++ cs), rest) := by
  induction cs generalizing fuel done with
  | nil =>
    obtain ⟨fuel, rfl⟩ := Nat.exists_eq_add_one_of_ne_zero (Nat.ne_zero_of_lt enough)
    simp [readText?]
  | cons c cs ih =>
    obtain ⟨fuel, rfl⟩ := Nat.exists_eq_add_one_of_ne_zero (Nat.ne_zero_of_lt enough)
    rw [List.flatMap_cons, List.append_assoc, readText?_writtenChar,
      ih (c :: done) (Nat.lt_of_succ_lt_succ enough), List.reverse_cons, List.append_assoc,
      List.singleton_append]

theorem readText?_text {fuel : Nat} (s : String) (enough : s.toList.length < fuel)
    (rest : List Char) :
    readText? fuel [] (s.toList.flatMap writtenChar ++ '"' :: rest) = some (s, rest) := by
  rw [readText?_written [] enough, List.reverse_nil, List.nil_append, String.ofList_toList]

/-! ### Integers -/

/-- What comes behind a number does not go on with it. -/
def Ends (rest : List Char) : Prop :=
  ∀ c ∈ rest.head?, c.isDigit = false ∧ c ≠ '.' ∧ c ≠ 'e' ∧ c ≠ 'E'

theorem readDigits_append (digits : ∀ c ∈ cs, c.isDigit = true)
    (ends : ∀ c ∈ rest.head?, c.isDigit = false) :
    readDigits (cs ++ rest) = (cs.map fun c => c.toNat - 48, rest) := by
  have stops : rest.takeWhile Char.isDigit = [] ∧ rest.dropWhile Char.isDigit = rest := by
    cases rest with
    | nil => exact ⟨rfl, rfl⟩
    | cons c rest => simp [ends c rfl]
  rw [readDigits, List.takeWhile_append_of_pos digits, List.dropWhile_append_of_pos digits,
    stops.1, stops.2, List.append_nil]
  rfl

theorem readUnsigned?_toDigits (negative : Bool) (n : Nat) (ends : Ends rest) :
    readUnsigned? negative (Nat.toDigits 10 n ++ rest) =
      some (whole (if negative then -n else n), rest) := by
  have stops : rest.head?.any (fun c => c = '.' ∨ c = 'e' ∨ c = 'E') = false := by
    cases rest with
    | nil => rfl
    | cons c rest => simp [(ends c rfl).2]
  have value := Text.ofChars_toDigits n
  rw [Text.ofChars] at value
  rw [readUnsigned?, readDigits_append (Text.isDigit_toDigits n) fun c head => (ends c head).1]
  simp only [List.isEmpty_iff, List.map_eq_nil_iff, Nat.toDigits_ne_nil, stops, value, if_false,
    Bool.false_eq_true]
  rfl

theorem isDigit_of_mem_head? (some : cs ≠ []) (digits : ∀ c ∈ cs, c.isDigit = true) :
    ∀ c ∈ (cs ++ rest).head?, c.isDigit = true := by
  intro c head
  rw [List.head?_append_of_ne_nil cs some] at head
  exact digits c (List.mem_of_mem_head? head)

/-- Digits are no sign. -/
theorem readNumber?_of_isDigit (digit : ∀ c ∈ cs.head?, c.isDigit = true) :
    readNumber? cs = readUnsigned? false cs := by
  unfold readNumber?
  split
  next => exact absurd (digit '-' rfl) (by decide)
  next => rfl

theorem readNumber?_whole (z : Int) (ends : Ends rest) :
    readNumber? ((toString z).toList ++ rest) = some (whole z, rest) := by
  cases z with
  | ofNat n =>
    change readNumber? (n.repr.toList ++ rest) = _
    rw [Nat.toList_repr, readNumber?_of_isDigit, readUnsigned?_toDigits false n ends]
    · rfl
    · exact isDigit_of_mem_head? Nat.toDigits_ne_nil (Text.isDigit_toDigits n)
  | negSucc n =>
    change readNumber? (("-" ++ (n + 1).repr).toList ++ rest) = _
    rw [String.toList_append, Nat.toList_repr]
    exact readUnsigned?_toDigits true (n + 1) ends

end Document

end HypercubeSum
