import HypercubeSum.Proofs.Arithmetic.Orders
import HypercubeSum.Proofs.Arithmetic.Residue
import HypercubeSum.Proofs.Multilinear.Tables
import HypercubeSum.Proofs.Text.Numerals
import HypercubeSum.Record.Codec

/-!
# Stored forms are read back

Canonical elements of a field, lists and tables of them and messages are read as what they were,
provided that the order of the field has no more digits than a numeral may have.
-/

namespace HypercubeSum

/-- The order of the field can be read from its decimal digits, and so can the elements. -/
def Modulus.Storable (F : Modulus) : Prop := F.val < 10 ^ mostDigits

/-- The standard field is far below the bound. -/
theorem Modulus.storable_standard : Modulus.standard.Storable :=
  Nat.lt_of_lt_of_le (by decide : Modulus.standard.val < 10 ^ 77)
    (Nat.pow_le_pow_right (by decide) (by decide))

theorem Document.integer_toString {n : Nat} (few : n < 10 ^ mostDigits) :
    (Document.text (toString n)).integer = .ok (n : Int) := by
  rw [integer, integerOfText, Text.numeral_toString (by decide) few]

theorem Document.checkCount_whole (n : Nat) : (Document.whole n).checkCount = .ok () := by
  simp [checkCount, isNumber, isBelow, ratio?, integral?]

theorem Document.cubeVariables_whole (n : Nat) : (Document.whole n).cubeVariables = .ok n := by
  rw [cubeVariables, bind_of_eq_ok (checkCount_whole n), integral?]
  rfl

/-- The order of a field is read as the field, if the field is admitted. -/
theorem Modulus.ofDocument_toDocument {F : Modulus} (storable : F.Storable)
    (admitted : Modulus.ofInt F.val = .ok F) : Modulus.ofDocument F.toDocument = .ok F := by
  rw [Modulus.toDocument, Modulus.ofDocument, Document.integer_toString storable]
  · exact admitted
  · simp

variable {F : Modulus}

/-- The order is stored as a numeral, and read back if it has few digits. -/
theorem Modulus.storable_of_ofInt {z : Int} (few : z.natAbs < 10 ^ mostDigits)
    (h : Modulus.ofInt z = .ok F) : F.Storable ∧ Modulus.ofInt F.val = .ok F := by
  have order := Modulus.natCast_val_of_ofInt h
  constructor
  · rw [← order, Int.natAbs_natCast] at few
    exact few
  · rwa [order]

namespace Scalar

theorem ofDocument_toDocument (storable : F.Storable) {v : Scalar} (known : v.CanonicalIn F) :
    ofDocument F v.toDocument = .ok v := by
  have small : (v.residue F).val < 10 ^ mostDigits := Nat.lt_trans (ZMod.val_lt _) storable
  have integer : v.toDocument.integer = .ok ((v.residue F).val : Int) := by
    rw [known.eq_embed, F.residue_embed]
    exact Document.integer_toString small
  rw [ofDocument, bind_of_eq_ok integer]
  exact congrArg Except.ok ((F.ofInt_eq_embed _).trans (by simp [← known.eq_embed]))

theorem listOfDocument_listToDocument (storable : F.Storable) {values : List Scalar}
    (known : ∀ v ∈ values, v.CanonicalIn F) :
    listOfDocument F (listToDocument values) = .ok values :=
  mapM_map_self fun v member => ofDocument_toDocument storable (known v member)

end Scalar

def DenseTable.CanonicalIn (F : Modulus) (t : DenseTable) : Prop :=
  t.field = F ∧ ∀ v ∈ t.values, v.CanonicalIn F

def SparseTable.CanonicalIn (F : Modulus) (t : SparseTable) : Prop :=
  t.field = F ∧ ∀ e ∈ t.entries, e.2.CanonicalIn F

theorem DenseTable.ofDocument_listToDocument (storable : F.Storable) {t : DenseTable}
    (known : t.CanonicalIn F) :
    DenseTable.ofDocument F (Scalar.listToDocument t.values) = .ok t := by
  rw [ofDocument, bind_of_eq_ok (Scalar.listOfDocument_listToDocument storable known.2)]
  obtain ⟨t', made, arity, field, values⟩ :=
    ofValues_ok t.length_values fun v member => (known.2 v member).1
  rw [made]
  cases t
  cases t'
  cases arity
  cases values
  cases field
  cases known.1
  rfl

theorem messagesOfDocument_messagesToDocument (storable : F.Storable)
    {messages : List RoundMessage} (known : ∀ message ∈ messages, ∀ v ∈ message, v.CanonicalIn F) :
    messagesOfDocument F (messagesToDocument messages) = .ok messages :=
  mapM_map_self fun message member =>
    Scalar.listOfDocument_listToDocument storable (known message member)

theorem Proof.ofDocument_toDocument (storable : F.Storable) {proof : Proof}
    (known : ∀ message ∈ proof.messages, ∀ v ∈ message, v.CanonicalIn F) :
    Proof.ofDocument F proof.toDocument = .ok proof := by
  rw [Proof.ofDocument, Proof.toDocument,
    bind_of_eq_ok (messagesOfDocument_messagesToDocument storable known)]
  rfl

theorem SubClaim.ofDocument_toDocument (storable : F.Storable) {claim : SubClaim}
    (point : ∀ v ∈ claim.point, v.CanonicalIn F) (expected : claim.expected.CanonicalIn F) :
    SubClaim.ofDocument F claim.toDocument = .ok claim := by
  have first : claim.toDocument.field "point" = .ok (Scalar.listToDocument claim.point) := rfl
  have second : claim.toDocument.field "expected_evaluation" = .ok claim.expected.toDocument := rfl
  rw [SubClaim.ofDocument, bind_of_eq_ok first,
    bind_of_eq_ok (Scalar.listOfDocument_listToDocument storable point), bind_of_eq_ok second,
    bind_of_eq_ok (Scalar.ofDocument_toDocument storable expected)]
  rfl

theorem LayerClaim.ofDocument_toDocument (storable : F.Storable) {claim : LayerClaim}
    (point : ∀ v ∈ claim.point, v.CanonicalIn F) (sum : claim.sum.CanonicalIn F) :
    LayerClaim.ofDocument F claim.toDocument = .ok claim := by
  have first : claim.toDocument.field "g" = .ok (Scalar.listToDocument claim.point) := rfl
  have second : claim.toDocument.field "sum" = .ok claim.sum.toDocument := rfl
  rw [LayerClaim.ofDocument, bind_of_eq_ok first,
    bind_of_eq_ok (Scalar.listOfDocument_listToDocument storable point), bind_of_eq_ok second,
    bind_of_eq_ok (Scalar.ofDocument_toDocument storable sum)]
  rfl

theorem LayerProof.ofDocument_toDocument (storable : F.Storable) {proof : LayerProof}
    (known : ∀ message ∈ proof.first ++ proof.second, ∀ v ∈ message, v.CanonicalIn F) :
    LayerProof.ofDocument F proof.toDocument = .ok proof := by
  have first : proof.toDocument.field "phase1" = .ok (messagesToDocument proof.first) := rfl
  have second : proof.toDocument.field "phase2" = .ok (messagesToDocument proof.second) := rfl
  rw [LayerProof.ofDocument, bind_of_eq_ok first,
    bind_of_eq_ok (messagesOfDocument_messagesToDocument storable fun message member =>
      known message (List.mem_append_left _ member)),
    bind_of_eq_ok second,
    bind_of_eq_ok (messagesOfDocument_messagesToDocument storable fun message member =>
      known message (List.mem_append_right _ member))]
  rfl

theorem LayerSubClaim.ofDocument_toDocument (storable : F.Storable) {claim : LayerSubClaim}
    (u : ∀ v ∈ claim.u, v.CanonicalIn F) (v : ∀ v ∈ claim.v, v.CanonicalIn F)
    (expected : claim.expected.CanonicalIn F) :
    LayerSubClaim.ofDocument F claim.toDocument = .ok claim := by
  have first : claim.toDocument.field "u" = .ok (Scalar.listToDocument claim.u) := rfl
  have second : claim.toDocument.field "v" = .ok (Scalar.listToDocument claim.v) := rfl
  have third : claim.toDocument.field "expected_evaluation" = .ok claim.expected.toDocument := rfl
  rw [LayerSubClaim.ofDocument, bind_of_eq_ok first,
    bind_of_eq_ok (Scalar.listOfDocument_listToDocument storable u), bind_of_eq_ok second,
    bind_of_eq_ok (Scalar.listOfDocument_listToDocument storable v), bind_of_eq_ok third,
    bind_of_eq_ok (Scalar.ofDocument_toDocument storable expected)]
  rfl

end HypercubeSum
