import HypercubeSum.Proofs.Argument.Malformed
import HypercubeSum.Proofs.Demo.SumStore

/-!
# Verdicts on a sum

A verdict on a stored proof can always be given, or the claimed sum is refused for the size of the
field. On a proof that was not changed, it goes by the claimed sum: another sum than the stored one is
rejected in the first round, and the stored one is accepted if the field is large enough.
-/

namespace HypercubeSum

variable {F : Modulus} {proof : Proof}

theorem Proof.claimedSum_ok (some : proof.messages ≠ [])
    (two : ∀ message ∈ proof.messages, 2 ≤ message.length) :
    ∃ sum, proof.claimedSum = .ok sum := by
  obtain ⟨messages⟩ := proof
  match messages, some with
  | first :: rest, _ =>
    match first, two first List.mem_cons_self with
    | a :: b :: others, _ => exact ⟨a + b, rfl⟩

/-- Adding to the values leaves the lengths of the messages as they are. -/
theorem Proof.length_of_mem_shifted {more : Nat → Nat → Int} {message : RoundMessage}
    (member : message ∈ (proof.shifted F more).messages) :
    ∃ honest ∈ proof.messages, message.length = honest.length := by
  obtain ⟨i, inside, rfl⟩ := List.mem_mapIdx.1 member
  exact ⟨_, List.getElem_mem inside, List.length_mapIdx⟩

namespace Demo.SumPage

variable {hash : HashFunction} {tamperings : List Tampering} {p : SumOfProducts}
  {stored info claimed messages hex : Document}

/-- Adding up the first two values of the first message works whatever was added to them. -/
theorem Proved.claimedSum_ok (proved : Proved hash tamperings F p proof messages hex)
    (loaded : Loaded F p stored info claimed) : ∃ sum, proof.claimedSum = .ok sum := by
  obtain ⟨honest, sent, rfl⟩ := proved.tampered
  obtain ⟨shareable, challenges, whole, rfl⟩ := loaded.honest_of_prove sent
  have positive := shareable.runnable.maxFactors_pos
  refine Proof.claimedSum_ok ?_ fun message member => ?_
  · have some := (loaded.canonicalIn_of_prove sent).2
    simpa [Proof.shifted] using some
  · obtain ⟨other, inside, length⟩ := Proof.length_of_mem_shifted member
    obtain ⟨values, listed, rfl⟩ := List.mem_map.1 inside
    rw [length, List.length_map, length_of_mem_honestMessages listed]
    omega

/-- What the verifier of the page is told is the shape of the polynomial. -/
theorem Loaded.verify_eq (loaded : Loaded F p stored info claimed) (hash : HashFunction)
    (sum : Scalar) (proof : Proof) :
    (StoredSum.ofSum p).shape.verify hash sum proof (Option.some (StoredSum.ofSum p).sum.field) =
      HypercubeSum.verify hash p.shape sum proof (Option.some F) := by
  have field : (StoredSum.ofSum p).sum.field = F := loaded.field
  rw [field]
  exact StoredShape.verify_ofShape p.shape sum proof (Option.some F)

/-- Where a proof is accepted, the stored polynomial has the value of the polynomial. -/
theorem Loaded.evaluate_ok (loaded : Loaded F p stored info claimed) {sum : Scalar} {sub : SubClaim}
    (accepted : HypercubeSum.verify hash p.shape sum proof (Option.some F) = .ok sub) :
    (StoredSum.ofSum p).evaluate sub.point = p.evaluate sub.point ∧
      ∃ value, p.evaluate sub.point = .ok value := by
  obtain ⟨tables, tabular⟩ := loaded.tabular
  obtain ⟨challenges, count, point⟩ := point_of_verify accepted
  have whole : sub.point.length = p.numVariables := by
    rw [point, List.length_map]
    exact Int.ofNat_inj.1 count
  have inField : InField F sub.point := by
    rw [point]
    exact Cube.inField_map_embed challenges
  exact ⟨StoredSum.evaluate_ofSum p _, _, SumOfProducts.evaluate_eq tabular.built.wellFormed
    tabular.liesIn loaded.some inField whole⟩

/-- What the verification of a proof against a claimed sum says of both. -/
inductive Judged (hash : HashFunction) (F : Modulus) (p : SumOfProducts) (sum : Scalar)
    (proof : Proof) : Document → Prop
  /-- The message of a round does not fit. -/
  | rejected {round : Nat}
      (outcome : HypercubeSum.verify hash p.shape sum proof (some F) = .error (.roundRejected round)) :
      Judged hash F p sum proof (.record
        [("status", .text "rejected"), ("round", .whole round),
         ("reason", .text (Fault.roundRejected round).message)])
  /-- All messages fit, and the polynomial has the value that is left to show or another one. -/
  | convinced {sub : SubClaim} {value shown : Scalar}
      (outcome : HypercubeSum.verify hash p.shape sum proof (some F) = .ok sub)
      (evaluated : p.evaluate sub.point = .ok value) (adds : proof.claimedSum = .ok shown) :
      Judged hash F p sum proof (.record
        [("status", .text "convinced"), ("subclaim", sub.toDocument),
         ("evaluation_matches", .truth (value.equals sub.expected)),
         ("expected_short", .text sub.expected.brief), ("proof_sum", shown.toDocument)])

/-- The verdict of the page is what verification says of the polynomial that is stored. -/
theorem judged_of_verdict (loaded : Loaded F p stored info claimed) {sum : Scalar} {d : Document}
    (judged : verdict hash (.ofSum p) sum proof = .ok d) : Judged hash F p sum proof d := by
  rw [verdict, loaded.verify_eq] at judged
  cases outcome : HypercubeSum.verify hash p.shape sum proof (some F) with
  | error fault =>
    rw [outcome] at judged
    cases fault with
    | roundRejected round =>
      cases judged
      exact .rejected outcome
    | _ => cases judged
  | ok sub =>
    rw [outcome] at judged
    obtain ⟨value, evaluated, judged⟩ := bind_eq_ok judged
    obtain ⟨shown, adds, judged⟩ := bind_eq_ok judged
    cases judged
    rw [StoredSum.evaluate_ofSum] at evaluated
    exact .convinced outcome evaluated adds

/-- Whatever was changed in a proof and whatever is claimed, there is a verdict or a refusal. -/
theorem verdict_refuses (loaded : Loaded F p stored info claimed)
    (proved : Proved hash tamperings F p proof messages hex) (sum : Scalar) :
    Refuses (verdict hash (.ofSum p) sum proof) := by
  obtain ⟨honest, sent, -⟩ := proved.tampered
  obtain ⟨shareable, -⟩ := loaded.honest_of_prove sent
  have decided :=
    decided_verify hash shareable.writable_shape (proved.canonicalIn loaded).2 (.inr rfl) sum
  unfold verdict
  rw [loaded.verify_eq]
  cases outcome : HypercubeSum.verify hash p.shape sum proof (Option.some F) with
  | error fault =>
    rw [outcome] at decided
    rcases decided with ⟨_, accepted⟩ | ⟨_, same, told⟩
    · cases accepted
    · cases same
      exact refuses_of_fault told
  | ok sub =>
    obtain ⟨same, value, evaluated⟩ := loaded.evaluate_ok outcome
    obtain ⟨total, added⟩ := proved.claimedSum_ok loaded
    dsimp only
    rw [bind_of_eq_ok (same.trans evaluated), bind_of_eq_ok added]
    exact .ok _

/-- A claimed sum is the stored one if it is congruent to it. -/
theorem equals_iff (storable : F.Storable) {total : ZMod F.val} {s : Int}
    (read : (F.embed total).toDocument.integer = .ok s) (z : Int) :
    (F.embed total).equals (F.embed z) = true ↔ z ≡ s [ZMOD F.val] := by
  have small : total.val < 10 ^ mostDigits := Nat.lt_trans (ZMod.val_lt total) storable
  have again : (F.embed total).toDocument.integer = .ok (total.val : Int) :=
    Document.integer_toString small
  obtain rfl : (total.val : Int) = s := Except.ok.inj (again.symm.trans read)
  rw [Scalar.equals_embed, ← ZMod.intCast_eq_intCast_iff, Int.cast_natCast, ZMod.natCast_zmod_val]
  exact eq_comm

section Unchanged

variable (loaded : Loaded F p stored info claimed)
  (proved : Proved hash tamperings F p proof messages hex)
  (cancel : ∀ i j, (F.val : Int) ∣ added tamperings i j)
include loaded proved cancel

/-- The verification of a proof that is as it was proved ends by the claimed sum. -/
theorem concludes_of_unchanged :
    ∃ (total : ZMod F.val) (challenges : List Scalar),
      claimed = (F.embed total).toDocument ∧ proof.claimedSum = .ok (F.embed total) ∧
        ∀ z : Int, p.Concludes F (F.embed total) (F.embed z) challenges
          (HypercubeSum.verify hash p.shape (Element.ofInt F z) proof (Option.some F)) := by
  obtain ⟨honest, sent, rfl⟩ := proved.tampered
  rw [shifted_of_dvd (loaded.canonicalIn_of_prove sent).1 cancel]
  obtain ⟨shareable, -⟩ := loaded.honest_of_prove sent
  obtain ⟨total, challenges, adds, shows, concludes⟩ := shareable.concludes sent
  obtain ⟨sum, written, -, corners⟩ := loaded.summed
  rw [SumOfProducts.cornerSum_eq shareable.runnable.wellFormed shareable.lies shareable.some, adds]
    at corners
  obtain rfl := Except.ok.inj corners
  refine ⟨total, challenges, written, shows, fun z => ?_⟩
  have same : F.adopt (Element.ofInt F z) = Element.ofInt F z := rfl
  rw [← F.ofInt_eq_embed, ← same]
  exact concludes (Element.ofInt F z)

variable {s : Int} (sum : claimed.integer = .ok s)
include sum

/-- Another sum is rejected in the first round. -/
theorem verdict_wrong {z : Int} (wrong : ¬z ≡ s [ZMOD F.val]) :
    verdict hash (.ofSum p) (Element.ofInt F z) proof =
      .ok (rejectedVerdict 1 (.roundRejected 1)) := by
  obtain ⟨total, challenges, written, -, concludes⟩ := concludes_of_unchanged loaded proved cancel
  have differ : (F.embed total).equals (F.embed z) = false := by
    rw [Bool.eq_false_iff, ne_eq, equals_iff loaded.storable (written ▸ sum)]
    exact wrong
  unfold verdict
  rw [loaded.verify_eq, (concludes z).rejected differ]
  rfl

/-- The stored sum is refused over a field with too few elements for the nodes of the messages. -/
theorem verdict_collided {z : Int} (right : z ≡ s [ZMOD F.val]) (few : F.val < p.maxFactors + 1) :
    verdict hash (.ofSum p) (Element.ofInt F z) proof =
      .error (.nodesCollide p.maxFactors F.val) := by
  obtain ⟨total, challenges, written, -, concludes⟩ := concludes_of_unchanged loaded proved cancel
  have equal := (equals_iff loaded.storable (written ▸ sum) z).2 right
  unfold verdict
  rw [loaded.verify_eq, (concludes z).collided equal few]
  rfl

/-- It is accepted over a larger prime field, with the value that the polynomial has and with the stored
sum as that of the proof. -/
theorem verdict_right {z : Int} (right : z ≡ s [ZMOD F.val]) (prime : F.val.Prime)
    (distinct : p.maxFactors + 1 ≤ F.val) :
    ∃ d, verdict hash (.ofSum p) (Element.ofInt F z) proof = .ok d ∧ Convinced d ∧
      d.field "proof_sum" = .ok claimed := by
  obtain ⟨total, challenges, written, shows, concludes⟩ :=
    concludes_of_unchanged loaded proved cancel
  have equal := (equals_iff loaded.storable (written ▸ sum) z).2 right
  obtain ⟨sub, accepted, point, value⟩ := (concludes z).accepted equal prime distinct
  obtain ⟨same, -⟩ := loaded.evaluate_ok accepted
  have itself : sub.expected.equals sub.expected = true := beq_self_eq_true _
  unfold verdict
  rw [loaded.verify_eq, accepted]
  dsimp only
  rw [bind_of_eq_ok (same.trans value), bind_of_eq_ok shows, itself, ← written]
  exact ⟨_, rfl, ⟨rfl, rfl⟩, rfl⟩

end Unchanged

end Demo.SumPage

end HypercubeSum
