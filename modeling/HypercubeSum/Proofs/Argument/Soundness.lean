import Mathlib.Algebra.Order.BigOperators.Group.Finset
import HypercubeSum.Argument
import HypercubeSum.Proofs.Polynomial.Evaluation
import HypercubeSum.Proofs.Round.Settling

/-!
# Soundness of the sum argument

A prover that claims a wrong sum may choose every message from the challenges before it. For the
verifier to be left with a true claim some message has to deviate from the honest one and agree with
it at its challenge, which is one of few values once the challenges before it are known. So few
vectors of challenges fool the verifier.
-/

namespace HypercubeSum

section Duel

variable {σ : Type} [Challenger σ]

/-- The rounds of the verifier against a prover that chooses every message from the challenges so
far. -/
def duelRounds (strategy : List Scalar → RoundMessage) : Nat → Verifier → Run σ Verifier
  | 0, verifier => return verifier
  | rounds + 1, verifier => do
    let (_, verifier, later) ← verifier.receive (strategy verifier.challenges) (← get)
    set later
    duelRounds strategy rounds verifier

/-- All rounds of the verifier against such a prover, which are then settled. -/
def duel (strategy : List Scalar → RoundMessage) (shape : Shape) (claimed : Scalar) :
    Run σ SubClaim := do
  let verifier ← duelRounds strategy shape.numVariables.toNat (← Verifier.start shape)
  (verifier.settle claimed).2

/-- The challenger that gives these challenges. -/
def answering (F : Modulus) (challenges : List (ZMod F.val)) : RandomChallenger :=
  ⟨F, .scripted (challenges.map fun r => (r.val : Int))⟩

/-- With these challenges the verifier is left with a claim that holds of the polynomial. -/
def fools (F : Modulus) (strategy : List Scalar → RoundMessage) (p : SumOfProducts)
    (claimed : Scalar) (challenges : List (ZMod F.val)) : Bool :=
  match (Run.start (duel strategy p.shape claimed) (answering F challenges)).1 with
  | .ok sub =>
    match p.evaluate sub.point with
    | .ok value => value.equals sub.expected
    | .error _ => false
  | .error _ => false

end Duel

variable {F : Modulus}

/-- The messages that the prover chooses when these are the challenges after those seen. -/
def chosen (F : Modulus) (strategy : List Scalar → RoundMessage) (seen : List (ZMod F.val)) :
    List (ZMod F.val) → List RoundMessage
  | [] => []
  | r :: rest => strategy (seen.map F.embed) :: chosen F strategy (seen ++ [r]) rest

@[simp] theorem length_chosen (strategy : List Scalar → RoundMessage)
    (seen challenges : List (ZMod F.val)) :
    (chosen F strategy seen challenges).length = challenges.length := by
  induction challenges generalizing seen with
  | nil => rfl
  | cons r rest ih => rw [chosen, List.length_cons, ih, List.length_cons]

/-- A message depends on the challenges before it only. -/
theorem getElem?_chosen (strategy : List Scalar → RoundMessage)
    (seen challenges : List (ZMod F.val)) {k : Nat} (inside : k < challenges.length) :
    (chosen F strategy seen challenges)[k]? =
      some (strategy ((seen ++ challenges.take k).map F.embed)) := by
  induction challenges generalizing seen k with
  | nil => exact absurd inside (Nat.not_lt_zero k)
  | cons r rest ih =>
    cases k with
    | zero => simp [chosen]
    | succ k => simpa [chosen] using ih (seen ++ [r]) (by simpa using inside)

theorem mem_chosen {strategy : List Scalar → RoundMessage} {seen challenges : List (ZMod F.val)}
    {message : RoundMessage} (member : message ∈ chosen F strategy seen challenges) :
    ∃ before, message = strategy before := by
  induction challenges generalizing seen with
  | nil => cases member
  | cons r rest ih =>
    rcases List.mem_cons.1 member with here | later
    · exact ⟨_, here⟩
    · exact ih later

theorem squeeze_answering (r : ZMod F.val) (rest : List (ZMod F.val)) :
    ((Challenger.squeeze (answering F (r :: rest))).1 : Scalar) = F.embed r ∧
      (Challenger.squeeze (answering F (r :: rest))).2 = answering F rest := by
  refine ⟨?_, rfl⟩
  have small : ((r.val : Int) % F.val).toNat = r.val := by
    rw [← Int.natCast_mod, Int.toNat_natCast, Nat.mod_eq_of_lt (ZMod.val_lt r)]
  change Scalar.element (Element.ofInt F (((r.val : Int) % F.val).toNat : Nat)) = _
  rw [small, F.ofInt_eq_embed, Int.cast_natCast, ZMod.natCast_zmod_val]

/-- The verifier records the chosen messages with the challenges. -/
theorem start_duelRounds (strategy : List Scalar → RoundMessage) {n m : Nat}
    (received : List RoundMessage) (seen : List (ZMod F.val)) {challenges : List (ZMod F.val)}
    (fits : received.length + challenges.length = n) :
    Run.start (duelRounds strategy challenges.length
        (Verifier.recorded n m received (seen.map F.embed))) (answering F challenges) =
      (.ok (Verifier.recorded n m (received ++ chosen F strategy seen challenges)
        ((seen ++ challenges).map F.embed)), answering F []) := by
  induction challenges generalizing received seen with
  | nil => simp [duelRounds, chosen]
  | cons r rest ih =>
    rw [List.length_cons] at fits
    have missing : received.length < n := by omega
    obtain ⟨drawn, later⟩ := squeeze_answering r rest
    have run := ih (received ++ [strategy (seen.map F.embed)]) (seen ++ [r])
      (by rw [List.length_append, List.length_singleton]; omega)
    rw [List.map_append, List.map_singleton] at run
    have own : (Verifier.recorded n m received (seen.map F.embed)).challenges =
        seen.map F.embed := rfl
    simp only [List.length_cons, duelRounds, Run.start_bind, Run.start_get, Run.start_lift, own,
      Verifier.receive_recorded missing, Run.start_set, drawn, later, run, chosen,
      List.append_assoc, List.singleton_append]

section Counting

variable {K : Type} [Fintype K] [DecidableEq K] {n m : Nat}

omit [Fintype K] [DecidableEq K] in
theorem take_ofFn_congr {r s : Fin n → K} {k : Nat} (same : ∀ i : Fin n, i.val < k → r i = s i) :
    (List.ofFn r).take k = (List.ofFn s).take k := by
  apply List.ext_getElem
  · simp
  · intro i insideR insideS
    have bounds : i < k ∧ i < n := by simpa using insideR
    simpa using same ⟨i, bounds.2⟩ bounds.1

/-- If, whatever comes before it, only `m` values of coordinate `k` are bad, then few vectors have a
bad coordinate there: the other coordinates are free. -/
theorem card_bad_coordinate_le (k : Fin n) (bad : List K → K → Prop)
    [∀ before, DecidablePred (bad before)]
    (few : ∀ before, (Finset.univ.filter (bad before)).card ≤ m) :
    (Finset.univ.filter fun r : Fin n → K => bad ((List.ofFn r).take k) (r k)).card ≤
      m * Fintype.card K ^ (n - 1) := by
  obtain ⟨n, rfl⟩ : ∃ l, n = l + 1 := ⟨n - 1, by have := k.isLt; omega⟩
  let others (r : Fin (n + 1) → K) : Fin n → K := fun j => r (k.succAbove j)
  have agree {r s : Fin (n + 1) → K} (same : others r = others s) (i : Fin (n + 1)) (ne : i ≠ k) :
      r i = s i := by
    obtain ⟨j, rfl⟩ := Fin.exists_succAbove_eq ne
    exact congrFun same j
  have fibre (b : Fin n → K) : ((Finset.univ.filter fun r : Fin (n + 1) → K =>
      bad ((List.ofFn r).take k) (r k)).filter fun r => others r = b).card ≤ m := by
    -- Within a fibre all vectors agree before coordinate `k`, and that coordinate tells them apart.
    by_cases empty : ∃ r : Fin (n + 1) → K, others r = b
    · obtain ⟨s, image⟩ := empty
      refine le_trans (Finset.card_le_card_of_injOn (fun r => r k) ?_ ?_)
        (few ((List.ofFn s).take k))
      · intro r member
        obtain ⟨isBad, same⟩ := Finset.mem_filter.1 member
        have before : (List.ofFn r).take k = (List.ofFn s).take k :=
          take_ofFn_congr fun i low => agree (same.trans image.symm) i (Fin.ne_of_lt low)
        have own := (Finset.mem_filter.1 isBad).2
        rw [before] at own
        exact Finset.mem_filter.2 ⟨Finset.mem_univ _, own⟩
      · intro r memberR s memberS sameK
        have sameR := (Finset.mem_filter.1 memberR).2
        have sameS := (Finset.mem_filter.1 memberS).2
        funext i
        by_cases here : i = k
        · rw [here]
          exact sameK
        · exact agree (sameR.trans sameS.symm) i here
    · rw [Finset.card_eq_zero.2]
      · exact Nat.zero_le m
      · exact Finset.filter_eq_empty_iff.2 fun r _ image => empty ⟨r, image⟩
  have total := Finset.card_le_mul_card_image_of_maps_to (f := others) (t := Finset.univ)
    (fun r _ => Finset.mem_univ _) m fun b _ => fibre b
  simpa [Fintype.card_fun] using total

end Counting

section Sound

variable [Fact F.val.Prime] {p : SumOfProducts} {claimed : Scalar}
  {strategy : List Scalar → RoundMessage}

omit [Fact F.val.Prime] in
/-- Challenges that fool the verifier settle the chosen messages, with the value of the polynomial
at them left to be shown. -/
theorem settled_of_fools (known : p.WellFormed) (lies : p.LiesIn F) (some : p.terms ≠ [])
    (rounds : 0 < p.numVariables) {challenges : List (ZMod F.val)}
    (whole : challenges.length = p.numVariables)
    (fooled : fools F strategy p claimed challenges = true) :
    ∃ final, Verifier.settleRounds (p.maxFactors + 1) 1 claimed (chosen F strategy [] challenges)
        (challenges.map F.embed) = .ok final ∧
      final.residue F = p.residueAt F challenges := by
  have start : Verifier.start p.shape = .ok (Verifier.recorded p.numVariables p.maxFactors [] []) :=
    Verifier.start_eq rounds (known.maxFactors_pos some)
  have run := start_duelRounds (m := p.maxFactors) strategy [] [] (by simpa using whole)
  have count : p.shape.numVariables.toNat = challenges.length := by
    rw [whole]
    exact Int.toNat_natCast _
  have evaluated := SumOfProducts.evaluate_eq known lies some
    (Cube.inField_map_embed challenges) (by simpa using whole)
  rw [F.map_residue_map_embed] at evaluated
  have chosenWhole : (chosen F strategy [] challenges).length = p.numVariables := by
    simpa using whole
  simp only [List.map_nil, List.nil_append] at run
  simp only [fools, duel, Run.start_bind, Run.start_lift, start, count, run,
    Verifier.settle_recorded chosenWhole] at fooled
  cases settled : Verifier.settleRounds (p.maxFactors + 1) 1 claimed
      (chosen F strategy [] challenges) (challenges.map F.embed) with
  | error fault =>
    rw [settled] at fooled
    cases fooled
  | ok final =>
    rw [settled] at fooled
    simp only [Except.map, evaluated] at fooled
    have same := Scalar.residue_eq_of_equals (p := F) fooled
    rw [F.residue_embed] at same
    exact ⟨final, rfl, same.symm⟩

/-- After these challenges the chosen message has the right length and deviates at the challenge to
it, in a field with enough elements to interpolate. -/
def BadChallenge (F : Modulus) [Fact F.val.Prime] (strategy : List Scalar → RoundMessage)
    (p : SumOfProducts) (before : List (ZMod F.val)) (r : ZMod F.val) : Prop :=
  let sent := (strategy (before.map F.embed)).map (Scalar.residue F)
  p.maxFactors + 1 ≤ F.val ∧ sent.length = p.maxFactors + 1 ∧
    Deviates (p.residueAt F) p.maxFactors (p.numVariables - before.length - 1) before sent r

/-- Fooling the verifier takes a bad challenge in some round. -/
theorem exists_badChallenge_of_fools (known : p.WellFormed) (lies : p.LiesIn F)
    (some : p.terms ≠ []) (rounds : 0 < p.numVariables)
    (messages : ∀ seen, InField F (strategy seen))
    (wrong : (F.embed (Cube.sumOver (p.residueAt F) p.numVariables [])).equals claimed = false)
    {challenges : List (ZMod F.val)} (whole : challenges.length = p.numVariables)
    (fooled : fools F strategy p claimed challenges = true) :
    ∃ k, ∃ inside : k < challenges.length,
      BadChallenge F strategy p (challenges.take k) challenges[k] := by
  obtain ⟨final, settled, right⟩ := settled_of_fools known lies some rounds whole fooled
  have inField : ∀ message ∈ chosen F strategy [] challenges, InField F message := by
    intro message member
    obtain ⟨before, rfl⟩ := mem_chosen member
    exact messages before
  have first : p.maxFactors + 1 ≤ F.val ∧
      claimed.residue F ≠ Cube.sumOver (p.residueAt F) p.numVariables [] := by
    match challenges, whole with
    | [], whole => exact absurd whole (Nat.ne_of_lt rounds)
    | r :: rest, whole =>
      rw [chosen, List.map_cons] at settled
      exact ⟨Verifier.count_le_of_settleRounds (F.field?_embed r) settled,
        Verifier.residue_ne_of_settleRounds (messages _) wrong settled⟩
  have chain := Verifier.settles_of_settleRounds first.1 inField (by simp) settled
  obtain ⟨k, inside, deviates⟩ := chain.deviatesIn known.degreeAtMost first.1
    (known.maxFactors_pos some) [] (by rw [whole]; exact first.2) right
  have sent : ((chosen F strategy [] challenges).map (List.map (Scalar.residue F))).getD k [] =
      (strategy ((challenges.take k).map F.embed)).map (Scalar.residue F) := by
    simp [List.getD_eq_getElem?_getD, getElem?_chosen strategy [] challenges inside]
  have length := chain.length_getD inside
  have before : (challenges.take k).length = k := by
    rw [List.length_take]
    omega
  have challenge : challenges.getD k 0 = challenges[k] := by
    simp [List.getD_eq_getElem?_getD, inside]
  rw [sent] at deviates length
  rw [whole, List.nil_append, challenge] at deviates
  refine ⟨k, inside, first.1, length, ?_⟩
  rw [before]
  exact deviates

open Classical in
theorem card_badChallenge_le (before : List (ZMod F.val)) :
    (Finset.univ.filter (BadChallenge F strategy p before)).card ≤ p.maxFactors := by
  by_cases some : ∃ r, BadChallenge F strategy p before r
  · obtain ⟨-, few, length, -⟩ := some
    refine le_trans (Finset.card_le_card fun r member => ?_)
      (card_deviates_le (p.residueAt F) (p.numVariables - before.length - 1) before length few)
    exact Finset.mem_filter.2 ⟨Finset.mem_univ _, (Finset.mem_filter.1 member).2.2.2⟩
  · rw [Finset.filter_eq_empty_iff.2 fun r _ bad => some ⟨r, bad⟩]
    exact Nat.zero_le _

/--
A prover that claims a wrong sum, whatever it chooses its messages by, fools the verifier for at
most `n * m * p ^ (n - 1)` of the `p ^ n` vectors of challenges, with `n` variables and `m` factors
in the longest product.
-/
theorem sum_sound (built : Built p) (lies : p.LiesIn F) (some : p.terms ≠ [])
    (rounds : 0 < p.numVariables) (messages : ∀ seen, InField F (strategy seen)) {total : Scalar}
    (sum : p.total = .ok total) (wrong : total.equals claimed = false) :
    (Finset.univ.filter fun r : Fin p.numVariables → ZMod F.val =>
        fools F strategy p claimed (List.ofFn r) = true).card ≤
      p.numVariables * p.maxFactors * F.val ^ (p.numVariables - 1) := by
  classical
  have known := built.wellFormed
  obtain rfl : F.embed (Cube.sumOver (p.residueAt F) p.numVariables []) = total :=
    Except.ok.inj ((SumOfProducts.total_eq known lies some).symm.trans sum)
  let bad (k : Fin p.numVariables) : Finset (Fin p.numVariables → ZMod F.val) :=
    Finset.univ.filter fun r => BadChallenge F strategy p ((List.ofFn r).take k) (r k)
  have covered : (Finset.univ.filter fun r : Fin p.numVariables → ZMod F.val =>
      fools F strategy p claimed (List.ofFn r) = true) ⊆ Finset.univ.biUnion bad := by
    intro r member
    obtain ⟨k, inside, isBad⟩ := exists_badChallenge_of_fools known lies some rounds messages wrong
      List.length_ofFn (Finset.mem_filter.1 member).2
    rw [List.getElem_ofFn] at isBad
    rw [List.length_ofFn] at inside
    exact Finset.mem_biUnion.2 ⟨⟨k, inside⟩, Finset.mem_univ _,
      Finset.mem_filter.2 ⟨Finset.mem_univ _, isBad⟩⟩
  have each (k : Fin p.numVariables) :
      (bad k).card ≤ p.maxFactors * F.val ^ (p.numVariables - 1) := by
    have few := card_bad_coordinate_le k (BadChallenge F strategy p) card_badChallenge_le
    rwa [ZMod.card] at few
  calc
    _ ≤ (Finset.univ.biUnion bad).card := Finset.card_le_card covered
    _ ≤ (Finset.univ : Finset (Fin p.numVariables)).card *
        (p.maxFactors * F.val ^ (p.numVariables - 1)) :=
      Finset.card_biUnion_le_card_mul _ _ _ fun k _ => each k
    _ = p.numVariables * p.maxFactors * F.val ^ (p.numVariables - 1) := by
      rw [Finset.card_univ, Fintype.card_fin, Nat.mul_assoc]

/-- Claiming zero with zeros as messages fools the verifier of a square, whose sum is one, for at
most two of the five challenges. -/
theorem sum_sound_squareOverFive :
    let zeros : RoundMessage := [fiveElements.zero, fiveElements.zero, fiveElements.zero]
    squareOverFive.total = .ok fiveElements.one ∧
      fiveElements.one.equals fiveElements.zero = false ∧
      (Finset.univ.filter fun r : Fin squareOverFive.numVariables → ZMod fiveElements.val =>
        fools fiveElements (fun _ => zeros) squareOverFive fiveElements.zero
          (List.ofFn r) = true).card ≤ 2 := by
  intro zeros
  have messages : InField fiveElements zeros := by
    intro v member
    rw [List.eq_of_mem_replicate (n := 3) member]
    rfl
  have sum : squareOverFive.total = .ok fiveElements.one := by decide
  have wrong : fiveElements.one.equals fiveElements.zero = false := by decide
  exact ⟨sum, wrong, sum_sound squareOverFive_built squareOverFive_liesIn (by decide) (by decide)
    (fun _ => messages) sum wrong⟩

end Sound

end HypercubeSum
