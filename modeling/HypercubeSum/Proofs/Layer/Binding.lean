import HypercubeSum.Proofs.Transcript.Binding

/-!
# What the challenges of a verifier are bound to

The string absorbed when a verifier draws a challenge starts with what stands before the rounds, the
shape of the polynomial or the claim about a layer, and goes on with the messages so far. It can be
read back from the front, so no two verifiers that differ in any of this draw a challenge from the
same string (`challenges_bound`).
-/

namespace HypercubeSum

open Challenger

structure LayerClaim.CanonicalIn (F : Modulus) (claim : LayerClaim) : Prop where
  point : ∀ v ∈ claim.point, v.CanonicalIn F
  sum : claim.sum.CanonicalIn F

namespace Watched

variable {hash : HashFunction} {F : Modulus} {i : Nat} {string : Bytes}

/-- Before any string can be written down, the message in front is taken in. -/
theorem drawn_absorb {α : Type} {message : Message} {run : Run (Watched hash) α}
    {w : Watched hash} (none : w.drawn = [])
    (found : (Run.start (absorb message >>= fun _ => run) w).2.drawn[i]? = some string) :
    ∃ heard, feed message w = .ok heard ∧ heard.drawn = [] ∧
      (Run.start run heard).2.drawn[i]? = some string := by
  rw [Run.start_bind] at found
  cases fed : feed message w with
  | error fault =>
    rw [start_absorb_refused fed] at found
    simp [none] at found
  | ok heard =>
    rw [start_absorb fed] at found
    exact ⟨heard, rfl, (feed_eq_ok fed).1.trans none, found⟩

/-- At the challenge of a round, the shape and the messages so far have been absorbed. -/
theorem drawn_verify {shape : Shape} {claimed : Scalar} {proof : Proof} {field? : Option Modulus}
    (own : field?.elim proof.field .ok = .ok F)
    (found : (verify hash shape claimed proof field?).2[i]? = some string) :
    i < proof.messages.length ∧ ∃ front rest, shape.toBytes = .ok front ∧ string = front ++ rest ∧
      Asked F (proof.messages.take (i + 1)) rest := by
  rw [verify, own] at found
  simp only [watch_snd, verifyShared] at found
  split at found
  · simp [fresh] at found
  · obtain ⟨heard, fed, none, found⟩ := drawn_absorb rfl found
    obtain ⟨-, field, front, written, content⟩ := feed_eq_ok fed
    obtain ⟨strings, later, -⟩ := heard_verifyPhase shape proof.messages (F.adopt claimed) field
    rw [later.drawn, none] at found
    obtain ⟨rest, rfl, asked⟩ := later.asked i string found
    refine ⟨later.lt_length found, front, rest, written, ?_, asked⟩
    rw [content]
    rfl

/-- Both phases feed their messages one after the other. -/
theorem heard_verifyLayer {w : Watched hash} (dimension : Int) (proof : LayerProof)
    (claimed : Scalar) (field : w.transcript.field = F) :
    ∃ strings, Heard F w (Run.start (Layer.verify dimension proof claimed) w).2
      (proof.first ++ proof.second) strings := by
  rw [Layer.verify, Run.start_bind, Run.start_lift]
  cases Layer.checkShape dimension proof with
  | error fault => exact ⟨[], .refl field _⟩
  | ok =>
    obtain ⟨strings, heard, success⟩ :=
      heard_verifyPhase (Layer.phaseShape dimension) proof.first claimed field
    simp only [Run.start_bind]
    generalize Run.start (verifyPhase (Layer.phaseShape dimension) proof.first claimed) w = phase
      at heard success
    obtain ⟨_ | first, middle⟩ := phase
    · exact ⟨strings, heard.more proof.second⟩
    · obtain ⟨strings', later, -⟩ := heard_verifyPhase (Layer.phaseShape dimension) proof.second
        first.expected heard.field
      refine ⟨strings ++ strings', ?_⟩
      have both := (success first rfl).trans later
      simp only
      generalize Run.start (verifyPhase (Layer.phaseShape dimension) proof.second first.expected)
        middle = phase at both
      obtain ⟨_ | second, final⟩ := phase
      · exact both
      · exact both

/-- At any challenge about a layer, the point, the sum and the messages of both phases so far have
been absorbed. -/
theorem drawn_verifyClaim {claim : LayerClaim} {proof : LayerProof} (known : claim.CanonicalIn F)
    (found : (verifyClaim hash claim proof).2[i]? = some string) :
    i < (proof.first ++ proof.second).length ∧ ∃ point rest, Bytes.Counted F claim.point point ∧
      string = point ++ (Bytes.ofCanonical F claim.sum ++ rest) ∧
      Asked F ((proof.first ++ proof.second).take (i + 1)) rest := by
  have own : claim.sum.field?.getD .standard = F := by rw [known.sum.1, Option.getD_some]
  rw [verifyClaim, own, watch_snd, Layer.absorbClaim, bind_assoc] at found
  obtain ⟨heard, fed, none, found⟩ := drawn_absorb rfl found
  obtain ⟨heard', fed', none', found⟩ := drawn_absorb none found
  obtain ⟨-, field, point, written, content⟩ := feed_eq_ok fed
  obtain ⟨-, field', sum, written', content'⟩ := feed_eq_ok fed'
  rw [Message.toBytes_scalar known.sum] at written'
  cases written'
  obtain ⟨strings, later⟩ :=
    heard_verifyLayer claim.dimension proof claim.sum (field'.trans field)
  rw [later.drawn, none'] at found
  obtain ⟨rest, rfl, asked⟩ := later.asked i string found
  refine ⟨later.lt_length found, point, rest, Message.counted_of_sequence known.point written, ?_,
    asked⟩
  rw [content', content, List.append_assoc]
  rfl

end Watched

theorem canonicalMessages_messageOverFive (lists : List (List Int)) :
    CanonicalMessages fiveElements (lists.map messageOverFive) := by
  intro message member
  obtain ⟨values, -, rfl⟩ := List.mem_map.1 member
  exact canonical_messageOverFive values

/--
For any hash function and any field, the string absorbed at the challenge of a round tells which
round it is, what stands before the rounds, and all messages so far. It does so for verified sums of
any shapes and proofs, and for verified claims about layers in both phases. Writing these strings
down changes no outcome.
-/
theorem challenges_bound (hash : HashFunction) (F : Modulus) :
    (∀ (shape : Shape) (claimed : Scalar) (proof : Proof) (field? : Option Modulus),
      (Watched.verify hash shape claimed proof field?).1 = verify hash shape claimed proof field?) ∧
    (∀ (claim : LayerClaim) (proof : LayerProof), claim.CanonicalIn F →
      (Watched.verifyClaim hash claim proof).1 = Layer.verifyClaim hash claim proof) ∧
    (∀ (shape shape' : Shape) (claimed claimed' : Scalar) (proof proof' : Proof)
        (field? field?' : Option Modulus) (i j : Nat) (string : Bytes),
      field?.elim proof.field .ok = .ok F → field?'.elim proof'.field .ok = .ok F →
      CanonicalMessages F proof.messages → CanonicalMessages F proof'.messages →
      (Watched.verify hash shape claimed proof field?).2[i]? = some string →
      (Watched.verify hash shape' claimed' proof' field?').2[j]? = some string →
      i = j ∧ shape = shape' ∧ proof.messages.take (i + 1) = proof'.messages.take (j + 1)) ∧
    ∀ (claim claim' : LayerClaim) (proof proof' : LayerProof) (i j : Nat) (string : Bytes),
      claim.CanonicalIn F → claim'.CanonicalIn F →
      CanonicalMessages F (proof.first ++ proof.second) →
      CanonicalMessages F (proof'.first ++ proof'.second) →
      (Watched.verifyClaim hash claim proof).2[i]? = some string →
      (Watched.verifyClaim hash claim' proof').2[j]? = some string →
      i = j ∧ claim = claim' ∧
        (proof.first ++ proof.second).take (i + 1) =
          (proof'.first ++ proof'.second).take (j + 1) := by
  refine ⟨Watched.verify_fst, ?_, ?_, ?_⟩
  · intro claim proof known
    exact Watched.verifyClaim_fst (by rw [known.sum.1]; rfl) proof
  · intro shape shape' claimed claimed' proof proof' field? field?' i j string own own' known known'
      found found'
    obtain ⟨inside, front, rest, written, rfl, asked⟩ := Watched.drawn_verify own found
    obtain ⟨inside', front', rest', written', same, asked'⟩ := Watched.drawn_verify own' found'
    obtain ⟨shapes, rfl⟩ := Shape.toBytes_append_inj written written' same
    obtain ⟨round, messages⟩ := asked.take_eq known known' inside inside' asked'
    exact ⟨round, shapes, messages⟩
  · intro claim claim' proof proof' i j string own own' known known' found found'
    obtain ⟨inside, point, rest, counted, rfl, asked⟩ := Watched.drawn_verifyClaim own found
    obtain ⟨inside', point', rest', counted', same, asked'⟩ :=
      Watched.drawn_verifyClaim own' found'
    obtain ⟨points, behind⟩ := counted.append_inj own.point own'.point counted' same
    obtain ⟨sums, rfl⟩ := Bytes.ofCanonical_append_inj own.sum own'.sum behind
    obtain ⟨round, messages⟩ := asked.take_eq known known' inside inside' asked'
    refine ⟨round, ?_, messages⟩
    cases claim
    cases claim'
    cases points
    cases sums
    rfl

/-- Two proofs that agree in the first message only draw their first challenge from one string. -/
theorem challenges_bound_oneDigest :
    let proof (last : List Int) : Proof := ⟨[[1, 2, 3], last].map messageOverFive⟩
    let claim : LayerClaim := ⟨messageOverFive [1], fiveElements.one⟩
    let layerProof (last : List Int) : LayerProof :=
      ⟨[messageOverFive [0, 1, 0]], [messageOverFive last]⟩
    (∃ string,
      (Watched.verify oneDigest ⟨2, 2⟩ (.integer 3) (proof [0]) none).2[0]? = some string ∧
        (Watched.verify oneDigest ⟨2, 2⟩ (.integer 4) (proof [4, 4]) none).2[0]? = some string ∧
        (proof [0]).messages.take 1 = (proof [4, 4]).messages.take 1) ∧
      ∃ string,
        (Watched.verifyClaim oneDigest claim (layerProof [0, 0, 0])).2[0]? = some string ∧
          (Watched.verifyClaim oneDigest claim (layerProof [1, 1, 1])).2[0]? = some string ∧
          (layerProof [0, 0, 0]).first = (layerProof [1, 1, 1]).first := by
  intro proof claim layerProof
  let string := Bytes.ofNat 8 2 ++ Bytes.ofNat 8 2 ++ (Bytes.ofNat 8 3 ++ [1, 2, 3])
  have first : (Watched.verify oneDigest ⟨2, 2⟩ (.integer 3) (proof [0]) none).2[0]? =
      some string := by decide +kernel
  have second : (Watched.verify oneDigest ⟨2, 2⟩ (.integer 4) (proof [4, 4]) none).2[0]? =
      some string := by decide +kernel
  let string' := Bytes.ofNat 8 1 ++ [1] ++ [1] ++ (Bytes.ofNat 8 3 ++ [0, 1, 0])
  have third : (Watched.verifyClaim oneDigest claim (layerProof [0, 0, 0])).2[0]? =
      some string' := by decide +kernel
  have fourth : (Watched.verifyClaim oneDigest claim (layerProof [1, 1, 1])).2[0]? =
      some string' := by decide +kernel
  have own : claim.CanonicalIn fiveElements :=
    ⟨canonical_messageOverFive [1], fiveElements.canonicalIn_embed 1⟩
  obtain ⟨-, -, sums, layers⟩ := challenges_bound oneDigest fiveElements
  obtain ⟨-, -, same⟩ := sums _ _ _ _ _ _ none none 0 0 string (by decide) (by decide)
    (canonicalMessages_messageOverFive _) (canonicalMessages_messageOverFive _) first second
  obtain ⟨-, -, same'⟩ := layers claim claim (layerProof [0, 0, 0]) (layerProof [1, 1, 1]) 0 0
    string' own own
    (canonicalMessages_messageOverFive [[0, 1, 0], [0, 0, 0]])
    (canonicalMessages_messageOverFive [[0, 1, 0], [1, 1, 1]]) third fourth
  exact ⟨⟨string, first, second, same⟩, string', third, fourth, same'⟩

end HypercubeSum
