import HypercubeSum.Demo.SumPage
import HypercubeSum.Proofs.Demo.Table
import HypercubeSum.Proofs.Record.Codec
import HypercubeSum.Proofs.Wire.Formats

/-!
# Tampering with a stored proof

A request to tamper names a round, a position and a number to add there. What it does to the stored
messages it does to the proof that they are read as, and several requests add up.
-/

namespace HypercubeSum

/-- Reducing the representative of a canonical element gives the element again. -/
theorem Scalar.CanonicalIn.ofInt_toInt {F : Modulus} {v : Scalar} (known : v.CanonicalIn F) :
    Scalar.element (Element.ofInt F v.toInt) = v := by
  rw [F.ofInt_eq_embed]
  exact known.eq_embed.symm

/-- A function that changes one entry of a list at most. -/
theorem mapIdx_eq_set {α : Type} {f : Nat → α → α} {items : List α} {i : Nat} {a : α}
    (here : ∀ inside : i < items.length, f i items[i] = a)
    (elsewhere : ∀ k, ∀ inside : k < items.length, k ≠ i → f k items[k] = items[k]) :
    items.mapIdx f = items.set i a := by
  refine List.ext_getElem (by simp) fun k inside _ => ?_
  rw [List.length_mapIdx] at inside
  rw [List.getElem_mapIdx, List.getElem_set]
  split
  next same =>
    subst same
    exact here inside
  next other => exact elsewhere k inside fun same => other same.symm

namespace Proof

variable {F : Modulus} {proof : Proof} {more less : Nat → Nat → Int}

/-- A proof with an integer added to each of its values, by message and position. -/
def shifted (F : Modulus) (proof : Proof) (added : Nat → Nat → Int) : Proof :=
  ⟨proof.messages.mapIdx fun i message =>
    message.mapIdx fun j value => Element.ofInt F (value.toInt + added i j)⟩

theorem CanonicalIn.shifted (known : proof.CanonicalIn F) (added : Nat → Nat → Int) :
    (proof.shifted F added).CanonicalIn F := by
  refine ⟨by simpa [Proof.shifted] using known.1, fun message member => ?_⟩
  obtain ⟨i, inside, rfl⟩ := List.mem_mapIdx.1 member
  refine ⟨by simpa using (known.2 _ (List.getElem_mem inside)).1, fun v inside' => ?_⟩
  obtain ⟨j, -, rfl⟩ := List.mem_mapIdx.1 inside'
  rw [F.ofInt_eq_embed]
  exact F.canonicalIn_embed _

/-- What is added in two steps is added in one. -/
theorem shifted_shifted (F : Modulus) (proof : Proof) (first second : Nat → Nat → Int) :
    (proof.shifted F first).shifted F second =
      proof.shifted F fun i j => first i j + second i j := by
  have value (z a b : Int) : Scalar.element
      (Element.ofInt F ((Scalar.element (Element.ofInt F (z + a))).toInt + b)) =
        Element.ofInt F (z + (a + b)) := by
    rw [F.ofInt_eq_embed, F.ofInt_eq_embed, F.ofInt_eq_embed, ← add_assoc, Int.cast_add, Int.cast_add
      (z + a)]
    congr 2
    exact F.residue_embed _
  simp only [shifted, List.mapIdx_mapIdx, Function.comp_def, value]

end Proof

namespace Demo.SumPage

/-- A change to one value of a proof. -/
structure Tampering where
  /-- The round, counted from one. -/
  round : Int
  /-- The position in the message of the round, counted from zero. -/
  position : Int
  delta : Int

/-- The change that a form asks for. -/
def Tampering.ofForm (form : Form) : Except Fault Tampering := do
  let round ← formInteger form "round" 1
  let position ← formInteger form "position" 0
  let delta ← formInteger form "delta" 1
  return ⟨round, position, delta⟩

/-- What changes add in all to a value, by message and position, both counted from zero. -/
def added (tamperings : List Tampering) (i j : Nat) : Int :=
  (tamperings.map fun (t : Tampering) => if t.round = i + 1 ∧ t.position = j then t.delta else 0).sum

theorem added_append (first second : List Tampering) :
    added (first ++ second) = fun i j => added first i j + added second i j := by
  funext i j
  rw [added, List.map_append, List.sum_append]
  rfl

variable {F : Modulus} {proof : Proof} {form : Form} {d : Document}

/-- Changes that cancel out everywhere leave a proof what it was. -/
theorem shifted_of_dvd (known : proof.CanonicalIn F) {more : Nat → Nat → Int}
    (cancel : ∀ i j, (F.val : Int) ∣ more i j) : proof.shifted F more = proof := by
  have messages : (proof.shifted F more).messages = proof.messages := by
    refine List.ext_getElem (by simp [Proof.shifted]) fun i _ inside => ?_
    refine List.ext_getElem (by simp [Proof.shifted]) fun j _ inside' => ?_
    have canonical := (known.2 _ (List.getElem_mem inside)).2 _ (List.getElem_mem inside')
    have same (z : Int) : Element.ofInt F (z + more i j) = Element.ofInt F z := by
      have added : ((z + more i j : Int) : ZMod F.val) = (z : ZMod F.val) := by
        rw [Int.cast_add, (ZMod.intCast_zmod_eq_zero_iff_dvd _ _).2 (cancel i j), add_zero]
      exact Scalar.element.inj (by rw [F.ofInt_eq_embed, F.ofInt_eq_embed, added])
    simpa [Proof.shifted, same] using canonical.ofInt_toInt
  cases proof
  exact congrArg Proof.mk messages

/-- Without changes a proof is what it was. -/
theorem shifted_nil (known : proof.CanonicalIn F) : proof.shifted F (added []) = proof :=
  shifted_of_dvd known fun _ _ => dvd_zero _

/-- One change sets the value at its round and position. -/
theorem shifted_added (known : proof.CanonicalIn F) (delta : Int) {i j : Nat}
    (inside : i < proof.messages.length) (inside' : j < proof.messages[i].length) :
    (proof.shifted F (added [⟨i + 1, j, delta⟩])).messages =
      proof.messages.set i
        (proof.messages[i].set j (proof.messages[i][j] + Scalar.integer delta)) := by
  have only (k l : Nat) : added [⟨i + 1, j, delta⟩] k l = if i = k ∧ j = l then delta else 0 := by
    simp [added]
  have same (k l : Nat) (inside : k < proof.messages.length)
      (inside' : l < proof.messages[k].length) (other : ¬(i = k ∧ j = l)) :
      Scalar.element (Element.ofInt F (proof.messages[k][l].toInt +
        added [⟨i + 1, j, delta⟩] k l)) = proof.messages[k][l] := by
    have canonical := (known.2 _ (List.getElem_mem inside)).2 _ (List.getElem_mem inside')
    rw [only, if_neg other, add_zero]
    exact canonical.ofInt_toInt
  refine mapIdx_eq_set (fun _ => ?_) fun k inside other => ?_
  · refine mapIdx_eq_set (fun _ => ?_) fun l inside' other => ?_
    · have canonical := (known.2 _ (List.getElem_mem inside)).2 _ (List.getElem_mem inside')
      rw [only, if_pos ⟨rfl, rfl⟩, F.ofInt_eq_embed, Scalar.add_of_field? canonical.1, Int.cast_add]
      rfl
    · exact same i l inside inside' fun here => other here.2.symm
  · refine List.ext_getElem (by simp) fun l _ inside' => ?_
    rw [List.getElem_mapIdx]
    exact same k l inside inside' fun here => other here.1.symm

theorem entry_toDocument {i : Nat} (inside : i < proof.messages.length) :
    proof.toDocument.entry i = .ok (Scalar.listToDocument proof.messages[i]) := by
  simp [Proof.toDocument, messagesToDocument, Document.entry, Document.items?, inside]

theorem size_listToDocument (values : List Scalar) :
    (Scalar.listToDocument values).size = .ok values.length := by
  simp [Scalar.listToDocument, Document.size, Document.items?]

theorem entry_listToDocument {values : List Scalar} {j : Nat} (inside : j < values.length) :
    (Scalar.listToDocument values).entry j = .ok values[j].toDocument := by
  simp [Scalar.listToDocument, Document.entry, Document.items?, inside]

theorem size_toDocument (proof : Proof) : proof.toDocument.size = .ok proof.messages.length := by
  simp [Proof.toDocument, messagesToDocument, Document.size, Document.items?]

/-- A change that is not made is refused for its form, its round or its position. -/
theorem tampered_refuses (storable : F.Storable) (known : proof.CanonicalIn F) (form : Form) :
    Refuses (tampered F proof.toDocument form) := by
  unfold tampered
  refine (formInteger_refuses form _ _).bind fun round _ => ?_
  refine (formInteger_refuses form _ _).bind fun position _ => ?_
  refine (formInteger_refuses form _ _).bind fun delta _ => ?_
  rw [bind_of_eq_ok (size_toDocument proof)]
  dsimp only
  split
  next => exact .error rfl
  next rounds =>
    split
    next => exact .error rfl
    next front =>
      obtain ⟨i, rfl⟩ : ∃ i : Nat, round = i + 1 := ⟨(round - 1).toNat, by omega⟩
      obtain ⟨j, rfl⟩ : ∃ j : Nat, position = j := ⟨position.toNat, by omega⟩
      have inside : i < proof.messages.length := by omega
      have canonical := known.2 _ (List.getElem_mem inside)
      rw [Int.add_sub_cancel, Int.toNat_natCast, Int.toNat_natCast,
        bind_of_eq_ok (entry_toDocument inside), bind_of_eq_ok (size_listToDocument _)]
      split
      next => exact .error rfl
      next short =>
        have inside' : j < proof.messages[i].length := by omega
        rw [bind_of_eq_ok (entry_listToDocument inside'),
          bind_of_eq_ok (Scalar.ofDocument_toDocument storable
            (canonical.2 _ (List.getElem_mem inside')))]
        exact .ok _

/-- A change that is made is made to a value that there is; the messages that are stored then are
those of the changed proof. -/
theorem tampered_eq_ok (storable : F.Storable) (known : proof.CanonicalIn F)
    (h : tampered F proof.toDocument form = .ok d) :
    ∃ t, Tampering.ofForm form = .ok t ∧ d = (proof.shifted F (added [t])).toDocument := by
  obtain ⟨round, first, h⟩ := bind_eq_ok h
  obtain ⟨position, second, h⟩ := bind_eq_ok h
  obtain ⟨delta, third, h⟩ := bind_eq_ok h
  have read : Tampering.ofForm form = .ok ⟨round, position, delta⟩ := by
    rw [Tampering.ofForm, bind_of_eq_ok first, bind_of_eq_ok second, bind_of_eq_ok third]
    rfl
  refine ⟨_, read, ?_⟩
  rw [bind_of_eq_ok (size_toDocument proof)] at h
  dsimp only at h
  split at h
  next => cases h
  next rounds =>
    split at h
    next => cases h
    next front =>
      obtain ⟨i, rfl⟩ : ∃ i : Nat, round = i + 1 := ⟨(round - 1).toNat, by omega⟩
      obtain ⟨j, rfl⟩ : ∃ j : Nat, position = j := ⟨position.toNat, by omega⟩
      have inside : i < proof.messages.length := by omega
      have canonical := known.2 _ (List.getElem_mem inside)
      rw [Int.add_sub_cancel, Int.toNat_natCast, Int.toNat_natCast,
        bind_of_eq_ok (entry_toDocument inside),
        bind_of_eq_ok (size_listToDocument _)] at h
      split at h
      next => cases h
      next short =>
        have inside' : j < proof.messages[i].length := by omega
        rw [bind_of_eq_ok (entry_listToDocument inside'),
          bind_of_eq_ok (Scalar.ofDocument_toDocument storable
            (canonical.2 _ (List.getElem_mem inside')))] at h
        have changed : (proof.shifted F (added [⟨i + 1, j, delta⟩])).toDocument =
            .list ((proof.messages.map Scalar.listToDocument).set i
              (.list ((proof.messages[i].map Scalar.toDocument).set j
                (proof.messages[i][j] + Scalar.integer delta).toDocument))) := by
          rw [Proof.toDocument, shifted_added known delta inside inside', messagesToDocument,
            List.map_set, Scalar.listToDocument, List.map_set]
        rw [changed]
        exact (Except.ok.inj h).symm

end Demo.SumPage

end HypercubeSum
