import HypercubeSum.Proofs.Record.Codec

/-!
# Normal forms of stored elements

A stored form may be wider than what is written: an integer of any size, a number in place of a
numeral, a text in place of a list. Whatever is read consists of canonical elements, so it is written
in a form that is read as the same.
-/

namespace HypercubeSum

/-- Writing and reading agree on the known values. -/
structure Faithful {α : Type} (known : α → Prop) (write : α → Document)
    (read : Document → Except Fault α) : Prop where
  /-- A known value is read back. -/
  back : ∀ x, known x → read (write x) = .ok x
  /-- Whatever is read is known, and what is written of it is a normal form. -/
  normal : ∀ d x, read d = .ok x → known x ∧ read (write x) = .ok x

section Lists

variable {α : Type} {known : α → Prop} {write : α → Document} {read : Document → Except Fault α}

/-- What is read is known, so it is enough that known values are read back. -/
theorem Faithful.of_back (back : ∀ x, known x → read (write x) = .ok x)
    (sound : ∀ d x, read d = .ok x → known x) : Faithful known write read :=
  ⟨back, fun d x h => ⟨sound d x h, back x (sound d x h)⟩⟩

theorem Faithful.sound (faithful : Faithful known write read) {d : Document} {x : α}
    (h : read d = .ok x) : known x :=
  (faithful.normal d x h).1

/-- The entries of a document are read one after the other. -/
theorem Faithful.list (faithful : Faithful known write read) :
    Faithful (fun xs : List α => ∀ x ∈ xs, known x) (fun xs => .list (xs.map write))
      (fun d => do (← d.items).mapM read) := by
  refine .of_back (fun xs each => ?_) fun d xs h => ?_
  · exact mapM_map_self fun x member => faithful.back x (each x member)
  · obtain ⟨items, -, h⟩ := bind_eq_ok h
    intro x member
    obtain ⟨item, -, same⟩ := exists_of_mapM_eq_ok h x member
    exact faithful.sound same

end Lists

namespace Modulus

theorem admitted_standard : Modulus.ofInt standard.val = .ok standard := by
  rw [ofInt, dif_pos (by decide), if_pos (.inl rfl)]
  rfl

/-- A field that is read has an order that is admitted. -/
theorem admitted_of_ofDocument {d : Document} {G : Modulus} (h : ofDocument d = .ok G) :
    Modulus.ofInt G.val = .ok G := by
  have given {z : Except Fault Int} (h : (z >>= Modulus.ofInt) = .ok G) :
      Modulus.ofInt G.val = .ok G := by
    obtain ⟨z, -, h⟩ := bind_eq_ok h
    rwa [natCast_val_of_ofInt h]
  cases d with
  | null =>
    cases h
    exact admitted_standard
  | truth _ | whole _ | fraction _ | text _ | list _ | record _ => exact given h

/-- The order of a field that is read is a normal form, if it has few digits. -/
theorem ofDocument_normal {d : Document} {G : Modulus} (h : ofDocument d = .ok G)
    (storable : G.Storable) : ofDocument G.toDocument = .ok G :=
  ofDocument_toDocument storable (admitted_of_ofDocument h)

end Modulus

variable {F : Modulus}

theorem Scalar.canonicalIn_of_ofDocument {d : Document} {v : Scalar}
    (h : Scalar.ofDocument F d = .ok v) : v.CanonicalIn F := by
  obtain ⟨z, -, h⟩ := bind_eq_ok h
  cases h
  rw [F.ofInt_eq_embed]
  exact F.canonicalIn_embed _

theorem Scalar.canonicalIn_of_listOfDocument {d : Document} {values : List Scalar}
    (h : Scalar.listOfDocument F d = .ok values) : ∀ v ∈ values, v.CanonicalIn F := by
  obtain ⟨items, -, h⟩ := bind_eq_ok h
  intro v member
  obtain ⟨item, -, read⟩ := exists_of_mapM_eq_ok h v member
  exact canonicalIn_of_ofDocument read

theorem DenseTable.canonicalIn_of_ofDocument {d : Document} {t : DenseTable}
    (h : DenseTable.ofDocument F d = .ok t) : t.CanonicalIn F := by
  obtain ⟨values, listed, made⟩ := bind_eq_ok h
  have canonical := Scalar.canonicalIn_of_listOfDocument listed
  obtain ⟨field, same⟩ := ofValues_eq_ok (fun v member => (canonical v member).1) made
  exact ⟨field, same ▸ canonical⟩

section Formats

variable (storable : F.Storable)

include storable

theorem Scalar.faithful :
    Faithful (Scalar.CanonicalIn F) Scalar.toDocument (Scalar.ofDocument F) :=
  .of_back (fun _ known => ofDocument_toDocument storable known) fun _ _ =>
    canonicalIn_of_ofDocument

/-- Elements are stored as a list, and so is the message of a round. -/
theorem Scalar.faithful_list :
    Faithful (fun values : List Scalar => ∀ v ∈ values, v.CanonicalIn F) Scalar.listToDocument
      (Scalar.listOfDocument F) :=
  (Scalar.faithful storable).list

theorem faithful_messages :
    Faithful (fun messages : List RoundMessage => ∀ message ∈ messages, ∀ v ∈ message,
      v.CanonicalIn F) messagesToDocument (messagesOfDocument F) :=
  (Scalar.faithful_list storable).list

theorem DenseTable.faithful :
    Faithful (DenseTable.CanonicalIn F) (fun t => Scalar.listToDocument t.values)
      (DenseTable.ofDocument F) :=
  .of_back (fun _ known => ofDocument_listToDocument storable known) fun _ _ =>
    canonicalIn_of_ofDocument

theorem Proof.faithful :
    Faithful (fun proof : Proof => ∀ message ∈ proof.messages, ∀ v ∈ message, v.CanonicalIn F)
      Proof.toDocument (Proof.ofDocument F) := by
  refine .of_back (fun proof known => ofDocument_toDocument storable known) fun d proof h => ?_
  obtain ⟨messages, listed, h⟩ := bind_eq_ok h
  cases h
  exact (faithful_messages storable).sound listed

theorem SubClaim.faithful :
    Faithful (fun claim : SubClaim =>
        (∀ v ∈ claim.point, v.CanonicalIn F) ∧ claim.expected.CanonicalIn F)
      SubClaim.toDocument (SubClaim.ofDocument F) := by
  refine .of_back (fun claim known => ofDocument_toDocument storable known.1 known.2)
    fun d claim h => ?_
  obtain ⟨_, -, h⟩ := bind_eq_ok h
  obtain ⟨point, listed, h⟩ := bind_eq_ok h
  obtain ⟨_, -, h⟩ := bind_eq_ok h
  obtain ⟨expected, read, h⟩ := bind_eq_ok h
  cases h
  exact ⟨(Scalar.faithful_list storable).sound listed, (Scalar.faithful storable).sound read⟩

theorem LayerClaim.faithful :
    Faithful (fun claim : LayerClaim =>
        (∀ v ∈ claim.point, v.CanonicalIn F) ∧ claim.sum.CanonicalIn F)
      LayerClaim.toDocument (LayerClaim.ofDocument F) := by
  refine .of_back (fun claim known => ofDocument_toDocument storable known.1 known.2)
    fun d claim h => ?_
  obtain ⟨_, -, h⟩ := bind_eq_ok h
  obtain ⟨point, listed, h⟩ := bind_eq_ok h
  obtain ⟨_, -, h⟩ := bind_eq_ok h
  obtain ⟨sum, read, h⟩ := bind_eq_ok h
  cases h
  exact ⟨(Scalar.faithful_list storable).sound listed, (Scalar.faithful storable).sound read⟩

theorem LayerProof.faithful :
    Faithful (fun proof : LayerProof => ∀ message ∈ proof.first ++ proof.second, ∀ v ∈ message,
        v.CanonicalIn F)
      LayerProof.toDocument (LayerProof.ofDocument F) := by
  refine .of_back (fun proof known => ofDocument_toDocument storable known) fun d proof h => ?_
  obtain ⟨_, -, h⟩ := bind_eq_ok h
  obtain ⟨first, early, h⟩ := bind_eq_ok h
  obtain ⟨_, -, h⟩ := bind_eq_ok h
  obtain ⟨second, late, h⟩ := bind_eq_ok h
  cases h
  intro message member
  exact (List.mem_append.1 member).elim ((faithful_messages storable).sound early message)
    ((faithful_messages storable).sound late message)

theorem LayerSubClaim.faithful :
    Faithful (fun claim : LayerSubClaim =>
        (∀ v ∈ claim.u, v.CanonicalIn F) ∧ (∀ v ∈ claim.v, v.CanonicalIn F) ∧
          claim.expected.CanonicalIn F)
      LayerSubClaim.toDocument (LayerSubClaim.ofDocument F) := by
  refine .of_back (fun claim known => ofDocument_toDocument storable known.1 known.2.1 known.2.2)
    fun d claim h => ?_
  obtain ⟨_, -, h⟩ := bind_eq_ok h
  obtain ⟨u, first, h⟩ := bind_eq_ok h
  obtain ⟨_, -, h⟩ := bind_eq_ok h
  obtain ⟨v, second, h⟩ := bind_eq_ok h
  obtain ⟨_, -, h⟩ := bind_eq_ok h
  obtain ⟨expected, read, h⟩ := bind_eq_ok h
  cases h
  have lists := Scalar.faithful_list storable
  exact ⟨lists.sound first, lists.sound second, (Scalar.faithful storable).sound read⟩

end Formats

end HypercubeSum
