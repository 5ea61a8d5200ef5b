import HypercubeSum.Proofs.Layer.Completeness

/-!
# The tables of both phases at every point

The pass over the wiring fills two tables, and neither is asked only for its corners: the prover folds
them at points of the field. There, too, the table of sums is the sum over `y` of wiring times factor,
the wiring at `g` is what fixing its first group gives, and fixing that at `u` leaves a table that
answers at `v` as the wiring does at `(g, u, v)`.
-/

namespace HypercubeSum.Layer

/-- The sum over all corners `y` of the wiring at `(g, u, y)` times a factor at `y`. -/
def sumAt (wiring right : Extension) (g u : List Scalar) : Except Fault Scalar :=
  let corner := Cube.corner wiring.field.zero wiring.field.one u.length
  (List.range (corners u.length)).foldlM
    (fun sum (y : Nat) => do
      let value ← wiring.evalAt (g ++ u ++ corner y)
      let factor ← right.evalBinary y
      return sum + value * factor)
    wiring.field.zero

variable {F : Modulus} {layer : Layer} {dimension : Nat} {g u : List Scalar}

/-- The table of sums at a point is the sum with the wiring fixed there, too. -/
theorem evalAt_summed {summed : DenseTable} {wiring right : Nat → ZMod F.val} (some : u ≠ [])
    (arity : summed.numVariables = g.length) (field : summed.field = F)
    (values : summed.values = (List.range (corners g.length)).map fun x =>
      F.embed (summedOver g.length wiring right (g.map (Scalar.residue F)) x))
    (first : InField F u) (same : u.length = g.length) :
    summed.evalAt u = .ok (F.embed (∑ y ∈ Finset.range (corners g.length),
      Cube.fixed wiring (g.map (Scalar.residue F) ++ u.map (Scalar.residue F)) y * right y)) := by
  have evaluated := Extension.evalAt_embed (e := .dense summed) field first
    (same.trans arity.symm) some
  have kept (x : Nat) (inside : x < corners (u.map (Scalar.residue F)).length) :
      (Extension.dense summed).residues F x =
        summedOver g.length wiring right (g.map (Scalar.residue F)) x := by
    rw [List.length_map, same] at inside
    exact Extension.residues_dense values inside
  have extended := extend_summedOver wiring right (g := g.map (Scalar.residue F))
    (u := u.map (Scalar.residue F)) (by simpa using same)
  rw [List.length_map] at extended
  rw [← extended, ← Cube.extend_congr kept]
  exact evaluated

/-- A group of as many coordinates as a layer has is not empty. -/
theorem Fits.group_ne_nil (fits : layer.Fits F dimension) (whole : g.length = dimension) : g ≠ [] := by
  rintro rfl
  exact absurd fits.positive (by simp [← whole])

/-- The wiring at a point of the field is the canonical element of its extension there. -/
theorem Fits.wiring_evalAt (fits : layer.Fits F dimension) {v : List Scalar} (own : InField F g)
    (first : InField F u) (second : InField F v) (whole : g.length = dimension)
    (wholeU : u.length = dimension) (wholeV : v.length = dimension) :
    layer.wiring.evalAt (g ++ u ++ v) = .ok (F.embed (Cube.extend (layer.wiring.residues F)
      (g.map (Scalar.residue F) ++ u.map (Scalar.residue F) ++ v.map (Scalar.residue F)))) := by
  have three : (g ++ u ++ v).length = layer.wiring.arity := by
    simp only [List.length_append, whole, wholeU, wholeV, fits.wiring_arity]
    omega
  have some : g ++ u ++ v ≠ [] := by simp [fits.group_ne_nil whole]
  rw [Extension.evalAt_embed fits.wiring ((own.append first).append second) three some]
  simp only [List.map_append]

/-- The sum over `y` is the sum of products of residues. -/
theorem Fits.sumAt_eq (fits : layer.Fits F dimension) (own : InField F g) (first : InField F u)
    (whole : g.length = dimension) (wholeU : u.length = dimension) :
    sumAt layer.wiring layer.right g u = .ok (F.embed (∑ y ∈ Finset.range (corners dimension),
      Cube.fixed (layer.wiring.residues F)
        (g.map (Scalar.residue F) ++ u.map (Scalar.residue F)) y * layer.right.residues F y)) := by
  have wired (y : Nat) (inside : y < corners dimension) :
      layer.wiring.evalAt (g ++ u ++ Cube.corner F.zero F.one dimension y) =
        .ok (F.embed (Cube.fixed (layer.wiring.residues F)
          (g.map (Scalar.residue F) ++ u.map (Scalar.residue F)) y)) := by
    rw [Cube.corner_eq_embed, fits.wiring_evalAt own first (Cube.inField_map_embed _) whole wholeU
      (by simp), F.map_residue_map_embed, Cube.extend_append_corner _ _ _ _ inside]
  have read (y : Nat) (inside : y < corners dimension) :
      layer.right.evalBinary y = .ok (layer.right.valueAt y) :=
    Extension.evalBinary_eq fits.right (by rwa [fits.right_arity])
  have added := Cube.foldlM_add_embed (fun y => Cube.fixed (layer.wiring.residues F)
    (g.map (Scalar.residue F) ++ u.map (Scalar.residue F)) y * layer.right.residues F y)
    (fun sum (y : Nat) => do
      let value ← layer.wiring.evalAt (g ++ u ++ Cube.corner F.zero F.one dimension y)
      let factor ← layer.right.evalBinary y
      return sum + value * factor) (corners dimension) (fun a y inside => by
        rw [wired y inside, bind_of_eq_ok rfl, read y inside, bind_of_eq_ok rfl, Scalar.embed_mul,
          Scalar.embed_add, F.residue_embed]
        rfl) 0
  rw [sumAt, Extension.field_eq fits.wiring, wholeU, F.zero_eq_embed]
  rw [zero_add, F.zero_eq_embed] at added
  exact added

/--
For every layer over a field and every point `g` of it, the first phase gives two tables. The second
of them lists what the wiring lists once its first group is fixed to `g`. At every point `u` the first
has the sum over the corners `y` of the wiring at `(g, u, y)` times the second factor at `y`, and the
second phase leaves a table that has at every point `v` the value of the wiring at `(g, u, v)`. The sum
that is claimed for the layer is the one over all corners `x` and `y` of wiring times both factors.
-/
theorem phase_tables_exact (fits : layer.Fits F dimension) (own : InField F g)
    (whole : g.length = dimension) :
    ∃ summed fixed, firstPhase layer.wiring layer.right g = .ok (summed, fixed) ∧
      (∃ wiring values, layer.wiring.fixLeading g = .ok wiring ∧ wiring.table = .ok values ∧
        (Extension.sparse fixed).table = .ok values) ∧
      (∀ u, InField F u → u.length = dimension →
        (∃ sum, summed.evalAt u = .ok sum ∧ sumAt layer.wiring layer.right g u = .ok sum) ∧
          ∃ rest, secondPhase (.sparse fixed) u = .ok rest ∧
            ∀ v, InField F v → v.length = dimension →
              ∃ value, rest.evalAt v = .ok value ∧
                layer.wiring.evalAt (g ++ u ++ v) = .ok value) ∧
      ∃ claim, layer.trueClaim g = .ok claim ∧ claim.point = g ∧
        layer.cornerSum g = .ok claim.sum := by
  subst whole
  obtain ⟨summed, fixed, phase, summedArity, summedField, summedValues, fixedArity, fixedField,
    fixedValues⟩ := firstPhase_ok fits.wiring fits.right fits.wiring_arity fits.right_arity
  refine ⟨summed, fixed, phase, ?atG, fun u first wholeU => ⟨?atU, ?atV⟩, ?claim⟩
  case atG =>
    have left : 3 * g.length - g.length = 2 * g.length := by omega
    have few : g.length ≤ layer.wiring.arity := by rw [fits.wiring_arity]; omega
    have folded := Extension.table_fixLeading_embed fits.wiring own few (fits.group_ne_nil rfl)
    obtain ⟨wiring, made, listed⟩ := bind_eq_ok folded
    refine ⟨wiring, _, made, listed, congrArg Except.ok ?_⟩
    rw [SparseTable.values, fixedArity, fits.wiring_arity, left]
    exact List.map_congr_left fun i _ => fixedValues i
  case atU =>
    exact ⟨_, evalAt_summed (fits.group_ne_nil wholeU) summedArity summedField summedValues first
      wholeU, fits.sumAt_eq own first rfl wholeU⟩
  case atV =>
    obtain ⟨table, made, tableArity, tableField, tableValues⟩ :=
      secondPhase_ok fixedField (by rw [fixedArity, wholeU]) fun i => by
        rw [fixedValues, F.residue_embed]
    refine ⟨.dense table, made, fun v second wholeV => ⟨_, ?_,
      fits.wiring_evalAt own first second rfl wholeU wholeV⟩⟩
    rw [← tableValues _ (by simp [wholeU, wholeV])]
    exact Extension.evalAt_embed (e := .dense table) tableField second
      (wholeV.trans (wholeU.symm.trans tableArity.symm)) (fits.group_ne_nil wholeV)
  case claim =>
    exact ⟨_, fits.trueClaim_eq rfl, rfl, fits.cornerSum_eq own rfl⟩

/-- The product of three variables over the field of five elements, at two, three and four: the sum
over the last variable is two times three and the whole product is two times three times four. -/
theorem phase_tables_exact_productOverFive :
    let element (z : Int) : Scalar := Element.ofInt fiveElements z
    ∃ summed fixed rest claim,
      firstPhase productOverFive.wiring productOverFive.right [element 2] = .ok (summed, fixed) ∧
      summed.evalAt [element 3] = .ok (element 6) ∧
      secondPhase (.sparse fixed) [element 3] = .ok rest ∧
      rest.evalAt [element 4] = .ok (element 24) ∧
      productOverFive.trueClaim [element 2] = .ok claim ∧ claim.sum = element 2 := by
  intro element
  have own (z : Int) : InField fiveElements [element z] := by
    intro v member
    rw [List.mem_singleton.1 member]
    rfl
  obtain ⟨summed, fixed, phase, -, points, claim, claimed, -, total⟩ :=
    phase_tables_exact productOverFive_fits (own 2) rfl
  obtain ⟨⟨sum, evaluated, added⟩, rest, made, values⟩ := points [element 3] (own 3) rfl
  obtain ⟨value, evaluated', wired⟩ := values [element 4] (own 4) rfl
  have sumIs : sumAt productOverFive.wiring productOverFive.right [element 2] [element 3] =
      .ok (element 6) := by decide +kernel
  have valueIs : productOverFive.wiring.evalAt [element 2, element 3, element 4] =
      .ok (element 24) := by decide +kernel
  have totalIs : productOverFive.cornerSum [element 2] = .ok (element 2) := by decide +kernel
  obtain rfl := Except.ok.inj (added.symm.trans sumIs)
  obtain rfl := Except.ok.inj (wired.symm.trans valueIs)
  exact ⟨summed, fixed, rest, claim, phase, evaluated, made, evaluated', claimed,
    Except.ok.inj (total.symm.trans totalIs)⟩

end HypercubeSum.Layer
