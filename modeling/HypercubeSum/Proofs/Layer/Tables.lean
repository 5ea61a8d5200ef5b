import HypercubeSum.Layer.Function
import HypercubeSum.Proofs.Multilinear.Extension
import HypercubeSum.Proofs.Run

/-!
# The tables of a layer

One pass over the nonzero values of the wiring gives both tables of the first phase: the sums over
`y` of wiring at `g` times the second factor, and the wiring at `g` itself. Fixing the latter at one
point more gives the table of the second phase.
-/

namespace HypercubeSum

section Support

variable {F : Modulus}

/-- The nonzero values of a table stand for the function that the table lists. -/
theorem Extension.valueIn_supportOfTable (values : List Scalar) (i : Nat) :
    Cube.valueIn (Cube.residueEntries F (supportOfTable values)) i =
      (values.getD i F.zero).residue F := by
  have swapped : supportOfTable values =
      (values.zipIdx.map Prod.swap).filter fun e => e.2.toInt != 0 := by
    rw [supportOfTable, List.filter_map]
    rfl
  rw [swapped, SparseTable.valueIn_filter]
  clear swapped
  induction values using List.reverseRecOn with
  | nil => simp [Cube.residueEntries, Cube.valueIn, F.zero_eq_embed]
  | append_singleton values value ih =>
    have last : Cube.residueEntries F
        ((values ++ [value]).zipIdx.map Prod.swap) =
          Cube.residueEntries F (values.zipIdx.map Prod.swap) ++
            [(values.length, value.residue F)] := by
      simp [List.zipIdx_append, Cube.residueEntries]
    rw [last, Cube.valueIn_append, ih]
    rcases Nat.lt_trichotomy i values.length with before | here | after
    · simp [Cube.valueIn, List.getD_eq_getElem?_getD, List.getElem?_append_left before,
        Nat.ne_of_gt before]
    · simp [Cube.valueIn, List.getD_eq_getElem?_getD, here, F.zero_eq_embed]
    · have outside : (values ++ [value]).length ≤ i := by simpa using after
      simp [Cube.valueIn, List.getD_eq_getElem?_getD, List.getElem?_eq_none outside,
        List.getElem?_eq_none (Nat.le_of_lt after), Nat.ne_of_lt after]

/-- The support of an extension stands for the function that the extension keeps. -/
theorem Extension.support_ok {e : Extension} (lies : e.LiesIn F) :
    ∃ entries, e.support = .ok entries ∧ (∀ entry ∈ entries, entry.1 < corners e.arity) ∧
      ∀ i, Cube.valueIn (Cube.residueEntries F entries) i = e.residues F i := by
  have inside (values : List Scalar) : ∀ entry ∈ supportOfTable values, entry.1 < values.length := by
    intro entry member
    obtain ⟨⟨value, corner⟩, kept, rfl⟩ := List.mem_map.1 member
    have place := List.mem_zipIdx (List.mem_filter.1 kept).1
    simpa using place.2.1
  cases e with
  | dense t =>
    obtain rfl : t.field = F := lies
    refine ⟨_, rfl, fun entry member => ?_, fun i => ?_⟩
    · rw [Extension.arity, ← t.length_values]
      exact inside t.values entry member
    · exact valueIn_supportOfTable t.values i
  | borrowed t =>
    have listed : t.table = .ok t.content := by
      have size := size_ok lies
      rw [BorrowedTable.table, size]
      rfl
    obtain ⟨rfl, whole, known⟩ := lies
    refine ⟨supportOfTable t.content, ?_, fun entry member => ?_, fun i => ?_⟩
    · rw [Extension.support, listed]
      rfl
    · rw [Extension.arity, ← whole]
      exact inside t.content entry member
    · exact valueIn_supportOfTable t.content i
  | sparse t =>
    have sorted : t.support.Perm t.entries := List.mergeSort_perm _ _
    refine ⟨t.support, rfl, fun entry member => ?_, fun i => ?_⟩
    · exact t.corner_lt entry (sorted.mem_iff.1 member)
    · have same : (Cube.residueEntries F t.support).Perm (Cube.residueEntries F t.entries) :=
        sorted.map _
      rw [Cube.valueIn_perm same]
      exact (t.residue_valueAt lies i).symm

end Support

section Ring

variable {R : Type} [CommRing R]

/-- Adding up, over `y`, a function fixed at a point against another function is adding up its
values, weighted, against the function at their highest bits. -/
theorem Cube.sum_fixed_valueIn (entries : List (Nat × R)) (point : List R) (B : Nat → R)
    {s n x : Nat} (low : x < s)
    (inside : ∀ e ∈ entries, e.1 / corners point.length / s < n) :
    ∑ y ∈ Finset.range n, Cube.fixed (Cube.valueIn entries) point (x + s * y) * B y =
      (entries.map fun e =>
        if e.1 / corners point.length % s = x then
          Cube.weight point (e.1 % corners point.length) * e.2 *
            B (e.1 / corners point.length / s)
        else 0).sum := by
  induction entries with
  | nil => simp [Cube.fixed, Cube.valueIn]
  | cons e rest ih =>
    have split : Cube.valueIn (e :: rest) =
        fun i => (if e.1 = i then e.2 else 0) + Cube.valueIn rest i := funext (Cube.valueIn_cons e rest)
    have later := ih fun e member => inside e (List.mem_cons_of_mem _ member)
    rw [List.map_cons, List.sum_cons, ← later, split]
    simp only [Cube.fixed_add, Cube.fixed_single, add_mul, Finset.sum_add_distrib]
    congr 1
    have bits := Nat.mod_add_div (e.1 / corners point.length) s
    split
    next same =>
      rw [Finset.sum_eq_single (e.1 / corners point.length / s)]
      · rw [if_pos (by rw [← same]; exact bits.symm)]
      · intro y _ other
        have miss : e.1 / corners point.length ≠ x + s * y := by
          intro hit
          refine other ?_
          rw [hit, Nat.add_mul_div_left _ _ (by omega), Nat.div_eq_of_lt low, Nat.zero_add]
        rw [if_neg miss, zero_mul]
      · intro outside
        exact absurd (Finset.mem_range.2 (inside e List.mem_cons_self)) outside
    next other =>
      refine Finset.sum_eq_zero fun y _ => ?_
      have miss : e.1 / corners point.length ≠ x + s * y := by
        intro hit
        refine other ?_
        rw [hit, Nat.add_mul_mod_self_left, Nat.mod_eq_of_lt low]
      rw [if_neg miss, zero_mul]

end Ring

namespace Layer

variable {F : Modulus}

/-- The two tables are filled independently of each other. -/
theorem foldl_add_eq (dimension : Nat) (weights right : Array Scalar) (entries : List (Nat × Scalar))
    (phase : Phase) :
    entries.foldl (Phase.add dimension weights right) phase =
      { summed := entries.foldl (fun table e =>
          table.modify (e.1 / corners dimension % corners dimension)
            (· + weights.getD (e.1 % corners dimension) default * e.2 *
              right.getD (e.1 / corners dimension / corners dimension) default)) phase.summed
        fixed := entries.foldl (fun known e =>
          Cube.accumulate (e.1 / corners dimension)
            (weights.getD (e.1 % corners dimension) default * e.2) known) phase.fixed } := by
  induction entries generalizing phase with
  | nil => rfl
  | cons e rest ih =>
    obtain ⟨corner, value⟩ := e
    rw [List.foldl_cons, ih, List.foldl_cons, List.foldl_cons]
    simp only [Phase.add, Nat.mod_add_div]

/-- Adding canonical elements at places of a table of canonical elements. -/
theorem foldl_modify_embed {α : Type} (place : α → Nat) (value : α → ZMod F.val) (items : List α)
    (size : Nat) (f : Nat → ZMod F.val) :
    items.foldl (fun table item => table.modify (place item) (· + F.embed (value item)))
        ((List.range size).map fun x => F.embed (f x)) =
      (List.range size).map fun x =>
        F.embed (f x + (items.map fun item => if place item = x then value item else 0).sum) := by
  induction items generalizing f with
  | nil => simp
  | cons item rest ih =>
    have step : ((List.range size).map fun x => F.embed (f x)).modify (place item)
        (· + F.embed (value item)) =
          (List.range size).map fun x =>
            F.embed (f x + if place item = x then value item else 0) := by
      apply List.ext_getElem
      · simp
      · intro x insideL insideR
        rw [List.getElem_modify]
        split
        next same => simp [same]
        next other => simp [other]
    rw [List.foldl_cons, step, ih]
    refine List.map_congr_left fun x _ => ?_
    rw [List.map_cons, List.sum_cons, add_assoc]

/-- The sums over `y` of the wiring at `g` times the second factor, as a function of `x`. -/
def summedOver (d : Nat) (wiring right : Nat → ZMod F.val) (g : List (ZMod F.val)) (x : Nat) :
    ZMod F.val :=
  ∑ y ∈ Finset.range (corners d), Cube.fixed wiring g (x + corners d * y) * right y

/-- The sums as a function of `x` are extended to any point by fixing the wiring there, too. -/
theorem extend_summedOver (wiring right : Nat → ZMod F.val) {g u : List (ZMod F.val)}
    (same : u.length = g.length) :
    Cube.extend (summedOver g.length wiring right g) u =
      ∑ y ∈ Finset.range (corners g.length), Cube.fixed wiring (g ++ u) y * right y := by
  have split (y : Nat) : Cube.fixed wiring (g ++ u) y * right y =
      ∑ x ∈ Finset.range (corners g.length),
        Cube.weight u x * (Cube.fixed wiring g (x + corners g.length * y) * right y) := by
    rw [Cube.fixed_append, Cube.fixed, same, Finset.sum_mul]
    exact Finset.sum_congr rfl fun x _ => mul_assoc _ _ _
  rw [Finset.sum_congr rfl fun y _ => split y, Finset.sum_comm, Cube.extend_eq, same]
  apply Finset.sum_congr rfl
  intro x _
  rw [summedOver, Finset.mul_sum]

/-- What the pass over the wiring leaves in the table of sums. -/
theorem foldl_summed_eq (g : List Scalar) (right : Nat → ZMod F.val) (values : Array Scalar)
    (entries : List (Nat × Scalar))
    (inside : ∀ e ∈ entries, e.1 < corners (3 * g.length))
    (listed : ∀ y < corners g.length, (values.getD y default).residue F = right y) :
    entries.foldl (fun table e =>
        table.modify (e.1 / corners g.length % corners g.length)
          (· + (Cube.indicator F.one g).toArray.getD (e.1 % corners g.length) default * e.2 *
            values.getD (e.1 / corners g.length / corners g.length) default))
        (List.replicate (corners g.length) F.zero) =
      (List.range (corners g.length)).map fun x => F.embed
        (summedOver g.length (Cube.valueIn (Cube.residueEntries F entries)) right
          (g.map (Scalar.residue F)) x) := by
  have width : corners (g.map (Scalar.residue F)).length = corners g.length := by simp
  have high (e : Nat × Scalar) (member : e ∈ entries) :
      e.1 / corners g.length / corners g.length < corners g.length := by
    have three : corners (3 * g.length) =
        corners g.length * (corners g.length * corners g.length) := by
      rw [← corners_add, ← corners_add]
      congr 1
      omega
    have bound := inside e member
    rw [three] at bound
    exact Nat.div_lt_of_lt_mul (Nat.div_lt_of_lt_mul bound)
  have zeros : List.replicate (corners g.length) F.zero =
      (List.range (corners g.length)).map fun _ => F.embed 0 := by
    simp [F.zero_eq_embed, List.map_const']
  -- What is added is a canonical element even where a value of the wiring is not.
  simp only [Cube.getD_indicator_mul, Scalar.embed_mul, zeros]
  rw [foldl_modify_embed]
  refine List.map_congr_left fun x member => ?_
  have low := List.mem_range.1 member
  have sums := Cube.sum_fixed_valueIn (Cube.residueEntries F entries) (g.map (Scalar.residue F))
    right low (n := corners g.length) fun e member => by
      obtain ⟨e', kept, rfl⟩ := List.mem_map.1 member
      rw [width]
      exact high e' kept
  rw [zero_add, summedOver, sums, Cube.residueEntries, List.map_map]
  congr 2
  refine List.map_congr_left fun e member => ?_
  simp only [Function.comp_apply, width, listed _ (high e member)]

/-- The first phase gives the sums over `y`, and the wiring at `g`. -/
theorem firstPhase_ok {wiring right : Extension} {g : List Scalar} (wired : wiring.LiesIn F)
    (factor : right.LiesIn F) (wiringArity : wiring.arity = 3 * g.length)
    (rightArity : right.arity = g.length) :
    ∃ (summed : DenseTable) (fixed : SparseTable),
      firstPhase wiring right g = .ok (summed, fixed) ∧
      summed.numVariables = g.length ∧ summed.field = F ∧
      summed.values = (List.range (corners g.length)).map (fun x => F.embed
        (summedOver g.length (wiring.residues F) (right.residues F)
          (g.map (Scalar.residue F)) x)) ∧
      fixed.numVariables = 2 * g.length ∧ fixed.field = F ∧
      ∀ i, fixed.valueAt i =
        F.embed (Cube.fixed (wiring.residues F) (g.map (Scalar.residue F)) i) := by
  obtain ⟨entries, supported, inside, function⟩ := Extension.support_ok wired
  rw [wiringArity] at inside
  have wires : Cube.valueIn (Cube.residueEntries F entries) = wiring.residues F := funext function
  have listed := Extension.table_eq factor
  rw [rightArity] at listed
  have sums := foldl_summed_eq g (right.residues F)
    ((List.range (corners g.length)).map right.valueAt).toArray entries inside fun y low => by
      simp [low, Extension.residues]
  rw [wires] at sums
  have left : 3 * g.length - g.length = 2 * g.length := by omega
  have pass := foldl_add_eq g.length (Cube.indicator F.one g).toArray
    ((List.range (corners g.length)).map right.valueAt).toArray entries
    ⟨List.replicate (corners g.length) F.zero, []⟩
  rw [sums, ← Cube.contract_eq_foldl] at pass
  have knownSums : InField F ((List.range (corners g.length)).map fun x =>
      F.embed (summedOver g.length (wiring.residues F) (right.residues F)
        (g.map (Scalar.residue F)) x)) := by
    intro v member
    obtain ⟨x, -, rfl⟩ := List.mem_map.1 member
    exact F.field?_embed _
  obtain ⟨summed, summedMade, summedArity, summedField, summedValues⟩ :=
    DenseTable.ofValues_ok (n := g.length) (by simp) knownSums
  obtain ⟨distinct, bounded, known⟩ := Cube.contract_entries (p := F) g (3 * g.length) (by omega)
    inside
  rw [left] at bounded
  obtain ⟨fixed, fixedMade, fixedArity, fixedField, fixedEntries⟩ :=
    SparseTable.ofEntries_ok distinct bounded known
  refine ⟨summed, fixed, ?_, summedArity, summedField, summedValues, fixedArity, fixedField, ?_⟩
  · have twice : (2 : Int) * g.length = ((2 * g.length : Nat) : Int) := by push_cast; rfl
    simp only [firstPhase, Extension.numVariables_eq wired, Extension.numVariables_eq factor,
      wiringArity, rightArity, Extension.field_eq wired, listed, supported, bind, Except.bind, ne_eq,
      not_true_eq_false, or_self, if_false, pass, summedMade, twice]
    rw [fixedMade]
    rfl
  · intro i
    have canonical : (fixed.valueAt i).CanonicalIn F := by
      apply SparseTable.canonical_valueAt fixedField
      intro e member
      rw [fixedEntries, Cube.contract_eq_embed] at member
      obtain ⟨e', -, rfl⟩ := List.mem_map.1 (List.mem_filter.1 member).1
      exact F.canonicalIn_embed e'.2
    rw [canonical.eq_embed, fixed.residue_valueAt fixedField, fixedEntries,
      SparseTable.valueIn_filter, Cube.contract_eq_embed, Cube.residueEntries_embedEntries,
      Cube.valueIn_contract, wires]

/-- The second phase fixes the wiring, which is already fixed at one point, at one point more, as a
full table. -/
theorem secondPhase_ok {fixed : SparseTable} {wiring : Nat → ZMod F.val} {point : List (ZMod F.val)}
    {u : List Scalar} (known : fixed.field = F) (arity : fixed.numVariables = 2 * u.length)
    (fixedAt : ∀ i, (fixed.valueAt i).residue F = Cube.fixed wiring point i) :
    ∃ table : DenseTable, secondPhase (.sparse fixed) u = .ok (.dense table) ∧
      table.numVariables = u.length ∧ table.field = F ∧
      ∀ y : List (ZMod F.val), y.length = u.length →
        Cube.extend ((Extension.dense table).residues F) y =
          Cube.extend wiring (point ++ u.map (Scalar.residue F) ++ y) := by
  have few : u.length ≤ fixed.numVariables := by omega
  obtain ⟨folded, made, count, field, values⟩ := fixed.fixLeading_ok known few
  have half : folded.numVariables = u.length := by omega
  have exact : ¬fixed.numVariables ≠ 2 * u.length := by omega
  refine ⟨folded.toDense, ?_, half, field, fun y same => ?_⟩
  · have whole : (Extension.sparse fixed).fixLeading u = .ok (.sparse folded) := by
      rw [Extension.fixLeading, made]
      rfl
    simp only [secondPhase, Extension.numVariables, bind, Except.bind, if_neg exact, whole]
    rfl
  · have entry (i : Nat) (inside : i < corners y.length) :
        (Extension.dense folded.toDense).residues F i =
          Cube.fixed wiring (point ++ u.map (Scalar.residue F)) i := by
      have listed : folded.toDense.values.getD i folded.field.zero = folded.valueAt i := by
        rw [same, ← half] at inside
        exact Cube.getD_map_range _ _ inside
      rw [Cube.fixed_append, ← funext fixedAt, ← values i, ← listed]
      rfl
    rw [Cube.extend_congr entry, Cube.extend, Cube.extend, Cube.fixed_append _ _ y]

end Layer

end HypercubeSum
