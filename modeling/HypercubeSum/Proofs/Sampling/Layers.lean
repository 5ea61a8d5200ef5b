import HypercubeSum.Proofs.Sampling.Polynomials

/-!
# Layers drawn at random

A layer of a dimension whose corners can be counted is drawn from any seed, with tables and a point of
canonical elements. The corners of its wiring are drawn with limited patience: after too many draws in
vain one of them may be there twice, which refuses the layer.
-/

namespace HypercubeSum

open Run

variable {F : Modulus}

namespace Twister

theorem gives_drawBelow (bound : Nat) : Gives (drawBelow bound) fun _ => True :=
  .modifyGet fun _ => trivial

theorem gives_drawFromPool (count : Nat) (pool : Array Nat) :
    Gives (drawFromPool count pool) fun _ => True := by
  induction count generalizing pool with
  | zero => exact .pure trivial
  | succ count ih => exact (gives_drawBelow _).bind fun _ _ => (ih _).bind fun _ _ => .pure trivial

theorem gives_drawFresh (bound count : Nat) (taken : List Nat) :
    Gives (drawFresh bound count taken) fun _ => True := by
  induction count generalizing taken with
  | zero => exact .pure trivial
  | succ count ih =>
    have first : Gives (modifyGet (rejecting bound (fun n => !taken.contains n) patience) :
        Run Twister Nat) fun _ => True := .modifyGet fun _ => trivial
    exact first.bind fun _ _ => (ih _).bind fun _ _ => .pure trivial

/-- There is a sample of any number of numbers out of not too many. -/
theorem gives_drawSample {bound : Nat} {count : Int} (few : bound ≤ largestPopulation)
    (some : 0 ≤ count) (inside : count ≤ bound) :
    Gives (drawSample bound count) fun _ => True := by
  unfold drawSample
  rw [if_neg (by omega), if_neg (by omega)]
  split
  · exact gives_drawFromPool _ _
  · exact gives_drawFresh _ _ _

/-- An entry, and the list with the last entry in its place and not at the end, are all entries. -/
theorem perm_swapRemove (front : List Nat) (last : Nat) {j : Nat} (inside : j ≤ front.length) :
    List.Perm ((front ++ [last]).getD j 0 :: ((front ++ [last]).set j last).dropLast)
      (front ++ [last]) := by
  have appended : (front ++ [last]).Perm (last :: front) := List.perm_append_singleton last front
  rcases Nat.lt_or_eq_of_le inside with before | rfl
  · have entry : (front ++ [last]).getD j 0 = front[j] := by
      simp [List.getD_eq_getElem?_getD, List.getElem?_append_left, before]
    have replaced : ((front ++ [last]).set j last).dropLast = front.set j last := by
      rw [List.set_append_left _ _ before, List.dropLast_concat]
    rw [entry, replaced]
    calc List.Perm (front[j] :: front.set j last) (front[j] :: last :: front.eraseIdx j) :=
          (List.set_perm_cons_eraseIdx before last).cons _
      List.Perm _ (last :: front[j] :: front.eraseIdx j) := List.Perm.swap _ _ _
      List.Perm _ (last :: front) := (List.getElem_cons_eraseIdx_perm before).cons _
      List.Perm _ (front ++ [last]) := appended.symm
  · have entry : (front ++ [last]).getD front.length 0 = last := by
      simp [List.getD_eq_getElem?_getD]
    have replaced : ((front ++ [last]).set front.length last).dropLast = front := by
      simp [List.set_append_right]
    rw [entry, replaced]
    exact appended.symm

/-- What is drawn from a pool of distinct numbers is drawn without repetition. -/
theorem start_drawFromPool {count : Nat} {pool : Array Nat} (distinct : pool.toList.Nodup)
    (few : count ≤ pool.size) (state : Twister) :
    ∃ sample later, Run.start (drawFromPool count pool) state = (.ok sample, later) ∧
      sample.length = count ∧ sample.Nodup ∧ ∀ n ∈ sample, n ∈ pool.toList := by
  induction count generalizing pool state with
  | zero => exact ⟨[], state, rfl, rfl, List.nodup_nil, by simp⟩
  | succ count ih =>
    let j := (below pool.size state).1
    have inside : j < pool.size := below_lt (by omega) state
    let rest := (pool.setIfInBounds j (pool.getD (pool.size - 1) 0)).pop
    have perm : (pool.getD j 0 :: rest.toList).Perm pool.toList := by
      have listed (i : Nat) : pool.getD i 0 = pool.toList.getD i 0 := by
        simp [Array.getD_eq_getD_getElem?, List.getD_eq_getElem?_getD]
      obtain ⟨front, last, split⟩ : ∃ front last, pool.toList = front ++ [last] := by
        rcases List.eq_nil_or_concat pool.toList with empty | split
        · rw [← Array.length_toList, empty] at inside
          exact absurd inside (Nat.not_lt_zero j)
        · simpa only [List.concat_eq_append] using split
      have size : pool.size = front.length + 1 := by
        rw [← Array.length_toList, split, List.length_append, List.length_singleton]
      have top : pool.getD (pool.size - 1) 0 = last := by
        rw [listed, split, size]
        simp [List.getD_eq_getElem?_getD]
      have left : rest.toList = ((front ++ [last]).set j last).dropLast := by
        rw [Array.toList_pop, Array.toList_setIfInBounds, top, split]
      rw [listed, left, split]
      exact perm_swapRemove front last (by omega)
    obtain ⟨fresh, others⟩ := List.nodup_cons.1 (perm.nodup_iff.2 distinct)
    have size : rest.size = pool.size - 1 := by simp [rest]
    obtain ⟨sample, later, drawn, length, single, known⟩ :=
      ih others (by omega) (below pool.size state).2
    refine ⟨pool.getD j 0 :: sample, later, ?_, by rw [List.length_cons, length], ?_, ?_⟩
    · have first : Run.start (drawBelow pool.size) state = (.ok j, (below pool.size state).2) := rfl
      rw [drawFromPool, Run.start_bind_ok first, Run.start_bind_ok drawn]
      rfl
    · exact List.nodup_cons.2 ⟨fun again => fresh (known _ again), single⟩
    · intro n member
      apply perm.mem_iff.1
      rcases List.mem_cons.1 member with rfl | later
      · exact List.mem_cons_self
      · exact List.mem_cons_of_mem _ (known n later)

/-- So is every sample of a small population. -/
theorem start_drawSample {bound count : Nat} (few : bound ≤ largestPopulation)
    (inside : count ≤ bound) (small : bound ≤ poolLimit count) (state : Twister) :
    ∃ sample later, Run.start (drawSample bound count) state = (.ok sample, later) ∧
      sample.length = count ∧ sample.Nodup ∧ ∀ n ∈ sample, n < bound := by
  have distinct : (Array.range bound).toList.Nodup := by simpa using List.nodup_range
  obtain ⟨sample, later, drawn, length, single, known⟩ :=
    start_drawFromPool distinct (by simpa using inside) state
  refine ⟨sample, later, ?_, length, single, fun n member => by simpa using known n member⟩
  unfold drawSample
  rw [if_neg (by omega), if_neg (by omega), Int.toNat_natCast, if_pos small]
  exact drawn

end Twister

namespace Sampling

/-- What is drawn for a layer of a dimension over a field. -/
structure LayerProblem.FitsIn (F : Modulus) (dimension : Nat) (problem : LayerProblem) : Prop where
  wiring : problem.wiring.CanonicalIn F ∧ problem.wiring.numVariables = 3 * dimension
  left : problem.left.CanonicalIn F ∧ problem.left.numVariables = dimension
  right : problem.right.CanonicalIn F ∧ problem.right.numVariables = dimension
  point : (∀ v ∈ problem.point, v.CanonicalIn F) ∧ problem.point.length = dimension

theorem start_nonzero (F : Modulus) (state : Twister) :
    ∃ v later, Run.start (nonzero F) state = (.ok v, later) ∧ v.CanonicalIn F := by
  refine ⟨_, _, rfl, ?_⟩
  rw [F.ofInt_eq_embed]
  exact F.canonicalIn_embed _

theorem gives_point (F : Modulus) (count : Nat) :
    Gives (point F count) fun values =>
      (∀ v ∈ values, v.CanonicalIn F) ∧ values.length = count := by
  apply Gives.of_start
  intro state
  obtain ⟨values, later, drawn, length, known⟩ := start_point F count state
  exact ⟨values, later, drawn, known, length⟩

theorem gives_denseTable (F : Modulus) (n : Nat) :
    Gives (denseTable F n) fun t => t.CanonicalIn F ∧ t.numVariables = n :=
  .of_start (start_denseTable F n)

theorem gives_sparseTable (F : Modulus) {n : Nat} (few : corners n ≤ Twister.largestPopulation)
    {count : Int} (some : 0 ≤ count) :
    Gives (sparseTable F n count) fun t => t.CanonicalIn F ∧ t.numVariables = n := by
  unfold sparseTable
  rw [if_neg (by omega), Int.toNat_natCast]
  refine (Twister.gives_drawSample few (by omega) (by omega)).bind fun sample _ => ?_
  refine ((Gives.of_start (start_nonzero F)).replicate _).bind fun values known => ?_
  refine Gives.lift (SparseTable.ofEntries_refuses _ _ _) fun t made => ?_
  obtain ⟨arity, field, given⟩ := SparseTable.ofEntries_eq_ok made
  refine ⟨⟨field, fun e member => ?_⟩, by simpa using arity⟩
  obtain ⟨entry, inside, value⟩ := given e member
  rw [value]
  exact known _ (List.of_mem_zip inside).2

/-- A table of few corners is always drawn. -/
theorem start_sparseTable (F : Modulus) {n count : Nat}
    (few : corners n ≤ Twister.largestPopulation) (inside : count ≤ corners n)
    (small : corners n ≤ Twister.poolLimit count) (state : Twister) :
    ∃ t later, Run.start (sparseTable F n count) state = (.ok t, later) := by
  have least : min (count : Int) (corners n : Nat) = count := by omega
  obtain ⟨sample, middle, drawn, length, single, known⟩ :=
    Twister.start_drawSample few inside small state
  obtain ⟨values, later, given, length', canonical⟩ :=
    Run.start_replicate (start_nonzero F) sample.length middle
  have distinct : ((sample.zip values).map Prod.fst).Nodup := by
    rwa [List.map_fst_zip length'.ge]
  have placed : ∀ e ∈ sample.zip values, e.1 < corners n :=
    fun e member => known e.1 (List.of_mem_zip member).1
  obtain ⟨t, made, -⟩ := SparseTable.ofEntries_ok distinct placed
    fun e member => (canonical e.2 (List.of_mem_zip member).2).1
  have filled : SparseTable.ofEntries n ((sample.map fun (corner : Nat) => (corner : Int)).zip values)
      (some F) = .ok t := by
    rw [List.zip_map_left]
    exact made
  refine ⟨t, later, ?_⟩
  unfold sparseTable
  simp only [if_neg (by omega : ¬(n : Int) < 0), Int.toNat_natCast, Run.start_bind, Run.start_lift,
    least, drawn, given, filled]

/-- A layer with a wiring of few corners is always drawn. -/
theorem start_layerProblem (F : Modulus) {dimension : Nat}
    (few : corners (3 * dimension) ≤ Twister.largestPopulation)
    (small : corners (3 * dimension) ≤ Twister.poolLimit (corners dimension)) (state : Twister) :
    ∃ problem later, Run.start (layerProblem F dimension) state = (.ok problem, later) := by
  have three : (3 * (dimension : Int)) = ((3 * dimension : Nat) : Int) := by omega
  have inside : corners dimension ≤ corners (3 * dimension) :=
    Nat.pow_le_pow_right (by decide) (by omega)
  obtain ⟨wiring, first, wired⟩ := start_sparseTable F few inside small state
  obtain ⟨left, second, drawn, -⟩ := start_denseTable F dimension first
  obtain ⟨right, third, drawn', -⟩ := start_denseTable F dimension second
  obtain ⟨point, later, placed, -⟩ := start_point F dimension third
  refine ⟨⟨wiring, left, right, point⟩, later, ?_⟩
  unfold layerProblem
  simp only [if_neg (by omega : ¬(dimension : Int) < 0), three, Int.toNat_natCast, Run.start_bind,
    wired, drawn, drawn', placed, Run.start_pure]

/-- A layer that is drawn has the dimension that was asked for. -/
theorem gives_layerProblem (F : Modulus) {dimension : Nat}
    (few : corners (3 * dimension) ≤ Twister.largestPopulation) :
    Gives (layerProblem F dimension) fun problem => problem.FitsIn F dimension := by
  have three : (3 * (dimension : Int)) = ((3 * dimension : Nat) : Int) := by omega
  unfold layerProblem
  rw [if_neg (by omega), three, Int.toNat_natCast]
  refine (gives_sparseTable F few (Int.natCast_nonneg _)).bind fun wiring wired => ?_
  refine (gives_denseTable F dimension).bind fun left first => ?_
  refine (gives_denseTable F dimension).bind fun right second => ?_
  exact (gives_point F dimension).bind fun point known => .pure ⟨wired, first, second, known⟩

end Sampling

end HypercubeSum
