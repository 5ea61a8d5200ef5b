import HypercubeSum.Multilinear.Dense
import HypercubeSum.Proofs.Arithmetic.Residue
import HypercubeSum.Proofs.Cube.Support

/-!
# Tables of scalars

Folding, weighing and contracting tables of elements of one field is the same on their residues.
Results of arithmetic are canonical; a table that nothing has been fixed in keeps the
representatives it was given.
-/

namespace HypercubeSum

/-- All values are elements of the field. -/
def InField (p : Modulus) (values : List Scalar) : Prop := ∀ v ∈ values, v.field? = some p

theorem InField.append {p : Modulus} {values others : List Scalar} (first : InField p values)
    (second : InField p others) : InField p (values ++ others) := by
  intro v member
  rcases List.mem_append.1 member with low | high
  · exact first v low
  · exact second v high

theorem InField.concat {p : Modulus} {values : List Scalar} (inField : InField p values) {v : Scalar}
    (own : v.field? = some p) : InField p (values ++ [v]) :=
  inField.append fun _ member => List.mem_singleton.1 member ▸ own

namespace Cube

variable {p : Modulus}

theorem getD_map_residue (values : List Scalar) (i : Nat) :
    (values.map (Scalar.residue p)).getD i 0 = (values.getD i p.zero).residue p := by
  have zero : p.zero.residue p = 0 := by rw [p.zero_eq_embed, p.residue_embed]
  simp [List.getD_eq_getElem?_getD, ← zero, Option.getD_map]

theorem field?_getD {values : List Scalar} (inField : InField p values) (i : Nat) :
    (values.getD i p.zero).field? = some p := by
  rw [List.getD_eq_getElem?_getD]
  cases found : values[i]? with
  | none => rfl
  | some v => exact inField v (List.mem_of_getElem? found)

/-- Two loops whose steps agree on images agree on images. -/
theorem foldl_image {α β γ : Type} {f : α → β} {step : α → γ → α} {image : β → γ → β}
    {items : List γ} (same : ∀ item ∈ items, ∀ a, image (f a) item = f (step a item)) {a : α} :
    items.foldl image (f a) = f (items.foldl step a) := by
  induction items generalizing a with
  | nil => rfl
  | cons item rest ih =>
    rw [List.foldl_cons, same item List.mem_cons_self,
      ih fun later member => same later (List.mem_cons_of_mem _ member), List.foldl_cons]

theorem inField_map_embed (values : List (ZMod p.val)) : InField p (values.map p.embed) := by
  intro v member
  obtain ⟨a, -, rfl⟩ := List.mem_map.1 member
  exact p.field?_embed a

/-- The coordinates of a corner in a field are canonical. -/
theorem corner_eq_embed (n b : Nat) :
    corner p.zero p.one n b = (corner 0 1 n b).map p.embed := by
  rw [map_corner, p.zero_eq_embed, p.one_eq_embed]

/-- Multiplying scalars into a field is multiplying their residues. -/
theorem foldl_mul_embed (a : ZMod p.val) (values : List Scalar) :
    values.foldl (· * ·) (p.embed a) = p.embed (a * (values.map (Scalar.residue p)).prod) := by
  induction values generalizing a with
  | nil => simp
  | cons v rest ih =>
    rw [List.foldl_cons, Scalar.embed_mul, ih, List.map_cons, List.prod_cons, mul_assoc]

/-- Adding scalars up into a field is adding up their residues. -/
theorem foldl_add_embed (a : ZMod p.val) (values : List Scalar) :
    values.foldl (· + ·) (p.embed a) = p.embed (a + (values.map (Scalar.residue p)).sum) := by
  induction values generalizing a with
  | nil => simp
  | cons v rest ih =>
    rw [List.foldl_cons, Scalar.embed_add, ih, List.map_cons, List.sum_cons, add_assoc]

/-- So is adding up values that are computed one after the other and never fail. -/
theorem foldlM_add_embed (f : Nat → ZMod p.val) (step : Scalar → Nat → Except Fault Scalar)
    (count : Nat) (each : ∀ a, ∀ i < count, step (p.embed a) i = .ok (p.embed (a + f i)))
    (a : ZMod p.val) :
    (List.range count).foldlM step (p.embed a) =
      .ok (p.embed (a + ∑ i ∈ Finset.range count, f i)) := by
  induction count with
  | zero => simp [pure, Except.pure]
  | succ count ih =>
    have before := ih fun a i early => each a i (Nat.lt_succ_of_lt early)
    rw [List.range_succ, List.foldlM_append, before, Finset.sum_range_succ]
    simp [each, add_assoc, bind, Except.bind, pure, Except.pure]

theorem zipWith_add_embed (sums : List (ZMod p.val)) (values : List Scalar) :
    (sums.map p.embed).zipWith (· + ·) values =
      (sums.zipWith (· + ·) (values.map (Scalar.residue p))).map p.embed := by
  rw [List.zipWith_map_left, List.zipWith_map_right, List.map_zipWith]
  simp

/-- Multiplying elements of the field entry by entry multiplies their residues. -/
theorem zipWith_mul_residue {values : List Scalar} (known : InField p values)
    (factors : List Scalar) :
    InField p (values.zipWith (· * ·) factors) ∧
      (values.zipWith (· * ·) factors).map (Scalar.residue p) =
        (values.map (Scalar.residue p)).zipWith (· * ·) (factors.map (Scalar.residue p)) := by
  induction values generalizing factors with
  | nil => exact ⟨by simp [InField], rfl⟩
  | cons v rest ih =>
    cases factors with
    | nil => exact ⟨by simp [InField], rfl⟩
    | cons factor factors =>
      have first := known v List.mem_cons_self
      obtain ⟨later, same⟩ := ih (fun w member => known w (List.mem_cons_of_mem v member)) factors
      have product := Scalar.mul_of_field? (y := factor) first
      refine ⟨fun w member => ?_, ?_⟩
      · rcases List.mem_cons.1 member with here | inside
        · rw [here.trans product]
          exact p.field?_embed _
        · exact later w inside
      · rw [List.zipWith_cons_cons, List.map_cons, same, product, Modulus.residue_embed]
        rfl

theorem edges_map {R S : Type} (f : R → S) (table : List R) :
    edges (table.map f) = (edges table).map (Prod.map f f) := by
  fun_induction edges table with
  | case1 a b rest ih => simp [edges, ih]
  | case2 table short =>
    rcases table with _ | ⟨a, _ | ⟨b, rest⟩⟩
    · rfl
    · rfl
    · exact absurd rfl (short a b rest)

theorem restrict_eq_embed {table : List Scalar} {r : Scalar} (known : InField p table)
    (coordinate : r.field? = some p) :
    restrict table r = (restrict (table.map (Scalar.residue p)) (r.residue p)).map p.embed := by
  rw [restrict, restrict, edges_map, List.map_map, List.map_map]
  refine List.map_congr_left fun edge member => ?_
  obtain ⟨a, b⟩ := edge
  have ends := mem_edges member
  change a + r * (b - a) = p.embed (a.residue p + r.residue p * (b.residue p - a.residue p))
  rw [Scalar.add_of_field? (known a ends.1), Scalar.mul_of_field? coordinate,
    Scalar.sub_of_field? (known b ends.2), Modulus.residue_embed, Modulus.residue_embed]

theorem map_residue_restrictAll {table point : List Scalar} (known : InField p table)
    (coordinates : InField p point) :
    (restrictAll table point).map (Scalar.residue p) =
      restrictAll (table.map (Scalar.residue p)) (point.map (Scalar.residue p)) := by
  induction point generalizing table with
  | nil => rfl
  | cons r rest ih =>
    have first := coordinates r List.mem_cons_self
    have later : InField p rest := fun v member => coordinates v (List.mem_cons_of_mem r member)
    change (restrictAll (restrict table r) rest).map _ = _
    rw [ih (DenseTable.field_of_mem_restrict r known) later, restrict_eq_embed known first,
      Modulus.map_residue_map_embed]
    rfl

/-- Fixing a variable at all leaves canonical elements. -/
theorem restrictAll_eq_embed {table point : List Scalar} {r : Scalar} (known : InField p table)
    (coordinates : InField p (r :: point)) :
    restrictAll table (r :: point) =
      (restrictAll (table.map (Scalar.residue p)) ((r :: point).map (Scalar.residue p))).map
        p.embed := by
  have grow (point : List Scalar) (coordinates : InField p point) (values : List (ZMod p.val)) :
      restrictAll (values.map p.embed) point =
        (restrictAll values (point.map (Scalar.residue p))).map p.embed := by
    induction point generalizing values with
    | nil => rfl
    | cons r rest ih =>
      have later : InField p rest := fun v member => coordinates v (List.mem_cons_of_mem r member)
      change restrictAll (restrict (values.map p.embed) r) rest = _
      rw [restrict_eq_embed (inField_map_embed values) (coordinates r List.mem_cons_self),
        p.map_residue_map_embed, ih later]
      rfl
  have later : InField p point := fun v member => coordinates v (List.mem_cons_of_mem r member)
  change restrictAll (restrict table r) point = _
  rw [restrict_eq_embed known (coordinates r List.mem_cons_self), grow point later]
  rfl

theorem indicator_eq_embed (point : List Scalar) :
    indicator p.one point = (indicator 1 (point.map (Scalar.residue p))).map p.embed := by
  have grow (point : List Scalar) (table : List (ZMod p.val)) :
      point.foldl double (table.map p.embed) =
        ((point.map (Scalar.residue p)).foldl double table).map p.embed := by
    induction point generalizing table with
    | nil => rfl
    | cons r rest ih =>
      have upper : (table.map p.embed).map (· * r) =
          (table.map (· * r.residue p)).map p.embed := by
        simp [Function.comp_def]
      have step : double (table.map p.embed) r = (double table (r.residue p)).map p.embed := by
        simp only [double]
        rw [upper, List.zipWith_map, List.map_append, List.map_zipWith]
        simp
      rw [List.foldl_cons, step, ih, List.map_cons, List.foldl_cons]
  have start := grow point [1]
  rwa [List.map_singleton, ← Modulus.one_eq_embed] at start

def residueEntries (p : Modulus) (entries : List (Nat × Scalar)) : List (Nat × ZMod p.val) :=
  entries.map fun e => (e.1, e.2.residue p)

def embedEntries (p : Modulus) (entries : List (Nat × ZMod p.val)) : List (Nat × Scalar) :=
  entries.map fun e => (e.1, p.embed e.2)

@[simp] theorem residueEntries_embedEntries (entries : List (Nat × ZMod p.val)) :
    residueEntries p (embedEntries p entries) = entries := by
  simp [residueEntries, embedEntries, Function.comp_def]

theorem map_fst_residueEntries (entries : List (Nat × Scalar)) :
    (residueEntries p entries).map Prod.fst = entries.map Prod.fst := by
  simp [residueEntries]

theorem lookup_residueEntries (entries : List (Nat × Scalar)) (i : Nat) :
    (residueEntries p entries).lookup i = (entries.lookup i).map (Scalar.residue p) := by
  induction entries with
  | nil => rfl
  | cons e rest ih =>
    obtain ⟨j, v⟩ := e
    rw [residueEntries, List.map_cons, List.lookup_cons, List.lookup_cons]
    by_cases same : i = j
    · simp [same]
    · have other : (i == j) = false := by simpa using same
      rw [residueEntries] at ih
      simpa only [other] using ih

theorem accumulate_embedEntries (position : Nat) (a : ZMod p.val)
    (entries : List (Nat × ZMod p.val)) :
    accumulate position (p.embed a) (embedEntries p entries) =
      embedEntries p (accumulate position a entries) := by
  induction entries with
  | nil => rfl
  | cons e rest ih =>
    obtain ⟨j, v⟩ := e
    change accumulate position (p.embed a) ((j, p.embed v) :: embedEntries p rest) = _
    rw [accumulate, accumulate]
    split
    · rw [Scalar.embed_add, Modulus.residue_embed]
      rfl
    · rw [ih]
      rfl

/-- Accumulating canonical elements one after the other is accumulating their residues. -/
theorem foldl_accumulate_embed {α : Type} (position : α → Nat) (value : α → ZMod p.val)
    (items : List α) (entries : List (Nat × ZMod p.val)) :
    items.foldl (fun known item => accumulate (position item) (p.embed (value item)) known)
        (embedEntries p entries) =
      embedEntries p
        (items.foldl (fun known item => accumulate (position item) (value item) known) entries) := by
  induction items generalizing entries with
  | nil => rfl
  | cons item rest ih => rw [List.foldl_cons, accumulate_embedEntries, ih, List.foldl_cons]

/-- The entry of the indicator at the low bits of a position, as a factor. -/
theorem getD_indicator_mul (window : List Scalar) (i : Nat) (v : Scalar) :
    (indicator p.one window).toArray.getD (i % corners window.length) default * v =
      p.embed (weight (window.map (Scalar.residue p)) (i % corners window.length) *
        v.residue p) := by
  have low : i % corners window.length < corners window.length :=
    Nat.mod_lt i (corners_pos window.length)
  have entry : (indicator p.one window).toArray.getD (i % corners window.length) default =
      p.embed (weight (window.map (Scalar.residue p)) (i % corners window.length)) := by
    rw [indicator_eq_embed, indicator_eq]
    simp [low]
  rw [entry, Scalar.embed_mul]

theorem contract_eq_embed (entries : List (Nat × Scalar)) (window : List Scalar) :
    contract p.one entries window =
      embedEntries p
        (contract 1 (residueEntries p entries) (window.map (Scalar.residue p))) := by
  have weights (i : Nat) := getD_indicator (window.map (Scalar.residue p)) i
  rw [List.length_map] at weights
  rw [contract_eq_foldl, contract_eq_foldl, residueEntries, List.foldl_map, List.length_map]
  simp only [getD_indicator_mul, weights]
  exact foldl_accumulate_embed _ _ entries []

theorem residueEntries_contractAll (width : Nat) (entries : List (Nat × Scalar))
    (point : List Scalar) :
    residueEntries p (contractAll p.one width entries point) =
      contractAll 1 width (residueEntries p entries) (point.map (Scalar.residue p)) := by
  fun_induction contractAll p.one width entries point with
  | case1 entries => rw [List.map_nil, contractAll]
  | case2 entries r rest ih =>
    rw [ih, contract_eq_embed, residueEntries_embedEntries, List.map_cons, List.map_cons,
      List.map_take, List.map_drop, ← contractAll]

/-- Contracting keeps the corners distinct, in the smaller hypercube, and the values in the field.
-/
theorem contract_entries {entries : List (Nat × Scalar)} (window : List Scalar) (n : Nat)
    (few : window.length ≤ n) (inside : ∀ e ∈ entries, e.1 < corners n) :
    let after := contract p.one entries window
    (after.map Prod.fst).Nodup ∧ (∀ e ∈ after, e.1 < corners (n - window.length)) ∧
      ∀ e ∈ after, e.2.field? = some p := by
  have split : corners n = corners window.length * corners (n - window.length) := by
    rw [← corners_add, Nat.add_sub_cancel' few]
  have kept := foldl_accumulate_corners (fun e : Nat × Scalar => e.1 / corners window.length)
    (fun e => (indicator p.one window).toArray.getD (e.1 % corners window.length) default * e.2)
    (corners (n - window.length)) entries []
    (fun e member => Nat.div_lt_of_lt_mul (by rw [← split]; exact inside e member)) (by simp)
  refine ⟨kept.1, kept.2, fun e member => ?_⟩
  rw [contract_eq_embed] at member
  obtain ⟨e', -, rfl⟩ := List.mem_map.1 member
  exact p.field?_embed e'.2

/-- Contracting by a window at all leaves canonical elements. -/
theorem canonical_contractAll (width : Nat) {entries : List (Nat × Scalar)} {point : List Scalar}
    (fixed : point ≠ [] ∨ ∀ e ∈ entries, e.2.CanonicalIn p) :
    ∀ e ∈ contractAll p.one width entries point, e.2.CanonicalIn p := by
  fun_induction contractAll p.one width entries point with
  | case1 entries => simpa using fixed
  | case2 entries r rest ih =>
    refine ih (.inr fun e member => ?_)
    rw [contract_eq_embed] at member
    obtain ⟨e', -, rfl⟩ := List.mem_map.1 member
    exact p.canonicalIn_embed e'.2

theorem contractAll_entries (width : Nat) {entries : List (Nat × Scalar)} {point : List Scalar}
    {n : Nat} (few : point.length ≤ n)
    (before : (entries.map Prod.fst).Nodup ∧ (∀ e ∈ entries, e.1 < corners n) ∧
      ∀ e ∈ entries, e.2.field? = some p) :
    let after := contractAll p.one width entries point
    (after.map Prod.fst).Nodup ∧ (∀ e ∈ after, e.1 < corners (n - point.length)) ∧
      ∀ e ∈ after, e.2.field? = some p := by
  fun_induction contractAll p.one width entries point generalizing n with
  | case1 entries => simpa using before
  | case2 entries r rest ih =>
    rw [List.length_cons] at few
    have window : (r :: rest.take width).length ≤ n := by simp; omega
    have step := contract_entries (p := p) (r :: rest.take width) n window before.2.1
    have fewer : (rest.drop width).length ≤ n - (r :: rest.take width).length := by simp; omega
    have left : n - (r :: rest.take width).length - (rest.drop width).length =
        n - (r :: rest).length := by simp; omega
    have whole := ih fewer step
    rwa [left] at whole

end Cube

end HypercubeSum
