import HypercubeSum.Proofs.Record.NormalForms
import HypercubeSum.Proofs.Record.Numbers
import HypercubeSum.Stored.Table

/-!
# Stored sparse tables are read back

A sparse table is stored by ascending corner. The corners may be stored in any order and as numbers
of any form; sorting them is all that reading and writing again does to the entries that are kept.
-/

namespace HypercubeSum

variable {F : Modulus} {n : Nat}

namespace SparseTable

variable {t u : SparseTable}

/-- The order in which canonical values are kept makes no difference. -/
theorem valueAt_eq_of_perm (known : t.CanonicalIn F) (field : u.field = F)
    (perm : u.entries.Perm t.entries) (corner : Nat) : u.valueAt corner = t.valueAt corner := by
  have canonical (e : Nat × Scalar) (member : e ∈ u.entries) : e.2.CanonicalIn F :=
    known.2 e (perm.mem_iff.1 member)
  have residues : (u.valueAt corner).residue F = (t.valueAt corner).residue F := by
    rw [u.residue_valueAt field, t.residue_valueAt known.1]
    exact Cube.valueIn_perm (perm.map _) corner
  rw [(canonical_valueAt field canonical corner).eq_embed, residues,
    ← (canonical_valueAt known.1 known.2 corner).eq_embed]

theorem values_congr (arity : u.numVariables = t.numVariables)
    (same : ∀ corner, u.valueAt corner = t.valueAt corner) : u.values = t.values := by
  rw [values, values, arity]
  exact List.map_congr_left fun corner _ => same corner

end SparseTable

namespace StoredTable

/-- A corner passes the check if it is a place that stands for no number before. -/
theorem checkCorners_cons_eq_ok_iff {size : Nat} {known rest : List Document} {d : Document}
    (before : ∀ e ∈ known, e.isPlaceBelow size = .ok true) :
    checkCorners size known (d :: rest) = .ok () ↔
      d.isPlaceBelow size = .ok true ∧ d.value ∉ known.map Document.value ∧
        checkCorners size (d :: known) rest = .ok () := by
  rw [checkCorners]
  cases placed : d.isPlaceBelow size with
  | error fault => exact ⟨fun h => (nomatch h), fun h => (nomatch h.1)⟩
  | ok inside =>
    cases inside with
    | false => exact ⟨fun h => (nomatch h), fun h => (nomatch h.1)⟩
    | true =>
      have number := Document.isSome_ratio_of_isPlaceBelow placed
      have met : (known.any fun other => d.isAtMost other && other.isAtMost d) = true ↔
          d.value ∈ known.map Document.value := by
        rw [List.any_eq_true, List.mem_map]
        refine exists_congr fun other => and_congr_right fun member => ?_
        have number' := Document.isSome_ratio_of_isPlaceBelow (before other member)
        rw [Document.isAtMost_eq number number', Document.isAtMost_eq number' number]
        simp only [Bool.and_eq_true, decide_eq_true_eq]
        exact ⟨fun both => le_antisymm both.2 both.1, fun same => ⟨same.ge, same.le⟩⟩
      rw [← met]
      simp only [bind, Except.bind, Bool.not_true, Bool.false_eq_true, if_false, true_and]
      split
      next old => exact ⟨fun h => (nomatch h), fun h => absurd old h.1⟩
      next new => exact ⟨fun h => ⟨new, h⟩, fun h => h.2⟩

/-- Corners pass the check if they are places, and stand for numbers that are apart from each other
and from those before. -/
theorem checkCorners_eq_ok_iff {size : Nat} {known places : List Document}
    (before : ∀ e ∈ known, e.isPlaceBelow size = .ok true) :
    checkCorners size known places = .ok () ↔
      (∀ d ∈ places, d.isPlaceBelow size = .ok true) ∧ (places.map Document.value).Nodup ∧
        ∀ d ∈ places, d.value ∉ known.map Document.value := by
  induction places generalizing known with
  | nil => exact ⟨fun _ => by simp, fun _ => rfl⟩
  | cons d rest ih =>
    rw [checkCorners_cons_eq_ok_iff before, List.forall_mem_cons, List.forall_mem_cons, List.map_cons,
      List.nodup_cons]
    constructor
    · rintro ⟨placed, new, later⟩
      obtain ⟨others, apart, fresh⟩ := (ih (List.forall_mem_cons.2 ⟨placed, before⟩)).1 later
      simp only [List.map_cons, List.mem_cons, not_or] at fresh
      refine ⟨⟨placed, others⟩, ⟨fun again => ?_, apart⟩, new, fun e member => (fresh e member).2⟩
      obtain ⟨e, member, same⟩ := List.mem_map.1 again
      exact (fresh e member).1 same
    · rintro ⟨⟨placed, others⟩, ⟨first, apart⟩, new, fresh⟩
      refine ⟨placed, new, (ih (List.forall_mem_cons.2 ⟨placed, before⟩)).2 ⟨others, apart, ?_⟩⟩
      intro e member
      rw [List.map_cons, List.mem_cons, not_or]
      exact ⟨fun same => first (same ▸ List.mem_map_of_mem member), fresh e member⟩

def ascending (entries : List (Document × Scalar)) : List (Document × Scalar) :=
  entries.mergeSort fun a b => a.1.isAtMost b.1

variable {entries : List (Document × Scalar)}

theorem perm_ascending (entries : List (Document × Scalar)) : (ascending entries).Perm entries :=
  List.mergeSort_perm _ _

theorem mem_ascending {e : Document × Scalar} : e ∈ ascending entries ↔ e ∈ entries :=
  (perm_ascending entries).mem_iff

/-- Sorting sorted entries changes nothing. -/
theorem ascending_ascending (numbers : ∀ e ∈ entries, e.1.ratio?.isSome) :
    ascending (ascending entries) = ascending entries := by
  -- Documents that are no numbers spoil the order; among numbers it is that of their values.
  have byValue : ascending entries =
      entries.mergeSort fun a b => decide (a.1.value ≤ b.1.value) := by
    have agree : ∀ a ∈ entries, ∀ b ∈ entries,
        a.1.isAtMost b.1 = decide ((id a).1.value ≤ (id b).1.value) :=
      fun a first b second => Document.isAtMost_eq (numbers a first) (numbers b second)
    have mapped := List.map_mergeSort
      (s := fun a b : Document × Scalar => decide (a.1.value ≤ b.1.value)) agree
    rwa [List.map_id, List.map_id] at mapped
  have sorted : (ascending entries).Pairwise fun a b => decide (a.1.value ≤ b.1.value) = true := by
    rw [byValue]
    refine List.pairwise_mergeSort (fun a b c => ?_) (fun a b => ?_) entries
    · simpa only [decide_eq_true_eq] using le_trans
    · simpa only [Bool.or_eq_true, decide_eq_true_eq] using le_total a.1.value b.1.value
  refine List.mergeSort_of_pairwise (sorted.imp_of_mem fun {a b} first second low => ?_)
  rwa [Document.isAtMost_eq (numbers a (mem_ascending.1 first)) (numbers b (mem_ascending.1 second))]

/-- The entries whose corners are integers. -/
def usable (entries : List (Document × Scalar)) : List (Nat × Scalar) :=
  entries.filterMap fun e => e.1.integral?.map fun z => (z.toNat, e.2)

theorem mem_usable {e : Nat × Scalar} (member : e ∈ usable entries) :
    ∃ d z, (d, e.2) ∈ entries ∧ d.integral? = some z ∧ e.1 = z.toNat := by
  obtain ⟨⟨d, v⟩, inside, same⟩ := List.mem_filterMap.1 member
  obtain ⟨z, integral, rfl⟩ := Option.map_eq_some_iff.1 same
  exact ⟨d, z, inside, integral, rfl⟩

section Places

variable (placed : ∀ e ∈ entries, e.1.isPlaceBelow (corners n) = .ok true)

include placed

theorem corner_lt_of_mem_usable {e : Nat × Scalar} (member : e ∈ usable entries) :
    e.1 < corners n := by
  obtain ⟨d, z, inside, integral, same⟩ := mem_usable member
  have bounds := Document.integral_of_isPlaceBelow (placed _ inside) integral
  omega

/-- Integers are read as the corners that they are. -/
theorem usable_cast :
    (usable entries).map (fun (corner, value) => ((corner : Int), value)) =
      entries.filterMap fun (corner, value) => corner.integral?.map (·, value) := by
  rw [usable, List.map_filterMap]
  refine List.filterMap_congr fun e member => ?_
  cases integral : e.1.integral? with
  | none => simp [integral]
  | some z =>
    have bounds := Document.integral_of_isPlaceBelow (placed e member) integral
    simp [integral, bounds.1]

theorem nodup_usable (distinct : (entries.map fun e => e.1.value).Nodup) :
    ((usable entries).map Prod.fst).Nodup := by
  rw [List.Nodup, List.pairwise_map] at distinct ⊢
  rw [usable, List.pairwise_filterMap]
  refine distinct.imp_of_mem fun {a b} first second apart e given e' given' same => ?_
  obtain ⟨z, integral, rfl⟩ := Option.map_eq_some_iff.1 given
  obtain ⟨z', integral', rfl⟩ := Option.map_eq_some_iff.1 given'
  have bounds := Document.integral_of_isPlaceBelow (placed a first) integral
  have bounds' := Document.integral_of_isPlaceBelow (placed b second) integral'
  dsimp only at same
  obtain rfl : z = z' := by omega
  exact apart (by rw [Document.value_of_integral integral, Document.value_of_integral integral'])

end Places

/-- What is kept of a stored table over a field: nonzero canonical values at distinct places, and
among them those at corners. -/
structure Kept (F : Modulus) (n : Nat) (w : StoredTable) : Prop where
  counted : w.declared.cubeVariables = .ok n
  placed : ∀ e ∈ w.entries, e.1.isPlaceBelow (corners n) = .ok true
  /-- The corners stand for distinct numbers. -/
  distinct : (w.entries.map fun e => e.1.value).Nodup
  canonical : ∀ e ∈ w.entries, e.2.CanonicalIn F
  nonzero : ∀ e ∈ w.entries, e.2.toInt ≠ 0
  arity : w.table.numVariables = n
  field : w.table.field = F
  /-- The table has the entries whose corners are integers. -/
  table : w.table.entries = usable w.entries

namespace Kept

variable {w v : StoredTable}

theorem canonicalIn_table (kept : w.Kept F n) : w.table.CanonicalIn F := by
  refine ⟨kept.field, fun e member => ?_⟩
  rw [kept.table] at member
  obtain ⟨d, -, inside, -⟩ := mem_usable member
  exact kept.canonical _ inside

/-- In whatever order the entries are kept, the table has the same values. -/
theorem valueAt_eq (kept : w.Kept F n) (kept' : v.Kept F n) (perm : v.entries.Perm w.entries)
    (corner : Nat) : v.table.valueAt corner = w.table.valueAt corner := by
  refine SparseTable.valueAt_eq_of_perm kept.canonicalIn_table kept'.field ?_ corner
  rw [kept'.table, kept.table]
  exact perm.filterMap _

end Kept

/-- Canonical values at distinct places are taken in, without those that are zero. -/
theorem exists_kept {declared : Document} (counted : declared.cubeVariables = .ok n)
    (placed : ∀ e ∈ entries, e.1.isPlaceBelow (corners n) = .ok true)
    (distinct : (entries.map fun e => e.1.value).Nodup)
    (canonical : ∀ e ∈ entries, e.2.CanonicalIn F) :
    let kept := entries.filter fun (_, value) => value.toInt != 0
    ∃ t, SparseTable.ofEntries n
        (kept.filterMap fun (corner, value) => corner.integral?.map (·, value)) (some F) = .ok t ∧
      Kept F n ⟨declared, kept, t⟩ := by
  intro kept
  have old {e : Document × Scalar} (member : e ∈ kept) : e ∈ entries := (List.mem_filter.1 member).1
  have placed' : ∀ e ∈ kept, e.1.isPlaceBelow (corners n) = .ok true :=
    fun e member => placed e (old member)
  have distinct' : (kept.map fun e => e.1.value).Nodup :=
    distinct.sublist ((List.filter_sublist).map _)
  have nonzero : ∀ e ∈ kept, e.2.toInt ≠ 0 := fun e member => by
    simpa using (List.mem_filter.1 member).2
  have known : ∀ e ∈ usable kept, e.2.CanonicalIn F ∧ e.2.toInt ≠ 0 := fun e member => by
    obtain ⟨d, -, inside, -⟩ := mem_usable member
    exact ⟨canonical _ (old inside), nonzero _ inside⟩
  obtain ⟨t, made, arity, field, same⟩ := SparseTable.ofEntries_ok (nodup_usable placed' distinct')
    (fun e => corner_lt_of_mem_usable placed') fun e member => (known e member).1.1
  rw [usable_cast placed'] at made
  refine ⟨t, made, counted, placed', distinct', fun e member => canonical e (old member), nonzero,
    arity, field, ?_⟩
  rw [same, List.filter_eq_self]
  exact fun e member => by simpa using (known e member).2

/-- What is read is kept so. -/
theorem kept_of_ofDocument {d : Document} {w : StoredTable} (h : ofDocument F d = .ok w) :
    ∃ n, w.Kept F n := by
  obtain ⟨declared, -, h⟩ := bind_eq_ok h
  obtain ⟨_, -, h⟩ := bind_eq_ok h
  obtain ⟨items, -, h⟩ := bind_eq_ok h
  obtain ⟨given, listed, h⟩ := bind_eq_ok h
  obtain ⟨n, counted, h⟩ := bind_eq_ok h
  obtain ⟨_, checked, h⟩ := bind_eq_ok h
  obtain ⟨t, made, h⟩ := bind_eq_ok h
  cases h
  obtain ⟨placed, distinct, -⟩ := (checkCorners_eq_ok_iff (by simp)).1 checked
  have canonical : ∀ e ∈ given, e.2.CanonicalIn F := by
    intro e member
    obtain ⟨item, -, read⟩ := exists_of_mapM_eq_ok listed e member
    obtain ⟨⟨corner, value⟩, -, read⟩ := bind_eq_ok read
    obtain ⟨v, read', read⟩ := bind_eq_ok read
    cases read
    exact Scalar.canonicalIn_of_ofDocument read'
  rw [List.map_map] at distinct
  obtain ⟨t', made', kept⟩ := exists_kept counted
    (fun e member => placed e.1 (List.mem_map_of_mem member)) distinct canonical
  obtain rfl := Except.ok.inj (made'.symm.trans made)
  exact ⟨n, kept⟩

/-- What is kept is written by ascending corner and read back in that order. -/
theorem Kept.ofDocument_toDocument {w : StoredTable} (kept : w.Kept F n) (storable : F.Storable) :
    ∃ t, ofDocument F w.toDocument = .ok ⟨w.declared, ascending w.entries, t⟩ ∧
      Kept F n ⟨w.declared, ascending w.entries, t⟩ := by
  have old {e : Document × Scalar} (member : e ∈ ascending w.entries) : e ∈ w.entries :=
    mem_ascending.1 member
  have placed : ∀ e ∈ ascending w.entries, e.1.isPlaceBelow (corners n) = .ok true :=
    fun e member => kept.placed e (old member)
  have distinct : ((ascending w.entries).map fun e => e.1.value).Nodup :=
    ((perm_ascending w.entries).map _).nodup_iff.2 kept.distinct
  have canonical : ∀ e ∈ ascending w.entries, e.2.CanonicalIn F :=
    fun e member => kept.canonical e (old member)
  have nonzero : (ascending w.entries).filter (fun (_, value) => value.toInt != 0) =
      ascending w.entries := by
    rw [List.filter_eq_self]
    exact fun e member => by simpa using kept.nonzero e (old member)
  obtain ⟨t, made, again⟩ := exists_kept kept.counted placed distinct canonical
  rw [nonzero] at made again
  refine ⟨t, ?_, again⟩
  have number : w.toDocument.field "num_variables" = .ok w.declared := rfl
  have listed : w.toDocument.field "entries" = .ok (.list ((ascending w.entries).map
      fun (corner, value) => .list [corner, value.toDocument])) := rfl
  have items (entries : List Document) : (Document.list entries).items = .ok entries := rfl
  have checked : checkCorners (corners n) [] ((ascending w.entries).map Prod.fst) = .ok () := by
    refine (checkCorners_eq_ok_iff (by simp)).2 ⟨fun d member => ?_, ?_, by simp⟩
    · obtain ⟨e, inside, rfl⟩ := List.mem_map.1 member
      exact placed e inside
    · rwa [List.map_map]
  rw [ofDocument, bind_of_eq_ok number, bind_of_eq_ok listed, bind_of_eq_ok (items _),
    bind_of_eq_ok (mapM_map_self fun e member => ?_), bind_of_eq_ok kept.counted,
    bind_of_eq_ok checked]
  · simp only [nonzero, bind_of_eq_ok made]
    rfl
  · have value := Scalar.ofDocument_toDocument storable (canonical e member)
    simp only [Document.pair, Document.items?, bind, Except.bind, value]
    rfl

/-- Written again, it is the same. -/
theorem Kept.toDocument_ascending {w : StoredTable} (kept : w.Kept F n) (t : SparseTable) :
    toDocument ⟨w.declared, ascending w.entries, t⟩ = w.toDocument := by
  have sorted := ascending_ascending fun e member =>
    Document.isSome_ratio_of_isPlaceBelow (kept.placed e member)
  have written (entries : List (Document × Scalar)) (t : SparseTable) :
      toDocument ⟨w.declared, entries, t⟩ =
        .record [("num_variables", w.declared), ("entries", .list ((ascending entries).map
          fun (corner, value) => .list [corner, value.toDocument]))] := rfl
  rw [written, sorted]
  rfl

/-- A table that is stored with integers for its corners. -/
def ofTable (t : SparseTable) : StoredTable where
  declared := .whole t.numVariables
  entries := t.entries.map fun (corner, value) => (.whole corner, value)
  table := t

theorem toDocument_ofTable (t : SparseTable) : (ofTable t).toDocument = t.toDocument := by
  have sorted : ascending (ofTable t).entries =
      t.support.map fun (corner, value) => (.whole corner, value) := by
    refine (List.map_mergeSort fun a _ b _ => ?_).symm
    simp [Document.isAtMost, Document.ratio?, Document.integral?]
  have written : (ofTable t).toDocument =
      .record [("num_variables", .whole t.numVariables),
        ("entries", .list ((ascending (ofTable t).entries).map
          fun (corner, value) => .list [corner, value.toDocument]))] := rfl
  rw [written, sorted, List.map_map]
  rfl

theorem kept_ofTable {t : SparseTable} (known : t.CanonicalIn F) :
    (ofTable t).Kept F t.numVariables where
  counted := Document.cubeVariables_whole t.numVariables
  placed := by
    intro e member
    obtain ⟨kept, inside, rfl⟩ := List.mem_map.1 member
    exact Document.isPlaceBelow_whole (t.corner_lt kept inside)
  distinct := by
    have values : ((ofTable t).entries.map fun e => e.1.value) =
        (t.entries.map Prod.fst).map fun (corner : Nat) => (corner : ℚ) := by
      rw [ofTable, List.map_map, List.map_map]
      refine List.map_congr_left fun e _ => ?_
      exact Document.value_of_integral (z := (e.1 : Int)) rfl
    rw [values]
    exact t.nodup_corners.map Nat.cast_injective
  canonical := by
    intro e member
    obtain ⟨kept, inside, rfl⟩ := List.mem_map.1 member
    exact known.2 kept inside
  nonzero := by
    intro e member
    obtain ⟨kept, inside, rfl⟩ := List.mem_map.1 member
    exact t.ne_zero kept inside
  arity := rfl
  field := known.1
  table := by
    rw [ofTable, usable, List.filterMap_map]
    exact List.filterMap_some.symm

/-- A table is read back with the same values, and without fractions among its corners. -/
theorem ofDocument_toDocument (storable : F.Storable) {t : SparseTable} (known : t.CanonicalIn F) :
    ∃ w, ofDocument F t.toDocument = .ok w ∧ w.hasFraction = false ∧
      w.table.numVariables = t.numVariables ∧ w.table.field = F ∧
      (∀ corner, w.table.valueAt corner = t.valueAt corner) ∧ w.toDocument = t.toDocument := by
  have kept := kept_ofTable known
  obtain ⟨u, read, again⟩ := kept.ofDocument_toDocument storable
  rw [toDocument_ofTable] at read
  refine ⟨_, read, ?_, again.arity, again.field, kept.valueAt_eq again (perm_ascending _), ?_⟩
  · rw [hasFraction, List.any_eq_false]
    intro e member
    obtain ⟨entry, -, rfl⟩ := List.mem_map.1 (mem_ascending.1 member)
    simp [Document.integral?]
  · rw [kept.toDocument_ascending, toDocument_ofTable]

/-- Whatever is read is written in a form that is read as the same values, and written as it is. -/
theorem toDocument_normal (storable : F.Storable) {d : Document} {w : StoredTable}
    (h : ofDocument F d = .ok w) :
    ∃ v, ofDocument F w.toDocument = .ok v ∧ v.table.numVariables = w.table.numVariables ∧
      v.table.values = w.table.values ∧ v.toDocument = w.toDocument := by
  obtain ⟨n, kept⟩ := kept_of_ofDocument h
  obtain ⟨t, read, again⟩ := kept.ofDocument_toDocument storable
  have arity : t.numVariables = w.table.numVariables := again.arity.trans kept.arity.symm
  exact ⟨_, read, arity, SparseTable.values_congr arity (kept.valueAt_eq again (perm_ascending _)),
    kept.toDocument_ascending t⟩

end StoredTable

end HypercubeSum
