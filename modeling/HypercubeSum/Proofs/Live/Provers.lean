import HypercubeSum.Live.Prover
import HypercubeSum.Proofs.Live.Tables
import HypercubeSum.Proofs.Round.Calls

/-!
# Provers on lists in memory

A prover on lists in memory is one whose tables have the content of its lists. It starts on lists that
nobody held before, and a call changes no other list.
-/

namespace HypercubeSum

namespace Memory

variable {m : Memory} {addresses : List Nat} {change : List Scalar → List Scalar}

@[simp] theorem size_foldl_modify (addresses : List Nat) (m : Memory) :
    (addresses.foldl (fun m address => m.modify address change) m).size = m.size := by
  induction addresses generalizing m with
  | nil => rfl
  | cons address rest ih => rw [List.foldl_cons, ih, size_modify]

theorem read_foldl_modify_ne {other : Nat} (apart : other ∉ addresses) :
    (addresses.foldl (fun m address => m.modify address change) m).read other = m.read other := by
  induction addresses generalizing m with
  | nil => rfl
  | cons address rest ih =>
    rw [List.mem_cons, not_or] at apart
    rw [List.foldl_cons, ih apart.2, read_modify_ne apart.1]

/-- Lists that are apart are changed one by one. -/
theorem map_read_foldl_modify (apart : addresses.Nodup)
    (inside : ∀ address ∈ addresses, address < m.size) :
    addresses.map (addresses.foldl (fun m address => m.modify address change) m).read =
      addresses.map fun address => change (m.read address) := by
  induction addresses generalizing m with
  | nil => rfl
  | cons address rest ih =>
    obtain ⟨first, later⟩ := List.nodup_cons.1 apart
    have others : rest.map (fun other => change ((m.modify address change).read other)) =
        rest.map fun other => change (m.read other) := by
      refine List.map_congr_left fun other member => ?_
      rw [read_modify_ne (ne_of_mem_of_not_mem member first)]
    rw [List.foldl_cons, List.map_cons, List.map_cons, read_foldl_modify_ne first,
      read_modify_self (inside address List.mem_cons_self), ih later, others]
    simpa using fun other member => inside other (List.mem_cons_of_mem _ member)

end Memory

namespace LiveTable

variable {m later : Memory} {t : LiveTable}

theorem view_grows (grows : m.Grows later) (inside : t.address < m.size) :
    t.view later = t.view m := by
  rw [view, view, grows.read_eq _ inside]

theorem Sound.grows (sound : t.Sound m) (grows : m.Grows later) : t.Sound later where
  inside := Nat.lt_of_lt_of_le sound.inside grows.size_le
  whole own := by
    rw [grows.read_eq _ sound.inside]
    exact sound.whole own

/-- The factors of some identities, with the content that their lists have in a memory. -/
def current (m : Memory) (live : Nat → Option LiveTable) (identity : Nat) : Option Extension :=
  (live identity).map fun t => .borrowed (t.view m)

theorem current_grows {live : Nat → Option LiveTable}
    (sound : ∀ identity t, live identity = some t → t.Sound m) (grows : m.Grows later) :
    current later live = current m live := by
  funext identity
  cases known : live identity with
  | none => simp [current, known]
  | some t => simp [current, known, view_grows grows (sound identity t known).inside]

end LiveTable

namespace LiveProver

open LiveTable (current current_grows)

variable {m : Memory} {live : Nat → Option LiveTable}

/-- A factor gives a list that is not in use yet. -/
theorem start_listed (sound : ∀ identity t, live identity = some t → t.Sound m) (factor : Factor) :
    let table := ((current m live factor.identity).getD factor.extension).table
    ∃ later, Run.start (listed live factor) m = ((fun _ => m.size) <$> table, later) ∧
      m.Grows later ∧ ∀ values, table = .ok values →
        m.size < later.size ∧ later.read m.size = values := by
  unfold listed current
  cases known : live factor.identity with
  | some t => exact LiveTable.start_table (sound _ t known)
  | none =>
    intro table
    change ∃ later, Run.start (liftM factor.extension.table >>= Memory.allocate) m = _ ∧ _
    rw [Run.start_bind, Run.start_lift]
    change ∃ later, _ = ((fun _ => m.size) <$> factor.extension.table, later) ∧
      m.Grows later ∧ ∀ values, factor.extension.table = .ok values → _
    cases factor.extension.table with
    | error fault => exact ⟨m, rfl, .refl m, by rintro values ⟨⟩⟩
    | ok values =>
      refine ⟨m.push values, rfl, m.grows_push _, ?_⟩
      rintro other ⟨⟩
      simp

/-- All factors give lists of their own. -/
theorem start_mapM_listed (factors : List Factor) {m : Memory}
    (sound : ∀ identity t, live identity = some t → t.Sound m) :
    ∃ outcome later, Run.start (factors.mapM (listed live)) m = (outcome, later) ∧
      m.Grows later ∧
      List.map later.read <$> outcome = factors.mapM (fun factor =>
        ((current m live factor.identity).getD factor.extension).table) ∧
      ∀ addresses, outcome = .ok addresses → addresses.Nodup ∧
        ∀ address ∈ addresses, m.size ≤ address ∧ address < later.size := by
  induction factors generalizing m with
  | nil => exact ⟨.ok [], m, rfl, .refl m, rfl, by rintro addresses ⟨⟩; simp⟩
  | cons factor rest ih =>
    obtain ⟨middle, first, grows, known⟩ := start_listed sound factor
    obtain ⟨outcome, later, run, more, tables, apart⟩ :=
      ih fun identity t same => (sound identity t same).grows grows
    rw [current_grows sound grows] at tables
    rw [List.mapM_cons, List.mapM_cons, Run.start_bind, first]
    cases given : ((current m live factor.identity).getD factor.extension).table with
    | error fault => exact ⟨.error fault, middle, rfl, grows, rfl, by rintro addresses ⟨⟩⟩
    | ok values =>
      obtain ⟨inside, value⟩ := known values given
      change ∃ outcome' later', Run.start (rest.mapM (listed live) >>= _) middle = _ ∧ _
      rw [Run.start_bind, run, bind_of_eq_ok rfl, ← tables]
      cases outcome with
      | error fault => exact ⟨.error fault, later, rfl, grows.trans more, rfl, by rintro addresses ⟨⟩⟩
      | ok addresses =>
        obtain ⟨others, fresh⟩ := apart addresses rfl
        refine ⟨.ok (m.size :: addresses), later, rfl, grows.trans more, ?_, ?_⟩
        · rw [← value, ← more.read_eq _ inside]
          rfl
        · rintro all ⟨⟩
          refine ⟨List.nodup_cons.2 ⟨fun again => ?_, others⟩, ?_⟩
          · have := (fresh _ again).1
            omega
          · intro address member
            rcases List.mem_cons.1 member with rfl | old
            · exact ⟨Nat.le_refl _, Nat.lt_of_lt_of_le inside more.size_le⟩
            · exact ⟨Nat.le_trans grows.size_le (fresh address old).1, (fresh address old).2⟩

theorem fieldOf_eq (m : Memory) (live : Nat → Option LiveTable) (p : SumOfProducts) :
    fieldOf live p = (p.refresh (current m live)).field := by
  unfold fieldOf SumOfProducts.field SumOfProducts.refresh
  cases p.factors with
  | nil => rfl
  | cons factor rest =>
    cases known : live factor.identity with
    | none => simp [current, known]
    | some t => simp [current, known, Extension.field, LiveTable.view]

/-- A prover starts as from the factors with the content that their lists have, on lists that were
not in use. -/
theorem start_view (p : SumOfProducts)
    (sound : ∀ identity t, live identity = some t → t.Sound m) :
    ∃ outcome later, Run.start (start p live) m = (outcome, later) ∧ m.Grows later ∧
      view later <$> outcome = Prover.start (p.refresh (current m live)) ∧
      ∀ s, outcome = .ok s → s.addresses.Nodup ∧
        ∀ address ∈ s.addresses, m.size ≤ address ∧ address < later.size := by
  obtain ⟨outcome, later, run, grows, tables, apart⟩ := start_mapM_listed p.factors sound
  have same : (p.refresh (current m live)).tables = List.map later.read <$> outcome := by
    rw [tables, SumOfProducts.tables, SumOfProducts.refresh, List.mapM_map]
    rfl
  unfold start
  rw [Prover.start_eq, same, ← fieldOf_eq]
  change ∃ o l, _ ∧ _ ∧ _ = (if p.numVariables = 0 then _ else if p.terms = [] then _ else _) ∧ _
  by_cases constant : p.numVariables = 0
  · refine ⟨.error .constantPolynomial, m, ?_, .refl m, ?_, by rintro s ⟨⟩⟩
    · simp [constant]
    · rw [if_pos constant]
      rfl
  · by_cases none : p.terms = []
    · refine ⟨.error .noTerms, m, ?_, .refl m, ?_, by rintro s ⟨⟩⟩
      · simp [constant, none]
      · rw [if_neg constant, if_pos none]
        rfl
    · have some : p.terms.isEmpty = false := by simpa using none
      refine ⟨(fun addresses => ⟨[], p.terms, addresses, p.numVariables, p.maxFactors,
        fieldOf live p, 0⟩) <$> outcome, later, ?_, grows, ?_, ?_⟩
      · simp only [constant, some, if_false, Bool.false_eq_true, Run.start_bind, Run.start_pure, run]
        cases outcome <;> rfl
      · rw [if_neg constant, if_neg none]
        cases outcome <;> rfl
      · cases outcome with
        | error fault => rintro s ⟨⟩
        | ok addresses =>
          rintro s ⟨⟩
          exact apart addresses rfl

/-- The challenges recorded and the tables folded are those of the view. -/
theorem taken_view {s : LiveProver} (apart : s.addresses.Nodup)
    (inside : ∀ address ∈ s.addresses, address < m.size) (challenge? : Option Scalar) :
    view
        (challenge?.elim m fun r =>
          s.addresses.foldl (fun m address => m.modify address (Cube.foldInPlace · r)) m)
        { s with challenges := s.challenges ++ challenge?.toList } =
      (s.view m).taken challenge? := by
  cases challenge? with
  | none => simp [Prover.taken, view]
  | some r =>
    have folded : s.addresses.map
          (s.addresses.foldl (fun m address => m.modify address (Cube.foldInPlace · r)) m).read =
        s.addresses.map fun address => Cube.foldInPlace (m.read address) r :=
      Memory.map_read_foldl_modify apart inside
    simp [Prover.taken, Prover.fold, view, folded]

/-- A call does to the prover what it does to its view, and changes no list of anybody else. -/
theorem next_view {s : LiveProver} (apart : s.addresses.Nodup)
    (inside : ∀ address ∈ s.addresses, address < m.size) (challenge? : Option Scalar) :
    ∃ later final, s.next challenge? m = (later, final, ((s.view m).next challenge?).2) ∧
      later.view final = ((s.view m).next challenge?).1 ∧ later.addresses = s.addresses ∧
      final.size = m.size ∧ ∀ other ∉ s.addresses, final.read other = m.read other := by
  have turn : Prover.turnFault? (s.view m).numVariables (s.view m).round challenge? =
      Prover.turnFault? s.numVariables s.round challenge? := rfl
  unfold next Prover.next
  rw [turn]
  cases Prover.turnFault? s.numVariables s.round challenge? with
  | some fault => exact ⟨s, m, rfl, rfl, rfl, rfl, fun _ _ => rfl⟩
  | none =>
    dsimp only
    rw [taken_view apart inside, Prover.advance_fst]
    refine ⟨_, _, rfl, ?_, rfl, ?_, ?_⟩
    · rw [← taken_view apart inside]
      rfl
    · cases challenge? <;> simp
    · intro other outside
      cases challenge? with
      | none => rfl
      | some r => exact Memory.read_foldl_modify_ne outside

end LiveProver

end HypercubeSum
