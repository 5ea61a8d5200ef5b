import HypercubeSum.Proofs.Live.Provers

/-!
# A desk with a borrowed list

Around a borrowed list many things happen in any order: lists are changed by those who hold them,
questions are asked of the borrowed table and of the tables that it gave, and provers start from
polynomials that have such tables among their factors. No list is ever held by two of them
(`Desk.Tidy`), so that what a visit writes is seen where it was meant to be and nowhere else
(`Desk.Follows`).
-/

namespace HypercubeSum

/-- The value that an edit writes is an element of the field. -/
def OwnerEdit.WritesIn (F : Modulus) : OwnerEdit → Prop
  | write _ value => value.field? = some F
  | append value => value.field? = some F
  | dropLast => True

/-- An edit of elements of the field leaves a list of them. -/
theorem OwnerEdit.WritesIn.inField {F : Modulus} {edit : OwnerEdit} {content later : List Scalar}
    (writes : edit.WritesIn F) (known : InField F content) (done : edit.apply content = .ok later) :
    InField F later := by
  cases edit with
  | write place value =>
    obtain ⟨i, -, done⟩ := bind_eq_ok done
    cases done
    intro v member
    rcases List.mem_or_eq_of_mem_set member with old | rfl
    · exact known v old
    · exact writes
  | append value =>
    cases done
    exact known.concat writes
  | dropLast =>
    change (if content.isEmpty then _ else _) = _ at done
    split at done
    · cases done
    · cases done
      exact fun v member => known v (List.mem_of_mem_dropLast member)

/-- A borrowed list, and what was made of it. -/
structure Desk where
  memory : Memory
  borrowed : LiveTable
  /-- The lists that the caller holds: the borrowed one, and then those that tables gave. -/
  held : List Nat
  /-- The tables that fixing leading variables gave. -/
  kept : List LiveTable
  provers : List LiveProver

inductive Source
  | borrowed
  | kept (place : Nat)

/-- What happens at a desk. -/
inductive Visit
  | edit (place : Nat) (edit : OwnerEdit)
  | ask (source : Source) (question : Question)
  /-- A prover starts from a polynomial whose factors of some identities are tables at the desk. -/
  | start (p : SumOfProducts) (sources : Nat → Option Source)
  | call (place : Nat) (challenge? : Option Scalar)

def Visit.WritesIn (F : Modulus) : Visit → Prop
  | edit place change => place = 0 → change.WritesIn F
  | _ => True

/-- The challenge that a visit calls the prover at a place with. -/
def Visit.calls? (place : Nat) : Visit → Option (Option Scalar)
  | call other challenge? => if other = place then some challenge? else none
  | _ => none

namespace Desk

/-- The desk of a caller who has lent a list. -/
def lend (content : List Scalar) : Except Fault Desk :=
  (fun t => ⟨⟨[content]⟩, t, [0], [], []⟩) <$> Run.outcome (LiveTable.borrow 0) ⟨[content]⟩

def table? (d : Desk) : Source → Option LiveTable
  | .borrowed => some d.borrowed
  | .kept place => d.kept[place]?

/-- The tables that factors are, by the identities of the factors. -/
def live (d : Desk) (sources : Nat → Option Source) (identity : Nat) : Option LiveTable :=
  (sources identity).bind d.table?

/-- The same with the content that their lists have at this moment. -/
def current (d : Desk) (sources : Nat → Option Source) : Nat → Option Extension :=
  LiveTable.current d.memory (d.live sources)

/-- A list that is given belongs to the caller, and a table is kept. -/
def take (d : Desk) : Reply → Desk
  | .table t => { d with kept := d.kept ++ [t] }
  | .list address => { d with held := d.held ++ [address] }
  | _ => d

def asked (d : Desk) (question : Question) (t : LiveTable) : Desk :=
  match Run.start (t.answer question) d.memory with
  | (.ok reply, memory) => { d with memory }.take reply
  | (.error _, memory) => { d with memory }

def after (d : Desk) : Visit → Desk
  | .edit place change =>
    (d.held[place]?).elim d fun address =>
      match change.apply (d.memory.read address) with
      | .ok content => { d with memory := d.memory.modify address fun _ => content }
      | .error _ => d
  | .ask source question => (d.table? source).elim d (d.asked question)
  | .start p sources =>
    match Run.start (LiveProver.start p (d.live sources)) d.memory with
    | (.ok s, memory) => { d with memory, provers := d.provers ++ [s] }
    | (.error _, memory) => { d with memory }
  | .call place challenge? =>
    (d.provers[place]?).elim d fun s =>
      let (s, memory, _) := s.next challenge? d.memory
      { d with memory, provers := d.provers.set place s }

def content (d : Desk) : List Scalar := d.memory.read d.borrowed.address

/-- Asked a question, a table replies with that answer, or is refused with that fault. -/
def Answers (d : Desk) (t : LiveTable) (question : Question) (expected : Except Fault Answer) :
    Prop :=
  let (outcome, memory) := Run.start (t.answer question) d.memory
  Reply.Matches memory outcome expected

/-- All lists that somebody at the desk holds. -/
def addresses (d : Desk) : List Nat :=
  d.held ++ d.kept.map (·.address) ++ d.provers.flatMap (·.addresses)

/-- No list is held twice, and those of kept tables have their length. -/
structure Tidy (d : Desk) : Prop where
  apart : d.addresses.Nodup
  inside : ∀ address ∈ d.addresses, address < d.memory.size
  lent : d.borrowed.lent = true
  first : d.held[0]? = some d.borrowed.address
  own : ∀ t ∈ d.kept, t.lent = false ∧ (d.memory.read t.address).length = corners t.numVariables

variable {d later : Desk} {t : LiveTable} {s : LiveProver} {place : Nat}

namespace Tidy

theorem held_apart (tidy : d.Tidy) {address : Nat} (held : address ∈ d.held) :
    (∀ t ∈ d.kept, t.address ≠ address) ∧ ∀ s ∈ d.provers, address ∉ s.addresses := by
  have apart := tidy.apart
  rw [addresses, List.append_assoc, List.nodup_append] at apart
  obtain ⟨-, -, disjoint⟩ := apart
  refine ⟨fun t member same => ?_, fun s member inside => ?_⟩
  · refine disjoint address held t.address ?_ same.symm
    exact List.mem_append_left _ (List.mem_map_of_mem member)
  · refine disjoint address held address ?_ rfl
    exact List.mem_append_right _ (List.mem_flatMap.2 ⟨s, member, inside⟩)

theorem held_place (tidy : d.Tidy) {other address : Nat} (there : d.held[place]? = some address)
    (also : d.held[other]? = some address) : place = other := by
  have apart := tidy.apart
  rw [addresses, List.append_assoc, List.nodup_append] at apart
  have inside := (List.getElem?_eq_some_iff.1 there).1
  exact (List.getElem?_inj inside apart.1).1 (there.trans also.symm)

theorem kept_apart (tidy : d.Tidy) (kept : t ∈ d.kept) :
    ∀ s ∈ d.provers, t.address ∉ s.addresses := by
  have apart := tidy.apart
  rw [addresses, List.nodup_append] at apart
  obtain ⟨-, -, disjoint⟩ := apart
  intro s member inside
  refine disjoint t.address ?_ t.address (List.mem_flatMap.2 ⟨s, member, inside⟩) rfl
  exact List.mem_append_right _ (List.mem_map_of_mem kept)

theorem prover_nodup (tidy : d.Tidy) (member : s ∈ d.provers) : s.addresses.Nodup := by
  have apart := tidy.apart
  rw [addresses, List.nodup_append] at apart
  exact (List.nodup_flatMap.1 apart.2.1).1 s member

theorem prover_inside (tidy : d.Tidy) (member : s ∈ d.provers) :
    ∀ address ∈ s.addresses, address < d.memory.size := by
  intro address here
  refine tidy.inside address (List.mem_append_right _ ?_)
  exact List.mem_flatMap.2 ⟨s, member, here⟩

theorem provers_apart (tidy : d.Tidy) {other : Nat} {s' : LiveProver}
    (there : d.provers[place]? = some s) (also : d.provers[other]? = some s')
    (differ : place ≠ other) : ∀ address ∈ s.addresses, address ∉ s'.addresses := by
  have apart := tidy.apart
  rw [addresses, List.nodup_append] at apart
  have pairwise := (List.nodup_flatMap.1 apart.2.1).2
  rw [List.pairwise_iff_getElem] at pairwise
  obtain ⟨i, rfl⟩ := List.getElem?_eq_some_iff.1 there
  obtain ⟨j, rfl⟩ := List.getElem?_eq_some_iff.1 also
  intro address here inside
  rcases Nat.lt_or_gt_of_ne differ with before | after
  · exact pairwise _ _ i j before here inside
  · exact pairwise _ _ j i after inside here

theorem sound_borrowed (tidy : d.Tidy) : d.borrowed.Sound d.memory where
  inside := by
    refine tidy.inside _ (List.mem_append_left _ (List.mem_append_left _ ?_))
    exact List.mem_of_getElem? tidy.first
  whole own := by simp [tidy.lent] at own

theorem sound (tidy : d.Tidy) {source : Source} (known : d.table? source = some t) :
    t.Sound d.memory := by
  cases source with
  | borrowed =>
    cases known
    exact tidy.sound_borrowed
  | kept place =>
    have member := List.mem_of_getElem? known
    refine ⟨tidy.inside _ ?_, fun _ => (tidy.own t member).2⟩
    exact List.mem_append_left _ (List.mem_append_right _ (List.mem_map_of_mem member))

theorem sound_live (tidy : d.Tidy) {sources : Nat → Option Source} (identity : Nat) (t : LiveTable)
    (known : d.live sources identity = some t) : t.Sound d.memory := by
  obtain ⟨source, -, found⟩ := Option.bind_eq_some_iff.1 known
  exact tidy.sound found

/-- A table answers for the content that its list has. -/
theorem answers (tidy : d.Tidy) {source : Source} (known : d.table? source = some t)
    (question : Question) :
    d.Answers t question ((Extension.borrowed (t.view d.memory)).answer question) := by
  obtain ⟨outcome, memory, run, -, right, -⟩ := LiveTable.answer_view (tidy.sound known) question
  rw [Answers, run]
  exact right

end Tidy

/-- The lists that a visit writes into. -/
def written (d : Desk) : Visit → List Nat
  | .edit place _ => (d.held[place]?).toList
  | .call place _ => (d.provers[place]?).elim [] (·.addresses)
  | _ => []

/-- What a step can do at most: it writes into some lists, and adds lists that nobody held. -/
structure Follows (d later : Desk) (written : List Nat) : Prop where
  size_le : d.memory.size ≤ later.memory.size
  read_eq : ∀ address < d.memory.size, address ∉ written →
    later.memory.read address = d.memory.read address
  borrowed : later.borrowed = d.borrowed
  held : d.held <+: later.held
  kept : ∃ more, later.kept = d.kept ++ more ∧ ∀ t ∈ more,
    t.lent = false ∧ (later.memory.read t.address).length = corners t.numVariables
  fresh : ∃ fresh, later.addresses.Perm (d.addresses ++ fresh) ∧ fresh.Nodup ∧
    ∀ address ∈ fresh, d.memory.size ≤ address ∧ address < later.memory.size

theorem Follows.refl (d : Desk) (written : List Nat) : d.Follows d written := by
  refine ⟨Nat.le_refl _, fun _ _ _ => rfl, rfl, List.prefix_rfl, ⟨[], by simp, by simp⟩, [], ?_⟩
  simp

/-- A step that only makes lists for nobody writes into none of those held. -/
theorem Follows.grows {memory : Memory} (grows : d.memory.Grows memory) (written : List Nat) :
    d.Follows { d with memory } written := by
  refine ⟨grows.size_le, fun a inside _ => grows.read_eq a inside, rfl, List.prefix_rfl,
    ⟨[], by simp, by simp⟩, [], ?_⟩
  simp [addresses]

/-- A step that changes some lists in place leaves all others as they are. -/
theorem Follows.modify {memory : Memory} {written : List Nat} {provers : List LiveProver}
    (size : memory.size = d.memory.size)
    (others : ∀ other ∉ written, memory.read other = d.memory.read other)
    (same : provers.flatMap (·.addresses) = d.provers.flatMap (·.addresses)) :
    d.Follows { d with memory, provers } written := by
  refine ⟨Nat.le_of_eq size.symm, fun a _ outside => others a outside, rfl, List.prefix_rfl,
    ⟨[], by simp, by simp⟩, [], ?_⟩
  simp [addresses, same]

theorem follows_asked (sound : t.Sound d.memory) (question : Question) :
    d.Follows (d.asked question t) [] := by
  obtain ⟨outcome, memory, run, grows, right, fresh⟩ := LiveTable.answer_view sound question
  rw [asked, run]
  cases outcome with
  | error fault => exact .grows grows _
  | ok reply =>
    cases reply with
    | count n => exact .grows grows _
    | value v => exact .grows grows _
    | list address =>
      obtain ⟨low, high⟩ := fresh _ rfl address rfl
      refine ⟨grows.size_le, fun a inside _ => grows.read_eq a inside, rfl,
        List.prefix_append _ _, ⟨[], by simp [take], by simp⟩, [address], ?_, by simp, ?_⟩
      · rw [List.perm_iff_count]
        intro a
        simp only [take, addresses, List.count_append]
        omega
      · simpa [take] using And.intro low high
    | table made =>
      obtain ⟨low, high⟩ := fresh _ rfl made.address rfl
      refine ⟨grows.size_le, fun a inside _ => grows.read_eq a inside, rfl, List.prefix_rfl,
        ⟨[made], rfl, ?_⟩, [made.address], ?_, by simp, ?_⟩
      · intro other member
        obtain rfl := List.mem_singleton.1 member
        cases answered : (Extension.borrowed (t.view d.memory)).answer question with
        | error fault => simp [answered, Reply.Matches] at right
        | ok a =>
          rw [answered] at right
          cases right with
          | table holds =>
            rename_i own
            have content : memory.read other.address = own.values :=
              congrArg BorrowedTable.content holds.view_eq
            have count : other.numVariables = own.numVariables :=
              congrArg BorrowedTable.numVariables holds.view_eq
            exact ⟨holds.lent, by rw [count, ← own.length_values, ← content]; rfl⟩
      · rw [List.perm_iff_count]
        intro a
        simp only [take, addresses, List.map_append, List.map_singleton, List.count_append]
        omega
      · simpa [take] using And.intro low high

/-- The addresses of the provers do not change when one of them is called. -/
theorem flatMap_set {later : LiveProver} (there : d.provers[place]? = some s)
    (same : later.addresses = s.addresses) :
    (d.provers.set place later).flatMap (·.addresses) = d.provers.flatMap (·.addresses) := by
  have entry : (d.provers.map (·.addresses))[place]? = some s.addresses := by simp [there]
  obtain ⟨inside, value⟩ := List.getElem?_eq_some_iff.1 entry
  rw [List.flatMap_def, List.flatMap_def, List.map_set, same, ← value, List.set_getElem_self]

theorem follows_after (tidy : d.Tidy) (visit : Visit) :
    d.Follows (d.after visit) (d.written visit) := by
  cases visit with
  | edit place change =>
    rw [after, written]
    cases d.held[place]? with
    | none => exact .refl d _
    | some address =>
      simp only [Option.elim_some]
      split
      next content done =>
        refine .modify (by simp) (fun other outside => ?_) rfl
        exact Memory.read_modify_ne (by simpa using outside) _
      next => exact .refl d _
  | ask source question =>
    rw [after]
    cases known : d.table? source with
    | none => exact .refl d _
    | some t => exact follows_asked (tidy.sound known) question
  | start p sources =>
    obtain ⟨outcome, memory, run, grows, -, fresh⟩ := LiveProver.start_view p tidy.sound_live
    rw [after, run]
    cases outcome with
    | error fault => exact .grows grows _
    | ok s =>
      obtain ⟨apart, inside⟩ := fresh s rfl
      refine ⟨grows.size_le, fun a inside _ => grows.read_eq a inside, rfl, List.prefix_rfl,
        ⟨[], by simp, by simp⟩, s.addresses, ?_, apart, inside⟩
      simp [addresses]
  | call place challenge? =>
    rw [after, written]
    cases there : d.provers[place]? with
    | none => exact .refl d _
    | some s =>
      have member := List.mem_of_getElem? there
      obtain ⟨later, memory, run, -, same, size, others⟩ := LiveProver.next_view
        (tidy.prover_nodup member) (tidy.prover_inside member) challenge?
      simp only [Option.elim_some, run]
      exact .modify size others (flatMap_set there same)

/-- What a visit writes into is not in kept tables. -/
theorem Tidy.kept_outside (tidy : d.Tidy) (kept : t ∈ d.kept) (visit : Visit) :
    t.address ∉ d.written visit := by
  cases visit with
  | edit place change =>
    cases held : d.held[place]? with
    | none => simp [written, held]
    | some address =>
      simpa [written, held] using (tidy.held_apart (List.mem_of_getElem? held)).1 t kept
  | ask source question => simp [written]
  | start p sources => simp [written]
  | call place challenge? =>
    cases there : d.provers[place]? with
    | none => simp [written, there]
    | some s => simpa [written, there] using tidy.kept_apart kept s (List.mem_of_getElem? there)

theorem Tidy.follows (tidy : d.Tidy) {written : List Nat} (follows : d.Follows later written)
    (outside : ∀ t ∈ d.kept, t.address ∉ written) : later.Tidy := by
  obtain ⟨fresh, permuted, distinct, new⟩ := follows.fresh
  have old : ∀ a ∈ d.addresses, a < d.memory.size := tidy.inside
  constructor
  · rw [permuted.nodup_iff, List.nodup_append]
    refine ⟨tidy.apart, distinct, fun a here b there same => ?_⟩
    have low := old a here
    have high := (new b there).1
    omega
  · intro a member
    rcases List.mem_append.1 (permuted.mem_iff.1 member) with here | there
    · exact Nat.lt_of_lt_of_le (old a here) follows.size_le
    · exact (new a there).2
  · rw [follows.borrowed]
    exact tidy.lent
  · obtain ⟨more, whole⟩ := follows.held
    rw [follows.borrowed, ← whole]
    exact List.getElem?_append_left (List.getElem?_eq_some_iff.1 tidy.first).1 |>.trans tidy.first
  · obtain ⟨more, kept, right⟩ := follows.kept
    intro t member
    rw [kept] at member
    rcases List.mem_append.1 member with here | there
    · obtain ⟨own, whole⟩ := tidy.own t here
      have inside : t.address < d.memory.size := by
        refine old _ (List.mem_append_left _ (List.mem_append_right _ ?_))
        exact List.mem_map_of_mem here
      exact ⟨own, by rw [follows.read_eq _ inside (outside t here), whole]⟩
    · exact right t there

theorem Tidy.after (tidy : d.Tidy) (visit : Visit) : (d.after visit).Tidy :=
  tidy.follows (d.follows_after tidy visit) fun _ kept => tidy.kept_outside kept visit

theorem Tidy.visits (tidy : d.Tidy) (visits : List Visit) : (visits.foldl Desk.after d).Tidy := by
  induction visits generalizing d with
  | nil => exact tidy
  | cons visit rest ih => exact ih (tidy.after visit)

/-- A kept table stays, with the content that it had. -/
theorem Tidy.kept_after (tidy : d.Tidy) (there : d.kept[place]? = some t) (visit : Visit) :
    (d.after visit).kept[place]? = some t ∧ t.view (d.after visit).memory = t.view d.memory := by
  have follows := follows_after tidy visit
  have member := List.mem_of_getElem? there
  obtain ⟨more, kept, -⟩ := follows.kept
  constructor
  · rw [kept]
    exact (List.getElem?_append_left (List.getElem?_eq_some_iff.1 there).1).trans there
  · have inside : t.address < d.memory.size := by
      refine tidy.inside _ (List.mem_append_left _ (List.mem_append_right _ ?_))
      exact List.mem_map_of_mem member
    rw [LiveTable.view, LiveTable.view, follows.read_eq _ inside (tidy.kept_outside member visit)]

theorem Tidy.kept_visits (tidy : d.Tidy) (there : d.kept[place]? = some t) (visits : List Visit) :
    (visits.foldl Desk.after d).kept[place]? = some t ∧
      t.view (visits.foldl Desk.after d).memory = t.view d.memory := by
  induction visits generalizing d with
  | nil => exact ⟨there, rfl⟩
  | cons visit rest ih =>
    obtain ⟨still, view⟩ := tidy.kept_after there visit
    obtain ⟨last, same⟩ := ih (tidy.after visit) still
    exact ⟨last, same.trans view⟩

end Desk

/-- Calls lead where the first leads and then the others. -/
theorem Prover.snd_calls_cons (s : Prover) (challenge? : Option Scalar)
    (rest : List (Option Scalar)) :
    (s.calls (challenge? :: rest)).2 = ((s.next challenge?).1.calls rest).2 := by
  rw [calls]
  rcases s.next challenge? with ⟨later, fault | message⟩ <;> rfl

namespace Desk

variable {d later : Desk} {s : LiveProver} {place : Nat}

theorem view_eq_of_read {m memory : Memory}
    (same : ∀ address ∈ s.addresses, memory.read address = m.read address) :
    s.view memory = s.view m := by
  rw [LiveProver.view, LiveProver.view, List.map_congr_left same]

/-- A visit that does not call the prover leaves it in its place. -/
theorem provers_after (there : d.provers[place]? = some s) {visit : Visit}
    (uncalled : visit.calls? place = none) : (d.after visit).provers[place]? = some s := by
  cases visit with
  | edit other change =>
    rw [Desk.after]
    cases d.held[other]? with
    | none => exact there
    | some address =>
      simp only [Option.elim_some]
      split <;> exact there
  | ask source question =>
    rw [Desk.after]
    cases d.table? source with
    | none => exact there
    | some t =>
      change (d.asked question t).provers[place]? = _
      rw [asked]
      split
      next reply memory run => cases reply <;> exact there
      next => exact there
  | start p sources =>
    rw [Desk.after]
    split
    · exact (List.getElem?_append_left (List.getElem?_eq_some_iff.1 there).1).trans there
    · exact there
  | call other challenge? =>
    have differ : other ≠ place := by simpa [Visit.calls?] using uncalled
    rw [Desk.after]
    cases d.provers[other]? with
    | none => exact there
    | some s' => simpa [List.getElem?_set, differ] using there

/-- Nor does it write into its lists. -/
theorem Tidy.prover_outside (tidy : d.Tidy) (there : d.provers[place]? = some s) {visit : Visit}
    (uncalled : visit.calls? place = none) : ∀ address ∈ s.addresses, address ∉ d.written visit := by
  cases visit with
  | edit other change =>
    cases held : d.held[other]? with
    | none => simp [written, held]
    | some address =>
      have apart :=
        (tidy.held_apart (List.mem_of_getElem? held)).2 s (List.mem_of_getElem? there)
      intro a here
      simp only [written, held, Option.toList_some, List.mem_singleton]
      exact fun same => apart (same ▸ here)
  | ask source question => simp [written]
  | start p sources => simp [written]
  | call other challenge? =>
    have differ : other ≠ place := by simpa [Visit.calls?] using uncalled
    cases also : d.provers[other]? with
    | none => simp [written, also]
    | some s' => simpa [written, also] using tidy.provers_apart there also (Ne.symm differ)

/-- A prover changes by the calls to it, and by nothing else. -/
theorem Tidy.prover_after (tidy : d.Tidy) (there : d.provers[place]? = some s) (visit : Visit) :
    ∃ s', (d.after visit).provers[place]? = some s' ∧
      s'.view (d.after visit).memory =
        ((s.view d.memory).calls (visit.calls? place).toList).2 := by
  have member := List.mem_of_getElem? there
  cases called : visit.calls? place with
  | none =>
    refine ⟨s, provers_after there called, view_eq_of_read fun address here => ?_⟩
    exact (follows_after tidy visit).read_eq _ (tidy.prover_inside member _ here)
      (tidy.prover_outside there called _ here)
  | some challenge? =>
    obtain rfl : visit = .call place challenge? := by
      cases visit with
      | call other given =>
        obtain ⟨rfl, rfl⟩ : other = place ∧ given = challenge? := by
          simpa [Visit.calls?] using called
        rfl
      | _ => cases called
    obtain ⟨later, memory, run, view, -, -, -⟩ := LiveProver.next_view
      (tidy.prover_nodup member) (tidy.prover_inside member) challenge?
    have after : d.after (.call place challenge?) =
        { d with memory, provers := d.provers.set place later } := by
      rw [Desk.after, there]
      simp only [Option.elim_some, run]
    rw [after]
    refine ⟨later, List.getElem?_set_self (List.getElem?_eq_some_iff.1 there).1, ?_⟩
    rw [view, Option.toList_some, Prover.snd_calls_cons]
    rfl

/-- Whatever else happens, a prover is where its own calls have brought it. -/
theorem Tidy.prover_visits (tidy : d.Tidy) (there : d.provers[place]? = some s)
    (visits : List Visit) :
    ∃ s', (visits.foldl Desk.after d).provers[place]? = some s' ∧
      s'.view (visits.foldl Desk.after d).memory =
        ((s.view d.memory).calls (visits.filterMap (Visit.calls? place))).2 := by
  induction visits generalizing d s with
  | nil => exact ⟨s, there, rfl⟩
  | cons visit rest ih =>
    obtain ⟨later, still, view⟩ := tidy.prover_after there visit
    obtain ⟨last, final, right⟩ := ih (tidy.after visit) still
    refine ⟨last, final, ?_⟩
    rw [List.foldl_cons, right, view, List.filterMap_cons]
    cases visit.calls? place with
    | none => rfl
    | some challenge? =>
      rw [Option.toList_some, Prover.snd_calls_cons, Prover.snd_calls_cons]
      rfl

end Desk

end HypercubeSum
