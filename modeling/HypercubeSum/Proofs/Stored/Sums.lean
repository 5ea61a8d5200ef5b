import HypercubeSum.Proofs.Multilinear.Extension
import HypercubeSum.Proofs.Polynomial.Handles
import HypercubeSum.Proofs.Record.NormalForms
import HypercubeSum.Proofs.Record.Numbers
import HypercubeSum.Stored.Sum

/-!
# Stored sums are read back

A sum of products is stored with the tables of its factors. What is read back has the same terms, and
in place of the factors dense tables with new identities, in the same order. The numbers may be stored
in any form; what is read keeps the form, and so it can be stored again.
-/

namespace HypercubeSum

/-- Dense tables as factors, with identities that count up from the first. -/
def numbered : Nat → List DenseTable → List Factor
  | _, [] => []
  | first, t :: rest => ⟨first, .dense t⟩ :: numbered (first + 1) rest

section Numbered

variable {first : Nat} {tables : List DenseTable}

@[simp] theorem length_numbered (first : Nat) (tables : List DenseTable) :
    (numbered first tables).length = tables.length := by
  induction tables generalizing first with
  | nil => rfl
  | cons t rest ih => rw [numbered, List.length_cons, ih, List.length_cons]

theorem numbered_append (first : Nat) (tables others : List DenseTable) :
    numbered first (tables ++ others) =
      numbered first tables ++ numbered (first + tables.length) others := by
  induction tables generalizing first with
  | nil => rfl
  | cons t rest ih =>
    have place : first + (t :: rest).length = first + 1 + rest.length := by
      rw [List.length_cons]
      omega
    rw [List.cons_append, numbered, ih, numbered, place, List.cons_append]

theorem mem_numbered {factor : Factor} (member : factor ∈ numbered first tables) :
    factor.identity < first + tables.length ∧ ∃ t ∈ tables, factor.extension = .dense t := by
  induction tables generalizing first with
  | nil => cases member
  | cons t rest ih =>
    rw [List.length_cons]
    rcases List.mem_cons.1 member with rfl | later
    · exact ⟨by simp, t, List.mem_cons_self, rfl⟩
    · obtain ⟨below, u, inside, same⟩ := ih later
      exact ⟨by omega, u, List.mem_cons_of_mem _ inside, same⟩

theorem mapM_numbered (first : Nat) (tables : List DenseTable) :
    (numbered first tables).mapM (fun factor => factor.extension.table) =
      .ok (tables.map (·.values)) := by
  induction tables generalizing first with
  | nil => rfl
  | cons t rest ih =>
    rw [numbered, List.mapM_cons, ih]
    rfl

/-- Tables over a field are factors that lie in it. -/
theorem liesIn_of_mem_numbered {F : Modulus} (known : ∀ t ∈ tables, t.CanonicalIn F)
    {factor : Factor} (member : factor ∈ numbered first tables) : factor.extension.LiesIn F := by
  obtain ⟨-, t, inside, same⟩ := mem_numbered member
  rw [same]
  exact (known t inside).1

theorem arity_of_mem_numbered {n : Nat} (known : ∀ t ∈ tables, t.numVariables = n)
    {factor : Factor} (member : factor ∈ numbered first tables) : factor.extension.arity = n := by
  obtain ⟨-, t, inside, same⟩ := mem_numbered member
  rw [same]
  exact known t inside

/-- The next identity belongs to no factor. -/
theorem findIdx?_numbered (first : Nat) (tables : List DenseTable) :
    ((numbered first tables).findIdx? fun known => known.identity == first + tables.length) =
      none := by
  rw [List.findIdx?_eq_none_iff]
  intro factor member
  have := (mem_numbered member).1
  simp only [beq_eq_false_iff_ne]
  omega

def SumOfProducts.withFactors (p : SumOfProducts) (factors : List Factor) : SumOfProducts :=
  { p with factors }

theorem SumOfProducts.register_numbered {p : SumOfProducts}
    (factors : p.factors = numbered first tables) {t : DenseTable}
    (arity : t.numVariables = p.numVariables) :
    p.register ⟨first + tables.length, .dense t⟩ =
      .ok (p.withFactors (numbered first (tables ++ [t])), tables.length) := by
  have unknown := findIdx?_numbered first tables
  simp only [register, Extension.numVariables, arity, factors, length_numbered, bind, Except.bind,
    ne_eq, not_true_eq_false, if_false, unknown, numbered_append]
  rfl

theorem field_of_numbered {p : SumOfProducts} {F : Modulus}
    (factors : p.factors = numbered first tables) (some : tables ≠ [])
    (known : ∀ t ∈ tables, t.field = F) : p.field = F := by
  match tables, some with
  | t :: rest, _ =>
    rw [SumOfProducts.field, factors]
    exact known t List.mem_cons_self

end Numbered

variable {F : Modulus}

namespace StoredSum

def blank (n : Nat) (declared : Document) : StoredSum := ⟨⟨n, 0, [], []⟩, declared, []⟩

def withFactors (p : StoredSum) (factors : List Factor) : StoredSum :=
  { p with sum := p.sum.withFactors factors }

/-- A table that is taken as a factor where a number of variables is declared: one of canonical
elements, for as many variables. -/
structure Takes (F : Modulus) (declared : Document) (n : Nat) (t : DenseTable) : Prop where
  canonical : t.CanonicalIn F
  arity : t.numVariables = n
  whole : declared.whole? = some (t.numVariables : Int)

variable {p q : StoredSum} {first : Nat} {tables : List DenseTable} {t : DenseTable}

theorem register_numbered (factors : p.sum.factors = numbered first tables)
    (takes : Takes F p.declared p.sum.numVariables t) :
    p.register ⟨first + tables.length, .dense t⟩ =
      .ok (p.withFactors (numbered first (tables ++ [t])), tables.length) := by
  simp only [register, Extension.numVariables, bind, Except.bind, takes.whole, ne_eq,
    not_true_eq_false, if_false, SumOfProducts.register_numbered factors takes.arity]
  rfl

/-- What is registered is taken. -/
theorem takes_of_register {identity : Nat} {result : StoredSum × Nat} (canonical : t.CanonicalIn F)
    (h : p.register ⟨identity, .dense t⟩ = .ok result) :
    Takes F p.declared p.sum.numVariables t := by
  obtain ⟨arity, counted, h⟩ := bind_eq_ok h
  obtain rfl : t.numVariables = arity := Except.ok.inj counted
  by_cases differ : p.declared.whole? ≠ some (t.numVariables : Int)
  · rw [if_pos differ] at h
    cases h
  · rw [if_neg differ] at h
    obtain ⟨⟨sum, handle⟩, registered, -⟩ := bind_eq_ok h
    obtain ⟨same, -⟩ := SumOfProducts.register_eq_ok registered
    exact ⟨canonical, Except.ok.inj same, not_not.1 differ⟩

/-- Stored tables are registered after those that are there. -/
theorem registerTables_eq (storable : F.Storable) (first : Nat) (tables : List DenseTable)
    {others : List DenseTable} (factors : p.sum.factors = numbered first tables)
    (takes : ∀ t ∈ others, Takes F p.declared p.sum.numVariables t) :
    registerTables F (first + tables.length) p
        (others.map fun t => Scalar.listToDocument t.values) =
      .ok (p.withFactors (numbered first (tables ++ others))) := by
  induction others generalizing p tables with
  | nil =>
    rw [List.append_nil, ← factors]
    rfl
  | cons t rest ih =>
    have here := takes t List.mem_cons_self
    have next : registerTables F (first + (tables ++ [t]).length)
        (p.withFactors (numbered first (tables ++ [t])))
        (rest.map fun t => Scalar.listToDocument t.values) =
          .ok (p.withFactors (numbered first (tables ++ [t] ++ rest))) :=
      ih (tables ++ [t]) rfl fun u member => takes u (List.mem_cons_of_mem _ member)
    rw [List.length_append, List.length_singleton, ← Nat.add_assoc, List.append_assoc] at next
    rw [List.map_cons, registerTables,
      bind_of_eq_ok (DenseTable.ofDocument_listToDocument storable here.canonical),
      bind_of_eq_ok (register_numbered factors here)]
    exact next

/-- Whatever is registered from documents are tables that the sum takes. -/
theorem registerTables_eq_ok (first : Nat) (tables : List DenseTable)
    {documents : List Document} (factors : p.sum.factors = numbered first tables)
    (h : registerTables F (first + tables.length) p documents = .ok q) :
    ∃ others : List DenseTable, (∀ t ∈ others, Takes F p.declared p.sum.numVariables t) ∧
      q = p.withFactors (numbered first (tables ++ others)) := by
  induction documents generalizing p tables with
  | nil =>
    cases h
    refine ⟨[], by simp, ?_⟩
    rw [List.append_nil, ← factors]
    rfl
  | cons d rest ih =>
    obtain ⟨t, read, h⟩ := bind_eq_ok h
    obtain ⟨⟨later, handle⟩, registered, h⟩ := bind_eq_ok h
    have here : Takes F p.declared p.sum.numVariables t :=
      takes_of_register (DenseTable.canonicalIn_of_ofDocument read) registered
    obtain ⟨rfl, -⟩ := Prod.mk.inj
      (Except.ok.inj ((register_numbered factors here).symm.trans registered))
    have index : first + tables.length + 1 = first + (tables ++ [t]).length := by
      rw [List.length_append, List.length_singleton, Nat.add_assoc]
    dsimp only at h
    rw [index] at h
    obtain ⟨others, takes, rfl⟩ := ih (tables ++ [t]) rfl h
    refine ⟨t :: others, List.forall_mem_cons.2 ⟨here, takes⟩, ?_⟩
    rw [List.append_assoc]
    rfl

end StoredSum

def Term.toDocument (term : Term) (handles : List Document) : Document :=
  .list [(term.coefficient : Scalar).toDocument, .list handles]

/-- A term of canonical coefficient and of registered factors. -/
def Term.Fits (F : Modulus) (count : Nat) (term : Term) : Prop :=
  (term.coefficient : Scalar).CanonicalIn F ∧ term.handles ≠ [] ∧
    ∀ handle ∈ term.handles, handle < count

/-- Stored handles that are read as those of a term of registered factors. -/
structure Term.StoredAs (F : Modulus) (count : Nat) (term : Term) (handles : List Document) :
    Prop where
  fits : term.Fits F count
  read : handles.mapM (StoredSum.readHandle count) =
    .ok (term.handles.map fun (handle : Nat) => (handle : Int))

/-- Without factors there are no terms. -/
theorem Term.StoredAs.count_pos {count : Nat} {term : Term} {handles : List Document}
    (stored : term.StoredAs F count handles) : 0 < count := by
  obtain ⟨handle, named⟩ := List.exists_mem_of_ne_nil _ stored.fits.2.1
  exact Nat.zero_lt_of_lt (stored.fits.2.2 handle named)

/-- Handles that are stored as integers. -/
theorem Term.Fits.storedAs {count : Nat} {term : Term} (fits : term.Fits F count) :
    term.StoredAs F count (term.handles.map fun (handle : Nat) => .whole handle) := by
  refine ⟨fits, mapM_map_ok fun handle member => ?_⟩
  rw [StoredSum.readHandle,
    bind_of_eq_ok (Document.isPlaceBelow_whole (fits.2.2 handle member)),
    Document.floor?_whole handle]
  rfl

namespace SumOfProducts

def withTerm (p : SumOfProducts) (term : Term) : SumOfProducts :=
  { p with terms := p.terms ++ [term], maxFactors := max p.maxFactors term.handles.length }

theorem foldl_withTerm (terms : List Term) (p : SumOfProducts) :
    terms.foldl withTerm p =
      { p with
        terms := p.terms ++ terms
        maxFactors :=
          terms.foldl (fun most term => max most term.handles.length) p.maxFactors } := by
  induction terms generalizing p with
  | nil => rw [List.append_nil]; rfl
  | cons term rest ih =>
    rw [List.foldl_cons, ih, withTerm, List.append_assoc]
    rfl

/-- A term of registered factors is added at the end. -/
theorem addTerm_fits {p : SumOfProducts} {term : Term} (field : p.field = F)
    (fits : term.Fits F p.factors.length) :
    p.addTerm (term.handles.map fun (handle : Nat) => (handle : Int)) (some term.coefficient) =
      .ok (p.withTerm term) := by
  obtain ⟨coefficient, some, inside⟩ := fits
  have adopted : F.adopt (term.coefficient : Scalar) = term.coefficient :=
    Scalar.element.inj (F.adopt_of_field? coefficient.1)
  have nonempty : (term.handles.map fun (handle : Nat) => (handle : Int)).isEmpty = false := by
    simpa using some
  simp only [addTerm, nonempty, checkHandles_natCast inside, bind, Except.bind, field,
    Option.getD_some, adopted]
  rfl

end SumOfProducts

namespace StoredSum

def withTerms (p : StoredSum) (terms : List Term) (handles : List (List Document)) : StoredSum :=
  { p with sum := terms.foldl SumOfProducts.withTerm p.sum, handles := p.handles ++ handles }

variable {p q : StoredSum}

theorem withTerms_nil (p : StoredSum) : p.withTerms [] [] = p := by
  rw [withTerms, List.append_nil]
  rfl

theorem withTerms_cons (p : StoredSum) (term : Term) (handles : List Document) (terms : List Term)
    (more : List (List Document)) :
    p.withTerms (term :: terms) (handles :: more) =
      (p.withTerms [term] [handles]).withTerms terms more := by
  rw [withTerms, withTerms, withTerms, List.append_assoc]
  rfl

/-- All the terms that there are. -/
theorem withTerms_blank {n : Nat} {declared : Document} {factors : List Factor} {terms : List Term}
    {handles : List (List Document)} :
    ((blank n declared).withFactors factors).withTerms terms handles =
      ⟨⟨n, SumOfProducts.longest terms, terms, factors⟩, declared, handles⟩ := by
  rw [withTerms, SumOfProducts.foldl_withTerm]
  rfl

theorem addTerm_storedAs {term : Term} {handles : List Document} (field : p.sum.field = F)
    (stored : term.StoredAs F p.sum.factors.length handles) :
    p.addTerm handles (some term.coefficient) = .ok (p.withTerms [term] [handles]) := by
  rw [addTerm, bind_of_eq_ok stored.read, bind_of_eq_ok (SumOfProducts.addTerm_fits field stored.fits)]
  rfl

/-- Whatever is added is a term with its handles. -/
theorem addTerm_eq_ok {handles : List Document} {coefficient : Scalar}
    (field : p.sum.factors ≠ [] → p.sum.field = F) (canonical : coefficient.CanonicalIn F)
    (h : p.addTerm handles coefficient = .ok q) :
    ∃ term : Term, term.StoredAs F p.sum.factors.length handles ∧
      q = p.withTerms [term] [handles] := by
  obtain ⟨read, listed, h⟩ := bind_eq_ok h
  obtain ⟨sum, added, h⟩ := bind_eq_ok h
  cases h
  cases coefficient with
  | integer z => cases canonical.1
  | element x =>
    obtain ⟨known, rfl, nonempty, inside, -⟩ := SumOfProducts.addTerm_eq_ok added
    let term : Term := ⟨x, known⟩
    have stored : term.StoredAs F p.sum.factors.length handles :=
      ⟨⟨canonical, nonempty, inside⟩, listed⟩
    have own : p.sum.field = F := field (List.length_pos_iff.1 stored.count_pos)
    obtain rfl := Except.ok.inj ((SumOfProducts.addTerm_fits own stored.fits).symm.trans added)
    exact ⟨term, stored, rfl⟩

/-- Stored terms are added after those that are there. -/
theorem addTerms_eq (storable : F.Storable) {count : Nat} {terms : List Term}
    {handles : List (List Document)} (stored : List.Forall₂ (Term.StoredAs F count) terms handles)
    (known : p.sum.factors.length = count) (field : p.sum.factors ≠ [] → p.sum.field = F) :
    addTerms F p (terms.zipWith Term.toDocument handles) = .ok (p.withTerms terms handles) := by
  induction stored generalizing p with
  | nil => rw [withTerms_nil]; rfl
  | @cons term handles terms more here later ih =>
    have own : p.sum.field = F := field (List.length_pos_iff.1 (known ▸ here.count_pos))
    have pair : (term.toDocument handles).pair =
        .ok ((term.coefficient : Scalar).toDocument, .list handles) := rfl
    have items : (Document.list handles).items = .ok handles := rfl
    rw [List.zipWith_cons_cons, addTerms, bind_of_eq_ok pair]
    dsimp only
    rw [bind_of_eq_ok (Scalar.ofDocument_toDocument storable here.fits.1), bind_of_eq_ok items,
      bind_of_eq_ok (addTerm_storedAs own (known ▸ here))]
    exact (ih (p := p.withTerms [term] [handles]) known field).trans
      (congrArg Except.ok (withTerms_cons p term handles terms more).symm)

/-- Whatever is added from documents are terms with their handles. -/
theorem addTerms_eq_ok {documents : List Document} (field : p.sum.factors ≠ [] → p.sum.field = F)
    (h : addTerms F p documents = .ok q) :
    ∃ terms handles, List.Forall₂ (Term.StoredAs F p.sum.factors.length) terms handles ∧
      q = p.withTerms terms handles := by
  induction documents generalizing p with
  | nil =>
    cases h
    exact ⟨[], [], .nil, (withTerms_nil _).symm⟩
  | cons d rest ih =>
    obtain ⟨⟨coefficient, handles⟩, -, h⟩ := bind_eq_ok h
    obtain ⟨value, read, h⟩ := bind_eq_ok h
    obtain ⟨items, -, h⟩ := bind_eq_ok h
    obtain ⟨later, added, h⟩ := bind_eq_ok h
    obtain ⟨term, here, rfl⟩ := addTerm_eq_ok field (Scalar.canonicalIn_of_ofDocument read) added
    obtain ⟨terms, more, stored, rfl⟩ := ih (p := p.withTerms [term] [items]) field h
    exact ⟨term :: terms, items :: more, .cons here stored, (withTerms_cons p _ _ _ _).symm⟩

/-- A stored sum that is read back: it was made of tables and terms over a field. -/
structure Storable (F : Modulus) (p : StoredSum) (tables : List DenseTable) : Prop where
  listed : p.sum.tables = .ok (tables.map (·.values))
  takes : ∀ t ∈ tables, Takes F p.declared p.sum.numVariables t
  field : p.sum.field = F
  start : empty p.declared = .ok (blank p.sum.numVariables p.declared)
  terms : List.Forall₂ (Term.StoredAs F tables.length) p.sum.terms p.handles
  longest : p.sum.maxFactors = SumOfProducts.longest p.sum.terms

namespace Storable

variable {tables : List DenseTable} (known : p.Storable F tables)

include known

/-- The stored form of such a sum. -/
theorem toDocument_eq :
    p.toDocument = .ok (.record
      [("modulus", F.toDocument),
       ("num_variables", p.declared),
       ("mles", .list (tables.map fun t => Scalar.listToDocument t.values)),
       ("products", .list (p.sum.terms.zipWith Term.toDocument p.handles))]) := by
  have values : (tables.map (·.values)).map Scalar.listToDocument =
      tables.map fun t => Scalar.listToDocument t.values := by
    rw [List.map_map]
    rfl
  rw [toDocument, bind_of_eq_ok known.listed, values, known.field]
  rfl

theorem field_numbered (first : Nat) : (p.sum.withFactors (numbered first tables)).field = F := by
  match tables, known with
  | [], known =>
    have none : p.sum.factors = [] := by
      rw [← List.length_eq_zero_iff, ← length_of_mapM_eq_ok known.listed]
      rfl
    rw [← known.field, SumOfProducts.field, SumOfProducts.field, none]
    rfl
  | t :: rest, known => exact (known.takes t List.mem_cons_self).canonical.1

/-- The sum that is read back: the factors are the tables, with new identities. -/
theorem ofDocument_eq (storable : F.Storable) (admitted : Modulus.ofInt F.val = .ok F)
    {d : Document} (written : p.toDocument = .ok d) (identity : Nat) :
    ofDocument identity d = .ok (p.withFactors (numbered identity tables)) := by
  obtain rfl := Except.ok.inj (known.toDocument_eq.symm.trans written)
  let start := blank p.sum.numVariables p.declared
  let registered := start.withFactors (numbered identity tables)
  have registering : registerTables F identity start
      (tables.map fun t => Scalar.listToDocument t.values) = .ok registered :=
    registerTables_eq storable identity [] rfl known.takes
  have adding : addTerms F registered (p.sum.terms.zipWith Term.toDocument p.handles) =
      .ok (registered.withTerms p.sum.terms p.handles) :=
    addTerms_eq storable known.terms (length_numbered identity tables) fun _ =>
      known.field_numbered identity
  have whole : registered.withTerms p.sum.terms p.handles =
      p.withFactors (numbered identity tables) := by
    rw [withTerms_blank, ← known.longest]
    rfl
  have field : Modulus.ofDocument F.toDocument = .ok F :=
    Modulus.ofDocument_toDocument storable admitted
  rw [← whole, ← adding, ofDocument]
  simp [Document.optionalField, Document.field, Document.field?, List.lookup_cons, Document.items,
    Document.items?, bind, Except.bind, field, known.start, registering, start]

/-- The sum that is read back can be stored again. -/
theorem withFactors_numbered (first : Nat) :
    (p.withFactors (numbered first tables)).Storable F tables where
  listed := mapM_numbered first tables
  takes := known.takes
  field := known.field_numbered first
  start := known.start
  terms := known.terms
  longest := known.longest

/-- And its stored form is the same. -/
theorem toDocument_withFactors (first : Nat) :
    (p.withFactors (numbered first tables)).toDocument = p.toDocument :=
  (known.withFactors_numbered first).toDocument_eq.trans known.toDocument_eq.symm

end Storable

theorem empty_whole (n : Nat) : empty (.whole n) = .ok (blank n (.whole n)) := by
  rw [empty, bind_of_eq_ok (Document.checkCount_whole n), Document.floor?_whole n, Option.getD_some,
    bind_of_eq_ok (SumOfProducts.empty_natCast n)]
  rfl

/-- A sum whose numbers are stored as integers, with the tables of its factors. -/
theorem storable_ofSum {p : SumOfProducts} {tables : List DenseTable}
    (listed : p.tables = .ok (tables.map (·.values)))
    (known : ∀ t ∈ tables, t.CanonicalIn F ∧ t.numVariables = p.numVariables) (field : p.field = F)
    (fits : ∀ term ∈ p.terms, term.Fits F tables.length)
    (longest : p.maxFactors = SumOfProducts.longest p.terms) : (ofSum p).Storable F tables where
  listed := listed
  takes := fun t member => by
    obtain ⟨canonical, arity⟩ := known t member
    refine ⟨canonical, arity, ?_⟩
    rw [arity]
    exact Document.whole?_whole p.numVariables
  field := field
  start := empty_whole p.numVariables
  terms := List.forall₂_map_right_iff.2 (List.forall₂_same.2 fun term member =>
    (fits term member).storedAs)
  longest := longest

theorem empty_eq_ok {declared : Document} (h : empty declared = .ok p) :
    ∃ n, p = blank n declared := by
  obtain ⟨-, -, h⟩ := bind_eq_ok h
  obtain ⟨sum, made, h⟩ := bind_eq_ok h
  cases h
  rw [SumOfProducts.empty_eq_ok made]
  exact ⟨_, rfl⟩

/-- A sum made of tables and terms over a field is storable over the field that it has: without
tables there are no terms, and the field is the standard one. -/
theorem storable_of_parts {n identity : Nat} {declared : Document}
    (start : empty declared = .ok (blank n declared)) (admitted : Modulus.ofInt F.val = .ok F)
    {tables : List DenseTable} {terms : List Term} {handles : List (List Document)}
    (stored : List.Forall₂ (Term.StoredAs F tables.length) terms handles)
    (whole : p = ⟨⟨n, SumOfProducts.longest terms, terms, numbered identity tables⟩, declared, handles⟩)
    (takes : ∀ t ∈ tables, Takes F declared n t) :
    Modulus.ofInt p.sum.field.val = .ok p.sum.field ∧ p.Storable p.sum.field tables := by
  obtain ⟨field, takes, stored⟩ : Modulus.ofInt p.sum.field.val = .ok p.sum.field ∧
      (∀ t ∈ tables, Takes p.sum.field declared n t) ∧
        List.Forall₂ (Term.StoredAs p.sum.field tables.length) terms handles := by
    cases tables with
    | nil =>
      have standard : p.sum.field = .standard := by rw [whole]; rfl
      rw [standard]
      refine ⟨Modulus.admitted_standard, by simp, stored.imp fun term handles here => ?_⟩
      exact absurd here.count_pos (Nat.lt_irrefl 0)
    | cons t rest =>
      have own : p.sum.field = F := by
        rw [← (takes t List.mem_cons_self).canonical.1, whole]
        rfl
      rw [own]
      exact ⟨admitted, takes, stored⟩
  subst whole
  exact ⟨field, mapM_numbered identity tables, takes, rfl, start, stored, rfl⟩

/-- Whatever is read can be stored again. -/
theorem storable_of_ofDocument {identity : Nat} {d : Document} (h : ofDocument identity d = .ok p) :
    ∃ tables, Modulus.ofInt p.sum.field.val = .ok p.sum.field ∧ p.Storable p.sum.field tables := by
  obtain ⟨_, -, h⟩ := bind_eq_ok h
  obtain ⟨F, order, h⟩ := bind_eq_ok h
  obtain ⟨declared, -, h⟩ := bind_eq_ok h
  obtain ⟨start, made, h⟩ := bind_eq_ok h
  obtain ⟨_, -, h⟩ := bind_eq_ok h
  obtain ⟨_, -, h⟩ := bind_eq_ok h
  obtain ⟨registered, registering, h⟩ := bind_eq_ok h
  obtain ⟨_, -, h⟩ := bind_eq_ok h
  obtain ⟨_, -, adding⟩ := bind_eq_ok h
  obtain ⟨n, rfl⟩ := empty_eq_ok made
  obtain ⟨tables, takes, whole⟩ := registerTables_eq_ok identity [] rfl registering
  rw [List.nil_append] at whole
  subst whole
  have own (some : numbered identity tables ≠ []) :
      ((blank n declared).withFactors (numbered identity tables)).sum.field = F :=
    field_of_numbered rfl (fun none => some (by rw [none]; rfl)) fun t member =>
      (takes t member).canonical.1
  have count : ((blank n declared).withFactors (numbered identity tables)).sum.factors.length =
      tables.length := length_numbered identity tables
  obtain ⟨terms, handles, stored, whole⟩ := addTerms_eq_ok own adding
  rw [count] at stored
  rw [withTerms_blank] at whole
  exact ⟨tables, storable_of_parts made (Modulus.admitted_of_ofDocument order) stored whole takes⟩

end StoredSum

end HypercubeSum
