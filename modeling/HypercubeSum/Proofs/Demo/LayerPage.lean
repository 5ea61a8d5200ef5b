import HypercubeSum.Proofs.Demo.LayerStore
import HypercubeSum.Proofs.Demo.Pages

/-!
# What the page of a layer shows

Whatever is asked of the page, and in whatever order, what is stored fits together: the claim and
the proof are those of the stored layer, and a verdict is about both. A request that fails leaves all
of it as it was.
-/

namespace HypercubeSum.Demo.LayerPage

def layerEntries (stored info : Document) : Table :=
  [("gkr.function", stored), ("gkr.function.info", info)]

def proofEntries (claimed messages : Document) : Table :=
  [("gkr.claim", claimed), ("gkr.proof", messages)]

def verdictEntries (verdict : Document) : Table := [("gkr.verdict", verdict)]

/-- A table with a layer, and without what was stored before. -/
def withLayer (table : Table) (stored info : Document) : Table :=
  ((table.eraseFamily "gkr.").put "gkr.function" stored).put "gkr.function.info" info

/-- A table with a claim and a proof, and without a verdict on those before. -/
def withProof (table : Table) (claimed messages : Document) : Table :=
  ((table.put "gkr.claim" claimed).put "gkr.proof" messages).erase "gkr.verdict"

/-- The tables that fit together: nothing, a layer, a layer with a claim and a proof, or all that with
a verdict on them. -/
inductive Shows (hash : HashFunction) : Table → Prop
  | nothing : Shows hash []
  | layer {F dimension known stored info} (loaded : Loaded F dimension known stored info) :
      Shows hash (layerEntries stored info)
  | proof {F dimension known stored info claim proof claimed messages}
      (loaded : Loaded F dimension known stored info)
      (proved : Proved hash F known claim proof claimed messages) :
      Shows hash (layerEntries stored info ++ proofEntries claimed messages)
  | verdict {F dimension known stored info claim proof claimed messages verdict}
      (loaded : Loaded F dimension known stored info)
      (proved : Proved hash F known claim proof claimed messages)
      (judged : LayerPage.verdict hash known claim proof = .ok verdict) :
      Shows hash (layerEntries stored info ++ proofEntries claimed messages ++ verdictEntries verdict)

variable {hash : HashFunction} {F : Modulus} {dimension : Nat} {known : StoredLayer}
  {claim : LayerClaim} {proof : LayerProof} {stored info claimed messages : Document}
  {table own : Table} {form : Form}

/-- A request is refused and changes nothing in the whole table, or it is done, and what is stored for
the page then fits together. -/
def Keeps (hash : HashFunction) (table : Table) (run : Run Table Answer) : Prop :=
  (∃ fault, Run.start run table = (.error fault, table) ∧ fault.kind = .invalidArgument) ∨
    ∃ later, Run.start run table = (.ok (.redirect path), later) ∧ Shows hash (Page.layer.of later)

section Load

theorem of_withLayer (table : Table) (stored info : Document) :
    Page.layer.of (withLayer table stored info) = layerEntries stored info := by
  unfold Page.of withLayer
  rw [Table.part_put (by decide), Table.part_put (by decide), Page.start,
    Table.part_eraseFamily_self]
  rfl

/-- A form that asks for a layer of a dimension within bounds, from a seed and over a field that is
admitted. -/
structure Asks (form : Form) (F : Modulus) (dimension : Nat) (seed : Int) : Prop where
  size : formInteger form "dim" Sampling.defaultDimension = .ok (dimension : Int)
  order : ∃ modulus, formInteger form "modulus" Sampling.defaultLayerModulus = .ok modulus ∧
    Modulus.ofInt modulus = .ok F
  seeded : formInteger form "seed" Sampling.defaultSeed = .ok seed
  positive : 0 < dimension
  few : dimension ≤ mostDimension

variable {seed : Int}

/-- What is drawn is stored. -/
theorem start_draw (asks : Asks form F dimension seed) (table : Table) :
    Run.start (draw form) table =
      match Sampling.ofSeed seed (Sampling.layerProblem F dimension) with
      | .ok problem => (.ok (.redirect path),
          withLayer table (problemToDocument F problem) (description F dimension problem seed))
      | .error fault => (.error fault, table) := by
  obtain ⟨modulus, order, field⟩ := asks.order
  have positive := asks.positive
  have few := asks.few
  have inside : ¬((dimension : Int) < 1 ∨ (mostDimension : Int) < dimension) := by omega
  unfold draw
  simp only [Run.start_bind, Run.start_lift, asks.size, order, asks.seeded, if_neg inside, field]
  cases Sampling.ofSeed seed (Sampling.layerProblem F dimension) <;> rfl

/-- A layer that is drawn takes the place of everything that was stored. -/
theorem start_draw_ok (asks : Asks form F dimension seed) {problem : Sampling.LayerProblem}
    (drawn : Sampling.ofSeed seed (Sampling.layerProblem F dimension) = .ok problem)
    (table : Table) :
    ∃ known stored info, Loaded F dimension known stored info ∧
      Run.start (draw form) table = (.ok (.redirect path), withLayer table stored info) := by
  obtain ⟨modulus, order, field⟩ := asks.order
  have digits : modulus.natAbs < 10 ^ mostDigits := by
    rcases formInteger_eq_ok order with rfl | few
    · exact Nat.lt_of_lt_of_le (by decide : Sampling.defaultLayerModulus < 10 ^ 2)
        (Nat.pow_le_pow_right (by decide) (by decide))
    · exact few
  obtain ⟨known, loaded⟩ := loaded_of_drawn digits field asks.positive asks.few drawn
  refine ⟨known, _, _, loaded, ?_⟩
  rw [start_draw asks, drawn]

/-- A layer that is asked for is drawn, or it is refused since a corner was drawn twice. -/
theorem keeps_draw_of_asks (asks : Asks form F dimension seed) (hash : HashFunction) (table : Table) :
    Keeps hash table (draw form) := by
  have gives := Sampling.gives_layerProblem F (listed_of_le asks.few) (Twister.ofSeed seed)
  cases drawn : Sampling.ofSeed seed (Sampling.layerProblem F dimension) with
  | error fault =>
    refine .inl ⟨fault, ?_, gives.1 fault drawn⟩
    rw [start_draw asks, drawn]
  | ok problem =>
    obtain ⟨known, stored, info, loaded, done⟩ := start_draw_ok asks drawn table
    refine .inr ⟨_, done, ?_⟩
    rw [of_withLayer]
    exact .layer loaded

/-- What else is asked for is refused. -/
theorem keeps_draw (hash : HashFunction) (form : Form) (table : Table) :
    Keeps hash table (draw form) := by
  have refused {fault : Fault} (kind : fault.kind = .invalidArgument)
      (run : Run.start (draw form) table = (.error fault, table)) : Keeps hash table (draw form) :=
    .inl ⟨fault, run, kind⟩
  cases size : formInteger form "dim" Sampling.defaultDimension with
  | error fault =>
    refine refused (formInteger_refuses _ _ _ fault size) ?_
    simp [draw, Run.start_bind, size]
  | ok z =>
  cases order : formInteger form "modulus" Sampling.defaultLayerModulus with
  | error fault =>
    refine refused (formInteger_refuses _ _ _ fault order) ?_
    simp [draw, Run.start_bind, size, order]
  | ok modulus =>
  cases seeded : formInteger form "seed" Sampling.defaultSeed with
  | error fault =>
    refine refused (formInteger_refuses _ _ _ fault seeded) ?_
    simp [draw, Run.start_bind, size, order, seeded]
  | ok seed =>
  by_cases outside : z < 1 ∨ (mostDimension : Int) < z
  · refine .inl ⟨.demoDimension mostDimension z, ?_, rfl⟩
    simp [draw, Run.start_bind, size, order, seeded, if_pos outside]
  · cases field : Modulus.ofInt modulus with
    | error fault =>
      refine refused (Modulus.ofInt_refuses _ fault field) ?_
      simp [draw, Run.start_bind, size, order, seeded, if_neg outside, field]
    | ok F =>
      obtain ⟨dimension, rfl⟩ : ∃ dimension : Nat, z = dimension := ⟨z.toNat, by omega⟩
      exact keeps_draw_of_asks ⟨size, ⟨modulus, order, field⟩, seeded, by omega, by omega⟩ hash table

end Load

section Prove

theorem of_withProof (table : Table) (claimed messages : Document) :
    Page.layer.of (withProof table claimed messages) =
      withProof (Page.layer.of table) claimed messages := by
  unfold Page.of withProof
  rw [Table.part_erase, Table.part_put (by decide), Table.part_put (by decide)]

/-- The claim and the proof of the stored layer take the place of those before. -/
theorem start_prove (loaded : Loaded F dimension known stored info)
    (found : table.find "gkr.function" = stored) (hash : HashFunction) :
    ∃ claim proof claimed messages, Proved hash F known claim proof claimed messages ∧
      Run.start (prove hash) table = (.ok (.redirect path), withProof table claimed messages) := by
  obtain ⟨claim, proof, made, proved⟩ := loaded.proved hash
  refine ⟨claim, proof, _, _, proved, ?_⟩
  simp [prove, Run.start_bind, found, loaded.present, loaded.read, made, withProof]

theorem keeps_prove (loaded : Loaded F dimension known stored info)
    (found : table.find "gkr.function" = stored)
    (replaced : ∀ claimed messages, Page.layer.of (withProof table claimed messages) =
      layerEntries stored info ++ proofEntries claimed messages) :
    Keeps hash table (prove hash) := by
  obtain ⟨claim, proof, claimed, messages, proved, done⟩ := start_prove loaded found hash
  refine .inr ⟨_, done, ?_⟩
  rw [replaced]
  exact .proof loaded proved

/-- Without a layer there is nothing to prove. -/
theorem keeps_prove_nothing (none : table.find "gkr.function" = .null)
    (shown : Shows hash (Page.layer.of table)) : Keeps hash table (prove hash) := by
  refine .inr ⟨table, ?_, shown⟩
  simp [prove, Run.start_bind, none]

end Prove

section Verify

/-- The verdict is on the stored claim and proof; it is stored, or the table is left as it is. -/
theorem start_verify (loaded : Loaded F dimension known stored info)
    (proved : Proved hash F known claim proof claimed messages)
    (found : table.find "gkr.function" = stored) (found' : table.find "gkr.claim" = claimed)
    (found'' : table.find "gkr.proof" = messages) {outcome : Except Fault Document} :
    verdict hash known claim proof = outcome →
      Run.start (verify hash) table =
        match outcome with
        | .ok d => (.ok (.redirect path), table.put "gkr.verdict" d)
        | .error fault => (.error fault, table) := by
  intro judged
  have field := loaded.fits.field_eq
  unfold verify
  simp only [Run.start_bind, start_load, found, found', found'', loaded.present, if_true,
    Run.start_map, Run.start_lift, loaded.read, Except.map_ok, proved.present, field, proved.read,
    proved.read', judged]
  cases outcome <;> rfl

/-- A verdict is on the stored claim and proof of the stored layer. -/
theorem keeps_verify (loaded : Loaded F dimension known stored info)
    (proved : Proved hash F known claim proof claimed messages)
    (found : table.find "gkr.function" = stored) (found' : table.find "gkr.claim" = claimed)
    (found'' : table.find "gkr.proof" = messages)
    (judged : ∀ d, Page.layer.of (table.put "gkr.verdict" d) =
      layerEntries stored info ++ proofEntries claimed messages ++ verdictEntries d) :
    Keeps hash table (verify hash) := by
  cases right : verdict hash known claim proof with
  | error fault =>
    exact .inl ⟨fault, start_verify loaded proved found found' found'' right,
      verdict_refuses loaded proved fault right⟩
  | ok d =>
    refine .inr ⟨_, start_verify loaded proved found found' found'' right, ?_⟩
    rw [judged]
    exact .verdict loaded proved right

/-- Without a claim there is nothing to verify, even if there is a layer to read. -/
theorem keeps_verify_nothing (none : table.find "gkr.claim" = .null)
    (readable : (table.find "gkr.function").isPresent = true →
      ∃ known, StoredLayer.ofDocument (table.find "gkr.function") = .ok known)
    (shown : Shows hash (Page.layer.of table)) : Keeps hash table (verify hash) := by
  refine .inr ⟨table, ?_, shown⟩
  unfold verify
  cases present : (table.find "gkr.function").isPresent with
  | false =>
    simp [Run.start_bind, present]
  | true =>
    obtain ⟨known, read⟩ := readable present
    simp [Run.start_bind, present, read, none]

end Verify

/-- Where a proof is stored, it is a proof of a claim that is made for the stored layer. -/
theorem Shows.of_present (shown : Shows hash table)
    (present : (table.find "gkr.proof").isPresent = true) :
    ∃ F dimension known info claim proof,
      Loaded F dimension known (table.find "gkr.function") info ∧
        Proved hash F known claim proof (table.find "gkr.claim") (table.find "gkr.proof") := by
  cases shown with
  | nothing => cases present
  | layer loaded => cases present
  | proof loaded proved => exact ⟨_, _, _, _, _, _, loaded, proved⟩
  | verdict loaded proved judged => exact ⟨_, _, _, _, _, _, loaded, proved⟩

/-- Whatever is asked of tables with documents of the page that fit together, they fit together
afterwards; a request that is refused changes nothing. -/
theorem Shows.keeps (shown : Shows hash own) (same : Page.layer.of table = own) {request : Request}
    (page : request.page? = some .layer) (action : request ≠ .layerView) (form : Form) :
    Keeps hash table (perform hash form request) := by
  have found (key : String) (here : family "gkr." key = true) : table.find key = own.find key := by
    rw [← same]
    exact (Page.layer.find_of here _).symm
  have replaced (claimed messages : Document) :
      Page.layer.of (withProof table claimed messages) = withProof own claimed messages := by
    rw [of_withProof, same]
  have judged (d : Document) :
      Page.layer.of (table.put "gkr.verdict" d) = own.put "gkr.verdict" d := by
    unfold Page.of at *
    rw [Table.part_put (by decide), same]
  have kept := shown
  rw [← same] at kept
  cases request with
  | home | sumView | sumLoad | sumProve | sumTamper | sumVerify | sumReset => cases page
  | layerView => exact absurd rfl action
  | layerLoad => exact keeps_draw hash form table
  | layerReset =>
    refine .inr ⟨table.eraseFamily "gkr.", rfl, ?_⟩
    have nothing : Page.layer.of (table.eraseFamily "gkr.") = [] := Table.part_eraseFamily_self
    rw [nothing]
    exact .nothing
  | layerProve =>
    cases shown with
    | nothing => exact keeps_prove_nothing (found _ (by decide)) kept
    | layer loaded => exact keeps_prove loaded (found _ (by decide)) replaced
    | proof loaded proved => exact keeps_prove loaded (found _ (by decide)) replaced
    | verdict loaded proved right => exact keeps_prove loaded (found _ (by decide)) replaced
  | layerVerify =>
    cases shown with
    | nothing =>
      refine keeps_verify_nothing (found _ (by decide)) (fun present => ?_) kept
      rw [found _ (by decide)] at present
      cases present
    | layer loaded =>
      refine keeps_verify_nothing (found _ (by decide)) (fun _ => ?_) kept
      rw [found _ (by decide)]
      exact ⟨_, loaded.read⟩
    | proof loaded proved =>
      exact keeps_verify loaded proved (found _ (by decide)) (found _ (by decide))
        (found _ (by decide)) judged
    | verdict loaded proved right =>
      exact keeps_verify loaded proved (found _ (by decide)) (found _ (by decide))
        (found _ (by decide)) judged

end HypercubeSum.Demo.LayerPage
