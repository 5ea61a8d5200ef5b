import HypercubeSum.Demo.Site
import HypercubeSum.Proofs.Demo.Table

/-!
# Two pages on one table

The pages share a table and keep to keys of their own. So the answers that one of them gives do not
depend on what is asked of the other, in between or before, whether that is accepted or not.
-/

namespace HypercubeSum.Demo

inductive Page
  | sum
  | layer
deriving DecidableEq, Repr

def Page.start : Page → String
  | sum => "sumcheck."
  | layer => "gkr."

/-- The part of a table that belongs to a page. -/
def Page.of (page : Page) (table : Table) : Table := table.part (family page.start)

theorem Page.find_of (page : Page) {key : String} (here : family page.start key = true)
    (table : Table) : (page.of table).find key = table.find key :=
  Table.find_part here

/-- The page that a request is for; the first page is neither. -/
def Request.page? : Request → Option Page
  | .home => none
  | .sumView | .sumLoad | .sumProve | .sumTamper | .sumVerify | .sumReset => some .sum
  | .layerView | .layerLoad | .layerProve | .layerVerify | .layerReset => some .layer

namespace SumPage

theorem confined_view : Confined "sumcheck." view :=
  (Confined.load (by decide)).bind fun _ => (Confined.load (by decide)).bind fun _ =>
    (Confined.load (by decide)).bind fun _ => (Confined.load (by decide)).bind fun _ =>
      (Confined.load (by decide)).bind fun _ => .pure _

theorem confined_saveHex (proof : Proof) : Confined "sumcheck." (saveHex proof) :=
  (Confined.lift _).bind fun _ => .save (by decide)

theorem confined_draw (form : Form) : Confined "sumcheck." (draw form) := by
  unfold draw
  refine (Confined.lift _).bind fun request => ?_
  refine (Confined.lift _).bind fun field => ?_
  refine (Confined.lift _).bind fun ⟨polynomial, sum⟩ => ?_
  refine (Confined.removeFamily _).bind fun _ => ?_
  refine (Confined.lift _).bind fun stored => ?_
  refine (Confined.save (by decide)).bind fun _ => ?_
  refine (Confined.save (by decide)).bind fun _ => ?_
  exact (Confined.save (by decide)).bind fun _ => .pure _

theorem confined_prove (hash : HashFunction) : Confined "sumcheck." (prove hash) := by
  unfold prove
  refine (Confined.load (by decide)).bind fun stored => .ite ?_ (.pure _)
  refine (Confined.lift _).bind fun polynomial => (Confined.lift _).bind fun proof => ?_
  refine (Confined.save (by decide)).bind fun _ => (confined_saveHex proof).bind fun _ => ?_
  exact (Confined.remove (by decide)).bind fun _ => .pure _

theorem confined_tamper (form : Form) : Confined "sumcheck." (tamper form) := by
  unfold tamper
  refine (Confined.load (by decide)).bind fun proof => ?_
  refine (Confined.load (by decide)).bind fun polynomial => .ite ?_ (.pure _)
  refine (Confined.lift _).bind fun stored => (Confined.lift _).bind fun field => ?_
  refine (Confined.lift _).bind fun changed => (Confined.save (by decide)).bind fun _ => ?_
  refine (Confined.lift _).bind fun read => (confined_saveHex read).bind fun _ => ?_
  exact (Confined.remove (by decide)).bind fun _ => .pure _

theorem confined_claimedSum (field : Modulus) (form : Form) :
    Confined "sumcheck." (claimedSum field form) := by
  unfold claimedSum
  split
  · exact (Confined.load (by decide)).bind fun _ => .lift _
  · exact (Confined.load (by decide)).bind fun _ => .lift _
  · exact (Confined.lift _).bind fun _ => .pure _

theorem confined_verify (hash : HashFunction) (form : Form) :
    Confined "sumcheck." (verify hash form) := by
  unfold verify
  refine (Confined.load (by decide)).bind fun stored => ?_
  refine (Confined.load (by decide)).bind fun messages => .ite ?_ (.pure _)
  refine (Confined.lift _).bind fun polynomial => (Confined.lift _).bind fun proof => ?_
  refine (confined_claimedSum _ form).bind fun claimed => (Confined.lift _).bind fun verdict => ?_
  exact (Confined.save (by decide)).bind fun _ => .pure _

theorem confined_reset : Confined "sumcheck." reset :=
  (Confined.removeFamily _).bind fun _ => .pure _

end SumPage

namespace LayerPage

theorem confined_view : Confined "gkr." view :=
  (Confined.load (by decide)).bind fun _ => (Confined.load (by decide)).bind fun _ =>
    (Confined.load (by decide)).bind fun _ => (Confined.load (by decide)).bind fun _ => .pure _

theorem confined_draw (form : Form) : Confined "gkr." (draw form) := by
  unfold draw
  refine (Confined.lift _).bind fun dimension => (Confined.lift _).bind fun modulus => ?_
  refine (Confined.lift _).bind fun seed => ?_
  -- What follows the check is written once for a dimension that passes and once for one that fails.
  have rest : Confined "gkr." (do
      let field ← Modulus.ofInt modulus
      let drawn ← Sampling.ofSeed seed (Sampling.layerProblem field dimension)
      removeFamily "gkr."
      save "gkr.function" (problemToDocument field drawn)
      save "gkr.function.info" (.record
        [("modulus", field.toDocument), ("dim", .whole dimension),
         ("f1_nonzero", .whole drawn.wiring.numNonzero), ("seed", .whole seed)])
      return Answer.redirect path) := by
    refine (Confined.lift _).bind fun field => (Confined.lift _).bind fun drawn => ?_
    refine (Confined.removeFamily _).bind fun _ => (Confined.save (by decide)).bind fun _ => ?_
    exact (Confined.save (by decide)).bind fun _ => .pure _
  exact .ite ((Confined.throw _).bind fun _ => rest) rest

theorem confined_prove (hash : HashFunction) : Confined "gkr." (prove hash) := by
  unfold prove
  refine (Confined.load (by decide)).bind fun stored => .ite ?_ (.pure _)
  refine (Confined.lift _).bind fun known => (Confined.lift _).bind fun ⟨claim, proof⟩ => ?_
  refine (Confined.save (by decide)).bind fun _ => (Confined.save (by decide)).bind fun _ => ?_
  exact (Confined.remove (by decide)).bind fun _ => .pure _

theorem confined_verify (hash : HashFunction) : Confined "gkr." (verify hash) := by
  unfold verify
  refine (Confined.load (by decide)).bind fun stored => .ite
    (((Confined.lift _).map some).bind fun known? => ?_) ((Confined.pure none).bind fun known? => ?_)
  -- A layer that is there is read first; what comes after that is the same run for both.
  all_goals
    refine (Confined.load (by decide)).bind fun claim => ?_
    refine (Confined.load (by decide)).bind fun proof => ?_
    cases known? with
    | none => exact .pure _
    | some known =>
      refine .ite ?_ (.pure _)
      refine (Confined.lift _).bind fun claim => (Confined.lift _).bind fun proof => ?_
      exact (Confined.lift _).bind fun verdict => (Confined.save (by decide)).bind fun _ => .pure _

theorem confined_reset : Confined "gkr." reset :=
  (Confined.removeFamily _).bind fun _ => .pure _

end LayerPage

/-- A request works on the keys of its page. -/
theorem confined_perform (hash : HashFunction) (form : Form) {request : Request} {page : Page}
    (own : request.page? = some page) : Confined page.start (perform hash form request) := by
  cases request with
  | home => cases own
  | sumView => cases own; exact SumPage.confined_view
  | sumLoad => cases own; exact SumPage.confined_draw form
  | sumProve => cases own; exact SumPage.confined_prove hash
  | sumTamper => cases own; exact SumPage.confined_tamper form
  | sumVerify => cases own; exact SumPage.confined_verify hash form
  | sumReset => cases own; exact SumPage.confined_reset
  | layerView => cases own; exact LayerPage.confined_view
  | layerLoad => cases own; exact LayerPage.confined_draw form
  | layerProve => cases own; exact LayerPage.confined_prove hash
  | layerVerify => cases own; exact LayerPage.confined_verify hash
  | layerReset => cases own; exact LayerPage.confined_reset

/-- No key belongs to both pages. -/
theorem Page.apart {page other : Page} (differ : other ≠ page) (key : String)
    (here : family other.start key = true) : family page.start key = false := by
  cases page <;> cases other
  · exact absurd rfl differ
  · exact family_apart (by decide) (by decide) here
  · exact family_apart (by decide) (by decide) here
  · exact absurd rfl differ

section Handling

variable {request : Request} {page : Page} {table other : Table}

/-- A request does the same on tables that agree on the keys of its page. -/
theorem handle_congr (hash : HashFunction) (form : Form) (own : request.page? = some page)
    (same : page.of table = page.of other) :
    (handle hash request form table).1 = (handle hash request form other).1 ∧
      page.of (handle hash request form table).2 = page.of (handle hash request form other).2 := by
  have seen := (confined_perform hash form own).seen
  have agree := (seen table).trans ((congrArg _ same).trans (seen other).symm)
  obtain ⟨outcome, later⟩ := Prod.mk.inj agree
  exact ⟨congrArg answer outcome, later⟩

/-- What it does to other pages is nothing. -/
theorem of_handle (hash : HashFunction) (form : Form) (table : Table)
    (elsewhere : request.page? ≠ some page) :
    page.of (handle hash request form table).2 = page.of table := by
  cases own : request.page? with
  | none =>
    cases request with
    | home => rfl
    | _ => cases own
  | some other =>
    have differ : other ≠ page := fun same => elsewhere (own.trans (congrArg some same))
    exact (confined_perform hash form own).frame _ (Page.apart differ) table

/-- On tables that differ in one page alone, a request that is not for that page is answered alike, and
leaves tables that differ in that page alone. -/
theorem handle_agree (hash : HashFunction) (form : Form) (elsewhere : request.page? ≠ some page)
    (same : ∀ kept, kept ≠ page → kept.of table = kept.of other) :
    (handle hash request form table).1 = (handle hash request form other).1 ∧
      ∀ kept, kept ≠ page →
        kept.of (handle hash request form table).2 = kept.of (handle hash request form other).2 := by
  cases own : request.page? with
  | none =>
    cases request with
    | home => exact ⟨rfl, same⟩
    | _ => cases own
  | some mine =>
    have differ : mine ≠ page := fun here => elsewhere (own.trans (congrArg some here))
    obtain ⟨alike, after⟩ := handle_congr hash form own (same mine differ)
    refine ⟨alike, fun kept apart => ?_⟩
    by_cases here : kept = mine
    · rw [here]
      exact after
    · have untouched : request.page? ≠ some kept := by
        rw [own]
        exact fun again => here (Option.some.inj again).symm
      rw [of_handle hash form table untouched, of_handle hash form other untouched]
      exact same kept apart

end Handling

structure Call where
  request : Request
  form : Form

def Call.isFor (call : Call) (page : Page) : Bool := call.request.page? == some page

def answers (hash : HashFunction) : List Call → Table → List (Except Fault Answer)
  | [], _ => []
  | call :: rest, table =>
    let (answer, later) := handle hash call.request call.form table
    answer :: answers hash rest later

/-- Calls that are not for a page are answered alike on tables that differ in that page alone, with
the calls for the page and without them. -/
theorem zip_answers_filter (hash : HashFunction) (page : Page) (calls : List Call)
    {table other : Table} (same : ∀ kept, kept ≠ page → kept.of table = kept.of other) :
    (calls.zip (answers hash calls table)).filter (!·.1.isFor page) =
      (calls.filter (!·.isFor page)).zip (answers hash (calls.filter (!·.isFor page)) other) := by
  induction calls generalizing table other with
  | nil => rfl
  | cons call rest ih =>
    rw [answers, List.zip_cons_cons, List.filter_cons]
    cases own : call.isFor page with
    | true =>
      -- The call is left out; what it does to the other pages is nothing.
      have elsewhere (kept : Page) (differ : kept ≠ page) : call.request.page? ≠ some kept := by
        rw [beq_iff_eq.1 own]
        exact fun same => differ (Option.some.inj same).symm
      simp only [own, Bool.not_true, Bool.false_eq_true, if_false, List.filter_cons]
      exact ih fun kept differ => (of_handle hash call.form table (elsewhere kept differ)).trans
        (same kept differ)
    | false =>
      have elsewhere : call.request.page? ≠ some page := fun here => by
        rw [Call.isFor, here, beq_self_eq_true] at own
        cases own
      obtain ⟨alike, after⟩ := handle_agree hash call.form elsewhere same
      simp only [own, Bool.not_false, if_true, List.filter_cons]
      rw [answers, List.zip_cons_cons, alike, ih after]

/--
Two pages share a table. Whatever is asked of both of them, and in whatever order, every request that
is not for one of them, its view among them, is answered as it is when all requests for that one are
left out.
-/
theorem pages_apart (hash : HashFunction) (page : Page) (calls : List Call) (table : Table) :
    (calls.zip (answers hash calls table)).filter (!·.1.isFor page) =
      (calls.filter (!·.isFor page)).zip (answers hash (calls.filter (!·.isFor page)) table) :=
  zip_answers_filter hash page calls fun _ _ => rfl

end HypercubeSum.Demo
