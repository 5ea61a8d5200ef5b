import HypercubeSum.Proofs.Demo.LayerPage
import HypercubeSum.Proofs.Demo.SumPage

/-!
# Requests are done or turned down

What both pages have stored fits together after any calls (`Log.Fits`). So every action that is asked
for sends the reader back to a page or is turned down, and one that is turned down leaves the whole
table as it was.
-/

namespace HypercubeSum.Demo

open SumPage (Tampering Writable)

/-- The changes since the last proof, after an accepted call. -/
def Call.note (call : Call) (tamperings : List Tampering) : List Tampering :=
  match call.request with
  | .sumProve => []
  | .sumTamper => tamperings ++ (Tampering.ofForm call.form).toOption.toList
  | _ => tamperings

/-- What calls on both pages lead to: the table, and what the accepted calls say of it. -/
structure Log where
  table : Table
  /-- The changes to the proof of a sum that were accepted since the last such proof. -/
  tamperings : List Tampering

namespace Log

/-- One more call. The table is the one that the request leaves. -/
def after (hash : HashFunction) (log : Log) (call : Call) : Log :=
  let (answer, table) := handle hash call.request call.form log.table
  if SumPage.isAccepted answer then ⟨table, call.note log.tamperings⟩ else { log with table }

def of (hash : HashFunction) (calls : List Call) : Log := calls.foldl (after hash) ⟨[], []⟩

structure Fits (hash : HashFunction) (log : Log) : Prop where
  sum : ∃ stage, SumPage.Shows hash log.tamperings stage (Page.sum.of log.table)
  layer : LayerPage.Shows hash (Page.layer.of log.table)

variable {hash : HashFunction} {log : Log} {call : Call} {later : Table} {form : Form}
  {request : Request}

section Steps

variable {fault : Fault} {path : String} {body : Document} {page : Page}

theorem table_after (hash : HashFunction) (log : Log) (call : Call) :
    (log.after hash call).table = (handle hash call.request call.form log.table).2 := by
  unfold after
  dsimp only
  split <;> rfl

/-- What is stored for a page is left as it is by a call that is not for it. -/
theorem of_table_after (hash : HashFunction) (log : Log) (call : Call)
    (elsewhere : call.request.page? ≠ some page) :
    page.of (log.after hash call).table = page.of log.table := by
  rw [table_after]
  exact of_handle hash call.form log.table elsewhere

/-- So is every document of the page. -/
theorem find_table_after (hash : HashFunction) (log : Log) (call : Call) (page : Page) {key : String}
    (elsewhere : call.request.page? ≠ some page) (here : family page.start key = true) :
    (log.after hash call).table.find key = log.table.find key := by
  rw [← page.find_of here, of_table_after hash log call elsewhere, page.find_of here]

theorem after_of_refused
    (run : Run.start (perform hash call.form call.request) log.table = (.error fault, log.table)) :
    log.after hash call = log := by
  simp [after, handle, run]

theorem after_of_redirect
    (run : Run.start (perform hash call.form call.request) log.table =
      (.ok (.redirect path), later)) :
    log.after hash call = ⟨later, call.note log.tamperings⟩ := by
  simp [after, handle, run, answer, SumPage.isAccepted]

theorem after_of_page
    (run : Run.start (perform hash call.form call.request) log.table =
      (.ok (.page body), log.table)) :
    log.after hash call = log := by
  simp [after, handle, run, answer, SumPage.isAccepted]

end Steps

namespace Fits

/-- An action on the page of a sum leaves what is stored for the other page as it is. -/
theorem after_sum (fits : log.Fits hash) (visit : SumPage.Visit) :
    (log.after hash ⟨visit.action.request, visit.form⟩).Fits hash := by
  obtain ⟨stage, shown⟩ := fits.sum
  have noted : Call.note ⟨visit.action.request, visit.form⟩ log.tamperings =
      visit.note log.tamperings := by
    obtain ⟨action, form⟩ := visit
    cases action <;> rfl
  have elsewhere : visit.action.request.page? ≠ some .layer := by cases visit.action <;> decide
  have frame := of_table_after hash log ⟨visit.action.request, visit.form⟩ elsewhere
  rcases shown.keeps rfl visit with ⟨fault, refused, -⟩ | ⟨later, done, shown'⟩
  · rwa [after_of_refused refused]
  · rw [after_of_redirect done] at frame ⊢
    constructor
    · rw [noted]
      exact ⟨_, shown'⟩
    · rw [frame]
      exact fits.layer

/-- An action on the page of a layer. -/
theorem after_layer (fits : log.Fits hash) (page : call.request.page? = some .layer)
    (action : call.request ≠ .layerView) : (log.after hash call).Fits hash := by
  have noted : call.note log.tamperings = log.tamperings := by
    obtain ⟨request, form⟩ := call
    cases request <;> first
      | rfl
      | cases page
  have elsewhere : call.request.page? ≠ some .sum := by
    rw [page]
    decide
  have frame := of_table_after hash log call elsewhere
  rcases fits.layer.keeps rfl page action call.form with ⟨fault, refused, -⟩ | ⟨later, done, shown⟩
  · rwa [after_of_refused refused]
  · rw [after_of_redirect done] at frame ⊢
    rw [noted]
    constructor
    · rw [frame]
      exact fits.sum
    · exact shown

/-- One more call leaves what fits together. -/
theorem after (fits : log.Fits hash) (call : Call) : (log.after hash call).Fits hash := by
  obtain ⟨request, form⟩ := call
  cases request with
  | home | sumView | layerView =>
    rw [after_of_page rfl]
    exact fits
  | sumLoad => exact fits.after_sum ⟨.load, form⟩
  | sumProve => exact fits.after_sum ⟨.prove, form⟩
  | sumTamper => exact fits.after_sum ⟨.tamper, form⟩
  | sumVerify => exact fits.after_sum ⟨.verify, form⟩
  | sumReset => exact fits.after_sum ⟨.reset, form⟩
  | layerLoad | layerProve | layerVerify | layerReset =>
    exact fits.after_layer rfl nofun

theorem foldl_after (fits : log.Fits hash) (calls : List Call) :
    (calls.foldl (Log.after hash) log).Fits hash := by
  induction calls generalizing log with
  | nil => exact fits
  | cons call rest ih => exact ih (fits.after call)

end Fits

/-- Whatever was asked of both pages, what they have stored fits together. -/
theorem fits_of (hash : HashFunction) (calls : List Call) : (Log.of hash calls).Fits hash := by
  have start : (⟨[], []⟩ : Log).Fits hash := ⟨⟨.nothing, .nothing⟩, .nothing⟩
  exact start.foldl_after calls

end Log

section Handling

variable {hash : HashFunction} {request : Request} {form : Form} {table later : Table}

theorem handle_redirect {path : String}
    (run : Run.start (perform hash form request) table = (.ok (.redirect path), later)) :
    handle hash request form table = (.ok (.redirect path), later) := by
  rw [handle, run]
  rfl

theorem handle_refused {fault : Fault} (kind : fault.kind = .invalidArgument)
    (run : Run.start (perform hash form request) table = (.error fault, later)) :
    handle hash request form table = (.ok (.refused fault.message), later) := by
  simp only [handle, run, answer, if_pos kind]

end Handling

/-- What there is an address for is an action on one of the pages. -/
theorem Request.ofAction?_eq_some {address : String} {request : Request}
    (known : Request.ofAction? address = some request) :
    (∃ action : SumPage.Action, request = action.request) ∨
      request.page? = some .layer ∧ request ≠ .layerView := by
  unfold ofAction? at known
  split at known <;> cases known
  · exact .inl ⟨.load, rfl⟩
  · exact .inl ⟨.prove, rfl⟩
  · exact .inl ⟨.tamper, rfl⟩
  · exact .inl ⟨.verify, rfl⟩
  · exact .inl ⟨.reset, rfl⟩
  all_goals exact .inr ⟨rfl, nofun⟩

/--
Whatever was asked of both pages before, an action that there is an address for sends the reader back
to a page, or it leaves the whole table as it was and is turned down with a reason, whatever the form
says. A proof is refused for its form too, and for nothing else, where its messages can be counted in
eight bytes, as the entries of every list in memory can.
-/
theorem requests_atomic (hash : HashFunction) (calls : List Call) {address : String}
    {request : Request} (action : Request.ofAction? address = some request) (form : Form) :
    (∃ path later, handle hash request form (Log.of hash calls).table =
        (.ok (.redirect path), later)) ∨
      (handle hash request form (Log.of hash calls).table).2 = (Log.of hash calls).table ∧
        ((request = .sumProve → Writable (Log.of hash calls).table) →
          ∃ reason, (handle hash request form (Log.of hash calls).table).1 =
            .ok (.refused reason)) := by
  obtain ⟨⟨stage, shown⟩, layer⟩ := Log.fits_of hash calls
  rcases Request.ofAction?_eq_some action with ⟨asked, rfl⟩ | ⟨page, asked⟩
  · rcases shown.keeps rfl ⟨asked, form⟩ with ⟨fault, refused, kind⟩ | ⟨later, done, -⟩
    · refine .inr ⟨by rw [handle, refused], fun writable => ⟨fault.message, ?_⟩⟩
      have limit (proves : asked = .prove) : Writable (Log.of hash calls).table :=
        writable (by rw [proves]; rfl)
      rw [handle_refused (kind limit) refused]
    · exact .inl ⟨SumPage.path, later, handle_redirect done⟩
  · rcases layer.keeps rfl page asked form with ⟨fault, refused, kind⟩ | ⟨later, done, -⟩
    · have turned := handle_refused kind refused
      rw [turned]
      exact .inr ⟨rfl, fun _ => ⟨fault.message, rfl⟩⟩
    · exact .inl ⟨LayerPage.path, later, handle_redirect done⟩

/-- A polynomial with its proof, and then a layer as well. -/
def bothPages : List Call :=
  [⟨.sumLoad, [("modulus", "5")]⟩, ⟨.sumProve, []⟩, ⟨.layerLoad, []⟩]

/-- A number that is none does no harm to what both pages have stored. -/
theorem requests_atomic_noNumber :
    Request.ofAction? "/sumcheck/tamper" = some .sumTamper ∧
      ((∃ path later, handle Blake2b.hash .sumTamper [("delta", "x")]
          (Log.of Blake2b.hash bothPages).table = (.ok (.redirect path), later)) ∨
        ∃ reason, handle Blake2b.hash .sumTamper [("delta", "x")]
          (Log.of Blake2b.hash bothPages).table =
            (.ok (.refused reason), (Log.of Blake2b.hash bothPages).table)) := by
  have known : Request.ofAction? "/sumcheck/tamper" = some .sumTamper := rfl
  have other : Request.sumTamper ≠ .sumProve := by decide
  have atomic := requests_atomic Blake2b.hash bothPages known [("delta", "x")]
  -- What is stored and what is answered need not be computed.
  generalize (Log.of Blake2b.hash bothPages).table = table at atomic ⊢
  generalize handle Blake2b.hash .sumTamper [("delta", "x")] table = answered at atomic ⊢
  refine ⟨known, ?_⟩
  obtain ⟨outcome, later⟩ := answered
  rcases atomic with done | ⟨same, turned⟩
  · exact .inl done
  · obtain ⟨reason, refused⟩ := turned fun proves => absurd proves other
    dsimp only at same refused
    subst same refused
    exact .inr ⟨reason, rfl⟩

end HypercubeSum.Demo
