import HypercubeSum.Proofs.Demo.Pages
import HypercubeSum.Proofs.Demo.SumVerdict

/-!
# What the page of a sum shows

Whatever is asked of the page, and in whatever order, what is stored fits together: the sum and the
description are those of the stored polynomial, the proof is its proof with the changes made since,
and a verdict is about the polynomial and the proof that are stored. A request that fails leaves all
of it as it was.
-/

namespace HypercubeSum.Demo

namespace SumPage

inductive Action
  | load
  | prove
  | tamper
  | verify
  | reset
deriving DecidableEq

def Action.request : Action → Demo.Request
  | load => .sumLoad
  | prove => .sumProve
  | tamper => .sumTamper
  | verify => .sumVerify
  | reset => .sumReset

structure Visit where
  action : Action
  form : Form

/-- How much is stored: nothing, a polynomial, that with a proof, or that with a verdict as well. -/
inductive Stage
  | nothing
  | sum
  | proof
  | verdict
deriving DecidableEq

def Stage.keys : Stage → List String
  | nothing => []
  | sum => ["sumcheck.polynomial", "sumcheck.polynomial.info", "sumcheck.claimed_sum"]
  | proof =>
    ["sumcheck.polynomial", "sumcheck.polynomial.info", "sumcheck.claimed_sum", "sumcheck.proof",
     "sumcheck.proof_hex"]
  | verdict =>
    ["sumcheck.polynomial", "sumcheck.polynomial.info", "sumcheck.claimed_sum", "sumcheck.proof",
     "sumcheck.proof_hex", "sumcheck.verdict"]

/-- What is stored after an accepted action. A proof takes a polynomial, and a change or a verdict
takes a proof; a proof, and a change to it, drop the verdict. -/
def Stage.next : Stage → Action → Stage
  | _, .load => sum
  | _, .reset => nothing
  | nothing, _ => nothing
  | _, .prove => proof
  | sum, _ => sum
  | _, .tamper => proof
  | _, .verify => verdict

/-- The changes since the last proof, after an accepted visit. -/
def Visit.note (visit : Visit) (tamperings : List Tampering) : List Tampering :=
  match visit.action with
  | .prove => []
  | .tamper => tamperings ++ (Tampering.ofForm visit.form).toOption.toList
  | _ => tamperings

/-- Whether the reader is sent back to the page, and not turned down. -/
def isAccepted : Except Fault Answer → Bool
  | .ok (.redirect _) => true
  | _ => false

@[simp] theorem isAccepted_error (fault : Fault) : isAccepted (answer (.error fault)) = false := by
  rw [answer]
  split <;> rfl

/-- What visits lead to: the stored documents, and what the accepted visits say of them. -/
structure History where
  table : Table
  stage : Stage
  /-- The changes accepted since the last proof, in the order they were asked for. -/
  tamperings : List Tampering

/-- One more visit. The documents are those that the request leaves. -/
def History.after (hash : HashFunction) (history : History) (visit : Visit) : History :=
  let (answer, table) := handle hash visit.action.request visit.form history.table
  if isAccepted answer then
    ⟨table, history.stage.next visit.action, visit.note history.tamperings⟩
  else { history with table }

def History.of (hash : HashFunction) (visits : List Visit) : History :=
  visits.foldl (History.after hash) ⟨[], .nothing, []⟩

def sumEntries (stored info claimed : Document) : Table :=
  [("sumcheck.polynomial", stored), ("sumcheck.polynomial.info", info),
   ("sumcheck.claimed_sum", claimed)]

def proofEntries (messages hex : Document) : Table :=
  [("sumcheck.proof", messages), ("sumcheck.proof_hex", hex)]

/-- A table with a polynomial, and without what was stored before. -/
def withSum (table : Table) (stored info claimed : Document) : Table :=
  (((table.eraseFamily "sumcheck.").put "sumcheck.polynomial" stored).put
    "sumcheck.polynomial.info" info).put "sumcheck.claimed_sum" claimed

/-- A table with a proof, and without a verdict on the one before. -/
def withProof (table : Table) (messages hex : Document) : Table :=
  ((table.put "sumcheck.proof" messages).put "sumcheck.proof_hex" hex).erase "sumcheck.verdict"

def verdictEntries (verdict : Document) : Table := [("sumcheck.verdict", verdict)]

/-- The tables that fit together: nothing, a polynomial, a polynomial with a proof, or all that with
a verdict on them. -/
inductive Shows (hash : HashFunction) (tamperings : List Tampering) : Stage → Table → Prop
  | nothing : Shows hash tamperings .nothing []
  | sum {F p stored info claimed} (loaded : Loaded F p stored info claimed) :
      Shows hash tamperings .sum (sumEntries stored info claimed)
  | proof {F p stored info claimed proof messages hex} (loaded : Loaded F p stored info claimed)
      (proved : Proved hash tamperings F p proof messages hex) :
      Shows hash tamperings .proof (sumEntries stored info claimed ++ proofEntries messages hex)
  | verdict {F p stored info claimed proof messages hex verdict}
      (loaded : Loaded F p stored info claimed)
      (proved : Proved hash tamperings F p proof messages hex) (z : Int)
      (judged : Judged hash F p (Element.ofInt F z) proof verdict) :
      Shows hash tamperings .verdict
        (sumEntries stored info claimed ++ proofEntries messages hex ++ verdictEntries verdict)

variable {hash : HashFunction} {tamperings : List Tampering} {F : Modulus} {p : SumOfProducts}
  {proof : Proof} {stored info claimed messages hex : Document} {table : Table} {form : Form}
  {stage : Stage} {limit : Prop}

/-- The messages of the stored polynomial can be counted in eight bytes, as the entries of every list
in memory can. -/
def Writable (table : Table) : Prop :=
  ∀ stored, StoredSum.ofDocument 0 (table.find "sumcheck.polynomial") = .ok stored →
    stored.sum.maxFactors + 1 < 2 ^ 64

/-- A request is refused and changes nothing in the whole table, where nothing but an argument is
refused within the limit, or it is done, and what is stored for the page then fits together and is as
much as the next stage has. -/
def Keeps (hash : HashFunction) (noted : List Tampering) (next : Stage) (limit : Prop)
    (table : Table) (run : Run Table Answer) : Prop :=
  (∃ fault, Run.start run table = (.error fault, table) ∧
      (limit → fault.kind = .invalidArgument)) ∨
    ∃ later, Run.start run table = (.ok (.redirect path), later) ∧
      Shows hash noted next (Page.sum.of later)

section Load

/-- A polynomial of sizes within bounds, over a field that is admitted, takes the place of everything
that was stored. -/
theorem start_draw_ok {request : Request} (read : Request.ofForm form = .ok request)
    (field : Modulus.ofInt request.modulus = .ok F) (table : Table) :
    ∃ p stored info claimed, Loaded F p stored info claimed ∧
      0 < p.numVariables ∧ (p.maxFactors : Int) ≤ request.maxFactors ∧
      Run.start (draw form) table = (.ok (.redirect path), withSum table stored info claimed) := by
  obtain ⟨p, total, stored, drawn, written, loaded, rounds, longest⟩ := loaded_of_request read field
  refine ⟨p, stored, _, _, loaded, rounds, longest, ?_⟩
  simp [draw, Run.start_bind, read, field, drawn, written, withSum]

theorem of_withSum (table : Table) (stored info claimed : Document) :
    Page.sum.of (withSum table stored info claimed) = sumEntries stored info claimed := by
  unfold Page.of withSum
  rw [Table.part_put (by decide), Table.part_put (by decide), Table.part_put (by decide),
    Page.start, Table.part_eraseFamily_self]
  rfl

theorem keeps_draw (hash : HashFunction) (tamperings : List Tampering) (form : Form) (table : Table) :
    Keeps hash tamperings .sum limit table (draw form) := by
  cases read : Request.ofForm form with
  | error fault =>
    refine .inl ⟨fault, ?_, fun _ => Request.ofForm_refuses form fault read⟩
    simp [draw, Run.start_bind, read]
  | ok request =>
    cases field : Modulus.ofInt request.modulus with
    | error fault =>
      refine .inl ⟨fault, ?_, fun _ => Modulus.ofInt_refuses _ fault field⟩
      simp [draw, Run.start_bind, read, field]
    | ok F =>
      obtain ⟨p, stored, info, claimed, loaded, -, -, drawn⟩ := start_draw_ok read field table
      refine .inr ⟨_, drawn, ?_⟩
      rw [of_withSum]
      exact .sum loaded

end Load

section Prove

theorem of_withProof (table : Table) (messages hex : Document) :
    Page.sum.of (withProof table messages hex) = withProof (Page.sum.of table) messages hex := by
  unfold Page.of withProof
  rw [Table.part_erase, Table.part_put (by decide), Table.part_put (by decide)]

/-- The proof of the stored polynomial takes the place of one before it, and of a verdict on that. -/
theorem start_prove_ok (loaded : Loaded F p stored info claimed)
    (found : table.find "sumcheck.polynomial" = stored)
    (sent : HypercubeSum.prove hash p = .ok proof) :
    ∃ messages hex, Proved hash [] F p proof messages hex ∧
      Run.start (prove hash) table = (.ok (.redirect path), withProof table messages hex) := by
  obtain ⟨bytes, written, proved⟩ := loaded.proved sent []
  -- No change has been asked for yet, so what is stored is the honest proof itself.
  rw [shifted_nil (loaded.canonicalIn_of_prove sent).1] at written proved
  refine ⟨_, _, proved, ?_⟩
  simp [prove, Run.start_bind, found, loaded.present, loaded.read, StoredSum.prove_ofSum, sent, saveHex,
    written, withProof]

/-- What cannot be proved is refused. -/
theorem keeps_prove (loaded : Loaded F p stored info claimed) (writable : limit → Writable table)
    (found : table.find "sumcheck.polynomial" = stored)
    (replaced : ∀ messages hex, Page.sum.of (withProof table messages hex) =
      sumEntries stored info claimed ++ proofEntries messages hex) :
    Keeps hash [] .proof limit table (prove hash) := by
  cases sent : HypercubeSum.prove hash p with
  | error fault =>
    refine .inl ⟨fault, ?_, fun within => ?_⟩
    · simp [prove, Run.start_bind, found, loaded.present, loaded.read, StoredSum.prove_ofSum, sent]
    · exact loaded.prove_refuses hash (writable within _ (found ▸ loaded.read)) fault sent
  | ok proof =>
    obtain ⟨messages, hex, proved, done⟩ := start_prove_ok loaded found sent
    refine .inr ⟨_, done, ?_⟩
    rw [replaced]
    exact .proof loaded proved

/-- Without a polynomial there is nothing to prove. -/
theorem keeps_prove_nothing (none : table.find "sumcheck.polynomial" = .null)
    (empty : Page.sum.of table = []) : Keeps hash [] .nothing limit table (prove hash) := by
  refine .inr ⟨table, ?_, ?_⟩
  · simp [prove, Run.start_bind, none]
  · rw [empty]
    exact .nothing

end Prove

section Tamper

/-- A change to the stored proof is one more change to the proof of the polynomial. -/
theorem keeps_tamper (loaded : Loaded F p stored info claimed)
    (proved : Proved hash tamperings F p proof messages hex)
    (found : table.find "sumcheck.polynomial" = stored)
    (found' : table.find "sumcheck.proof" = messages)
    (replaced : ∀ messages hex, Page.sum.of (withProof table messages hex) =
      sumEntries stored info claimed ++ proofEntries messages hex)
    (form : Form) :
    Keeps hash (tamperings ++ (Tampering.ofForm form).toOption.toList) .proof limit table
      (tamper form) := by
  have modulus := Modulus.ofDocument_toDocument loaded.storable loaded.admitted
  have canonical := proved.canonicalIn loaded
  unfold Keeps tamper
  cases changed : tampered F messages form with
  | error fault =>
    refine .inl ⟨fault, ?_, fun _ => ?_⟩
    · simp [Run.start_bind, found, found', proved.present loaded, loaded.present, loaded.modulus,
        modulus, changed]
    · rw [proved.stored] at changed
      exact tampered_refuses loaded.storable canonical form fault changed
  | ok later =>
    -- The stored proof is the honest one with the changes so far, and one more adds up with them.
    obtain ⟨honest, sent, same⟩ := proved.tampered
    rw [proved.stored] at changed
    obtain ⟨t, read, rfl⟩ := tampered_eq_ok loaded.storable canonical changed
    obtain ⟨bytes, written, again⟩ := loaded.proved sent (tamperings ++ [t])
    have steps : proof.shifted F (added [t]) = honest.shifted F (added (tamperings ++ [t])) := by
      rw [same, Proof.shifted_shifted, added_append]
    rw [← proved.stored, steps] at changed
    rw [read]
    refine .inr ⟨withProof table (honest.shifted F (added (tamperings ++ [t]))).toDocument
      (.text (Text.hexOfBytes bytes)), ?_, ?_⟩
    · simp [Run.start_bind, found, found', proved.present loaded, loaded.present, loaded.modulus,
        modulus, changed, again.read, saveHex, written, withProof]
    · rw [replaced]
      exact .proof loaded again

/-- Without a proof there is nothing to change. -/
theorem keeps_tamper_nothing (shown : Shows hash tamperings stage (Page.sum.of table))
    (none : table.find "sumcheck.proof" = .null) (form : Form) :
    Keeps hash tamperings stage limit table (tamper form) := by
  refine .inr ⟨table, ?_, shown⟩
  simp [tamper, Run.start_bind, none]

end Tamper

section Verify

/-- The claimed sum is the integer in the form, or else the stored sum, reduced into the field. -/
theorem start_claimedSum {s : Int} (sum : (table.find "sumcheck.claimed_sum").integer = .ok s)
    (F : Modulus) (form : Form) :
    Run.start (claimedSum F form) table =
      ((fun z => (Element.ofInt F z : Scalar)) <$> formInteger form "claimed-sum" s, table) := by
  unfold claimedSum formInteger
  cases given : form.lookup "claimed-sum" with
  | none =>
    simp only [Run.start_bind, start_load, Run.start_lift, Scalar.ofDocument, sum]
    rfl
  | some text =>
    by_cases blank : text = ""
    · subst blank
      simp only [Run.start_bind, start_load, Run.start_lift, Scalar.ofDocument, sum]
      rfl
    · simp only [Run.start_bind]
      cases Text.numeral mostDigits text <;> rfl

/-- The verdict is on the stored polynomial and proof, for the claimed sum; it is stored, or the table
is left as it is. -/
theorem start_verify (loaded : Loaded F p stored info claimed)
    (proved : Proved hash tamperings F p proof messages hex)
    (found : table.find "sumcheck.polynomial" = stored)
    (found' : table.find "sumcheck.proof" = messages) {s : Int}
    (sum : (table.find "sumcheck.claimed_sum").integer = .ok s) (form : Form) :
    Run.start (verify hash form) table =
      match formInteger form "claimed-sum" s >>= fun z =>
        verdict hash (.ofSum p) (Element.ofInt F z) proof with
      | .ok d => (.ok (.redirect path), table.put "sumcheck.verdict" d)
      | .error fault => (.error fault, table) := by
  have field : (StoredSum.ofSum p).sum.field = F := loaded.field
  unfold verify
  simp only [Run.start_bind, start_load, found, found', loaded.present, proved.present loaded,
    Bool.and_self, if_true, Run.start_lift, loaded.read, field, proved.read, start_claimedSum sum]
  cases formInteger form "claimed-sum" s with
  | error fault => rfl
  | ok z =>
    simp only [Except.map_ok, bind_of_eq_ok (rfl : Except.ok z = Except.ok z)]
    cases verdict hash (.ofSum p) (Element.ofInt F z) proof <;> rfl

/-- A verdict is on the stored proof of the stored polynomial. -/
theorem keeps_verify (loaded : Loaded F p stored info claimed)
    (proved : Proved hash tamperings F p proof messages hex)
    (found : table.find "sumcheck.polynomial" = stored)
    (found' : table.find "sumcheck.proof" = messages)
    (found'' : table.find "sumcheck.claimed_sum" = claimed)
    (replaced : ∀ verdict, Page.sum.of (table.put "sumcheck.verdict" verdict) =
      sumEntries stored info claimed ++ proofEntries messages hex ++ verdictEntries verdict)
    (form : Form) : Keeps hash tamperings .verdict limit table (verify hash form) := by
  obtain ⟨s, sum⟩ := loaded.sum_ok
  rw [← found''] at sum
  have run := start_verify loaded proved found found' sum form
  unfold Keeps
  rw [run]
  cases asked : formInteger form "claimed-sum" s with
  | error fault => exact .inl ⟨fault, rfl, fun _ => formInteger_refuses form _ _ fault asked⟩
  | ok z =>
    rw [bind_of_eq_ok rfl]
    cases judged : verdict hash (.ofSum p) (Element.ofInt F z) proof with
    | error fault => exact .inl ⟨fault, rfl, fun _ => verdict_refuses loaded proved _ fault judged⟩
    | ok d =>
      refine .inr ⟨_, rfl, ?_⟩
      rw [replaced]
      exact .verdict loaded proved z (judged_of_verdict loaded judged)

/-- Without a proof there is nothing to verify. -/
theorem keeps_verify_nothing (shown : Shows hash tamperings stage (Page.sum.of table))
    (none : table.find "sumcheck.proof" = .null) (form : Form) :
    Keeps hash tamperings stage limit table (verify hash form) := by
  refine .inr ⟨table, ?_, shown⟩
  simp [verify, Run.start_bind, none]

end Verify

/-- Where a proof is stored, it is a proof of the stored polynomial. -/
theorem Shows.of_present (shown : Shows hash tamperings stage table)
    (present : (table.find "sumcheck.proof").isPresent = true) :
    ∃ F p proof info hex,
      Loaded F p (table.find "sumcheck.polynomial") info (table.find "sumcheck.claimed_sum") ∧
        Proved hash tamperings F p proof (table.find "sumcheck.proof") hex := by
  cases shown with
  | nothing => cases present
  | sum loaded => cases present
  | proof loaded proved => exact ⟨_, _, _, _, _, loaded, proved⟩
  | verdict loaded proved z judged => exact ⟨_, _, _, _, _, loaded, proved⟩

/-- Whatever is asked of tables with documents of the page that fit together, they fit together
afterwards; a request that is refused changes nothing. -/
theorem Shows.keeps {own : Table} (shown : Shows hash tamperings stage own)
    (same : Page.sum.of table = own) (visit : Visit) :
    Keeps hash (visit.note tamperings) (stage.next visit.action)
      (visit.action = .prove → Writable table) table
      (perform hash visit.form visit.action.request) := by
  obtain ⟨action, form⟩ := visit
  have found (key : String) (here : family "sumcheck." key = true) :
      table.find key = own.find key := by
    rw [← same]
    exact (Page.sum.find_of here _).symm
  have replaced (messages hex : Document) :
      Page.sum.of (withProof table messages hex) = withProof own messages hex := by
    rw [of_withProof, same]
  have judged (d : Document) :
      Page.sum.of (table.put "sumcheck.verdict" d) = own.put "sumcheck.verdict" d := by
    unfold Page.of at *
    rw [Table.part_put (by decide), same]
  cases action with
  | load => exact keeps_draw hash tamperings form table
  | reset =>
    refine .inr ⟨table.eraseFamily "sumcheck.", rfl, ?_⟩
    have nothing : Page.sum.of (table.eraseFamily "sumcheck.") = [] := Table.part_eraseFamily_self
    rw [nothing]
    exact .nothing
  | prove =>
    have writable (limit : Action.prove = .prove → Writable table) : Writable table := limit rfl
    cases shown with
    | nothing => exact keeps_prove_nothing (found _ (by decide)) same
    | sum loaded => exact keeps_prove loaded writable (found _ (by decide)) replaced
    | proof loaded proved => exact keeps_prove loaded writable (found _ (by decide)) replaced
    | verdict loaded proved z right =>
      exact keeps_prove loaded writable (found _ (by decide)) replaced
  | tamper =>
    cases shown with
    | nothing =>
      refine keeps_tamper_nothing ?_ (found _ (by decide)) form
      rw [same]
      exact .nothing
    | sum loaded =>
      refine keeps_tamper_nothing ?_ (found _ (by decide)) form
      rw [same]
      exact .sum loaded
    | proof loaded proved =>
      exact keeps_tamper loaded proved (found _ (by decide)) (found _ (by decide)) replaced form
    | verdict loaded proved z right =>
      exact keeps_tamper loaded proved (found _ (by decide)) (found _ (by decide)) replaced form
  | verify =>
    have kept := shown
    rw [← same] at kept
    cases shown with
    | nothing => exact keeps_verify_nothing kept (found _ (by decide)) form
    | sum loaded => exact keeps_verify_nothing kept (found _ (by decide)) form
    | proof loaded proved =>
      exact keeps_verify loaded proved (found _ (by decide)) (found _ (by decide))
        (found _ (by decide)) judged form
    | verdict loaded proved z right =>
      exact keeps_verify loaded proved (found _ (by decide)) (found _ (by decide))
        (found _ (by decide)) judged form

def History.Fits (hash : HashFunction) (history : History) : Prop :=
  Shows hash history.tamperings history.stage history.table

/-- Documents of the page that fit together have keys of the page. -/
theorem Shows.of_eq_self (shown : Shows hash tamperings stage table) : Page.sum.of table = table := by
  cases shown <;>
    simp [Page.of, Table.part, family, Page.start, sumEntries, proofEntries, verdictEntries]

/-- One more visit leaves documents that fit together. -/
theorem History.Fits.after {history : History} (fits : history.Fits hash) (visit : Visit) :
    (history.after hash visit).Fits hash := by
  rcases Shows.keeps fits (Shows.of_eq_self fits) visit with
    ⟨fault, refused, -⟩ | ⟨later, done, shown⟩
  · have same : history.after hash visit = history := by
      simp [History.after, handle, refused]
    rwa [same]
  · have next : history.after hash visit =
        ⟨later, history.stage.next visit.action, visit.note history.tamperings⟩ := by
      simp [History.after, handle, done, answer, isAccepted]
    -- No key of another page is written, so the documents of the page are all there are.
    have page : visit.action.request.page? = some .sum := by cases visit.action <;> rfl
    have frame := (confined_perform hash visit.form page).frame
      (fun key => !family Page.sum.start key) (fun key here => by rw [here]; rfl) history.table
    rw [done, Table.part_eq_self_iff.1 (Shows.of_eq_self fits)] at frame
    have own : Page.sum.of later = later := Table.part_eq_self_iff.2 frame
    rw [own] at shown
    rwa [next]

theorem History.Fits.foldl_after {history : History} (fits : history.Fits hash)
    (visits : List Visit) : (visits.foldl (History.after hash) history).Fits hash := by
  induction visits generalizing history with
  | nil => exact fits
  | cons visit rest ih => exact ih (fits.after visit)

theorem Shows.keys (shown : Shows hash tamperings stage table) :
    table.map Prod.fst = stage.keys := by
  cases shown <;> rfl

/--
After any visits, in any order and with anything in the forms, the stored keys are none, those of a
polynomial, those of a polynomial with a proof, or those with a verdict as well, as the accepted
visits say. The stored sum is that of the stored polynomial and the description is that of it; the
stored proof is its proof with the changes that were accepted since the last proof, and the digits
are those of its written form; a stored verdict is that on the stored polynomial and proof, for some
claimed sum.
-/
theorem page_fits_together (hash : HashFunction) (visits : List Visit) :
    (History.of hash visits).table.map Prod.fst = (History.of hash visits).stage.keys ∧
      Shows hash (History.of hash visits).tamperings (History.of hash visits).stage
        (History.of hash visits).table := by
  have start : (⟨[], .nothing, []⟩ : History).Fits hash := .nothing
  have fits : (History.of hash visits).Fits hash := start.foldl_after visits
  exact ⟨fits.keys, fits⟩

end SumPage

end HypercubeSum.Demo
