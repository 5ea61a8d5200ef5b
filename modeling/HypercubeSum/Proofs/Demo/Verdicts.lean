import HypercubeSum.Proofs.Demo.Requests

/-!
# Verdicts are right

On a proof that was not changed, or with changes that cancel, the verdict goes by the claimed sum
alone, whatever was asked of the pages before. The claim that is made for a stored layer is accepted
wherever the field is large enough.
-/

namespace HypercubeSum.Demo

variable {hash : HashFunction} {log : Log}

/-- What a request to verify does to a table with a polynomial and its unchanged proof, by the claimed
sum `c` and the stored sum `s`. -/
structure SumPage.Judges (hash : HashFunction) (p : SumOfProducts) (table : Table) (form : Form)
    (c s : Int) : Prop where
  /-- Another sum is rejected in the first round. -/
  rejected : ¬c ≡ s [ZMOD p.field.val] →
    handle hash .sumVerify form table =
      (.ok (.redirect path), table.put "sumcheck.verdict" (rejectedVerdict 1 (.roundRejected 1)))
  /-- The stored sum is accepted, with the right value and the stored sum, if the nodes of the messages
  are distinct in the field. -/
  convinced : c ≡ s [ZMOD p.field.val] → p.maxFactors + 1 ≤ p.field.val →
    ∃ verdict, handle hash .sumVerify form table =
        (.ok (.redirect path), table.put "sumcheck.verdict" verdict) ∧
      Convinced verdict ∧ verdict.field "proof_sum" = .ok (table.find "sumcheck.claimed_sum")
  /-- If they are not, the request is turned down and changes nothing. -/
  refused : c ≡ s [ZMOD p.field.val] → p.field.val < p.maxFactors + 1 →
    ∃ reason, handle hash .sumVerify form table = (.ok (.refused reason), table)

/-- What a request to verify does to a table with a layer over a field and its claim. -/
structure LayerPage.Judges (hash : HashFunction) (field : Modulus) (table : Table) (form : Form) :
    Prop where
  /-- The claim is accepted, and what is left to show holds. -/
  convinced : 3 ≤ field.val → ∃ verdict, handle hash .layerVerify form table =
      (.ok (.redirect path), table.put "gkr.verdict" verdict) ∧ Convinced verdict
  /-- Over a field of two elements the request is turned down and changes nothing. -/
  refused : field.val = 2 →
    ∃ reason, handle hash .layerVerify form table = (.ok (.refused reason), table)

namespace Log.Fits

/-- Where a proof of a sum is stored, what else is stored can be read, and a request to verify is
right if the changes to the proof cancel. -/
theorem sum_judges (fits : log.Fits hash)
    (present : (log.table.find "sumcheck.proof").isPresent = true) :
    ∃ stored s, StoredSum.ofDocument 0 (log.table.find "sumcheck.polynomial") = .ok stored ∧
      (log.table.find "sumcheck.claimed_sum").integer = .ok s ∧
      (stored.sum.field.val.Prime →
        (∀ i j, (stored.sum.field.val : Int) ∣ SumPage.added log.tamperings i j) →
          ∀ form c, formInteger form "claimed-sum" s = .ok c →
            SumPage.Judges hash stored.sum log.table form c s) := by
  obtain ⟨stage, shown⟩ := fits.sum
  obtain ⟨F, p, proof, info, hex, loaded, proved⟩ :=
    shown.of_present (by rw [Page.sum.find_of (by decide)]; exact present)
  rw [Page.sum.find_of (by decide), Page.sum.find_of (by decide)] at loaded
  rw [Page.sum.find_of (by decide)] at proved
  obtain rfl : p.field = F := loaded.field
  obtain ⟨s, sum⟩ := loaded.sum_ok
  refine ⟨.ofSum p, s, loaded.read, sum, fun prime cancel form c asked => ?_⟩
  have run := SumPage.start_verify loaded proved rfl rfl sum form
  rw [asked, bind_of_eq_ok rfl] at run
  constructor
  · intro wrong
    rw [SumPage.verdict_wrong loaded proved cancel sum wrong] at run
    exact handle_redirect run
  · intro right distinct
    obtain ⟨d, judged, convinced, shows⟩ :=
      SumPage.verdict_right loaded proved cancel sum right prime distinct
    rw [judged] at run
    exact ⟨d, handle_redirect run, convinced, shows⟩
  · intro right few
    rw [SumPage.verdict_collided loaded proved cancel sum right few] at run
    exact ⟨_, handle_refused rfl run⟩

/-- Where a claim about a layer is stored, the layer can be read, and a request to verify is right. -/
theorem layer_judges (fits : log.Fits hash)
    (present : (log.table.find "gkr.proof").isPresent = true) :
    ∃ known, StoredLayer.ofDocument (log.table.find "gkr.function") = .ok known ∧
      (known.field.val.Prime → ∀ form, LayerPage.Judges hash known.field log.table form) := by
  obtain ⟨F, dimension, known, info, claim, proof, loaded, proved⟩ :=
    fits.layer.of_present (by rw [Page.layer.find_of (by decide)]; exact present)
  rw [Page.layer.find_of (by decide)] at loaded
  rw [Page.layer.find_of (by decide), Page.layer.find_of (by decide)] at proved
  refine ⟨known, loaded.read, fun prime form => ?_⟩
  rw [loaded.fits.field_eq] at prime ⊢
  constructor
  · intro three
    obtain ⟨d, judged, convinced⟩ := LayerPage.verdict_right loaded proved prime three
    exact ⟨d, handle_redirect (LayerPage.start_verify loaded proved rfl rfl rfl judged), convinced⟩
  · intro two
    have judged := LayerPage.verdict_collided proved two
    exact ⟨_, handle_refused rfl (LayerPage.start_verify loaded proved rfl rfl rfl judged)⟩

end Log.Fits

/--
Whatever was asked of both pages before, a request to verify is judged rightly. On the page of a sum,
over a prime field and with changes to the proof that cancel since it was made, another claimed sum
than the stored one is rejected in the first round; the stored one, which is claimed if the form has
none, is accepted with the right value if the field has an element for each value of a message, and
otherwise the request is turned down. On the page of a layer, over a prime field, a stored proof is
accepted with the right value, unless the field has two elements, where the request is turned down.
-/
theorem verdicts_right (hash : HashFunction) (calls : List Call) :
    ((((Log.of hash calls).table.find "sumcheck.proof").isPresent = true) →
      ∃ stored s,
        StoredSum.ofDocument 0 ((Log.of hash calls).table.find "sumcheck.polynomial") = .ok stored ∧
        ((Log.of hash calls).table.find "sumcheck.claimed_sum").integer = .ok s ∧
        (stored.sum.field.val.Prime →
          (∀ i j, (stored.sum.field.val : Int) ∣
            SumPage.added (Log.of hash calls).tamperings i j) →
          ∀ form c, formInteger form "claimed-sum" s = .ok c →
            SumPage.Judges hash stored.sum (Log.of hash calls).table form c s)) ∧
      (((Log.of hash calls).table.find "gkr.proof").isPresent = true →
        ∃ known,
          StoredLayer.ofDocument ((Log.of hash calls).table.find "gkr.function") = .ok known ∧
          (known.field.val.Prime →
            ∀ form, LayerPage.Judges hash known.field (Log.of hash calls).table form)) :=
  ⟨(Log.fits_of hash calls).sum_judges, (Log.fits_of hash calls).layer_judges⟩

section Proved

variable {F : Modulus} {form : Form} {dimension : Nat} {seed : Int}

/-- Whatever was stored before, a polynomial of sizes within bounds is drawn and then proved. -/
theorem Log.after_sumProve {request : SumPage.Request}
    (read : SumPage.Request.ofForm form = .ok request)
    (field : Modulus.ofInt request.modulus = .ok F) (writable : request.maxFactors + 1 < 2 ^ 64)
    (hash : HashFunction) (log : Log) (form' : Form) :
    ∃ p table,
      (log.after hash ⟨.sumLoad, form⟩).after hash ⟨.sumProve, form'⟩ = ⟨table, []⟩ ∧
      StoredSum.ofDocument 0 (table.find "sumcheck.polynomial") = .ok (.ofSum p) ∧
      (table.find "sumcheck.proof").isPresent = true ∧ p.field = F ∧
      (p.maxFactors : Int) ≤ request.maxFactors := by
  obtain ⟨p, stored, info, claimed, loaded, rounds, longest, drawn⟩ :=
    SumPage.start_draw_ok read field log.table
  have first : log.after hash ⟨.sumLoad, form⟩ =
      ⟨SumPage.withSum log.table stored info claimed, log.tamperings⟩ := after_of_redirect drawn
  have own := SumPage.of_withSum log.table stored info claimed
  have found :
      (SumPage.withSum log.table stored info claimed).find "sumcheck.polynomial" = stored := by
    rw [← Page.sum.find_of (by decide), own]
    rfl
  obtain ⟨challenges, -, proved⟩ := (loaded.shareable rounds (by omega)).prove_ok hash
  obtain ⟨messages, hex, made, done⟩ := SumPage.start_prove_ok loaded found proved
  have shown := SumPage.of_withProof (SumPage.withSum log.table stored info claimed) messages hex
  rw [own] at shown
  refine ⟨p, SumPage.withProof (SumPage.withSum log.table stored info claimed) messages hex, ?_, ?_,
    ?_, loaded.field, longest⟩
  · rw [first]
    exact after_of_redirect done
  · rw [← Page.sum.find_of (by decide), shown]
    exact loaded.read
  · rw [← Page.sum.find_of (by decide), shown]
    exact made.present loaded

/-- So is a layer, if its wiring is drawn out of few corners. -/
theorem Log.after_layerProve (asks : LayerPage.Asks form F dimension seed)
    (small : corners (3 * dimension) ≤ Twister.poolLimit (corners dimension)) (hash : HashFunction)
    (log : Log) (form' : Form) :
    ∃ known table,
      (log.after hash ⟨.layerLoad, form⟩).after hash ⟨.layerProve, form'⟩ =
        ⟨table, log.tamperings⟩ ∧
      StoredLayer.ofDocument (table.find "gkr.function") = .ok known ∧
      (table.find "gkr.proof").isPresent = true ∧ known.field = F := by
  have few := LayerPage.listed_of_le asks.few
  obtain ⟨problem, later, sampled⟩ := Sampling.start_layerProblem F few small
    (Twister.ofSeed seed)
  obtain ⟨known, stored, info, loaded, drawn⟩ :=
    LayerPage.start_draw_ok asks (Run.outcome_eq_ok sampled) log.table
  have first : log.after hash ⟨.layerLoad, form⟩ =
      ⟨LayerPage.withLayer log.table stored info, log.tamperings⟩ := after_of_redirect drawn
  have own := LayerPage.of_withLayer log.table stored info
  have found : (LayerPage.withLayer log.table stored info).find "gkr.function" = stored := by
    rw [← Page.layer.find_of (by decide), own]
    rfl
  obtain ⟨claim, proof, claimed, messages, proved, done⟩ := LayerPage.start_prove loaded found hash
  have shown := LayerPage.of_withProof (LayerPage.withLayer log.table stored info) claimed messages
  rw [own] at shown
  refine ⟨known, LayerPage.withProof (LayerPage.withLayer log.table stored info) claimed messages,
    ?_, ?_, ?_, loaded.fits.field_eq⟩
  · rw [first]
    exact after_of_redirect done
  · rw [← Page.layer.find_of (by decide), shown]
    exact loaded.read
  · rw [← Page.layer.find_of (by decide), shown]
    exact (Bool.and_eq_true_iff.1 proved.present).2

end Proved

/-- A polynomial and a layer over five elements, and the proofs of both. -/
def overFive : List Call :=
  [⟨.sumLoad, [("modulus", "5")]⟩, ⟨.sumProve, []⟩,
   ⟨.layerLoad, [("modulus", "5"), ("dim", "1")]⟩, ⟨.layerProve, []⟩]

/-- The proofs of both are judged right. -/
theorem verdicts_right_overFive :
    (∃ d, handle Blake2b.hash .sumVerify [] (Log.of Blake2b.hash overFive).table =
        (.ok (.redirect SumPage.path),
          (Log.of Blake2b.hash overFive).table.put "sumcheck.verdict" d) ∧ Convinced d) ∧
      ∃ d, handle Blake2b.hash .layerVerify [] (Log.of Blake2b.hash overFive).table =
        (.ok (.redirect LayerPage.path),
          (Log.of Blake2b.hash overFive).table.put "gkr.verdict" d) ∧ Convinced d := by
  have read : SumPage.Request.ofForm [("modulus", "5")] =
      .ok ⟨Sampling.defaultVariables, Sampling.defaultTerms, 3, Sampling.defaultSeed, 5⟩ := rfl
  have field : Modulus.ofInt 5 = .ok fiveElements := rfl
  have asks : LayerPage.Asks [("modulus", "5"), ("dim", "1")] fiveElements 1
      Sampling.defaultSeed := ⟨by decide, ⟨5, by decide, field⟩, by decide, by decide, by decide⟩
  obtain ⟨p, before, first, sum, sumProved, own, longest⟩ :=
    Log.after_sumProve read field (by decide) Blake2b.hash ⟨[], []⟩ []
  obtain ⟨known, table, second, layer, layerProved, own'⟩ :=
    Log.after_layerProve asks (by decide) Blake2b.hash ⟨before, []⟩ []
  have log : Log.of Blake2b.hash overFive = ⟨table, []⟩ := by
    rw [Log.of, overFive, List.foldl_cons, List.foldl_cons, first, List.foldl_cons, List.foldl_cons,
      second, List.foldl_nil]
  -- The calls on the layer leave what is stored of the polynomial.
  have kept {key : String} (here : family "sumcheck." key = true) :
      table.find key = before.find key := by
    have later := Log.find_table_after Blake2b.hash
      (Log.after Blake2b.hash ⟨before, []⟩ ⟨.layerLoad, [("modulus", "5"), ("dim", "1")]⟩)
      ⟨.layerProve, []⟩ .sum (by decide) here
    rw [second, Log.find_table_after Blake2b.hash _ _ .sum (by decide) here] at later
    exact later
  rw [← kept (by decide)] at sum sumProved
  have right := verdicts_right Blake2b.hash overFive
  rw [log] at right ⊢
  constructor
  · obtain ⟨it, s, same, -, judges⟩ := right.1 sumProved
    obtain rfl : .ofSum p = it := Except.ok.inj (sum.symm.trans same)
    have prime : p.field.val.Prime := own ▸ Nat.prime_five
    have distinct : p.maxFactors + 1 ≤ p.field.val := by
      rw [own]
      exact Nat.succ_le_succ (Nat.le_succ_of_le (Int.ofNat_le.1 longest))
    obtain ⟨d, judged, convinced, -⟩ :=
      (judges prime (fun _ _ => Int.dvd_zero _) [] s rfl).convinced (Int.ModEq.refl s) distinct
    exact ⟨d, judged, convinced⟩
  · obtain ⟨it, same, judges⟩ := right.2 layerProved
    obtain rfl : known = it := Except.ok.inj (layer.symm.trans same)
    have prime : known.field.val.Prime := own' ▸ Nat.prime_five
    obtain ⟨d, judged, convinced⟩ := (judges prime []).convinced (own' ▸ (by decide : 3 ≤ 5))
    exact ⟨d, judged, convinced⟩

end HypercubeSum.Demo
