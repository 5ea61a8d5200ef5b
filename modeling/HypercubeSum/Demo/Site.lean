import HypercubeSum.Demo.LayerPage
import HypercubeSum.Demo.SumPage

/-!
# The demonstration as a whole

Requests by address. An invalid argument turns a request to one of the pages down; what the request
stored before stays stored.
-/

namespace HypercubeSum.Demo

inductive Request
  | home
  | sumView
  | sumLoad
  | sumProve
  | sumTamper
  | sumVerify
  | sumReset
  | layerView
  | layerLoad
  | layerProve
  | layerVerify
  | layerReset
deriving DecidableEq, Repr

namespace Request

def ofView? : String → Option Request
  | "/" => some home
  | "/sumcheck/" => some sumView
  | "/gkr/" => some layerView
  | _ => none

def ofAction? : String → Option Request
  | "/sumcheck/load-example" => some sumLoad
  | "/sumcheck/prove" => some sumProve
  | "/sumcheck/tamper" => some sumTamper
  | "/sumcheck/verify" => some sumVerify
  | "/sumcheck/reset" => some sumReset
  | "/gkr/load-example" => some layerLoad
  | "/gkr/prove" => some layerProve
  | "/gkr/verify" => some layerVerify
  | "/gkr/reset" => some layerReset
  | _ => none

end Request

/-- The page that leads to the others. -/
def home : Document :=
  .record [("pages", .record
    [("sumcheck", .text SumPage.path), ("gkr", .text LayerPage.path)])]

def perform (hash : HashFunction) (form : Form) : Request → Run Table Answer
  | .home => return .page home
  | .sumView => SumPage.view
  | .sumLoad => SumPage.draw form
  | .sumProve => SumPage.prove hash
  | .sumTamper => SumPage.tamper form
  | .sumVerify => SumPage.verify hash form
  | .sumReset => SumPage.reset
  | .layerView => LayerPage.view
  | .layerLoad => LayerPage.draw form
  | .layerProve => LayerPage.prove hash
  | .layerVerify => LayerPage.verify hash
  | .layerReset => LayerPage.reset

/-- The answer to an outcome: an invalid argument is told to the reader, any other fault is not. -/
def answer : Except Fault Answer → Except Fault Answer
  | .ok a => .ok a
  | .error fault =>
    if fault.kind = .invalidArgument then .ok (.refused fault.message) else .error fault

def handle (hash : HashFunction) (request : Request) (form : Form) (table : Table) :
    Except Fault Answer × Table :=
  let (outcome, later) := Run.start (perform hash form request) table
  (answer outcome, later)

end HypercubeSum.Demo
