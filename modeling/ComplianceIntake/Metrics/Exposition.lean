import ComplianceIntake.Metrics.Registry
import ComplianceIntake.Number.Shortest
import ComplianceIntake.Text.Order

/-!
# The metrics text

Families in the order of their names, those without a sample left out; in each
family the samples in the order of their label values. Labels are written in
the order of their names. A histogram is written as its buckets, whose bound is
the last label, its sum and its count.
-/

set_option autoImplicit false

namespace ComplianceIntake.Metrics

open ComplianceIntake.Text
open ComplianceIntake.Number

/-- Numbers are written with the fewest digits, a tie going up, and never with an exponent. -/
def sampleLayout : Layout where
  tie := .up
  positional _ := true
  wholeWithPoint := false

def numberText (f : Float) : String := String.ofList (sampleLayout.numeral f.toBits).chars

inductive Shape where
  | counter
  | histogram
  deriving DecidableEq, Repr

def Shape.label : Shape → String
  | .counter => "counter"
  | .histogram => "histogram"

structure Family where
  name : String
  help : String
  shape : Shape
  /-- The names of the labels, in the order in which an observation gives their values. -/
  labels : List String
  deriving DecidableEq, Repr

def durationFamily : Family where
  name := "compliance_api_http_request_duration_seconds"
  help := "Compliance API HTTP request duration in seconds."
  shape := .histogram
  labels := ["route", "method", "outcome"]

def requestFamily : Family where
  name := "compliance_api_http_requests_total"
  help := "Compliance API HTTP request count."
  shape := .counter
  labels := ["route", "method", "status"]

def lookupFamily : Family where
  name := "compliance_api_identity_cache_lookups_total"
  help := "Identity cache lookups by entity kind and outcome."
  shape := .counter
  labels := ["kind", "outcome"]

def getOrCreateFamily : Family where
  name := "compliance_api_store_get_or_create_total"
  help := "Store get-or-create calls by entity kind and outcome."
  shape := .counter
  labels := ["kind", "outcome"]

def escapeLabel (s : String) : String :=
  String.ofList <| s.toList.flatMap fun c =>
    if c = '\\' then ['\\', '\\']
    else if c = '\n' then ['\\', 'n']
    else if c = '"' then ['\\', '"']
    else [c]

def labelText (name value : String) : String := name ++ "=\"" ++ escapeLabel value ++ "\""

def Family.labelled (family : Family) (values : List String) : List (String × String) :=
  (family.labels.zip values).mergeSort fun a b => atMost a.1 b.1

def sampleName (family : Family) (ending : String) (values : List String)
    (extra : List (String × String)) : String :=
  family.name ++ ending ++ "\x7b"
    ++ ",".intercalate ((family.labelled values ++ extra).map fun l => labelText l.1 l.2)
    ++ "\x7d"

def sampleLine (name value : String) : String := name ++ " " ++ value ++ "\n"

def counterLines (family : Family) (sample : List String × Nat) : String :=
  sampleLine (sampleName family "" sample.1 []) (toString sample.2)

def bucketLine (family : Family) (values : List String) (bound : String) (n : Nat) : String :=
  sampleLine (sampleName family "_bucket" values [("le", bound)]) (toString n)

def histogramLines (family : Family) (sample : List String × Histogram) : String :=
  String.join (List.zipWith (fun b n => bucketLine family sample.1 (numberText b) n)
      bounds sample.2.within)
    ++ bucketLine family sample.1 "+Inf" sample.2.count
    ++ sampleLine (sampleName family "_sum" sample.1 []) (numberText sample.2.sum)
    ++ sampleLine (sampleName family "_count" sample.1 []) (toString sample.2.count)

def labelsAtMost : List (String × String) → List (String × String) → Bool
  | [], _ => true
  | _ :: _, [] => false
  | a :: as, b :: bs => if a.2 = b.2 then labelsAtMost as bs else atMost a.2 b.2

def familyText {α : Type} (family : Family) (samples : Samples α)
    (write : List String × α → String) : String :=
  if samples.isEmpty then ""
  else
    "# HELP " ++ family.name ++ " " ++ family.help ++ "\n"
      ++ "# TYPE " ++ family.name ++ " " ++ family.shape.label ++ "\n"
      ++ String.join ((samples.mergeSort fun a b =>
          labelsAtMost (family.labelled a.1) (family.labelled b.1)).map write)

def Registry.text (r : Registry) : String :=
  familyText durationFamily r.durations (histogramLines durationFamily)
    ++ familyText requestFamily r.requests (counterLines requestFamily)
    ++ familyText lookupFamily r.lookups (counterLines lookupFamily)
    ++ familyText getOrCreateFamily r.getOrCreates (counterLines getOrCreateFamily)

def Registry.counts (r : Registry) : List (String × Nat) :=
  r.durations.map (fun s => (sampleName durationFamily "_count" s.1 [], s.2.count))
    ++ r.requests.map (fun s => (sampleName requestFamily "" s.1 [], s.2))
    ++ r.lookups.map (fun s => (sampleName lookupFamily "" s.1 [], s.2))
    ++ r.getOrCreates.map (fun s => (sampleName getOrCreateFamily "" s.1 [], s.2))

end ComplianceIntake.Metrics
