import ComplianceIntake.Digest.Sha1
import ComplianceIntake.Json.Reader

/-!
# Canonical text of a specification

A policy's specification is JSON text. Its canonical text leaves out the
blanks between lexemes and keeps every lexeme, the order of keys and the
spelling of numbers; its hash is the SHA-1 of that text. The hash tells equal
specifications from different ones, it guards nothing.
-/

set_option autoImplicit false

namespace ComplianceIntake.Spec

open ComplianceIntake.Text
open ComplianceIntake.Digest

/-- Where a walk over valid JSON text stands: a blank matters only inside a string. -/
inductive Place where
  | between
  | inString
  | afterBackslash
  deriving DecidableEq, Repr

def Place.next : Place → Char → Place
  | .between, c => if c = '"' then .inString else .between
  | .inString, c => if c = '\\' then .afterBackslash else if c = '"' then .between else .inString
  | .afterBackslash, _ => .inString

def isSpace (c : Char) : Bool := c = ' ' || c = '\t' || c = '\n' || c = '\r'

def Place.drops : Place → Char → Bool
  | .between, c => isSpace c
  | _, _ => false

/-- Appends a text without the blanks outside its strings to what is kept so far, last first. -/
def strip (kept : List Char) : Place → List Char → List Char
  | _, [] => kept.reverse
  | p, c :: cs => strip (if p.drops c then kept else c :: kept) (p.next c) cs

theorem strip_eq_append (kept : List Char) (p : Place) (cs : List Char) :
    strip kept p cs = kept.reverse ++ strip [] p cs := by
  induction cs generalizing kept p with
  | nil => simp [strip]
  | cons c cs ih =>
    rw [strip, strip, ih, ih (if p.drops c then [] else [c])]
    split <;> simp

structure Malformed where
  fault : Json.Fault
  deriving DecidableEq, Repr

def Malformed.message (m : Malformed) : String := "spec is not valid JSON: " ++ m.fault.message

def canonical (spec : String) : Except Malformed String :=
  match Json.read (Glyph.ofString spec) with
  | .error fault => .error ⟨fault⟩
  | .ok _ => .ok (String.ofList (strip [] .between spec.toList))

def hash (spec : String) : Except Malformed String :=
  (canonical spec).map fun text => sha1 (octets text)

def isLowerHex (c : Char) : Bool := ('0' ≤ c && c ≤ '9') || ('a' ≤ c && c ≤ 'f')

def isHash (s : String) : Bool := s.toList.length = 40 && s.toList.all isLowerHex

end ComplianceIntake.Spec
