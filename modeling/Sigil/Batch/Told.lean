import Sigil.Batch
import Sigil.Doc.Json.Read

/-! # What a line of a batch tells

    The other side of the output of a batch: a line is read as JSON, and
    what it tells is looked up under the names of its fields.  Names and
    quoted texts are both texts there, so that the values of arguments come
    back as texts.

    Key definitions: `Expr.ofDoc?`, `Batch.Told`, `Batch.told?`. -/

namespace Sigil

/-! ### Parts of documents -/

namespace Doc

/-- The document under a name. -/
def field? (d : Doc) (name : String) : Option Doc :=
  match d with
  | .record fields => fields.lookup name
  | _ => none

/-- The text under a name. -/
def textAt? (d : Doc) (name : String) : Option String :=
  match d.field? name with
  | some (.text content) => some content
  | _ => none

/-- The number under a name. -/
def numberAt? (d : Doc) (name : String) : Option Nat :=
  match d.field? name with
  | some (.number n) => some n
  | _ => none

theorem sizeOf_lt_of_lookup {name : String} {fields : List (String × Doc)} {e : Doc}
    (h : fields.lookup name = some e) : sizeOf e < sizeOf fields := by
  induction fields with
  | nil => cases h
  | cons f fields ih =>
    rw [List.lookup_cons] at h
    split at h
    · cases h
      simp only [List.cons.sizeOf_spec]
      have hpair : sizeOf f.2 < sizeOf f := by
        cases f
        simp only [Prod.mk.sizeOf_spec]
        omega
      omega
    · have hrest := ih h
      simp only [List.cons.sizeOf_spec]
      omega

theorem sizeOf_lt_of_field? {d e : Doc} {name : String} (h : d.field? name = some e) :
    sizeOf e < sizeOf d := by
  cases d with
  | record fields =>
    have hlt := sizeOf_lt_of_lookup h
    simp only [record.sizeOf_spec]
    omega
  | text | number | list => cases h

end Doc

/-! ### Expressions from documents -/

namespace Value

mutual

/-- The value that a document stands for, every text a quoted one. -/
def ofDoc? : Doc → Option Value
  | .text content => some (.text content)
  | .list ds => (ofDocs? ds).map .list
  | .number _ | .record _ => none

/-- The values that several documents stand for. -/
def ofDocs? : List Doc → Option (List Value)
  | [] => some []
  | d :: ds => do
    let v ← ofDoc? d
    let vs ← ofDocs? ds
    pure (v :: vs)

end

end Value

namespace Arguments

/-- The entries that the fields of a record stand for. -/
def entriesOf? : List (String × Doc) → Option (List (String × Value))
  | [] => some []
  | (key, d) :: fields => do
    let v ← Value.ofDoc? d
    let entries ← entriesOf? fields
    pure ((key, v) :: entries)

/-- The arguments that a record stands for. -/
def ofDoc? : Doc → Option Arguments
  | .record fields => (entriesOf? fields).map .ofList
  | _ => none

end Arguments

/-- The connective whose sign is the whole text. -/
def Connective.ofText? (text : String) : Option Connective :=
  all.find? fun c => c.text == text

namespace Expr

/-- The expression that a record stands for.  Which fields it has depends on the form
that it names. -/
def ofDoc? (d : Doc) : Option Expr :=
  match d.textAt? "type" with
  | some "symbol_call" => do
    let s ← (d.textAt? "symbol").bind Symbol.parse?
    let as ← (d.field? "parameters").bind Arguments.ofDoc?
    pure (.call s as)
  | some "operation" =>
    match _hl : d.field? "left", _hr : d.field? "right" with
    | some l, some r => do
      let c ← (d.textAt? "operator").bind Connective.ofText?
      let x ← ofDoc? l
      let y ← ofDoc? r
      pure (.binary c x y)
    | _, _ => none
  | some "unary_operation" =>
    match _hx : d.field? "operand" with
    | some e => do
      let c ← (d.textAt? "operator").bind Connective.ofText?
      let x ← ofDoc? e
      pure (.unary c x)
    | none => none
  | _ => none
termination_by d
decreasing_by all_goals exact Doc.sizeOf_lt_of_field? ‹_›

end Expr

/-! ### Lines -/

/-- The kind of failure with a given name. -/
def Kind.ofName? (name : String) : Option Kind :=
  [.fault .lexical, .fault .grammatical, .fault .semantic, .input, .output].find? fun k =>
    k.name == name

/-- What a line tells of an entry: that it was read, and as what, or how it failed. -/
inductive Batch.Told where
  | success (entry : Batch.Entry) (tree : Expr) (trace : String)
  | failure (entry : Batch.Entry) (kind : Kind) (message : String)
  deriving DecidableEq

namespace Batch

/-- What a line tells, if it is a record. -/
def told? (line : String) : Option Told := do
  let d ← Doc.Json.read? line.toList
  let number ← d.numberAt? "line"
  let text ← d.textAt? "expression"
  match d.textAt? "status" with
  | some "success" => do
    let tree ← (d.field? "parsed_result").bind Expr.ofDoc?
    let trace ← d.textAt? "executed_result"
    pure (.success ⟨number, text⟩ tree trace)
  | some "error" => do
    let kind ← (d.textAt? "error_kind").bind Kind.ofName?
    let message ← d.textAt? "message"
    pure (.failure ⟨number, text⟩ kind message)
  | _ => none

end Batch

end Sigil
