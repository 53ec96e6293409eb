import Sigil.Doc
import Sigil.Expr

/-! # Expressions as documents

    An expression as a record, with the name of its form first.  Quoted
    texts and names are both texts here; the arguments of a symbol are a
    record of their own, empty when there are none. -/

namespace Sigil

namespace Value

mutual

/-- A value as a document. -/
def toDoc : Value → Doc
  | .text s | .name s => .text s
  | .list items => .list (toDocs items)

/-- Several values as documents. -/
def toDocs : List Value → List Doc
  | [] => []
  | v :: vs => toDoc v :: toDocs vs

end

end Value

namespace Arguments

/-- Arguments as the fields of a record, in order. -/
def toFields (as : Arguments) : List (String × Doc) :=
  as.entries.map fun e => (e.1, e.2.toDoc)

/-- Arguments as a record. -/
def toDoc (as : Arguments) : Doc :=
  .record as.toFields

end Arguments

namespace Expr

/-- The fields of an expression's record. -/
def toFields : Expr → List (String × Doc)
  | x@(.call s as) =>
    [("type", .text x.form), ("symbol", .text s.text), ("parameters", as.toDoc)]
  | x@(.binary c l r) =>
    [("type", .text x.form), ("operator", .text c.text),
      ("left", .record l.toFields), ("right", .record r.toFields)]
  | x@(.unary c y) =>
    [("type", .text x.form), ("operator", .text c.text), ("operand", .record y.toFields)]

/-- An expression as a record. -/
def toDoc (x : Expr) : Doc :=
  .record x.toFields

end Expr

end Sigil
