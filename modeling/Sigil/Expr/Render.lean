import Sigil.Doc.Json
import Sigil.Doc.Yaml
import Sigil.Expr.Document

/-! # Renderings

    An expression written out as data: as JSON on one line or over several,
    or as YAML, which has one layout only. -/

namespace Sigil

/-- The format of a rendering. -/
inductive Format where
  | json
  | yaml
  deriving DecidableEq, Repr

namespace Expr

/-- An expression in a format; `compact` puts JSON on one line. -/
def render (x : Expr) (format : Format) (compact : Bool) : String :=
  match format with
  | .json => if compact then Doc.Json.compact x.toDoc else Doc.Json.pretty 0 x.toDoc
  | .yaml => Doc.Yaml.document x.toFields

end Expr

end Sigil
