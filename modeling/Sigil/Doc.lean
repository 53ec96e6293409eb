/-! # Documents

    The data that is written out as JSON or YAML: texts, numbers, lists,
    and records whose fields keep their order. -/

namespace Sigil

/-- A document. -/
inductive Doc where
  | text (content : String)
  | number (n : Nat)
  | list (items : List Doc)
  /-- Fields in the order in which they are written. -/
  | record (fields : List (String × Doc))

end Sigil
