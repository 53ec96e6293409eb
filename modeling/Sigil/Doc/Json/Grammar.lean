import Sigil.Doc
import Sigil.Text.Numeral

/-! # What a JSON text is

    The grammar of JSON, as a relation between characters and the document
    that they stand for.  Blanks may surround every value and every name of
    a field, and stand in empty brackets; fields keep their order, and a
    name may come more than once (`Doc.DistinctNames` says that none does).

    Documents hold texts, natural numbers, lists and records, and the
    grammar is that of these: JSON has null, truth values and other numbers
    besides.  Of the ways to escape a character those are here that name it
    alone, not as one of a pair of codes.

    Key definitions: `IsValue`, `IsElement`. -/

namespace Sigil.Doc

/-- In no record does a name come twice. -/
inductive DistinctNames : Doc → Prop where
  | text (s : String) : DistinctNames (.text s)
  | number (n : Nat) : DistinctNames (.number n)
  | list {ds : List Doc} (items : ∀ d ∈ ds, DistinctNames d) : DistinctNames (.list ds)
  | record {fs : List (String × Doc)} (nodup : (fs.map Prod.fst).Nodup)
      (values : ∀ f ∈ fs, DistinctNames f.2) : DistinctNames (.record fs)

namespace Json

/-! ### Texts -/

/-- Can `c` stand for itself between quotes? -/
def isUnescaped (c : Char) : Bool :=
  0x20 ≤ c.toNat && c != '"' && c != '\\'

/-- The character that a sign after a backslash stands for. -/
def ofSign? : Char → Option Char
  | '"' => some '"'
  | '\\' => some '\\'
  | '/' => some '/'
  | 'b' => some '\x08'
  | 'f' => some '\x0c'
  | 'n' => some '\n'
  | 'r' => some '\r'
  | 't' => some '\t'
  | _ => none

/-- The character with a code in digits of base sixteen. -/
def ofCode? (digits : List Char) : Option Char :=
  (Text.numeral? 16 digits).bind fun n =>
    if n.isValidChar then some (Char.ofNat n) else none

/-- The characters, between quotes, stand for those in the second place. -/
inductive Denote : List Char → List Char → Prop where
  | nil : Denote [] []
  | plain {c : Char} {cs ds : List Char} (unescaped : isUnescaped c = true)
      (rest : Denote cs ds) : Denote (c :: cs) (c :: ds)
  | sign {sign c : Char} {cs ds : List Char} (meaning : ofSign? sign = some c)
      (rest : Denote cs ds) : Denote ('\\' :: sign :: cs) (c :: ds)
  | code {digits : List Char} {c : Char} {cs ds : List Char} (four : digits.length = 4)
      (meaning : ofCode? digits = some c) (rest : Denote cs ds) :
      Denote ('\\' :: 'u' :: (digits ++ cs)) (c :: ds)

/-- The characters are a text in quotes. -/
inductive IsText : List Char → String → Prop where
  | mk {cs : List Char} {s : String} (inner : Denote cs s.toList) :
      IsText ('"' :: (cs ++ ['"'])) s

/-! ### Values -/

/-- Can `c` stand between the parts of a JSON text? -/
def isBlank (c : Char) : Bool :=
  c == ' ' || c == '\t' || c == '\n' || c == '\r'

mutual

/-- The characters are the document in the second place. -/
inductive IsValue : List Char → Doc → Prop where
  | text {cs : List Char} {s : String} (text : IsText cs s) : IsValue cs (.text s)
  | number (n : Nat) : IsValue n.repr.toList (.number n)
  | noItems {gap : List Char} (blank : gap.all isBlank = true) :
      IsValue ('[' :: (gap ++ [']'])) (.list [])
  | list {cs : List Char} {ds : List Doc} (items : AreItems cs ds) :
      IsValue ('[' :: (cs ++ [']'])) (.list ds)
  | noFields {gap : List Char} (blank : gap.all isBlank = true) :
      IsValue ('{' :: (gap ++ ['}'])) (.record [])
  | record {cs : List Char} {fs : List (String × Doc)} (fields : AreFields cs fs) :
      IsValue ('{' :: (cs ++ ['}'])) (.record fs)

/-- The characters are a document with blanks around it. -/
inductive IsElement : List Char → Doc → Prop where
  | mk {before cs behind : List Char} {d : Doc} (blank : before.all isBlank = true)
      (value : IsValue cs d) (blank' : behind.all isBlank = true) :
      IsElement (before ++ (cs ++ behind)) d

/-- The characters are documents, at least one, with commas between them. -/
inductive AreItems : List Char → List Doc → Prop where
  | one {cs : List Char} {d : Doc} (element : IsElement cs d) : AreItems cs [d]
  | cons {cs cs' : List Char} {d : Doc} {ds : List Doc} (element : IsElement cs d)
      (rest : AreItems cs' ds) : AreItems (cs ++ ',' :: cs') (d :: ds)

/-- The characters are a field: its name, a colon, and its document. -/
inductive IsField : List Char → String × Doc → Prop where
  | mk {before name behind cs : List Char} {key : String} {d : Doc}
      (blank : before.all isBlank = true) (text : IsText name key)
      (blank' : behind.all isBlank = true) (element : IsElement cs d) :
      IsField (before ++ (name ++ (behind ++ ':' :: cs))) (key, d)

/-- The characters are fields, at least one, with commas between them. -/
inductive AreFields : List Char → List (String × Doc) → Prop where
  | one {cs : List Char} {f : String × Doc} (field : IsField cs f) : AreFields cs [f]
  | cons {cs cs' : List Char} {f : String × Doc} {fs : List (String × Doc)}
      (field : IsField cs f) (rest : AreFields cs' fs) :
      AreFields (cs ++ ',' :: cs') (f :: fs)

end

end Json

end Sigil.Doc
