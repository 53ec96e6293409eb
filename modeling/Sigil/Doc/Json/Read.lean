import Sigil.Doc.Json.Grammar

/-! # Reading JSON

    A JSON text is read character by character.  A `Reader` holds the lists
    and records that are open and the place within the innermost of them;
    every character moves it on or does not fit.

    Key definitions: `Reader.step`, `read?`. -/

namespace Sigil.Doc.Json

/-! ### Places -/

/-- A list or record that is open, with what is read of it, the latest first. -/
inductive Frame where
  | list (items : List Doc)
  /-- The document of the field `key` has to come. -/
  | record (fields : List (String × Doc)) (key : String)

/-- What a text in quotes is read for. -/
inductive Role where
  | value
  /-- The name of the field after `fields`. -/
  | key (fields : List (String × Doc))

/-- How far an escape is read. -/
inductive Escape where
  | none
  | opened
  | code (digits : List Char)

/-- The place in a JSON text. -/
inductive Place where
  /-- A document has to begin. -/
  | element
  /-- Behind the opening of a list. -/
  | opened
  /-- The name of a field has to begin; `closable` says that the record may also end. -/
  | field (fields : List (String × Doc)) (closable : Bool)
  /-- Within quotes, behind the characters that `done` holds in reverse. -/
  | quoted (role : Role) (done : List Char) (escape : Escape)
  /-- Behind the name of a field. -/
  | named (fields : List (String × Doc)) (key : String)
  /-- Behind digits. -/
  | numeral (n : Nat)
  /-- Behind a document. -/
  | behind (d : Doc)

/-- The place behind a text in quotes. -/
def Role.close (s : String) : Role → Place
  | .value => .behind (.text s)
  | .key fields => .named fields s

/-- What is open, the innermost first, and the place in it. -/
structure Reader where
  frames : List Frame
  place : Place

namespace Reader

/-! ### Steps -/

/-- Nothing is read. -/
def start : Reader :=
  ⟨[], .element⟩

/-- The place where a document begins with `c`. -/
def begin? (c : Char) : Option Place :=
  if c = '"' then some (.quoted .value [] .none)
  else if c = '[' then some .opened
  else if c = '{' then some (.field [] true)
  else if c.isDigit then some (.numeral (c.toNat - '0'.toNat))
  else none

/-- The reader behind the document `d` and the character `c`. -/
def after (frames : List Frame) (d : Doc) (c : Char) : Option Reader :=
  if isBlank c then some ⟨frames, .behind d⟩
  else
    match frames, c with
    | .list items :: frames, ',' => some ⟨.list (d :: items) :: frames, .element⟩
    | .list items :: frames, ']' => some ⟨frames, .behind (.list (d :: items).reverse)⟩
    | .record fields key :: frames, ',' => some ⟨frames, .field ((key, d) :: fields) false⟩
    | .record fields key :: frames, '}' =>
      some ⟨frames, .behind (.record ((key, d) :: fields).reverse)⟩
    | _, _ => none

/-- The place behind the character `c` within quotes. -/
def quotedStep (role : Role) (done : List Char) (c : Char) : Escape → Option Place
  | .none =>
    if c = '"' then some (role.close (String.ofList done.reverse))
    else if c = '\\' then some (.quoted role done .opened)
    else if isUnescaped c then some (.quoted role (c :: done) .none)
    else none
  | .opened =>
    if c = 'u' then some (.quoted role done (.code []))
    else (ofSign? c).map fun d => .quoted role (d :: done) .none
  | .code digits =>
    if digits.length < 3 then some (.quoted role done (.code (digits ++ [c])))
    else (ofCode? (digits ++ [c])).map fun d => .quoted role (d :: done) .none

/-- The reader after one more character, if the character fits. -/
def step (r : Reader) (c : Char) : Option Reader :=
  match r.place with
  | .element =>
    if isBlank c then some r else (begin? c).map fun place => ⟨r.frames, place⟩
  | .opened =>
    if isBlank c then some r
    else if c = ']' then some ⟨r.frames, .behind (.list [])⟩
    else (begin? c).map fun place => ⟨.list [] :: r.frames, place⟩
  | .field fields closable =>
    if isBlank c then some r
    else if c = '"' then some ⟨r.frames, .quoted (.key fields) [] .none⟩
    else if c = '}' && closable then some ⟨r.frames, .behind (.record [])⟩
    else none
  | .quoted role done escape =>
    (quotedStep role done c escape).map fun place => ⟨r.frames, place⟩
  | .named fields key =>
    if isBlank c then some r
    else if c = ':' then some ⟨.record fields key :: r.frames, .element⟩
    else none
  | .numeral n =>
    -- no digit may follow a leading zero
    if c.isDigit then
      if n = 0 then none
      else some ⟨r.frames, .numeral (10 * n + (c.toNat - '0'.toNat))⟩
    else after r.frames (.number n) c
  | .behind d => after r.frames d c

/-- The document that has been read, if the text may end here. -/
def finish? (r : Reader) : Option Doc :=
  match r.frames, r.place with
  | [], .behind d => some d
  | [], .numeral n => some (.number n)
  | _, _ => none

/-- The document that is read when the characters follow. -/
def result? (r : Reader) : List Char → Option Doc
  | [] => r.finish?
  | c :: cs => (r.step c).bind fun r' => r'.result? cs

end Reader

/-- The document that a JSON text stands for. -/
def read? (cs : List Char) : Option Doc :=
  Reader.start.result? cs

end Sigil.Doc.Json
