import Sigil.Pattern.Brackets

/-! # Groups, alternatives and repetitions

    The form of a pattern is read from left to right with a stack.  A
    `Level` is a group that is open, or the whole pattern around all
    groups: the alternatives that are done, and the parts of the one being
    read.  A repetition takes the part before it.

    Key definition: `Form.read`. -/

namespace Sigil.Pattern

/-! ### Levels -/

/-- Alternatives being read. -/
structure Level where
  /-- Where the first alternative begins. -/
  start : Nat
  /-- The alternatives that are done, the latest first. -/
  done : List Form
  /-- Where the alternative being read begins. -/
  partStart : Nat
  /-- Its parts, the latest first. -/
  parts : List Form

namespace Level

/-- Alternatives of which nothing is read. -/
def fresh (start : Nat) : Level :=
  ⟨start, [], start, []⟩

/-- The level with one more part. -/
def push (l : Level) (x : Form) : Level :=
  { l with parts := x :: l.parts }

/-- The alternative being read, up to `stop`. -/
def alternative (l : Level) (stop : Nat) : Form :=
  match l.parts with
  | [] => .empty ⟨l.partStart, stop⟩
  | [x] => x
  | xs => .sequence xs.reverse ⟨l.partStart, stop⟩

/-- The level after a bar, with `stop` before it and `start` after it. -/
def next (l : Level) (stop start : Nat) : Level :=
  ⟨l.start, l.alternative stop :: l.done, start, []⟩

/-- All that is read, up to `stop`. -/
def form (l : Level) (stop : Nat) : Form :=
  match l.done with
  | [] => l.alternative stop
  | done => .alternatives (l.alternative stop :: done).reverse ⟨l.start, stop⟩

end Level

/-- A group that is open. -/
structure OpenGroup where
  /-- Its opening parenthesis. -/
  paren : Stretch
  /-- The settings that it changes; without them, it is remembered. -/
  changes : Option Changes
  /-- What is around it. -/
  outer : Level
  /-- Were gaps left out before it? -/
  spaced : Bool

/-- The reading of a form. -/
structure FormReading where
  spaced : Bool
  level : Level
  /-- The groups that are open, the innermost first. -/
  groups : List OpenGroup
  /-- The names of groups so far, and where they stand. -/
  names : List (String × Stretch)

namespace Layout

/-! ### Settings -/

/-- A setting in the text of a group, or, without one, the sign that turns off
the settings after it. -/
structure Mark where
  setting? : Option Setting
  place : Stretch

/-- The settings of a group, up to what follows them; `marks` are those read so
far, the latest first. -/
def marks (l : Layout) (soFar : List Mark) : List Char → Parsed (List Mark × List Char)
  | [] => l.refuseBefore .unfinishedFlags []
  | c :: cs =>
    let place := l.stretch (c :: cs) cs
    if c == ':' || c == ')' then
      match soFar with
      | ⟨none, sign⟩ :: _ => .error (.fault .danglingNegation sign none)
      | soFar => .ok (soFar.reverse, c :: cs)
    else
      let read (setting? : Option Setting) (f : Fault) : Parsed (List Mark × List Char) :=
        match soFar.find? fun m => m.setting? = setting? with
        | some earlier => .error (.fault f place (some earlier.place))
        | none => l.marks (⟨setting?, place⟩ :: soFar) cs
      if c == '-' then read none .repeatedNegation
      else
        match Setting.ofLetter? c with
        | some s => read (some s) .repeatedFlag
        | none => .error (.fault .unknownFlag place none)

/-- The changes that settings make: those after the sign are turned off. -/
def changesOf (marks : List Mark) : Changes :=
  let isSet (m : Mark) : Bool := m.setting?.isSome
  let on (value : Bool) (ms : List Mark) : Changes :=
    ms.filterMap fun m => m.setting?.map fun s => (s, value)
  on true (marks.takeWhile isSet) ++ on false (marks.dropWhile isSet)

/-! ### Names -/

/-- The letters beyond ASCII with which a name may be written: those of the
Latin, Greek and Cyrillic alphabets. -/
def letterRanges : List (Nat × Nat) :=
  [(0xAA, 0xAA), (0xB5, 0xB5), (0xBA, 0xBA), (0xC0, 0xD6), (0xD8, 0xF6), (0xF8, 0x2C1),
    (0x370, 0x374), (0x376, 0x377), (0x37A, 0x37D), (0x37F, 0x37F), (0x386, 0x386),
    (0x388, 0x38A), (0x38C, 0x38C), (0x38E, 0x3A1), (0x3A3, 0x3F5), (0x3F7, 0x481),
    (0x48A, 0x52F), (0x1E00, 0x1F15)]

/-- Can `c` begin the name of a group? -/
def isNameStart (c : Char) : Bool :=
  c.isAlpha || c == '_' || letterRanges.any fun r => r.1 ≤ c.toNat && c.toNat ≤ r.2

/-- Can `c` go on the name of a group? -/
def isNameChar (c : Char) : Bool :=
  isNameStart c || c.isDigit || c == '.' || c == '[' || c == ']'

/-- The name of a group, with what follows its closing bracket. -/
def groupName (l : Layout) (names : List (String × Stretch)) (cs : List Char) :
    Parsed ((String × Stretch) × List Char) :=
  match cs with
  | [] => l.refuseBefore .unfinishedName []
  | c :: _ =>
    if c == '>' then l.refuseBefore .emptyName cs
    else if !isNameStart c then l.refuseHead .badNameCharacter cs
    else
      let rest := cs.dropWhile isNameChar
      let name := String.ofList (cs.takeWhile isNameChar)
      let place := l.stretch cs rest
      match rest with
      | [] => l.refuseBefore .unfinishedName []
      | '>' :: rest =>
        match names.lookup name with
        | some earlier => .error (.fault .repeatedName place (some earlier))
        | none => .ok ((name, place), rest)
      | bad => l.refuseHead .badNameCharacter bad

/-! ### Repetitions -/

/-- A number, or why there is none, with what follows it and the blanks
around it. -/
def number (l : Layout) (cs : List Char) : Parsed Nat × List Char :=
  let start := cs.dropWhile Text.isBlank
  let (digits, rest) := l.collect Char.isDigit start
  let n := digits.foldl (fun n c => 10 * n + (c.toNat - '0'.toNat)) 0
  let value : Parsed Nat :=
    if digits.isEmpty then l.refuse .missingCount start rest
    else if n < 4294967296 then .ok n
    else l.refuse .numberTooLarge start rest
  (value, (l.collect Text.isBlank rest).2)

/-- What follows the mark for short repetitions, if it is there. -/
def afterShort : List Char → List Char
  | '?' :: rest => rest
  | cs => cs

/-- The counts in the braces at the head of `cs`: the least and the greatest
number of times, and what follows. -/
def counts (l : Layout) (cs : List Char) : Parsed (Nat × Option Nat × List Char) := do
  let unclosed {α : Type} (rest : List Char) : Parsed α := l.refuse .unclosedCount cs rest
  let inner := l.skip cs.tail
  if inner.isEmpty then unclosed []
  else
    let (first, rest) := l.number inner
    let (least, most, rest) ←
      match rest with
      | [] => unclosed []
      | ',' :: more =>
        match l.skip more with
        | [] => unclosed []
        | '}' :: more => do pure ((← first), none, '}' :: more)
        | second => do
          let least ← first
          let (last, rest) := l.number second
          pure (least, some (← last), rest)
      | rest => do
        let n ← first
        pure (n, some n, rest)
    match rest with
    | '}' :: after =>
      let rest := afterShort (l.skip after)
      if most.all (least ≤ ·) then pure (least, most, rest)
      else l.refuse .reversedCounts cs rest
    | rest => unclosed rest

end Layout

namespace FormReading

/-- The layout of a text of `length` characters at this point. -/
def layout (r : FormReading) (length : Nat) : Layout :=
  ⟨length, r.spaced⟩

/-- The reading with one more part. -/
def push (r : FormReading) (x : Form) : FormReading :=
  { r with level := r.level.push x }

/-- The part that a repetition at the head of `cs` takes, and the reading
without it. -/
def takeLast (r : FormReading) (length : Nat) (cs : List Char) : Parsed (Form × FormReading) :=
  match r.level.parts with
  | [] | .empty _ :: _ | .settings .. :: _ => (r.layout length).refuseBefore .nothingToRepeat cs
  | x :: rest => .ok (x, { r with level := { r.level with parts := rest } })

/-- Repeat the last part; `cs` begins with the repetition and `rest` follows it. -/
def repeatLast (r : FormReading) (length : Nat) (cs rest : List Char) (least : Nat)
    (most : Option Nat) : Parsed FormReading := do
  let (x, r) ← r.takeLast length cs
  pure (r.push (.repeated x least most ⟨x.place.start, (r.layout length).offset rest⟩))

/-- Open a group, or change settings, at the parenthesis at the head of `cs`. -/
def openGroup (r : FormReading) (length : Nat) (cs : List Char) :
    Parsed (FormReading × List Char) :=
  let l := r.layout length
  let paren := l.stretch cs cs.tail
  let inner := l.skip cs.tail
  let enter (changes : Option Changes) (names : List (String × Stretch)) (rest : List Char) :
      FormReading × List Char :=
    let spaced := (changes.getD []).get .spaced r.spaced
    (⟨spaced, .fresh (l.offset rest), ⟨paren, changes, r.level, r.spaced⟩ :: r.groups, names⟩,
      rest)
  let named (rest : List Char) : Parsed (FormReading × List Char) := do
    let (name, rest) ← l.groupName r.names rest
    pure (enter none (name :: r.names) rest)
  match inner with
  | '?' :: '=' :: rest | '?' :: '!' :: rest
  | '?' :: '<' :: '=' :: rest | '?' :: '<' :: '!' :: rest => l.refuse .lookAround cs rest
  | '?' :: 'P' :: '<' :: rest | '?' :: '<' :: rest => named rest
  | '?' :: [] => .error (.fault .unclosedGroup paren none)
  | '?' :: rest => do
    match ← l.marks [] rest with
    | (marks, ')' :: rest) =>
      let changes := Layout.changesOf marks
      if marks.isEmpty then l.refuseBefore .nothingToRepeat inner
      else
        let r := r.push (.settings changes ⟨paren.start, l.offset rest⟩)
        pure ({ r with spaced := changes.get .spaced r.spaced }, rest)
    | (marks, rest) => pure (enter (some (Layout.changesOf marks)) r.names rest.tail)
  | rest => .ok (enter none r.names rest)

/-- Close the innermost group at the parenthesis at the head of `cs`. -/
def closeGroup (r : FormReading) (length : Nat) (cs : List Char) : Parsed FormReading :=
  let l := r.layout length
  match r.groups with
  | [] => l.refuseHead .unopenedGroup cs
  | g :: groups =>
    let x := Form.group g.changes (r.level.form (l.offset cs)) ⟨g.paren.start, l.offset cs.tail⟩
    .ok ⟨g.spaced, g.outer.push x, groups, r.names⟩

/-- Read what stands at the head of `c :: cs`. -/
def step (r : FormReading) (length : Nat) (c : Char) (cs : List Char) :
    Parsed (FormReading × List Char) :=
  let l := r.layout length
  let here := c :: cs
  let place := l.stretch here cs
  let leaf (x : Form) : Parsed (FormReading × List Char) := .ok (r.push x, cs)
  let taken (part : Parsed (Form × List Char)) : Parsed (FormReading × List Char) := do
    let (x, rest) ← part
    pure (r.push x, rest)
  let times (least : Nat) (most : Option Nat) : Parsed (FormReading × List Char) := do
    let rest := Layout.afterShort cs
    pure (← r.repeatLast length here rest least most, rest)
  match c with
  | '(' => r.openGroup length here
  | ')' => do pure (← r.closeGroup length here, cs)
  | '|' =>
    .ok ({ r with level := r.level.next (l.offset here) (l.offset cs) }, cs)
  | '[' => taken (l.brackets here)
  | '?' => times 0 (some 1)
  | '*' => times 0 none
  | '+' => times 1 none
  | '{' => do
    let _ ← r.takeLast length here
    let (least, most, rest) ← l.counts here
    pure (← r.repeatLast length here rest least most, rest)
  | '\\' => taken (l.escape cs)
  | '.' => leaf (.dot place)
  | '^' => leaf (.look .start place)
  | '$' => leaf (.look .stop place)
  | c => leaf (.letter ⟨c, false, place⟩)

/-- The form that has been read when the text is at its end. -/
def finish (r : FormReading) (length : Nat) : Parsed Form :=
  match r.groups with
  | [] => .ok (r.level.form length)
  | g :: _ => .error (.fault .unclosedGroup g.paren none)

/-- Read on to the end of a text of `length` characters.  Every step takes a
character at least, so that as many steps as there are characters suffice. -/
def run (length : Nat) : (steps : Nat) → FormReading → List Char → Parsed Form
  | 0, r, _ => r.finish length
  | steps + 1, r, cs =>
    match (r.layout length).skip cs with
    | [] => r.finish length
    | c :: cs => do
      let (r, rest) ← r.step length c cs
      run length steps r rest

end FormReading

/-- The form that a text spells out, no deeper than patterns may nest. -/
def Form.read (text : String) : Parsed Form := do
  let cs := text.toList
  let x ← FormReading.run cs.length (cs.length + 1) ⟨false, .fresh 0, [], []⟩ cs
  match x.tooDeep? maxNesting with
  | some place => .error (.fault .tooDeep place none)
  | none => pure x

end Sigil.Pattern
