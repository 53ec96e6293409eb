import Sigil.Grammar.Descent.Read
import Sigil.Proofs.Spelling

/-! # Words by descent

    The rules about single tokens take what the cutting of a text into
    tokens takes: where a lexeme of the rule is scanned, the rule takes its
    characters (`Descent.takes_of_scan`), and where none is the rule fails
    (`Descent.takes_of_noScan`).  So the characters of a text mean the same
    to both.

    Within a token blanks are not passed over and nothing is booked.  What
    such a pattern does is told by the characters alone (`Takes`). -/

namespace Sigil.Descent

open Text Lexeme

/-! ### Characters side by side -/

/-- What is found within a token when the characters `rest` are left. -/
def Finding.within (b : Book) : (rest : Option (List Char)) → Finding
  | some rest => .found [] (.before rest) b
  | none => .failed b

/-- Looked for within a token, before the characters `cs`, the pattern takes those before
`result`, or else it fails. -/
def Takes (p : Pattern) (cs : List Char) (result : Option (List Char)) : Prop :=
  ∀ length call b, p.read length call .atomic (.before cs) b = .within b result

theorem Takes.read {p : Pattern} {place : Place} {result : Option (List Char)}
    (h : Takes p place.chars result) (length : Nat) (call : Mode → Rule → Place → Book → Finding)
    (b : Book) : p.read length call .atomic place b = .within b result := by
  obtain ⟨cs, left, rfl⟩ := place
  exact h length call b

/-- The pattern takes one character of a class. -/
structure TakesOne (p : Pattern) (isIn : Char → Bool) : Prop where
  nil : Takes p [] none
  fits : ∀ c cs, isIn c = true → Takes p (c :: cs) (some cs)
  differs : ∀ c cs, isIn c = false → Takes p (c :: cs) none

section Takes

variable {p q : Pattern} {cs ds : List Char} {result : Option (List Char)} {isIn : Char → Bool}

theorem takesOne_one (isIn : Char → Bool) : TakesOne (.one isIn) isIn where
  nil := fun _ _ _ => rfl
  fits c cs hc := by
    intro length call b
    rw [Pattern.read, Place.next?_cons]
    exact if_pos hc
  differs c cs hc := by
    intro length call b
    rw [Pattern.read, Place.next?_cons]
    exact if_neg (Bool.eq_false_iff.1 hc)

theorem takes_char (c : Char) (cs : List Char) : Takes (.char c) (c :: cs) (some cs) :=
  (takesOne_one _).fits c cs (beq_self_eq_true c)

theorem takes_noChar {c : Char} (h : cs.head? ≠ some c) : Takes (.char c) cs none := by
  cases cs with
  | nil => exact (takesOne_one _).nil
  | cons d cs =>
    refine (takesOne_one _).differs d cs (beq_false_of_ne ?_)
    rintro rfl
    exact h rfl

theorem Takes.seq (first : Takes p cs (some ds)) (second : Takes q ds result) :
    Takes (.seq p q) cs result := by
  intro length call b
  show (p.read length call .atomic (.before cs) b).andThen _ = _
  rw [first]
  exact (Finding.prepend_nil _).trans (second length call b)

theorem Takes.noSeq (first : Takes p cs none) : Takes (.seq p q) cs none := by
  intro length call b
  show (p.read length call .atomic (.before cs) b).andThen _ = _
  rw [first]
  rfl

theorem Takes.choice (first : Takes p cs (some ds)) : Takes (.choice p q) cs (some ds) := by
  intro length call b
  show (p.read length call .atomic (.before cs) b).orElse _ = _
  rw [first]
  rfl

theorem Takes.otherwise (first : Takes p cs none) (second : Takes q cs result) :
    Takes (.choice p q) cs result := by
  intro length call b
  show (p.read length call .atomic (.before cs) b).orElse _ = _
  rw [first]
  exact second length call b

theorem Takes.optional (body : Takes p cs (some ds)) : Takes (.optional p) cs (some ds) := by
  intro length call b
  show (p.read length call .atomic (.before cs) b).orElse _ = _
  rw [body]
  rfl

theorem Takes.absent (body : Takes p cs none) : Takes (.optional p) cs (some cs) := by
  intro length call b
  show (p.read length call .atomic (.before cs) b).orElse _ = _
  rw [body]
  rfl

theorem Takes.without (body : Takes p cs none) : Takes (.without p) cs (some cs) := by
  intro length call b
  rw [Pattern.read, body]
  rfl

theorem Takes.noWithout (body : Takes p cs (some ds)) : Takes (.without p) cs none := by
  intro length call b
  rw [Pattern.read, body]
  rfl

theorem TakesOne.many (h : TakesOne p isIn) (cs : List Char) :
    Takes (.many p) cs (some (cs.dropWhile isIn)) := by
  intro length call b
  rw [Pattern.read]
  -- along the characters, one for each round
  induction cs with
  | nil =>
    rw [rounds, h.nil]
    rfl
  | cons c cs ih =>
    cases hc : isIn c with
    | false =>
      rw [rounds, h.differs c cs hc, List.dropWhile_cons_of_neg (Bool.eq_false_iff.1 hc)]
      rfl
    | true =>
      have hshorter : width cs < width (c :: cs) := by
        have hpos := c.utf8Size_pos
        rw [width_cons]
        omega
      rw [rounds, h.fits c cs hc, List.dropWhile_cons_of_pos hc]
      show (if width cs < width (c :: cs) then
        (rounds .atomic (p.read length call .atomic) (.before cs) (.before cs) b).prepend []
        else .gaveUp b) = _
      rw [if_pos hshorter, ih]
      rfl

/-- A place for a character takes it, if it is of the class. -/
theorem TakesOne.optional (h : TakesOne p isIn) (cs : List Char) :
    Takes (.optional p) cs (some (cs.drop ((cs.take 1).takeWhile isIn).length)) := by
  cases cs with
  | nil => exact h.nil.absent
  | cons c cs =>
    cases hc : isIn c with
    | false =>
      simp only [List.take_succ_cons, List.take_zero, List.takeWhile_cons, hc]
      exact (h.differs c cs hc).absent
    | true =>
      simp only [List.take_succ_cons, List.take_zero, List.takeWhile_cons, hc]
      exact (h.fits c cs hc).optional

end Takes

/-! ### Symbols -/

/-- Two places for a character take what there is of the class among the next two. -/
theorem drop_takeWhile_two (isIn : Char → Bool) (cs : List Char) :
    (cs.drop ((cs.take 1).takeWhile isIn).length).drop
        (((cs.drop ((cs.take 1).takeWhile isIn).length).take 1).takeWhile isIn).length
      = cs.drop ((cs.take 2).takeWhile isIn).length := by
  cases cs with
  | nil => rfl
  | cons c cs =>
    cases hc : isIn c with
    | false => simp [hc]
    | true =>
      cases cs with
      | nil => simp [hc]
      | cons d cs => cases hd : isIn d <;> simp [hc, hd]

theorem length_takeWhile_variant (cs : List Char) :
    ((cs.take 1).takeWhile Symbol.isVariant).length = (Symbol.variantAt cs).toList.length := by
  cases cs with
  | nil => rfl
  | cons c cs => cases hc : Symbol.isVariant c <;> simp [Symbol.variantAt, Option.filter, hc]

theorem takes_symbol (cs : List Char) : Takes .symbol cs ((Symbol.scan cs).map Prod.snd) := by
  have hdigit := takesOne_one Char.isDigit
  cases cs with
  | nil => exact (takesOne_one Symbol.isLead).nil.noSeq
  | cons c cs =>
    cases hc : Symbol.isLead c with
    | false =>
      rw [Symbol.scan_eq_none hc]
      exact ((takesOne_one Symbol.isLead).differs c cs hc).noSeq
    | true =>
      have hcapital := takesOne_one Symbol.isCapital
      have hsecond := hcapital.optional (cs.drop ((cs.take 1).takeWhile Symbol.isCapital).length)
      rw [drop_takeWhile_two] at hsecond
      rw [Symbol.scan, dif_pos hc]
      refine ((takesOne_one Symbol.isLead).fits c cs hc).seq ((hcapital.optional cs).seq
        (hsecond.seq ?_))
      -- behind the capitals there has to be a digit
      simp only
      generalize cs.drop ((cs.take 2).takeWhile Symbol.isCapital).length = ds
      cases ds with
      | nil => exact hdigit.nil.noSeq
      | cons d ds =>
        cases hd : d.isDigit with
        | false =>
          simp only [List.takeWhile_cons, hd]
          exact (hdigit.differs d ds hd).noSeq
        | true =>
          have hvariant := (takesOne_one Symbol.isVariant).optional (ds.dropWhile Char.isDigit)
          rw [length_takeWhile_variant] at hvariant
          simp only [List.takeWhile_cons, List.dropWhile_cons, hd]
          exact (hdigit.fits d ds hd).seq ((hdigit.many ds).seq (by simpa using hvariant))

/-! ### Identifiers and quoted texts -/

theorem takesOne_namePart :
    TakesOne (.choice (.one Char.isAlphanum) (.char '_')) isNamePart := by
  have hletter := takesOne_one Char.isAlphanum
  have hunderscore := takesOne_one (· == '_')
  constructor
  · exact hletter.nil.otherwise hunderscore.nil
  · intro c cs hc
    cases hc' : c.isAlphanum with
    | true => exact (hletter.fits c cs hc').choice
    | false =>
      rw [isNamePart, hc', Bool.false_or] at hc
      exact (hletter.differs c cs hc').otherwise (hunderscore.fits c cs hc)
  · intro c cs hc
    rw [isNamePart, Bool.or_eq_false_iff] at hc
    exact (hletter.differs c cs hc.1).otherwise (hunderscore.differs c cs hc.2)

theorem takes_identifier {c : Char} (cs : List Char) (hc : c.isAlpha = true) :
    Takes .identifier (c :: cs) (some (cs.dropWhile isNamePart)) :=
  ((takesOne_one Char.isAlpha).fits c cs hc).seq (takesOne_namePart.many cs)

theorem takes_noIdentifier {cs : List Char} (h : ∀ c ∈ cs.head?, c.isAlpha = false) :
    Takes .identifier cs none := by
  cases cs with
  | nil => exact (takesOne_one Char.isAlpha).nil.noSeq
  | cons c cs => exact ((takesOne_one Char.isAlpha).differs c cs (h c rfl)).noSeq

/-- A character within quotes is one that is not the quote. -/
theorem takesOne_unquoted (q : Quote) :
    TakesOne (.seq (.without (.char q.char)) .any) (· != q.char) := by
  have hquote := takesOne_one (· == q.char)
  have hany := takesOne_one fun _ => true
  constructor
  · exact hquote.nil.without.seq hany.nil
  · intro c cs hc
    exact (hquote.differs c cs (Bool.not_eq_true' _ ▸ hc)).without.seq (hany.fits c cs rfl)
  · intro c cs hc
    exact (hquote.fits c cs (Bool.not_eq_false' _ ▸ hc)).noWithout.noSeq

theorem takes_quoted (q : Quote) (cs : List Char) :
    Takes (.quoted q) (q.char :: cs) ((scanLiteral q cs).map Prod.snd) := by
  refine (takes_char q.char cs).seq (((takesOne_unquoted q).many cs).seq ?_)
  have hstop := head?_dropWhile (p := (· != q.char)) cs
  rw [scanLiteral]
  generalize cs.dropWhile (· != q.char) = ds at hstop
  cases ds with
  | nil => exact (takesOne_one _).nil
  | cons d ds =>
    -- only the quote ends what is within
    have hd : d = q.char := by simpa using hstop d rfl
    rw [hd]
    exact takes_char q.char ds

theorem takes_noQuoted {q : Quote} {cs : List Char} (h : cs.head? ≠ some q.char) :
    Takes (.quoted q) cs none :=
  (takes_noChar h).noSeq

/-! ### Rules about single tokens -/

section Leaves

variable {r : Rule} {l : Lexeme} {cs rest : List Char} {length : Nat}
  {call : Mode → Rule → Place → Book → Finding} {mode : Mode} {b : Book}

/-- The pattern of a rule about single tokens, looked for in the mode of the rule, is looked
for as within a token. -/
theorem read_eq_atomic (hbody : r.body = .lexeme r) (p : Place) :
    r.pattern.read length call (mode.inside r) p b = r.pattern.read length call .atomic p b := by
  cases r with
  | symbol | identifier | literal | connective | mark => rfl
  | _ => cases hbody

/-- Where a lexeme of the rule is scanned, the rule takes its characters. -/
theorem takes_of_scan (hscan : scan cs = some (l, rest)) (hfits : r.fits l = true) :
    Takes r.pattern cs (some rest) := by
  obtain ⟨happ, hvalid, hstops⟩ := scan_eq_some_iff.1 hscan
  subst happ
  -- only a rule of the same kind fits a lexeme
  cases l with
  | symbol s =>
    cases r with
    | symbol =>
      have htakes := takes_symbol (s.chars ++ rest)
      rw [Symbol.scan_chars_append hstops] at htakes
      exact htakes
    | _ => cases hfits
  | identifier name =>
    cases r with
    | identifier =>
      obtain ⟨c, ds, hname, halpha, hall⟩ := exists_cons_of_isName hvalid
      have htakes := takes_identifier (ds ++ rest) halpha
      rw [dropWhile_append_of_stop hall hstops] at htakes
      rwa [chars, hname]
    | _ => cases hfits
  | literal q content =>
    cases r with
    | literal =>
      have htakes := takes_quoted q (content.toList ++ q.char :: rest)
      rw [scanLiteral_chars_append hvalid] at htakes
      have happ : (Lexeme.literal q content).chars ++ rest
          = q.char :: (content.toList ++ q.char :: rest) := by
        simp [chars]
      rw [happ]
      -- single quotes are tried first
      cases q with
      | single => exact htakes.choice
      | double => exact (takes_noQuoted (by simp [Quote.char])).otherwise htakes
    | _ => cases hfits
  | connective c =>
    cases r with
    | connective d =>
      obtain rfl : d = c := eq_of_beq hfits
      exact takes_char d.glyph rest
    | _ => cases hfits
  | mark m =>
    cases r with
    | mark n =>
      obtain rfl : n = m := eq_of_beq hfits
      exact takes_char n.glyph rest
    | _ => cases hfits

/-- Where no quoted text is scanned, there is none in the quotes. -/
theorem takes_noLiteral (q : Quote)
    (hnone : ∀ l rest, scan cs = some (l, rest) → Rule.fits .literal l = false) :
    Takes (.quoted q) cs none := by
  by_cases hhead : cs.head? = some q.char
  · obtain ⟨ds, rfl⟩ := List.head?_eq_some_iff.1 hhead
    have htakes := takes_quoted q ds
    cases hscan : scanLiteral q ds with
    | none => rwa [hscan] at htakes
    | some found =>
      obtain ⟨l, rest⟩ := found
      have hliteral := hnone l rest (by rw [scan_quote, hscan])
      unfold scanLiteral at hscan
      split at hscan
      · cases hscan
      · cases hscan
        cases hliteral
  · exact takes_noQuoted hhead

/-- Where none is scanned, the rule fails. -/
theorem takes_of_noScan (hbody : r.body = .lexeme r)
    (hnone : ∀ l rest, scan cs = some (l, rest) → r.fits l = false) : Takes r.pattern cs none := by
  -- what the rule took would be scanned
  cases r with
  | symbol =>
    cases hscan : Symbol.scan cs with
    | none =>
      have htakes := takes_symbol cs
      rwa [hscan] at htakes
    | some found => cases hnone _ _ (scan_of_symbol hscan)
  | identifier =>
    refine takes_noIdentifier fun c hc => ?_
    obtain ⟨ds, rfl⟩ := List.head?_eq_some_iff.1 hc
    rw [Bool.eq_false_iff]
    intro halpha
    cases hnone _ _ (scan_of_isAlpha halpha)
  | literal => exact (takes_noLiteral .single hnone).otherwise (takes_noLiteral .double hnone)
  | connective c =>
    refine takes_noChar fun hhead => ?_
    obtain ⟨ds, rfl⟩ := List.head?_eq_some_iff.1 hhead
    have hdiffers := hnone _ _ (scan_connective c ds)
    rw [Rule.fits, beq_self_eq_true] at hdiffers
    cases hdiffers
  | mark m =>
    refine takes_noChar fun hhead => ?_
    obtain ⟨ds, rfl⟩ := List.head?_eq_some_iff.1 hhead
    have hdiffers := hnone _ _ (scan_mark m ds)
    rw [Rule.fits, beq_self_eq_true] at hdiffers
    cases hdiffers
  | _ => cases hbody

theorem spaced_ne_atomic : Mode.spaced ≠ .atomic := nofun

/-- The rule then has a tree that holds the lexeme. -/
theorem read_leaf {depth : Nat} {p : Place} (hmode : mode ≠ .atomic) (hbody : r.body = .lexeme r)
    (hscan : scan p.chars = some (l, rest)) (hfits : r.fits l = true) :
    Rule.read length (depth + 1) mode r p b
      = .found [.leaf r l ⟨length - p.left, length - width rest⟩] (.before rest) b := by
  have hchars := scan_append hscan
  have hleft : p.left - width rest = width l.chars := by
    rw [p.left_eq, hchars, width_append, Nat.add_sub_cancel]
  -- what lies between the two places is the lexeme
  have htext : String.ofList ((before? (p.left - width rest) p.chars).getD []) = l.text := by
    rw [hleft, hchars, before?_width]
    rfl
  rw [Rule.read, read_eq_atomic hbody, (takes_of_scan hscan hfits).read, Finding.within,
    Finding.ofRule, if_neg hmode, Tree.over, Place.left_before, htext]
  rfl

/-- Where none is scanned, the rule is booked. -/
theorem read_noLeaf {depth : Nat} {p : Place} (hmode : mode ≠ .atomic) (hbody : r.body = .lexeme r)
    (hnone : ∀ l rest, scan p.chars = some (l, rest) → r.fits l = false) :
    Rule.read length (depth + 1) mode r p b = .failed (Book.note r p.left b b) := by
  rw [Rule.read, read_eq_atomic hbody, (takes_of_noScan hbody hnone).read, Finding.within,
    Finding.ofRule, if_neg hmode]

end Leaves

end Sigil.Descent
