/-! # Operation symbols

    A symbol such as `ΔΕ1` or `ΜΑΝ12β` has four parts: a leading letter
    out of thirteen, at most two further Greek capitals, a run of decimal
    digits, and possibly a small letter from `α` to `ε`.  A `Symbol`
    carries its parts together with the proof that they fit, so its text
    is always one that can be read back.

    Key definitions: `Symbol`, `Symbol.scan`, `Symbol.parse?`.
    Key theorem: `Symbol.scan_append` — scanning loses nothing. -/

namespace Sigil

namespace Symbol

/-! ### Letters -/

/-- The letters that can begin a symbol. -/
def leads : List Char :=
  ['Μ', 'Ι', 'Ε', 'Σ', 'Δ', 'Π', 'Ψ', 'Ω', 'Λ', 'Φ', 'Ρ', 'Κ', 'Ν']

/-- Can `c` begin a symbol? -/
def isLead (c : Char) : Bool :=
  leads.contains c

/-- Is `c` a Greek capital?  The code point between `Ρ` and `Σ` is
unassigned. -/
def isCapital (c : Char) : Bool :=
  ('Α' ≤ c && c ≤ 'Ρ') || ('Σ' ≤ c && c ≤ 'Ω')

/-- Can `c` end a symbol as the mark of a variant? -/
def isVariant (c : Char) : Bool :=
  'α' ≤ c && c ≤ 'ε'

end Symbol

/-! ### Symbols -/

/-- An operation symbol, by its parts. -/
structure Symbol where
  lead : Char
  /-- The capitals after the leading letter. -/
  capitals : List Char
  /-- The decimal index. -/
  index : List Char
  /-- The small letter at the end, if there is one. -/
  variant : Option Char
  lead_ok : Symbol.isLead lead = true
  capitals_ok : capitals.all Symbol.isCapital = true
  capitals_le : capitals.length ≤ 2
  index_ok : index.all Char.isDigit = true
  index_ne : index ≠ []
  variant_ok : variant.all Symbol.isVariant = true
  deriving DecidableEq

namespace Symbol

/-- The characters of a symbol. -/
def chars (s : Symbol) : List Char :=
  s.lead :: (s.capitals ++ s.index ++ s.variant.toList)

/-- The text of a symbol. -/
def text (s : Symbol) : String :=
  String.ofList s.chars

/-- The decimal index as text (`12` in `ΔΕ12β`): the text without what is no digit at
either end of it. -/
def digits (s : Symbol) : String :=
  let fromFirst := s.text.toList.dropWhile fun c => !c.isDigit
  String.ofList (fromFirst.reverse.dropWhile fun c => !c.isDigit).reverse

/-- The mark of the variant (`β` in `ΔΕ12β`): the last character, if it can be one. -/
def suffix? (s : Symbol) : Option Char :=
  s.text.toList.getLast?.filter isVariant

@[simp] theorem toList_text (s : Symbol) : s.text.toList = s.chars := by
  simp [text]

/-- Does `s` come before `t` or stand at its place?  Symbols are ordered
by their texts, code point by code point. -/
def precedes (s t : Symbol) : Bool :=
  decide (s.text ≤ t.text)

/-- The symbols in order; equal ones all stay. -/
def sorted (symbols : List Symbol) : List Symbol :=
  symbols.mergeSort precedes

/-! ### Reading -/

/-- The variant letter at the head of `cs`, if one is there. -/
def variantAt (cs : List Char) : Option Char :=
  cs.head?.filter isVariant

theorem variantAt_ok (cs : List Char) : (variantAt cs).all isVariant = true := by
  unfold variantAt
  cases cs.head? with
  | none => rfl
  | some c => cases h : isVariant c <;> simp [Option.filter, h]

/-- The longest symbol at the head of `cs`, with the characters after it.
Capitals are taken greedily, then digits, then a variant letter; there has
to be a digit. -/
def scan : List Char → Option (Symbol × List Char)
  | [] => none
  | lead :: rest =>
    if lead_ok : isLead lead = true then
      let capitals := (rest.take 2).takeWhile isCapital
      let afterCapitals := rest.drop capitals.length
      let index := afterCapitals.takeWhile Char.isDigit
      let afterIndex := afterCapitals.dropWhile Char.isDigit
      if index_ne : index ≠ [] then
        let variant := variantAt afterIndex
        some
          (⟨lead, capitals, index, variant, lead_ok, List.all_takeWhile,
            Nat.le_trans (List.takeWhile_prefix _).length_le (List.length_take_le _ _),
            List.all_takeWhile, index_ne, variantAt_ok afterIndex⟩,
           afterIndex.drop variant.toList.length)
      else none
    else none

/-- The symbol that a whole text is, if it is one. -/
def parse? (text : String) : Option Symbol :=
  match scan text.toList with
  | some (s, []) => some s
  | _ => none

/-! ### What scanning does -/

/-- A run cut off the front of a list, and the list after it. -/
theorem takeWhile_take_append_drop (p : Char → Bool) (n : Nat) (cs : List Char) :
    (cs.take n).takeWhile p ++ cs.drop ((cs.take n).takeWhile p).length = cs := by
  induction n generalizing cs with
  | zero => rfl
  | succ n ih =>
    cases cs with
    | nil => rfl
    | cons c cs =>
      rw [List.take_succ_cons, List.takeWhile_cons]
      split
      · simp [ih cs]
      · rfl

theorem variantAt_append_drop (cs : List Char) :
    (variantAt cs).toList ++ cs.drop (variantAt cs).toList.length = cs := by
  unfold variantAt
  cases cs with
  | nil => rfl
  | cons c cs => cases h : isVariant c <;> simp [Option.filter, h]

/-- Scanning splits its input: the symbol's characters, then the rest. -/
theorem scan_append {cs rest : List Char} {s : Symbol}
    (h : scan cs = some (s, rest)) : cs = s.chars ++ rest := by
  cases cs with
  | nil => simp [scan] at h
  | cons c cs =>
    rw [scan] at h
    split at h
    · simp only at h
      split at h
      · simp only [Option.some.injEq, Prod.mk.injEq] at h
        obtain ⟨rfl, rfl⟩ := h
        simp only [chars, List.cons_append, List.append_assoc, List.cons.injEq, true_and]
        rw [variantAt_append_drop, List.takeWhile_append_dropWhile,
          takeWhile_take_append_drop]
      · simp at h
    · simp at h

theorem chars_ne_nil (s : Symbol) : s.chars ≠ [] :=
  List.cons_ne_nil _ _

end Symbol

end Sigil
