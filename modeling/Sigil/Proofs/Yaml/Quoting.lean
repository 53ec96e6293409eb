import Mathlib.Data.List.Basic
import Mathlib.Tactic.SplitIfs
import Sigil.Doc.Yaml

/-! # Texts in quotes

    A text in quotes can be read off the characters that its quoted form
    begins.  In single quotes it ends at the first quote that does not come
    twice, and in double quotes no escape is the beginning of another.

    Lines inside single quotes are indented as those of a block are, and
    what holds of both is said of `indented`.

    * `indented_cancel`: indented text, up to where it stops.
    * `singleQuoted_cancel`, `doubleQuoted_cancel`: texts in quotes. -/

namespace Sigil.Doc.Yaml

/-! ### Indented text -/

/-- Is the place behind `cs` at the beginning of a line, when the place before them is if
`fresh` says so? -/
def atLineStart (fresh : Bool) (cs : List Char) : Bool :=
  (cs.getLast?.map isBreak).getD fresh

theorem atLineStart_cons (fresh : Bool) (c : Char) (cs : List Char) :
    atLineStart fresh (c :: cs) = atLineStart (isBreak c) cs := by
  unfold atLineStart
  rw [List.getLast?_cons]
  cases cs.getLast? <;> rfl

section Indented

variable {column : Nat} {write : Char → List Char} {fresh : Bool}

theorem indented_break {c : Char} (hc : isBreak c = true) (cs : List Char) :
    indented column write fresh (c :: cs) = c :: indented column write true cs := by
  rw [indented, if_pos hc]

theorem indented_unbroken {c : Char} (hc : isBreak c = false) (cs : List Char) :
    indented column write fresh (c :: cs)
      = (if fresh then blanks column else []) ++ (write c ++ indented column write false cs) := by
  rw [indented, if_neg (by simp [hc]), List.append_assoc]

theorem indented_of_unbroken {cs : List Char} (h : cs.any isBreak = false) :
    indented column write false cs = cs.flatMap write := by
  induction cs with
  | nil => rfl
  | cons c cs ih =>
    rw [List.any_cons, Bool.or_eq_false_iff] at h
    rw [indented_unbroken h.1, ih h.2]
    rfl

/-- The blanks of a line and what follows them begin with no break. -/
theorem exists_cons_of_unbroken (column : Nat) (fresh : Bool) {c : Char} (hc : isBreak c = false)
    (cs : List Char) :
    ∃ d ds, (if fresh then blanks column else []) ++ c :: cs = d :: ds ∧ isBreak d = false := by
  cases fresh with
  | false => exact ⟨c, cs, rfl, hc⟩
  | true =>
    cases column with
    | zero => exact ⟨c, cs, rfl, hc⟩
    | succ column => exact ⟨' ', _, rfl, rfl⟩

theorem exists_cons_indented (column : Nat) (fresh : Bool) {c : Char} (hc : isBreak c = false)
    (hwrite : ∃ cs, write c = c :: cs) (cs : List Char) :
    ∃ d ds, indented column write fresh (c :: cs) = d :: ds ∧ isBreak d = false := by
  obtain ⟨ws, hws⟩ := hwrite
  rw [indented_unbroken hc, hws]
  exact exists_cons_of_unbroken column fresh hc _

/-- Indented text does not go on with the characters. -/
def Stops (column : Nat) (write : Char → List Char) (fresh : Bool) (cs : List Char) : Prop :=
  ∀ d ds rest, cs ≠ indented column write fresh (d :: ds) ++ rest

/-- Indented text can be read off the characters that it begins, up to where it stops. -/
theorem indented_cancel (hwrite : ∀ c, ∃ cs, write c = c :: cs)
    {cs ds rest rest' : List Char} (hrest : Stops column write (atLineStart fresh cs) rest)
    (hrest' : Stops column write (atLineStart fresh ds) rest')
    (h : indented column write fresh cs ++ rest = indented column write fresh ds ++ rest') :
    cs = ds ∧ rest = rest' := by
  induction cs generalizing fresh ds with
  | nil =>
    cases ds with
    | nil => exact ⟨rfl, h⟩
    | cons d ds => exact absurd h (hrest d ds rest')
  | cons c cs ih =>
    cases ds with
    | nil => exact absurd h.symm (hrest' c cs rest)
    | cons d ds =>
      rw [atLineStart_cons] at hrest hrest'
      cases hc : isBreak c <;> cases hd : isBreak d
      · -- both lines go on with the same character
        rw [indented_unbroken hc, indented_unbroken hd] at h
        simp only [List.append_assoc, List.append_cancel_left_eq] at h
        have hcd : c = d := by
          obtain ⟨ws, hws⟩ := hwrite c
          obtain ⟨vs, hvs⟩ := hwrite d
          rw [hws, hvs] at h
          exact (List.cons.inj h).1
        subst hcd
        rw [List.append_cancel_left_eq] at h
        rw [hc] at hrest hrest'
        obtain ⟨rfl, hrests⟩ := ih hrest hrest' h
        exact ⟨rfl, hrests⟩
      · -- one line goes on where the other ends
        obtain ⟨e, es, hes, he⟩ := exists_cons_indented column fresh hc (hwrite c) cs
        rw [hes, indented_break hd] at h
        rw [(List.cons.inj h).1, hd] at he
        cases he
      · obtain ⟨e, es, hes, he⟩ := exists_cons_indented column fresh hd (hwrite d) ds
        rw [hes, indented_break hc] at h
        rw [← (List.cons.inj h).1, hc] at he
        cases he
      · -- both lines end here
        rw [indented_break hc, indented_break hd] at h
        obtain ⟨rfl, htail⟩ := List.cons.inj h
        rw [hc] at hrest hrest'
        obtain ⟨rfl, hrests⟩ := ih hrest hrest' htail
        exact ⟨rfl, hrests⟩

end Indented

/-! ### Texts in single quotes -/

/-- A character in single quotes: the quote itself is written twice. -/
def doubled (c : Char) : List Char :=
  if c = '\'' then ['\'', '\''] else [c]

theorem exists_doubled (c : Char) : ∃ cs, doubled c = c :: cs := by
  unfold doubled
  split_ifs with h
  · exact ⟨['\''], by rw [h]⟩
  · exact ⟨[], rfl⟩

theorem singleQuoted_append (column : Nat) (cs rest : List Char) :
    singleQuoted column cs ++ rest
      = '\'' :: (indented column doubled false cs
        ++ ((if atLineStart false cs then blanks column else []) ++ '\'' :: rest)) := by
  have hclosing : cs.getLast?.any isBreak = atLineStart false cs := by
    unfold atLineStart
    cases cs.getLast? <;> rfl
  unfold singleQuoted
  rw [hclosing]
  simp only [List.cons_append, List.append_assoc, List.nil_append]
  rfl

/-- In single quotes a text ends at the first quote that is not followed by another. -/
theorem stops_quote {column : Nat} {fresh : Bool} {rest : List Char}
    (h : rest.head? ≠ some '\'') :
    Stops column doubled fresh ((if fresh then blanks column else []) ++ '\'' :: rest) := by
  intro d ds more heq
  cases hd : isBreak d
  · rw [indented_unbroken hd, List.append_assoc, List.append_cancel_left_eq, doubled] at heq
    split_ifs at heq with hquote
    · rw [List.append_assoc] at heq
      exact h (by rw [(List.cons.inj heq).2]; rfl)
    · exact hquote (List.cons.inj heq).1.symm
  · obtain ⟨e, es, hes, he⟩ := exists_cons_of_unbroken column fresh (c := '\'') rfl rest
    rw [indented_break hd, hes] at heq
    rw [(List.cons.inj heq).1, hd] at he
    cases he

theorem singleQuoted_cancel {column : Nat} {cs ds rest rest' : List Char}
    (hrest : rest.head? ≠ some '\'') (hrest' : rest'.head? ≠ some '\'')
    (h : singleQuoted column cs ++ rest = singleQuoted column ds ++ rest') :
    cs = ds ∧ rest = rest' := by
  rw [singleQuoted_append, singleQuoted_append] at h
  obtain ⟨rfl, hclosing⟩ := indented_cancel exists_doubled (stops_quote hrest)
    (stops_quote hrest') (List.cons.inj h).2
  exact ⟨rfl, (List.cons.inj (List.append_cancel_left hclosing)).2⟩

/-! ### Texts in double quotes -/

theorem digitValue?_digit (n : Fin 16) :
    Text.digitValue? (Nat.digitChar n).toUpper = some n.val := by
  revert n
  decide

theorem numeral?_hexDigits (n count : Nat) :
    Text.numeral? 16 (hexDigits n count) = some (n % Nat.pow 16 count) := by
  induction count generalizing n with
  | zero =>
    have hone : Nat.pow 16 0 = 1 := rfl
    rw [hone, Nat.mod_one]
    rfl
  | succ count ih =>
    have hlt : n % 16 < 16 := Nat.mod_lt n (by decide)
    have hdigit := digitValue?_digit ⟨n % 16, hlt⟩
    have hguard : (guard (n % 16 < 16) : Option Unit) = some () := if_pos hlt
    have hmod : n % Nat.pow 16 (count + 1) = n / 16 % Nat.pow 16 count * 16 + n % 16 := by
      have hsplit : Nat.pow 16 (count + 1) = 16 * Nat.pow 16 count := Nat.pow_succ'
      rw [hsplit, Nat.mod_mul, Nat.mul_comm, Nat.add_comm]
    unfold Text.numeral? at ih
    rw [Text.numeral?, hexDigits, List.foldl_append, ih, hmod, List.foldl_cons, List.foldl_nil]
    show (Text.digitValue? (Nat.digitChar (n % 16)).toUpper).bind _ = _
    rw [hdigit]
    show (guard (n % 16 < 16) : Option Unit).bind _ = _
    rw [hguard]
    rfl

theorem length_hexDigits (n count : Nat) : (hexDigits n count).length = count := by
  induction count generalizing n with
  | zero => rfl
  | succ count ih => rw [hexDigits, List.length_append, ih]; rfl

theorem hexDigits_inj {n m count : Nat} (hn : n < Nat.pow 16 count) (hm : m < Nat.pow 16 count)
    (h : hexDigits n count = hexDigits m count) : n = m := by
  have hvalue := numeral?_hexDigits n count
  rw [h, numeral?_hexDigits m count] at hvalue
  have hmod := Option.some.inj hvalue
  rw [Nat.mod_eq_of_lt hn, Nat.mod_eq_of_lt hm] at hmod
  exact hmod.symm

/-- The character that a sign behind a backslash stands for. -/
def ofShortEscape? : Char → Option Char
  | '0' => some '\x00'
  | 'a' => some '\x07'
  | 'b' => some '\x08'
  | 't' => some '\t'
  | 'n' => some '\n'
  | 'v' => some '\x0b'
  | 'f' => some '\x0c'
  | 'r' => some '\r'
  | 'e' => some '\x1b'
  | '"' => some '"'
  | '\\' => some '\\'
  | 'N' => some '\u0085'
  | 'L' => some '\u2028'
  | 'P' => some '\u2029'
  | _ => none

theorem ofShortEscape?_of_shortEscape? {c sign : Char} (h : shortEscape? c = some sign) :
    ofShortEscape? sign = some c := by
  unfold shortEscape? at h
  split at h <;> first | (obtain rfl := Option.some.inj h; rfl) | cases h

/-- How a character is written in double quotes. -/
inductive Escaped (c : Char) : List Char → Prop where
  | short {sign : Char} (meaning : ofShortEscape? sign = some c) : Escaped c ['\\', sign]
  | plain (slash : c ≠ '\\') (quote : c ≠ '"') : Escaped c [c]
  | code {mark : Char} {count : Nat} (known : (mark, count) ∈ [('x', 2), ('u', 4), ('U', 8)])
      (fits : c.toNat < Nat.pow 16 count) : Escaped c ('\\' :: mark :: hexDigits c.toNat count)

theorem escaped_escaped (c : Char) : Escaped c (escaped c) := by
  unfold escaped
  cases hshort : shortEscape? c with
  | some sign => exact .short (ofShortEscape?_of_shortEscape? hshort)
  | none =>
    have hslash : c ≠ '\\' := by rintro rfl; cases hshort
    have hquote : c ≠ '"' := by rintro rfl; cases hshort
    have hchar : c.toNat < Nat.pow 16 8 := by
      have hbound : 0x110000 ≤ Nat.pow 16 8 := by decide
      have hvalid : c.toNat < 0xd800 ∨ 0xdfff < c.toNat ∧ c.toNat < 0x110000 := c.valid
      omega
    simp only
    split_ifs with hprint hbyte hword
    · exact .plain hslash hquote
    · exact .code (by simp) (Nat.lt_succ_of_le hbyte)
    · exact .code (by simp) (Nat.lt_succ_of_le hword)
    · exact .code (by simp) hchar

/-- A character can be read off the characters that its escape begins. -/
theorem Escaped.cancel {c d : Char} {cs ds rest rest' : List Char} (hc : Escaped c cs)
    (hd : Escaped d ds) (h : cs ++ rest = ds ++ rest') : c = d ∧ rest = rest' := by
  -- no sign of the short escapes marks a code
  have hmark {mark : Char} {count : Nat}
      (known : (mark, count) ∈ [('x', 2), ('u', 4), ('U', 8)]) : ofShortEscape? mark = none := by
    simp only [List.mem_cons, Prod.mk.injEq, List.not_mem_nil, or_false] at known
    obtain ⟨rfl, -⟩ | ⟨rfl, -⟩ | ⟨rfl, -⟩ := known <;> rfl
  cases hc with
  | short meaning =>
    cases hd with
    | short meaning' =>
      simp only [List.cons_append, List.nil_append, List.cons.injEq] at h
      obtain ⟨-, rfl, rfl⟩ := h
      exact ⟨Option.some.inj (meaning.symm.trans meaning'), rfl⟩
    | plain slash _ => exact absurd (List.cons.inj h).1.symm slash
    | code known _ =>
      simp only [List.cons_append, List.nil_append, List.cons.injEq] at h
      rw [h.2.1, hmark known] at meaning
      cases meaning
  | plain slash _ =>
    cases hd with
    | short _ => exact absurd (List.cons.inj h).1 slash
    | plain _ _ => exact List.cons.inj h
    | code _ _ => exact absurd (List.cons.inj h).1 slash
  | @code mark count known fits =>
    cases hd with
    | short meaning' =>
      simp only [List.cons_append, List.nil_append, List.cons.injEq] at h
      rw [← h.2.1, hmark known] at meaning'
      cases meaning'
    | plain slash _ => exact absurd (List.cons.inj h).1.symm slash
    | @code mark' count' known' fits' =>
      simp only [List.cons_append, List.cons.injEq, true_and] at h
      obtain ⟨rfl, hdigits⟩ := h
      obtain rfl : count = count' := by
        simp only [List.mem_cons, Prod.mk.injEq, List.not_mem_nil, or_false] at known known'
        obtain ⟨rfl, rfl⟩ | ⟨rfl, rfl⟩ | ⟨rfl, rfl⟩ := known <;>
          exact (by simpa using known' : count' = _).symm
      obtain ⟨hdigits, hrest⟩ := List.append_inj hdigits
        (by rw [length_hexDigits, length_hexDigits])
      exact ⟨Char.toNat_inj.1 (hexDigits_inj fits fits' hdigits), hrest⟩

theorem exists_cons_of_escaped {c : Char} {cs : List Char} (h : Escaped c cs) :
    ∃ d ds, cs = d :: ds ∧ d ≠ '"' := by
  cases h with
  | short _ => exact ⟨_, _, rfl, by decide⟩
  | plain _ quote => exact ⟨_, _, rfl, quote⟩
  | code _ _ => exact ⟨_, _, rfl, by decide⟩

theorem flatMap_escaped_cancel {cs ds rest rest' : List Char}
    (h : cs.flatMap escaped ++ '"' :: rest = ds.flatMap escaped ++ '"' :: rest') :
    cs = ds ∧ rest = rest' := by
  induction cs generalizing ds with
  | nil =>
    cases ds with
    | nil => exact ⟨rfl, (List.cons.inj h).2⟩
    | cons d ds =>
      obtain ⟨e, es, hes, he⟩ := exists_cons_of_escaped (escaped_escaped d)
      rw [List.flatMap_cons, hes] at h
      exact absurd (List.cons.inj h).1.symm he
  | cons c cs ih =>
    cases ds with
    | nil =>
      obtain ⟨e, es, hes, he⟩ := exists_cons_of_escaped (escaped_escaped c)
      rw [List.flatMap_cons, hes] at h
      exact absurd (List.cons.inj h).1 he
    | cons d ds =>
      rw [List.flatMap_cons, List.flatMap_cons, List.append_assoc, List.append_assoc] at h
      obtain ⟨rfl, htail⟩ := (escaped_escaped c).cancel (escaped_escaped d) h
      obtain ⟨rfl, hrest⟩ := ih htail
      exact ⟨rfl, hrest⟩

theorem doubleQuoted_cancel {cs ds rest rest' : List Char}
    (h : doubleQuoted cs ++ rest = doubleQuoted ds ++ rest') : cs = ds ∧ rest = rest' := by
  simp only [doubleQuoted, List.cons_append, List.append_assoc, List.nil_append] at h
  exact flatMap_escaped_cancel (List.cons.inj h).2

end Sigil.Doc.Yaml
