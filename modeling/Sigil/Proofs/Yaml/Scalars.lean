import Sigil.Proofs.Yaml.Quoting

/-! # Scalars in their lines

    Where a scalar ends can be seen from what stands behind it, whatever
    its style: a plain one ends with its line or at the colon of a key, a
    quoted one at its quote, and a block where a line is indented by less
    than the lines of the block.  So two texts whose scalars begin the same
    characters are the same text, with the same characters behind.

    * `IsScalar.inline_cancel`: on a line, as a key or with the end of the
      line behind it.
    * `scalar_cancel`: with the lines behind it. -/

namespace Sigil.Doc.Yaml

/-! ### Blanks and lines -/

/-- A line is indented by its first blanks. -/
theorem blanks_cancel {k k' : Nat} {c c' : Char} {cs cs' : List Char} (hc : c ≠ ' ')
    (hc' : c' ≠ ' ') (h : blanks k ++ c :: cs = blanks k' ++ c' :: cs') :
    k = k' ∧ c = c' ∧ cs = cs' := by
  induction k generalizing k' with
  | zero =>
    cases k' with
    | zero => exact ⟨rfl, List.cons.inj h⟩
    | succ k' => exact absurd (List.cons.inj h).1 hc
  | succ k ih =>
    cases k' with
    | zero => exact absurd (List.cons.inj h).1.symm hc'
    | succ k' =>
      obtain ⟨hk, hrest⟩ := ih (List.cons.inj h).2
      exact ⟨congrArg Nat.succ hk, hrest⟩

/-- A line goes up to its line feed. -/
theorem line_cancel {cs ds rest rest' : List Char} (hcs : '\n' ∉ cs) (hds : '\n' ∉ ds)
    (h : cs ++ '\n' :: rest = ds ++ '\n' :: rest') : cs = ds ∧ rest = rest' := by
  induction cs generalizing ds with
  | nil =>
    cases ds with
    | nil => exact ⟨rfl, (List.cons.inj h).2⟩
    | cons d ds => exact absurd ((List.cons.inj h).1 ▸ List.mem_cons_self) hds
  | cons c cs ih =>
    cases ds with
    | nil => exact absurd ((List.cons.inj h).1 ▸ List.mem_cons_self) hcs
    | cons d ds =>
      obtain ⟨rfl, htail⟩ := List.cons.inj h
      obtain ⟨rfl, hrest⟩ := ih (List.not_mem_of_not_mem_cons hcs)
        (List.not_mem_of_not_mem_cons hds) htail
      exact ⟨rfl, hrest⟩

/-- Nothing follows, or a line that is indented by less than `column`. -/
def Below (column : Nat) (cs : List Char) : Prop :=
  cs = [] ∨ ∃ k c rest, k < column ∧ c ≠ ' ' ∧ isBreak c = false ∧ cs = blanks k ++ c :: rest

theorem Below.mono {column column' : Nat} {cs : List Char} (h : Below column cs)
    (hle : column ≤ column') : Below column' cs := by
  obtain rfl | ⟨k, c, rest, hk, hc, hbreak, rfl⟩ := h
  · exact .inl rfl
  · exact .inr ⟨k, c, rest, Nat.lt_of_lt_of_le hk hle, hc, hbreak, rfl⟩

theorem Below.ne_blanks {column : Nat} {cs : List Char} (h : Below column cs) (c : Char)
    (rest : List Char) : cs ≠ blanks column ++ c :: rest := by
  rintro rfl
  obtain hnil | ⟨k, d, rest', hk, hd, -, heq⟩ := h
  · simp at hnil
  · obtain ⟨m, rfl⟩ := Nat.exists_eq_add_of_lt hk
    have hsplit : blanks (k + m + 1) = blanks k ++ (' ' :: blanks m) := by
      rw [blanks, Nat.add_assoc, List.replicate_add]
      rfl
    rw [hsplit, List.append_assoc, List.append_cancel_left_eq] at heq
    exact hd (List.cons.inj heq).1.symm

theorem Below.ne_break {column : Nat} {cs : List Char} (h : Below column cs) {c : Char}
    (hc : isBreak c = true) (rest : List Char) : cs ≠ c :: rest := by
  rintro rfl
  obtain hnil | ⟨k, d, rest', -, -, hd, heq⟩ := h
  · cases hnil
  · cases k with
    | zero =>
      rw [(List.cons.inj heq).1, hd] at hc
      cases hc
    | succ k =>
      rw [(List.cons.inj heq).1] at hc
      cases hc

/-- Characters with a line feed behind them where they do not end a line. -/
def ended (cs : List Char) : List Char :=
  if cs.getLast?.any isBreak then cs else cs ++ ['\n']

theorem toList_lineEnded (s : String) : (lineEnded s).toList = ended s.toList := by
  unfold lineEnded ended
  split_ifs
  · rfl
  · exact String.toList_append

theorem ended_append (cs : List Char) {ds : List Char} (h : ds ≠ []) :
    ended (cs ++ ds) = cs ++ ended ds := by
  unfold ended
  rw [List.getLast?_append_of_ne_nil _ h, List.append_assoc]
  split_ifs <;> rfl

theorem prefix_ended (cs rest : List Char) : cs <+: ended cs ++ rest := by
  unfold ended
  split_ifs
  · exact List.prefix_append cs rest
  · rw [List.append_assoc]
    exact List.prefix_append cs _

theorem ended_of_getLast? {cs : List Char} {c : Char} (h : cs.getLast? = some c)
    (hc : isBreak c = false) : ended cs = cs ++ ['\n'] := by
  simp [ended, h, hc]

/-! ### Plain texts -/

/-- What a text has to be to stand without quotes. -/
structure Plain (cs : List Char) : Prop where
  indicator : ∀ c ∈ cs.head?, c ∉ indicators
  structureless : beginsStructure cs = false
  pair : hasPair (· == ':') (· == ' ') cs = false
  last : cs.getLast? ≠ some ':'
  blank : cs.head? ≠ some ' '
  unbroken : cs.any isBreak = false

theorem plain_of_isPlain {cs : List Char} (h : isPlain cs = true) : Plain cs := by
  simp only [isPlain, Bool.not_eq_true', Bool.or_eq_false_iff] at h
  obtain ⟨⟨⟨⟨⟨⟨⟨⟨⟨-, -⟩, hindicator⟩, hstructure⟩, hpair⟩, hlast⟩, -⟩, hblank⟩, -⟩, hbreak⟩ := h
  refine ⟨?_, hstructure, hpair, by simpa using hlast, by simpa using hblank, hbreak⟩
  intro c hc hmem
  rw [Option.mem_def.1 hc] at hindicator
  simp [hmem] at hindicator

theorem hasPair_append_right (p q : Char → Bool) (cs : List Char) {ds : List Char}
    (h : hasPair p q ds = true) : hasPair p q (cs ++ ds) = true := by
  induction cs with
  | nil => exact h
  | cons c cs ih =>
    cases hcs : cs ++ ds with
    | nil =>
      rw [(List.append_eq_nil_iff.1 hcs).2] at h
      cases h
    | cons e es =>
      rw [List.cons_append, hcs, hasPair, ← hcs, ih, Bool.or_true]

/-- What stands behind a scalar on its line: nothing, or a colon and then a blank or
nothing. -/
inductive Closes : List Char → Prop where
  | feed (rest : List Char) : Closes ('\n' :: rest)
  | colonBlank (rest : List Char) : Closes (':' :: ' ' :: rest)
  | colonFeed (rest : List Char) : Closes (':' :: '\n' :: rest)

/-- No plain text goes on with what closes it. -/
theorem Plain.eq_nil_of_closes {cs ds rest : List Char} (h : Plain (cs ++ ds))
    (hrest : Closes (ds ++ rest)) : ds = [] := by
  cases ds with
  | nil => rfl
  | cons d ds =>
    exfalso
    have hfeed : '\n' ∉ cs ++ d :: ds := by
      intro hmem
      have hbreak := List.any_eq_false.1 h.unbroken _ hmem
      exact hbreak rfl
    cases ds with
    | nil =>
      have hd : d = '\n' ∨ d = ':' := by cases hrest <;> simp
      rcases hd with rfl | rfl
      · exact hfeed (by simp)
      · exact h.last List.getLast?_concat
    | cons e ds =>
      generalize hmore : d :: e :: ds ++ rest = more at hrest
      cases hrest with
      | feed =>
        simp only [List.cons_append, List.cons.injEq] at hmore
        exact hfeed (by simp [hmore.1])
      | colonBlank =>
        simp only [List.cons_append, List.cons.injEq] at hmore
        obtain ⟨rfl, rfl, -⟩ := hmore
        have hpair : hasPair (· == ':') (· == ' ') (cs ++ ':' :: ' ' :: ds) = true :=
          hasPair_append_right _ _ cs rfl
        rw [h.pair] at hpair
        cases hpair
      | colonFeed =>
        simp only [List.cons_append, List.cons.injEq] at hmore
        exact hfeed (by simp [hmore.2.1])

theorem plain_cancel {cs ds rest rest' : List Char} (hcs : Plain cs) (hds : Plain ds)
    (hrest : Closes rest) (hrest' : Closes rest') (h : cs ++ rest = ds ++ rest') :
    cs = ds ∧ rest = rest' := by
  obtain ⟨more, rfl, rfl⟩ | ⟨more, rfl, rfl⟩ := List.append_eq_append_iff.1 h
  · obtain rfl := hds.eq_nil_of_closes hrest
    simp
  · obtain rfl := hcs.eq_nil_of_closes hrest'
    simp

/-! ### Blocks -/

theorem indented_append_feed {column : Nat} {write : Char → List Char} {fresh : Bool}
    (cs : List Char) :
    indented column write fresh (cs ++ ['\n']) = indented column write fresh cs ++ ['\n'] := by
  induction cs generalizing fresh with
  | nil => rfl
  | cons c cs ih =>
    cases hc : isBreak c
    · rw [List.cons_append, indented_unbroken hc, indented_unbroken hc, ih]
      simp only [List.append_assoc]
    · rw [List.cons_append, indented_break hc, indented_break hc, ih, List.cons_append]

theorem getLast?_indented (column : Nat) (fresh : Bool) (cs : List Char) :
    (indented column (fun c => [c]) fresh cs).getLast? = cs.getLast? := by
  induction cs generalizing fresh with
  | nil => rfl
  | cons c cs ih =>
    cases hc : isBreak c
    · rw [indented_unbroken hc, List.singleton_append,
        List.getLast?_append_of_ne_nil _ (List.cons_ne_nil _ _), List.getLast?_cons,
        List.getLast?_cons, ih]
    · rw [indented_break hc, List.getLast?_cons, List.getLast?_cons, ih]

theorem ended_block (column : Nat) {cs : List Char} (h : cs ≠ []) :
    ended (block column cs)
      = blockHeader cs ++ '\n' :: indented column (fun c => [c]) true (ended cs) := by
  have hne : indented column (fun c => [c]) true cs ≠ [] := by
    intro hnil
    have hlast := getLast?_indented column true cs
    rw [hnil] at hlast
    exact h (List.getLast?_eq_none_iff.1 hlast.symm)
  have hended : ended (indented column (fun c => [c]) true cs)
      = indented column (fun c => [c]) true (ended cs) := by
    unfold ended
    rw [getLast?_indented]
    split_ifs
    · rfl
    · exact (indented_append_feed cs).symm
  rw [block, ended_append _ (List.cons_ne_nil _ _), ← hended]
  exact congrArg _ (ended_append ['\n'] hne)

/-- The head of a block is on its line, and tells whether the text ends one. -/
theorem blockHeader_spec (cs : List Char) :
    '\n' ∉ blockHeader cs ∧ ('-' ∈ blockHeader cs ↔ cs.getLast?.any isBreak = false) := by
  rw [List.getLast?_eq_head?_reverse, blockHeader]
  cases cs.reverse with
  | nil => simp only; split_ifs <;> decide
  | cons last before =>
    cases hlast : isBreak last <;>
      simp only [List.head?_cons, Option.any_some, hlast, Bool.not_true, Bool.not_false,
        Bool.false_eq_true, if_true, if_false] <;>
      split_ifs <;> decide

theorem atLineStart_ended (cs : List Char) : atLineStart true (ended cs) = true := by
  unfold atLineStart ended
  split_ifs with h
  · cases hlast : cs.getLast? with
    | none => rfl
    | some c =>
      rw [hlast] at h
      exact h
  · rw [List.getLast?_concat]
    rfl

theorem Below.stops {column : Nat} {rest : List Char} (h : Below column rest) (cs : List Char) :
    Stops column (fun c => [c]) (atLineStart true (ended cs)) rest := by
  rw [atLineStart_ended]
  intro d ds more
  cases hd : isBreak d
  · rw [indented_unbroken hd, if_pos rfl, List.append_assoc]
    exact h.ne_blanks d _
  · rw [indented_break hd]
    exact h.ne_break hd _

theorem block_cancel {column : Nat} {cs ds rest rest' : List Char} (hcs : cs ≠ [])
    (hds : ds ≠ []) (hrest : Below column rest) (hrest' : Below column rest')
    (h : ended (block column cs) ++ rest = ended (block column ds) ++ rest') :
    cs = ds ∧ rest = rest' := by
  obtain ⟨hfeed, hchomp⟩ := blockHeader_spec cs
  obtain ⟨hfeed', hchomp'⟩ := blockHeader_spec ds
  rw [ended_block column hcs, ended_block column hds, List.append_assoc, List.append_assoc,
    List.cons_append, List.cons_append] at h
  obtain ⟨hheader, hlines⟩ := line_cancel hfeed hfeed' h
  obtain ⟨hended, hrests⟩ := indented_cancel (fun c => ⟨[], rfl⟩) (hrest.stops cs)
    (hrest'.stops ds) hlines
  refine ⟨?_, hrests⟩
  rw [hheader, hchomp'] at hchomp
  unfold ended at hended
  -- the headers are one, so both texts end with a line feed of their own or neither does
  cases hlast : cs.getLast?.any isBreak <;> cases hlast' : ds.getLast?.any isBreak <;>
    simp only [hlast, hlast'] at hended hchomp
  · exact List.append_cancel_right hended
  · simp at hchomp
  · simp at hchomp
  · exact hended

/-! ### Scalars -/

/-- The characters are a scalar of the text, in a style. -/
inductive IsScalar (column : Nat) (s : List Char) : Style → List Char → Prop where
  | plain (plain : Plain s) (ne : s ≠ []) : IsScalar column s .plain s
  | single : IsScalar column s .single (singleQuoted column s)
  | double : IsScalar column s .double (doubleQuoted s)
  | block (ne : s ≠ []) : IsScalar column s .block (block column s)

theorem isScalar_scalar (column : Nat) (s : String) :
    IsScalar column s.toList (style s) (scalar column s).toList := by
  unfold scalar
  cases hstyle : style s with
  | plain =>
    unfold style at hstyle
    simp only at hstyle
    split_ifs at hstyle with hfeed hblock hsingle hplain
    rw [Bool.or_eq_true, not_or] at hplain
    refine .plain (plain_of_isPlain (by simpa using hplain.2)) ?_
    intro hnil
    rw [String.toList_eq_nil_iff.1 hnil] at hplain
    exact hplain.1 (by decide)
  | single => rw [String.toList_ofList]; exact .single
  | double => rw [String.toList_ofList]; exact .double
  | block =>
    rw [String.toList_ofList]
    refine .block ?_
    intro hnil
    unfold style at hstyle
    rw [hnil] at hstyle
    simp only [List.contains_nil, Bool.false_eq_true, if_false] at hstyle
    split_ifs at hstyle

/-- The style of a scalar that begins with `c`. -/
def styleAt (c : Char) : Style :=
  if c = '\'' then .single else if c = '"' then .double else if c = '|' then .block else .plain

/-- How a scalar begins: with no blank, no bracket, and no mark of structure. -/
structure Opens (c : Char) (cs : List Char) : Prop where
  blank : c ≠ ' '
  unbroken : isBreak c = false
  bracket : c ≠ '[' ∧ c ≠ '{'
  structureless : beginsStructure (c :: cs) = false

/-- Behind the sign of a question or an item no scalar goes on with a blank. -/
theorem Opens.head?_ne {c : Char} {cs : List Char} (h : Opens c cs) (hc : c = '?' ∨ c = '-')
    (rest : List Char) : (cs ++ rest).head? ≠ some ' ' := by
  have hstructure := h.structureless
  cases cs with
  | nil => rcases hc with rfl | rfl <;> cases hstructure
  | cons d ds => rcases hc with rfl | rfl <;> simpa [beginsStructure] using hstructure

theorem IsScalar.exists_cons {column : Nat} {s cs : List Char} {st : Style}
    (h : IsScalar column s st cs) : ∃ d ds, cs = d :: ds ∧ styleAt d = st ∧ Opens d ds := by
  cases h with
  | plain plain ne =>
    cases s with
    | nil => exact absurd rfl ne
    | cons c cs =>
      have hindicator : c ∉ indicators := plain.indicator c rfl
      have hstyle : styleAt c = .plain := by
        unfold styleAt
        split_ifs with hsingle hdouble hblock
        · exact absurd (hsingle ▸ by decide) hindicator
        · exact absurd (hdouble ▸ by decide) hindicator
        · exact absurd (hblock ▸ by decide) hindicator
        · rfl
      refine ⟨c, cs, rfl, hstyle, by simpa using plain.blank, ?_, ?_, plain.structureless⟩
      · have hbreak := plain.unbroken
        rw [List.any_cons, Bool.or_eq_false_iff] at hbreak
        exact hbreak.1
      · constructor <;> rintro rfl <;> exact hindicator (by decide)
  | single => exact ⟨_, _, rfl, rfl, by decide, rfl, by decide, rfl⟩
  | double => exact ⟨_, _, rfl, rfl, by decide, rfl, by decide, rfl⟩
  | block ne => exact ⟨_, _, rfl, rfl, by decide, rfl, by decide, rfl⟩

/-- The first character of a scalar tells its style. -/
theorem IsScalar.style_eq {column : Nat} {s t cs ds text text' : List Char} {st st' : Style}
    (hs : IsScalar column s st cs) (ht : IsScalar column t st' ds) (hcs : cs <+: text)
    (hds : ds <+: text') (h : text = text') : st = st' := by
  obtain ⟨c, cs, rfl, rfl, -⟩ := hs.exists_cons
  obtain ⟨d, ds, rfl, rfl, -⟩ := ht.exists_cons
  obtain ⟨more, rfl⟩ := hcs
  obtain ⟨more', rfl⟩ := hds
  rw [(List.cons.inj h).1]

theorem Closes.head?_ne {rest : List Char} (h : Closes rest) : rest.head? ≠ some '\'' := by
  cases h <;> simp

/-- On a line, as a key or with nothing behind it, a scalar shows its text. -/
theorem IsScalar.inline_cancel {column : Nat} {s t cs ds rest rest' : List Char} {st : Style}
    (hst : st ≠ .block) (hs : IsScalar column s st cs) (ht : IsScalar column t st ds)
    (hrest : Closes rest) (hrest' : Closes rest') (h : cs ++ rest = ds ++ rest') :
    s = t ∧ rest = rest' := by
  cases hs with
  | plain plain _ =>
    cases ht with
    | plain plain' _ => exact plain_cancel plain plain' hrest hrest' h
  | single =>
    cases ht
    exact singleQuoted_cancel hrest.head?_ne hrest'.head?_ne h
  | double =>
    cases ht
    exact doubleQuoted_cancel h
  | block _ => exact absurd rfl hst

theorem IsScalar.ended_inline {column : Nat} {s cs : List Char} {st : Style} (hst : st ≠ .block)
    (h : IsScalar column s st cs) : ended cs = cs ++ ['\n'] := by
  cases h with
  | plain plain ne =>
    have hlast := List.any_eq_false.1 plain.unbroken _ (List.getLast_mem ne)
    exact ended_of_getLast? (List.getLast?_eq_some_getLast ne) (by simpa using hlast)
  | single =>
    refine ended_of_getLast? (c := '\'') ?_ rfl
    unfold singleQuoted
    exact List.getLast?_concat
  | double =>
    refine ended_of_getLast? (c := '"') ?_ rfl
    exact List.getLast?_concat
  | block _ => exact absurd rfl hst

theorem IsScalar.lines_cancel {column : Nat} {s t cs ds rest rest' : List Char} {st st' : Style}
    (hs : IsScalar column s st cs) (ht : IsScalar column t st' ds) (hrest : Below column rest)
    (hrest' : Below column rest') (h : ended cs ++ rest = ended ds ++ rest') :
    s = t ∧ rest = rest' := by
  obtain rfl : st = st' := hs.style_eq ht (prefix_ended cs rest) (prefix_ended ds rest') h
  by_cases hblock : st = .block
  · subst hblock
    cases hs with
    | block ne =>
      cases ht with
      | block ne' => exact block_cancel ne ne' hrest hrest' h
  · -- on one line the line feed closes both
    rw [hs.ended_inline hblock, ht.ended_inline hblock, List.append_assoc, List.append_assoc] at h
    obtain ⟨hst, hrests⟩ := hs.inline_cancel hblock ht (.feed rest) (.feed rest') h
    exact ⟨hst, (List.cons.inj hrests).2⟩

/-- With the lines behind it a scalar shows its text. -/
theorem scalar_cancel {column : Nat} {s t : String} {rest rest' : List Char}
    (hrest : Below column rest) (hrest' : Below column rest')
    (h : ended (scalar column s).toList ++ rest = ended (scalar column t).toList ++ rest') :
    s = t ∧ rest = rest' := by
  obtain ⟨hst, hrests⟩ :=
    (isScalar_scalar column s).lines_cancel (isScalar_scalar column t) hrest hrest' h
  exact ⟨String.toList_inj.1 hst, hrests⟩

/-! ### What no scalar begins with -/

theorem scalar_ne_nil (column : Nat) (s : String) : (scalar column s).toList ≠ [] := by
  obtain ⟨c, cs, hcs, -⟩ := (isScalar_scalar column s).exists_cons
  rw [hcs]
  exact List.cons_ne_nil c cs

theorem ne_sign_of_scalar {column : Nat} {s : String} {cs : List Char}
    (h : (scalar column s).toList <+: cs) {c : Char} (hc : c = '?' ∨ c = '-')
    (rest : List Char) : cs ≠ c :: ' ' :: rest := by
  obtain ⟨d, ds, hds, -, hopens⟩ := (isScalar_scalar column s).exists_cons
  obtain ⟨more, rfl⟩ := h
  rw [hds]
  intro heq
  obtain ⟨rfl, htail⟩ := List.cons.inj heq
  exact hopens.head?_ne hc more (congrArg List.head? htail)

theorem ne_bracket_of_scalar {column : Nat} {s : String} {cs : List Char}
    (h : (scalar column s).toList <+: cs) {c : Char} (hc : c = '[' ∨ c = '{')
    (rest : List Char) : cs ≠ c :: rest := by
  obtain ⟨d, ds, hds, -, hopens⟩ := (isScalar_scalar column s).exists_cons
  obtain ⟨more, rfl⟩ := h
  rw [hds]
  intro heq
  obtain ⟨rfl, -⟩ := List.cons.inj heq
  exact hc.elim hopens.bracket.1 hopens.bracket.2

end Sigil.Doc.Yaml
