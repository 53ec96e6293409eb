import Sigil.Proofs.Descent.Standing
import Sigil.Proofs.Descent.Words

/-! # A text is read as its tokens are

    Whatever a reader of lexemes comes to, a reader of the characters comes
    to as well (`Descent.agrees_of_runs`): it finds the phrase in the text of
    the same lexemes, or fails to find it, with the same rules in its book
    at the same place.  The blanks between the lexemes are passed over
    between the parts of a rule, and within a token there are none.

    A reader goes down few rules before it takes a lexeme (`Rule.height`),
    so it never has to give up. -/

namespace Sigil.Descent

open Text Token Lexeme

/-! ### Phrases as patterns -/

/-- What a phrase is in the characters of a text. -/
def Phrase.pattern : Phrase → Pattern
  | .lexeme r => r.pattern
  | .endOfText => .finish
  | .rule r => .rule r
  | .seq p q => .seq p.pattern q.pattern
  | .choice p q => .choice p.pattern q.pattern
  | .optional p => .optional p.pattern
  | .many p => .many p.pattern

/-- A rule says the same of lexemes and of characters; only where a text starts cannot be
said of lexemes. -/
theorem pattern_body {r : Rule} (h : r ≠ .input) : r.body.pattern = r.pattern := by
  cases r <;> first | rfl | exact absurd rfl h

/-- Does a rule take at least a lexeme? -/
def Rule.advances : Rule → Bool
  | .endOfText => false
  | _ => true

/-- Does a phrase take at least a lexeme? -/
def Phrase.advances : Phrase → Bool
  | .lexeme _ => true
  | .endOfText => false
  | .rule r => r.advances
  | .seq p q => p.advances || q.advances
  | .choice p q => p.advances && q.advances
  | .optional _ | .many _ => false

theorem Forms.ne_nil {p : Phrase} {ls : List Lexeme} {trees : List Tree} (h : Forms p ls trees)
    (hp : p.advances = true) : ls ≠ [] := by
  induction h with
  | lexeme | leaf => exact List.cons_ne_nil _ _
  | @rule r ls trees _ _ _ _ ih =>
    apply ih
    cases r <;> first | rfl | cases hp
  | seq first second ih₁ ih₂ =>
    rw [Phrase.advances, Bool.or_eq_true] at hp
    rcases hp with hp | hp
    · exact List.append_ne_nil_of_left_ne_nil (ih₁ hp) _
    · exact List.append_ne_nil_of_right_ne_nil _ (ih₂ hp)
  | choice first ih =>
    rw [Phrase.advances, Bool.and_eq_true] at hp
    exact ih hp.1
  | otherwise second ih =>
    rw [Phrase.advances, Bool.and_eq_true] at hp
    exact ih hp.2
  | _ => cases hp

/-- How many rules there are below a rule, and with it, until a lexeme is taken. -/
def Rule.height : Rule → Nat
  | .group | .call | .arguments | .argument | .list => 2
  | .expression => 3
  | .input => 4
  | _ => 1

/-- How many rules there are in a phrase until a lexeme is taken.  Behind a lexeme there are
three more rules to go down. -/
def Phrase.height : Phrase → Nat
  | .lexeme _ | .endOfText => 0
  | .rule r => r.height
  | .seq p q => max p.height (if p.advances then q.height - 3 else q.height)
  | .choice p q => max p.height q.height
  | .optional p | .many p => p.height

theorem height_body (r : Rule) : r.body.height < r.height := by
  cases r with
  | connective | mark => exact Nat.zero_lt_one
  | _ => decide

/-- The phrases inside rules: they look for lexemes by their rules, and what they repeat
takes lexemes. -/
def Phrase.isProper : Phrase → Bool
  | .lexeme _ | .endOfText => false
  | .rule r => r != .input
  | .seq p q | .choice p q => p.isProper && q.isProper
  | .optional p => p.isProper
  | .many p => p.isProper && p.advances

theorem isProper_body {r : Rule} (hleaf : r.body ≠ .lexeme r) (hend : r ≠ .endOfText) :
    r.body.isProper = true := by
  cases r <;> first | rfl | exact absurd rfl hleaf | exact absurd rfl hend

/-! ### Agreement -/

/-- From the place `p`, with the lexemes `ls` behind it, a reader of characters comes to what
a reader of lexemes comes to that looks for a phrase in them. -/
inductive Agrees (text : String) (tokens : List Token) (p : Place) (phrase : Phrase)
    (ls : List Lexeme) : Option (List Lexeme) → Book → Finding → Prop where
  | found {taken ms : List Lexeme} {trees : List Tree} {rest : Place} {b B : Book}
      (row : ls = taken ++ ms) (forms : Forms phrase taken trees)
      (precedes : Precedes text tokens rest ms) (shorter : rest.left + taken.length ≤ p.left)
      (same : Same text tokens b B) :
      Agrees text tokens p phrase ls (some ms) b (.found trees rest B)
  | failed {b B : Book} (same : Same text tokens b B) :
      Agrees text tokens p phrase ls none b (.failed B)

section Agrees

variable {text : String} {tokens : List Token} {p start : Place} {phrase : Phrase} {r : Rule}
  {ls ms : List Lexeme} {result : Option (List Lexeme)} {b b' B : Book} {depth : Nat}

/-- The text has been read to a place, and goes on behind the blanks there. -/
theorem Precedes.next (h : Precedes text tokens p ls) :
    Precedes text tokens (Mode.skip .spaced p) ls ∧ Tight (Mode.skip .spaced p) :=
  ⟨h.skipBlanks, tight_skipBlanks p⟩

/-- A rule about single lexemes takes the lexeme that it fits. -/
theorem agrees_leaf (hbody : r.body = .lexeme r) (run : Runs (.lexeme r) ls b (some ms) b')
    (hprecedes : Precedes text tokens p ls) (htight : Tight p) (hsame : Same text tokens b B) :
    Agrees text tokens p (.rule r) ls (some ms) b'
      (Rule.read (width text.toList) (depth + 1) .spaced r p B) := by
  cases run with
  | @lexeme _ l _ _ fits =>
    obtain ⟨cs, hscan, hchars, hrest⟩ := hprecedes.exists_scan htight
    have hshorter : width cs + [l].length ≤ p.left := by
      have hpos := width_pos (chars_ne_nil_of_scan hscan)
      rw [p.left_eq, hchars, width_append, List.length_singleton]
      omega
    rw [read_leaf spaced_ne_atomic hbody hscan fits]
    exact .found rfl (.leaf hbody fits _) hrest hshorter hsame

/-- A rule about single lexemes fails before any other lexeme. -/
theorem agrees_noLeaf (hread : readAll text = .ok tokens) (hbody : r.body = .lexeme r)
    (run : Runs (.lexeme r) ls b none b') (hprecedes : Precedes text tokens p ls) (htight : Tight p)
    (hsame : Same text tokens b B) :
    Agrees text tokens p (.rule r) ls none (Book.note r ls.length b b')
      (Rule.read (width text.toList) (depth + 1) .spaced r p B) := by
  cases run with
  | noLexeme differs =>
    have hnone : ∀ l rest, scan p.chars = some (l, rest) → r.fits l = false := by
      intro l rest hscan
      cases ls with
      | nil =>
        rw [hprecedes.chars_eq_nil htight] at hscan
        cases hscan
      | cons l' ls =>
        obtain ⟨cs, hscan', -⟩ := hprecedes.exists_scan htight
        rw [hscan'] at hscan
        cases hscan
        exact differs _ rfl
    rw [read_noLeaf spaced_ne_atomic hbody hnone, hprecedes.left_eq htight]
    exact .failed (hsame.note hread r hsame hprecedes.length_le)

/-- The end of the text is found behind the last lexeme. -/
theorem agrees_end (run : Runs .endOfText ls b (some ms) b') (hprecedes : Precedes text tokens p ls)
    (htight : Tight p) (hsame : Same text tokens b B) :
    Agrees text tokens p (.rule .endOfText) ls (some ms) b'
      (Rule.read (width text.toList) (depth + 1) .spaced .endOfText p B) := by
  cases run with
  | endOfText =>
    have hleft : p.left = 0 := by
      rw [p.left_eq, hprecedes.chars_eq_nil htight, width_nil]
    have hfinding : Rule.read (width text.toList) (depth + 1) .spaced .endOfText p B
        = .found [.over (width text.toList) .endOfText p p []] p B := by
      rw [Rule.read, Rule.pattern, Pattern.read, if_pos hleft]
      rfl
    rw [hfinding]
    have hseveral : Rule.body .endOfText ≠ .lexeme .endOfText := by
      intro h
      cases h
    exact .found rfl (.rule hseveral _ _ .endOfText) hprecedes (Nat.le_refl _) hsame

/-- It is not found before a lexeme. -/
theorem agrees_noEnd (hread : readAll text = .ok tokens) (run : Runs .endOfText ls b none b')
    (hprecedes : Precedes text tokens p ls) (htight : Tight p) (hsame : Same text tokens b B) :
    Agrees text tokens p (.rule .endOfText) ls none (Book.note .endOfText ls.length b b')
      (Rule.read (width text.toList) (depth + 1) .spaced .endOfText p B) := by
  cases run with
  | @noEnd l ls =>
    have hle := hprecedes.length_le_left
    rw [List.length_cons] at hle
    have hfinding : Rule.read (width text.toList) (depth + 1) .spaced .endOfText p B
        = .failed (Book.note .endOfText p.left B B) := by
      rw [Rule.read, Rule.pattern, Pattern.read, if_neg (by omega)]
      rfl
    rw [hfinding, hprecedes.left_eq htight]
    exact .failed (hsame.note hread .endOfText hsame hprecedes.length_le)

/-- Any other rule is found with what is found inside it. -/
theorem Agrees.rule {finding : Finding} (hleaf : r.body ≠ .lexeme r)
    (h : Agrees text tokens p r.body ls (some ms) b finding) :
    Agrees text tokens p (.rule r) ls (some ms) b
      (finding.ofRule (width text.toList) .spaced r p B) := by
  cases h with
  | found row forms precedes shorter same =>
    exact .found row (.rule hleaf _ _ forms) precedes shorter same

/-- It fails where something inside it fails, and is noted. -/
theorem Agrees.noRule {finding : Finding} (hread : readAll text = .ok tokens)
    (hprecedes : Precedes text tokens p ls) (htight : Tight p) (hsame : Same text tokens b B)
    (h : Agrees text tokens p r.body ls none b' finding) :
    Agrees text tokens p (.rule r) ls none (Book.note r ls.length b b')
      (finding.ofRule (width text.toList) .spaced r p B) := by
  cases h with
  | failed same =>
    have hnote := hsame.note hread r same hprecedes.length_le
    rw [← hprecedes.left_eq htight] at hnote
    exact .failed hnote

/-- What is behind a first part is found behind it. -/
theorem Agrees.prepend {q : Phrase} {taken : List Lexeme} {trees : List Tree} {rest : Place}
    {finding : Finding} (row : ls = taken ++ ms) (forms : Forms phrase taken trees)
    (shorter : rest.left + taken.length ≤ p.left)
    (h : Agrees text tokens (Mode.skip .spaced rest) q ms result b finding) :
    Agrees text tokens p (.seq phrase q) ls result b (finding.prepend trees) := by
  have hskip := Mode.left_skip_le .spaced rest
  cases h with
  | @found taken' _ trees' rest' _ B' row' forms' precedes shorter' same =>
    refine .found ?_ (.seq forms forms') precedes ?_ same
    · rw [row, row', List.append_assoc]
    · rw [List.length_append]
      omega
  | failed same => exact .failed same

/-- The rounds behind a first one are found behind it. -/
theorem Agrees.again {taken : List Lexeme} {trees : List Tree} {rest : Place} {finding : Finding}
    (row : ls = taken ++ ms) (forms : Forms phrase taken trees)
    (shorter : rest.left + taken.length ≤ p.left)
    (h : Agrees text tokens rest (.many phrase) ms result b finding) :
    Agrees text tokens p (.many phrase) ls result b (finding.prepend trees) := by
  cases h with
  | @found taken' _ trees' rest' _ B' row' forms' precedes shorter' same =>
    refine .found ?_ (.many forms forms') precedes ?_ same
    · rw [row, row', List.append_assoc]
    · rw [List.length_append]
      omega
  | failed same => exact .failed same

/-- A repetition that is at its end gives back the blanks that were passed over. -/
theorem Agrees.back {body : Place → Book → Finding} (hp : Precedes text tokens p ls)
    (hstart : Precedes text tokens start ls) (hle : p.left ≤ start.left)
    (h : Agrees text tokens p phrase ls result b (rounds .spaced body p p B)) :
    Agrees text tokens start phrase ls result b (rounds .spaced body start p B) := by
  rw [rounds] at h ⊢
  -- only when the first round fails it matters where the repetition began
  cases hfinding : body p B with
  | failed B' =>
    rw [hfinding] at h
    cases h with
    | found row forms precedes shorter same =>
      rw [← precedes.unique hp] at hstart
      exact .found row forms hstart (by omega) same
  | gaveUp B' =>
    rw [hfinding] at h
    cases h
  | found trees rest B' =>
    rw [hfinding] at h
    simp only at h ⊢
    generalize (if rest.left < p.left then _ else Finding.gaveUp B') = finding at h ⊢
    cases h with
    | found row forms precedes shorter same => exact .found row forms precedes (by omega) same
    | failed same => exact .failed same

end Agrees

/-! ### Operators -/

section Operators

variable {text : String} {tokens : List Token} {p : Place} {q q' : Phrase} {ls ms : List Lexeme}
  {result : Option (List Lexeme)} {b b' B : Book} {finding : Finding}

/-- A reader goes on from `rest`, with what it has taken of the lexemes `ls` behind it, to the
lexemes `ms`. -/
structure Goes (text : String) (tokens : List Token) (q : Phrase) (ls ms : List Lexeme) (b : Book)
    (rest : Place) (B : Book) : Prop where
  taken : ∃ taken trees, ls = taken ++ ms ∧ Forms q taken trees
  precedes : Precedes text tokens rest ms
  same : Same text tokens b B

theorem Agrees.seq {next : Place → Book → Finding}
    (first : Agrees text tokens p q ls (some ms) b finding)
    (second : ∀ rest B, Goes text tokens q ls ms b rest B →
      Agrees text tokens (Mode.skip .spaced rest) q' ms result b' (next rest B)) :
    Agrees text tokens p (.seq q q') ls result b' (finding.andThen next) := by
  cases first with
  | found row forms precedes shorter same =>
    exact (second _ _ ⟨⟨_, _, row, forms⟩, precedes, same⟩).prepend row forms shorter

theorem Agrees.noSeq {next : Place → Book → Finding}
    (first : Agrees text tokens p q ls none b finding) :
    Agrees text tokens p (.seq q q') ls none b (finding.andThen next) := by
  cases first with
  | failed same => exact .failed same

theorem Agrees.choice {next : Book → Finding}
    (first : Agrees text tokens p q ls (some ms) b finding) :
    Agrees text tokens p (.choice q q') ls (some ms) b (finding.orElse next) := by
  cases first with
  | found row forms precedes shorter same => exact .found row (.choice forms) precedes shorter same

theorem Agrees.otherwise {next : Book → Finding}
    (first : Agrees text tokens p q ls none b finding)
    (second : ∀ B, Same text tokens b B → Agrees text tokens p q' ls result b' (next B)) :
    Agrees text tokens p (.choice q q') ls result b' (finding.orElse next) := by
  cases first with
  | @failed _ B same =>
    have hsecond := second B same
    show Agrees text tokens p (.choice q q') ls result b' (next B)
    generalize next B = finding at hsecond
    cases hsecond with
    | found row forms precedes shorter same =>
      exact .found row (.otherwise forms) precedes shorter same
    | failed same => exact .failed same

theorem Agrees.optional {next : Book → Finding}
    (body : Agrees text tokens p q ls (some ms) b finding) :
    Agrees text tokens p (.optional q) ls (some ms) b (finding.orElse next) := by
  cases body with
  | found row forms precedes shorter same =>
    exact .found row (.optional forms) precedes shorter same

theorem Agrees.absent (hprecedes : Precedes text tokens p ls)
    (body : Agrees text tokens p q ls none b finding) :
    Agrees text tokens p (.optional q) ls (some ls) b (finding.orElse fun B => .found [] p B) := by
  cases body with
  | failed same => exact .found rfl .absent hprecedes (Nat.le_refl _) same

theorem Agrees.many {body : Place → Book → Finding} (hadvances : q.advances = true)
    (first : Agrees text tokens p q ls (some ms) b (body p B))
    (more : ∀ rest B, Goes text tokens q ls ms b rest B →
      Agrees text tokens (Mode.skip .spaced rest) (.many q) ms result b'
        (rounds .spaced body (Mode.skip .spaced rest) (Mode.skip .spaced rest) B)) :
    Agrees text tokens p (.many q) ls result b' (rounds .spaced body p p B) := by
  rw [rounds]
  generalize body p B = finding at first ⊢
  cases first with
  | @found taken _ trees rest _ B' row forms precedes shorter same =>
    have hpos := List.length_pos_iff.2 (forms.ne_nil hadvances)
    have hmore := (more rest B' ⟨⟨_, _, row, forms⟩, precedes, same⟩).back precedes.next.1 precedes
      (Mode.left_skip_le _ _)
    show Agrees _ _ _ _ _ _ _ (if rest.left < p.left then _ else _)
    rw [if_pos (by omega)]
    exact hmore.again row forms shorter

theorem Agrees.noMore {body : Place → Book → Finding} (hprecedes : Precedes text tokens p ls)
    (first : Agrees text tokens p q ls none b (body p B)) :
    Agrees text tokens p (.many q) ls (some ls) b (rounds .spaced body p p B) := by
  rw [rounds]
  generalize body p B = finding at first ⊢
  cases first with
  | failed same => exact .found rfl .noMore hprecedes (Nat.le_refl _) same

end Operators

/-! ### Depth -/

theorem exists_depth {r : Rule} {n depth : Nat} (h : 3 * n + (Phrase.rule r).height ≤ depth) :
    ∃ d, depth = d + 1 := by
  have hheight := height_body r
  rw [Phrase.height] at h
  exact ⟨depth - 1, by omega⟩

theorem height_body_le {r : Rule} {n depth : Nat}
    (h : 3 * n + (Phrase.rule r).height ≤ depth + 1) : 3 * n + r.body.height ≤ depth := by
  have hheight := height_body r
  rw [Phrase.height] at h
  omega

theorem height_left_le {p q : Phrase} {n depth : Nat}
    (h : 3 * n + (Phrase.seq p q).height ≤ depth) : 3 * n + p.height ≤ depth := by
  rw [Phrase.height] at h
  omega

/-- Behind a part that takes lexemes there is room for more rules. -/
theorem Goes.height_le {text : String} {tokens : List Token} {p q : Phrase} {ls ms : List Lexeme}
    {b B : Book} {rest : Place} {depth : Nat} (goes : Goes text tokens p ls ms b rest B)
    (h : 3 * ls.length + (Phrase.seq p q).height ≤ depth) : 3 * ms.length + q.height ≤ depth := by
  obtain ⟨taken, trees, row, forms⟩ := goes.taken
  rw [Phrase.height] at h
  rw [row, List.length_append] at h
  -- a lexeme that is taken pays for three rules
  by_cases hp : p.advances = true
  · have hpos := List.length_pos_iff.2 (forms.ne_nil hp)
    rw [if_pos hp] at h
    omega
  · rw [if_neg hp] at h
    omega

theorem Goes.length_le {text : String} {tokens : List Token} {q : Phrase} {ls ms : List Lexeme}
    {b B : Book} {rest : Place} (goes : Goes text tokens q ls ms b rest B) :
    ms.length ≤ ls.length := by
  obtain ⟨taken, trees, rfl, -⟩ := goes.taken
  rw [List.length_append]
  omega

theorem height_choice_le {p q : Phrase} {n depth : Nat}
    (h : 3 * n + (Phrase.choice p q).height ≤ depth) :
    3 * n + p.height ≤ depth ∧ 3 * n + q.height ≤ depth := by
  rw [Phrase.height] at h
  omega

theorem inside_of_several {r : Rule} (h : r.body ≠ .lexeme r) :
    Mode.inside .spaced r = .spaced := by
  cases r <;> first | rfl | exact absurd rfl h

/-- What a reader of lexemes comes to in the lexemes behind a place, a reader of characters
comes to from the place on. -/
theorem agrees_of_runs {text : String} {tokens : List Token} (hread : readAll text = .ok tokens)
    {phrase : Phrase} {ls : List Lexeme} {result : Option (List Lexeme)} {b b' : Book}
    (run : Runs phrase ls b result b') (hproper : phrase.isProper = true) {depth : Nat}
    (hdepth : 3 * ls.length + phrase.height ≤ depth) {p : Place}
    (hprecedes : Precedes text tokens p ls) (htight : Tight p) {B : Book}
    (hsame : Same text tokens b B) :
    Agrees text tokens p phrase ls result b'
      (phrase.pattern.read (width text.toList) (Rule.read (width text.toList) depth) .spaced p
        B) := by
  -- along the run of the reader of lexemes
  induction run generalizing depth p B with
  | lexeme | noLexeme | endOfText | noEnd => cases hproper
  | @rule r ls ms b b' body ih =>
    obtain ⟨depth, rfl⟩ : ∃ d, depth = d + 1 := exists_depth hdepth
    -- a rule about single lexemes and the end of the text read characters, the others go down
    by_cases hleaf : r.body = .lexeme r
    · rw [hleaf] at body
      exact agrees_leaf hleaf body hprecedes htight hsame
    · by_cases hend : r = .endOfText
      · subst hend
        exact agrees_end body hprecedes htight hsame
      · have hbody := ih (isProper_body hleaf hend) (height_body_le hdepth) hprecedes htight hsame
        rw [pattern_body (bne_iff_ne.1 hproper)] at hbody
        rw [Phrase.pattern, Pattern.read, Rule.read, inside_of_several hleaf]
        exact hbody.rule hleaf
  | @noRule r ls b b' body ih =>
    obtain ⟨depth, rfl⟩ : ∃ d, depth = d + 1 := exists_depth hdepth
    by_cases hleaf : r.body = .lexeme r
    · rw [hleaf] at body
      exact agrees_noLeaf hread hleaf body hprecedes htight hsame
    · by_cases hend : r = .endOfText
      · subst hend
        exact agrees_noEnd hread body hprecedes htight hsame
      · have hbody := ih (isProper_body hleaf hend) (height_body_le hdepth) hprecedes htight hsame
        rw [pattern_body (bne_iff_ne.1 hproper)] at hbody
        rw [Phrase.pattern, Pattern.read, Rule.read, inside_of_several hleaf]
        exact hbody.noRule hread hprecedes htight hsame
  | @seq q q' ls ms result b b' b'' first second ih₁ ih₂ =>
    obtain ⟨hq, hq'⟩ := Bool.and_eq_true_iff.1 hproper
    refine (ih₁ hq (height_left_le hdepth) hprecedes htight hsame).seq fun rest B' goes => ?_
    obtain ⟨hnext, htight'⟩ := goes.precedes.next
    exact ih₂ hq' (goes.height_le hdepth) hnext htight' goes.same
  | @noSeq q q' ls b b' first ih =>
    have hq := (Bool.and_eq_true_iff.1 hproper).1
    exact (ih hq (height_left_le hdepth) hprecedes htight hsame).noSeq
  | @choice q q' ls ms b b' first ih =>
    have hq := (Bool.and_eq_true_iff.1 hproper).1
    exact (ih hq (height_choice_le hdepth).1 hprecedes htight hsame).choice
  | @otherwise q q' ls result b b' b'' first second ih₁ ih₂ =>
    obtain ⟨hq, hq'⟩ := Bool.and_eq_true_iff.1 hproper
    obtain ⟨hd, hd'⟩ := height_choice_le hdepth
    exact (ih₁ hq hd hprecedes htight hsame).otherwise fun B' same =>
      ih₂ hq' hd' hprecedes htight same
  | optional body ih => exact (ih hproper hdepth hprecedes htight hsame).optional
  | absent body ih => exact (ih hproper hdepth hprecedes htight hsame).absent hprecedes
  | @many q ls ms result b b' b'' first more ih₁ ih₂ =>
    obtain ⟨hq, hadvances⟩ := Bool.and_eq_true_iff.1 hproper
    refine (ih₁ hq hdepth hprecedes htight hsame).many hadvances fun rest B' goes => ?_
    obtain ⟨hnext, htight'⟩ := goes.precedes.next
    have hlength := goes.length_le
    exact ih₂ hproper (by omega) hnext htight' goes.same
  | noMore first ih =>
    have hq := (Bool.and_eq_true_iff.1 hproper).1
    exact (ih hq hdepth hprecedes htight hsame).noMore hprecedes

end Sigil.Descent
