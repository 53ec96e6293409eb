import Sigil.Proofs.Descent.Arguments

/-! # Expressions by descent

    A reader by descent goes wrong where the reading stops, and its book
    then holds what is tried at the stop (`Descent.runs_input`).  Operands
    and expressions can end too early: a connective is taken back with the
    operand behind it, and a parenthesis with the arguments that fail
    behind it.  Then the book is ahead of the place where they end, and
    nothing that could come there begins with such a lexeme. -/

namespace Sigil.Descent

open Reading

/-! ### Operands -/

/-- What has been tried for the sake of an operand behind it. -/
def triedFor (r : Reading) : List Rule :=
  match r.site with
  | .called _ => [.mark .openParen]
  | _ => []

theorem tried_of_operand? {r : Reading} {x : Expr} (h : r.operand? = some x) :
    tried r = triedFor r ++ binaries.map .connective ++ [ending r] := by
  obtain ⟨g, outer, site⟩ := r
  cases site with
  | called s => rfl
  | complete x => rfl
  | _ => cases h

/-- An operand is followed.  It ends, and only arguments have been tried behind it; or it is
cut off before the arguments in which the reading is stuck; or it fails. -/
inductive FollowsOperand (p : Phrase) (r : Reading) (ls : List Lexeme) (b : Book) : Prop where
  | ends {ms : List Lexeme} {r' : Reading} {x : Expr} {b' : Book}
      (run : Runs p ls b (some ms) b') (passes : Passes r ls ms r')
      (operand : r'.operand? = some x) (outer : r'.outer = r.outer)
      (holds : b'.Holds ms.length (triedFor r'))
      (alone : ∀ s, r'.site = .called s → ms.head? ≠ some (.mark .openParen))
  | cut {ms : List Lexeme} {b' : Book} (run : Runs p ls b (some ms) b')
      (paren : ms.head? = some (.mark .openParen)) (ahead : b'.left < ms.length)
      (stuck : Stuck r ls b')
  | stuck {b' : Book} (run : Runs p ls b none b') (ahead : b'.left < ls.length)
      (stuck : Stuck r ls b')

theorem FollowsOperand.seq {p q : Phrase} {r r' : Reading} {ls ms : List Lexeme} {b b' : Book}
    (first : Runs p ls b (some ms) b') (passes : Passes r ls ms r') (houter : r'.outer = r.outer)
    (h : FollowsOperand q r' ms b') : FollowsOperand (.seq p q) r ls b := by
  have hle := passes.length_le
  cases h with
  | ends run passes' operand houter' holds alone =>
    exact .ends (.seq first run) (passes.trans passes') operand (houter'.trans houter) holds alone
  | cut run paren ahead stuck =>
    exact .cut (.seq first run) paren ahead (stuck.of_passes passes)
  | stuck run ahead stuck =>
    exact .stuck (.seq first run) (Nat.lt_of_lt_of_le ahead hle) (stuck.of_passes passes)

/-- An expression, or what comes behind its first operand, is followed.  It ends, and only
connectives have been tried after that; or it is cut off where the reading is stuck further
on; or it fails. -/
inductive FollowsExpression (p : Phrase) (r : Reading) (ls : List Lexeme) (b : Book) : Prop where
  | ends {ms : List Lexeme} {r' : Reading} {x : Expr} {b' : Book}
      (run : Runs p ls b (some ms) b') (passes : Passes r ls ms r')
      (operand : r'.operand? = some x) (outer : r'.outer = r.outer)
      (holds : b'.Holds ms.length (triedFor r' ++ binaries.map .connective))
      (stop : ∀ l ∈ ms.head?, l ≠ .mark .closeParen → r'.step l = none)
  | cut {ms : List Lexeme} {l : Lexeme} {b' : Book} (run : Runs p ls b (some ms) b')
      (head : ms.head? = some l) (differs : l ≠ .mark .closeParen)
      (ahead : b'.left < ms.length) (stuck : Stuck r ls b')
  | stuck {b' : Book} (run : Runs p ls b none b') (stuck : Stuck r ls b')

theorem openParen_ne_closeParen : Lexeme.mark .openParen ≠ .mark .closeParen := by
  decide

theorem connective_ne_mark (c : Connective) (m : Mark) : Lexeme.connective c ≠ .mark m := by
  intro h
  cases h

section Operands

variable {g : Group} {outer : List Group} {ls : List Lexeme} {b : Book} {failed : List Rule}

theorem runs_noCall (hsymbol : ∀ l ∈ ls.head?, Rule.fits .symbol l = false)
    (hb : b.Holds ls.length failed) :
    Runs (.rule .call) ls b none ⟨ls.length, failed ++ [.symbol]⟩ := by
  have hcall := Runs.noRule (r := .call) (.noSeq (runs_noLeaf_here rfl hsymbol hb))
  rwa [hb.note_one] at hcall

/-- A symbol is followed, with its arguments if it has any. -/
theorem follows_symbol (s : Symbol) (hb : b.Holds (ls.length + 1) failed) :
    FollowsOperand .primary ⟨g, outer, .operand⟩ (.symbol s :: ls) b := by
  have hstep : Reading.step ⟨g, outer, .operand⟩ (.symbol s) = some ⟨g, outer, .called s⟩ := rfl
  have hsymbol : Runs (.rule .symbol) (.symbol s :: ls) b (some ls) b := runs_leaf rfl rfl
  have hfresh := hb.further (Nat.lt_succ_self ls.length)
  by_cases hhead : ls.head? = some (.mark .openParen)
  · obtain ⟨ls, rfl⟩ := List.head?_eq_some_iff.1 hhead
    have hstep' : Reading.step ⟨g, outer, .called s⟩ (.mark .openParen)
        = some ⟨g, outer, .name s .empty⟩ := rfl
    cases follows_arguments g outer s (hfresh.further (Nat.lt_succ_self ls.length)) with
    | fits run passes ended fresh =>
      obtain ⟨x, rfl⟩ := ended
      exact .ends (.choice (.rule (.seq hsymbol (.optional run))))
        (.step hstep (.step hstep' passes)) rfl rfl fresh nofun
    | stuck run stuck =>
      exact .cut (.choice (.rule (.seq hsymbol (.absent run)))) rfl
        (Nat.lt_succ_of_le stuck.left_le) ((stuck.step hstep').step hstep)
  · have hnone := runs_noOpen (r := .arguments) rfl (differs_of_head?_ne hhead) hfresh
    exact .ends (.choice (.rule (.seq hsymbol (.absent hnone)))) (.step hstep (.refl _ ls)) rfl rfl
      (Book.holds_self _ _) (fun _ _ => hhead)

/-- A group is followed behind its parenthesis when the expression in it is. -/
theorem follows_group
    (h : FollowsExpression (.rule .expression) ⟨.fresh, g :: outer, .operand⟩ ls b) :
    FollowsBehind .openParen .group ⟨.fresh, g :: outer, .operand⟩ (Completed g outer) ls b := by
  have hclose : ∀ {ms b'}, Runs (.rule .expression) ls b (some ms) b' →
      FollowsClose .closeParen ⟨.fresh, g :: outer, .operand⟩ (Completed g outer) ls ms b' →
      FollowsBehind .openParen .group ⟨.fresh, g :: outer, .operand⟩ (Completed g outer) ls b :=
    fun run hclose => hclose.behind rfl run
  cases h with
  | @ends ms r' x b' run passes operand houter holds stop =>
    refine hclose run ?_
    obtain ⟨g', outer', site⟩ := r'
    obtain rfl : outer' = g :: outer := houter
    by_cases hhead : ms.head? = some (.mark .closeParen)
    · obtain ⟨ns, rfl⟩ := List.head?_eq_some_iff.1 hhead
      have hstep : Reading.step ⟨g', g :: outer, site⟩ (.mark .closeParen)
          = some ⟨g, outer, .complete (g'.close x)⟩ :=
        step_of_operand? operand openParen_ne_closeParen.symm
      exact .fits (runs_leaf rfl rfl) (passes.trans (.step hstep (.refl _ ns))) ⟨_, rfl⟩
        (holds.further (Nat.lt_succ_self ns.length))
    · refine .stuck (runs_noLeaf_here rfl (differs_of_head?_ne hhead) holds) ?_
      have htried : tried ⟨g', g :: outer, site⟩
          = triedFor ⟨g', g :: outer, site⟩ ++ binaries.map .connective ++ [.mark .closeParen] :=
        tried_of_operand? operand
      rw [← htried]
      refine Stuck.of_passes passes (.here fun l hl => stop l hl ?_)
      rintro rfl
      exact hhead hl
  | @cut ms l b' run head differs ahead stuck =>
    refine hclose run (.stuck (runs_noLeaf_before rfl (differs_of_head?_ne ?_) ahead) stuck)
    rw [head]
    intro heq
    exact differs (Option.some.inj heq)
  | stuck run stuck => exact .stuck (runs_noEnclosed rfl (.noSeq run) stuck.left_le) stuck

/-- Groups and symbols are followed, and nothing else is tried. -/
theorem follows_primary (g : Group) (outer : List Group) (hb : b.Holds ls.length failed)
    (hexpression : ∀ outer ms b, ms.length < ls.length → b.Holds ms.length [] →
      FollowsExpression (.rule .expression) ⟨.fresh, outer, .operand⟩ ms b) :
    FollowsOperand .primary ⟨g, outer, .operand⟩ ls b ∨
      (∀ s, ls.head? ≠ some (.symbol s)) ∧ ls.head? ≠ some (.mark .openParen) ∧
        Runs .primary ls b none ⟨ls.length, failed ++ [.symbol] ++ [.mark .openParen]⟩ := by
  by_cases hsymbol : ∃ s, ls.head? = some (.symbol s)
  · obtain ⟨s, hs⟩ := hsymbol
    obtain ⟨rest, rfl⟩ := List.head?_eq_some_iff.1 hs
    exact .inl (follows_symbol s hb)
  · have hnone : ∀ l ∈ ls.head?, Rule.fits .symbol l = false := by
      intro l hl
      cases l with
      | symbol s => exact absurd ⟨s, hl⟩ hsymbol
      | _ => rfl
    have hcall := runs_noCall hnone hb
    by_cases hparen : ls.head? = some (.mark .openParen)
    · obtain ⟨ls, rfl⟩ := List.head?_eq_some_iff.1 hparen
      have hstep : Reading.step ⟨g, outer, .operand⟩ (.mark .openParen)
          = some ⟨.fresh, g :: outer, .operand⟩ := rfl
      have hlt := Nat.lt_succ_self ls.length
      refine .inl ?_
      have hfresh := (Book.holds_self (Lexeme.mark .openParen :: ls).length
        (failed ++ [.symbol])).further hlt
      cases follows_group (hexpression (g :: outer) ls _ hlt hfresh) with
      | fits run passes ended fresh =>
        obtain ⟨x, rfl⟩ := ended
        exact .ends (.otherwise hcall run) (.step hstep passes) rfl rfl fresh nofun
      | stuck run stuck =>
        exact .stuck (.otherwise hcall run) (Nat.lt_succ_of_le stuck.left_le) (stuck.step hstep)
    · exact .inr ⟨fun s hs => hsymbol ⟨s, hs⟩, hparen, .otherwise hcall
        (runs_noOpen (r := .group) rfl (differs_of_head?_ne hparen) (Book.holds_self _ _))⟩

/-- An operand is followed, with the `¬` before it if there is one. -/
theorem follows_operand (waiting : List (Expr × Connective)) (outer : List Group)
    (hb : b.Holds ls.length [])
    (hexpression : ∀ outer ms b, ms.length < ls.length → b.Holds ms.length [] →
      FollowsExpression (.rule .expression) ⟨.fresh, outer, .operand⟩ ms b) :
    FollowsOperand .operand ⟨⟨waiting, false⟩, outer, .operand⟩ ls b ∨
      (∀ l ∈ ls.head?, Reading.step ⟨⟨waiting, false⟩, outer, .operand⟩ l = none) ∧
        Runs .operand ls b none
          ⟨ls.length, [.connective .not, .symbol, .mark .openParen]⟩ := by
  by_cases hnot : ls.head? = some (.connective .not)
  · obtain ⟨ls, rfl⟩ := List.head?_eq_some_iff.1 hnot
    have hstep : Reading.step ⟨⟨waiting, false⟩, outer, .operand⟩ (.connective .not)
        = some ⟨⟨waiting, true⟩, outer, .operand⟩ := rfl
    have hlt := Nat.lt_succ_self ls.length
    have hsign : Runs (.optional (.rule (.connective .not))) (.connective .not :: ls) b
        (some ls) b := .optional (runs_leaf rfl rfl)
    have hshorter : ∀ outer ms b, ms.length < ls.length → b.Holds ms.length [] →
        FollowsExpression (.rule .expression) ⟨.fresh, outer, .operand⟩ ms b := by
      intro outer ms b hms
      exact hexpression outer ms b (Nat.lt_trans hms hlt)
    refine .inl ?_
    rcases follows_primary ⟨waiting, true⟩ outer (hb.further hlt) hshorter with
      h | ⟨hsymbol, hparen, run⟩
    · exact h.seq hsign (.step hstep (.refl _ ls)) rfl
    · have hstop : ∀ l ∈ ls.head?, Reading.step ⟨⟨waiting, true⟩, outer, .operand⟩ l = none := by
        intro l hl
        rcases l with _ | _ | _ | ⟨⟨⟩⟩ | ⟨⟨⟩⟩ <;>
          first | rfl | exact absurd hl (hsymbol _) | exact absurd hl hparen
      have hstuck : Stuck ⟨⟨waiting, true⟩, outer, .operand⟩ ls _ := .here hstop
      exact .stuck (.seq hsign run) hlt (hstuck.step hstep)
  · have hdiffers : ∀ l ∈ ls.head?, Rule.fits (.connective .not) l = false := by
      intro l hl
      cases l with
      | connective c =>
        refine beq_false_of_ne ?_
        rintro rfl
        exact hnot hl
      | _ => rfl
    have hsign : Runs (.optional (.rule (.connective .not))) ls b (some ls)
        ⟨ls.length, [.connective .not]⟩ := .absent (runs_noLeaf_here rfl hdiffers hb)
    rcases follows_primary ⟨waiting, false⟩ outer (Book.holds_self ls.length [.connective .not])
        hexpression with h | ⟨hsymbol, hparen, run⟩
    · exact .inl (h.seq hsign (.refl _ ls) rfl)
    · refine .inr ⟨fun l hl => ?_, .seq hsign run⟩
      rcases l with _ | _ | _ | ⟨⟨⟩⟩ | ⟨⟨⟩⟩ <;>
        first | rfl | exact absurd hl (hsymbol _) | exact absurd hl hparen | exact absurd hl hnot

/-! ### Connectives -/

theorem runs_noOneOf {c : Connective} {cs : List Connective}
    (hdiffers : ∀ d ∈ c :: cs, ∀ l ∈ ls.head?, Rule.fits (.connective d) l = false)
    (hb : b.Holds ls.length failed) :
    Runs (.oneOf c cs) ls b none ⟨ls.length, failed ++ (c :: cs).map .connective⟩ := by
  induction cs generalizing c b failed with
  | nil => exact runs_noLeaf_here rfl (hdiffers c List.mem_cons_self) hb
  | cons d ds ih =>
    have hfirst := runs_noLeaf_here rfl (hdiffers c List.mem_cons_self) hb
    have hrest := ih (fun d hd => hdiffers d (List.mem_cons_of_mem c hd))
      (Book.holds_self ls.length (failed ++ [.connective c]))
    rw [List.append_assoc] at hrest
    exact .otherwise hfirst hrest

theorem runs_noOneOf_before {c : Connective} {cs : List Connective}
    (hdiffers : ∀ d ∈ c :: cs, ∀ l ∈ ls.head?, Rule.fits (.connective d) l = false)
    (hb : b.left < ls.length) : Runs (.oneOf c cs) ls b none b := by
  induction cs generalizing c with
  | nil => exact runs_noLeaf_before rfl (hdiffers c List.mem_cons_self) hb
  | cons d ds ih =>
    exact .otherwise (runs_noLeaf_before rfl (hdiffers c List.mem_cons_self) hb)
      (ih fun d hd => hdiffers d (List.mem_cons_of_mem c hd))

theorem runs_oneOf {c d : Connective} {cs : List Connective} (hd : d ∈ c :: cs)
    (hb : b.Holds (ls.length + 1) failed) :
    ∃ b', Runs (.oneOf c cs) (.connective d :: ls) b (some ls) b' ∧ b'.Holds ls.length [] := by
  induction cs generalizing c b failed with
  | nil =>
    obtain rfl := List.mem_singleton.1 hd
    exact ⟨b, runs_leaf rfl (beq_self_eq_true d), hb.further (Nat.lt_succ_self ls.length)⟩
  | cons e es ih =>
    by_cases heq : c = d
    · subst heq
      exact ⟨b, .choice (runs_leaf rfl (beq_self_eq_true c)), hb.further (Nat.lt_succ_self _)⟩
    · have hdiffers : Rule.fits (.connective c) (.connective d) = false := beq_false_of_ne heq
      have hfirst : Runs (.rule (.connective c)) (.connective d :: ls) b none
          ⟨(Lexeme.connective d :: ls).length, failed ++ [.connective c]⟩ :=
        runs_noLeaf_here rfl (differs_cons hdiffers ls) hb
      have hmem : d ∈ e :: es := (List.mem_cons.1 hd).resolve_left (Ne.symm heq)
      obtain ⟨b', run, fresh⟩ := ih hmem (Book.holds_self _ _)
      exact ⟨b', .otherwise hfirst run, fresh⟩

theorem differs_of_noBinary (h : ∀ c : Connective, c.isUnary = false →
    ls.head? ≠ some (.connective c)) :
    ∀ c ∈ binaries, ∀ l ∈ ls.head?, Rule.fits (.connective c) l = false := by
  intro c hc l hl
  cases l with
  | connective d =>
    refine beq_false_of_ne ?_
    rintro rfl
    refine h c ?_ hl
    cases c <;> first | rfl | simp [binaries] at hc
  | _ => rfl

/-- Behind an operand, what is no connective and no parenthesis has no place. -/
theorem step_eq_none {r : Reading} {x : Expr} {l : Lexeme} (hx : r.operand? = some x)
    (hclose : l ≠ .mark .closeParen)
    (hopen : ∀ s, r.site = .called s → l ≠ .mark .openParen)
    (hbinary : ∀ c : Connective, c.isUnary = false → l ≠ .connective c) : r.step l = none := by
  have hafter : ∀ y, r.afterOperand y l = none := by
    intro y
    cases l with
    | connective c =>
      have hunary : c.isUnary = true := by
        rw [← Bool.not_eq_false]
        exact fun h => hbinary c h rfl
      rw [afterOperand, if_pos hunary]
    | mark m => cases m <;> first | rfl | exact absurd rfl hclose
    | _ => rfl
  obtain ⟨g, outer, site⟩ := r
  cases site with
  | called s => rw [step_of_operand? rfl (hopen s rfl), hafter]
  | complete y => exact hafter y
  | _ => cases hx

/-- The end of what can come behind an operand. -/
theorem noMore_of_noBinary {r : Reading} {x : Expr} (hx : r.operand? = some x)
    (hb : b.Holds ls.length (triedFor r))
    (halone : ∀ s, r.site = .called s → ls.head? ≠ some (.mark .openParen))
    (hbinary : ∀ c : Connective, c.isUnary = false → ls.head? ≠ some (.connective c)) :
    FollowsExpression (.many (.seq .binary .operand)) r ls b := by
  have hnone := runs_noOneOf (differs_of_noBinary hbinary) hb
  refine .ends (.noMore (.noSeq hnone)) (.refl r ls) hx rfl (Book.holds_self _ _) ?_
  intro l hl hclose
  refine step_eq_none hx hclose ?_ ?_
  · rintro s hs rfl
    exact halone s hs hl
  · rintro c hc rfl
    exact hbinary c hc hl

/-- Before the parenthesis of arguments that fail there is no connective. -/
theorem noMore_of_paren (hparen : ls.head? = some (.mark .openParen)) (ahead : b.left < ls.length) :
    Runs (.many (.seq .binary .operand)) ls b (some ls) b := by
  refine .noMore (.noSeq (runs_noOneOf_before (differs_of_noBinary ?_) ahead))
  intro c _ hconnective
  rw [hparen] at hconnective
  exact connective_ne_mark c _ (Option.some.inj hconnective).symm

/-- What comes behind an operand is followed: connectives, each with another operand. -/
theorem follows_operands {n : Nat}
    (hexpression : ∀ outer ms b, ms.length < n → b.Holds ms.length [] →
      FollowsExpression (.rule .expression) ⟨.fresh, outer, .operand⟩ ms b)
    {r : Reading} {x : Expr} (hx : r.operand? = some x) (hn : ls.length ≤ n)
    (hb : b.Holds ls.length (triedFor r))
    (halone : ∀ s, r.site = .called s → ls.head? ≠ some (.mark .openParen)) :
    FollowsExpression (.many (.seq .binary .operand)) r ls b := by
  induction hlength : ls.length using Nat.strongRecOn generalizing ls b r x with
  | ind m ih =>
    subst hlength
    by_cases hbinary : ∃ c : Connective, c.isUnary = false ∧ ls.head? = some (.connective c)
    · obtain ⟨c, hc, hhead⟩ := hbinary
      obtain ⟨ls, rfl⟩ := List.head?_eq_some_iff.1 hhead
      have hlt : ls.length < (Lexeme.connective c :: ls).length := Nat.lt_succ_self _
      have hmem : c ∈ binaries := by
        cases c <;> first | decide | cases hc
      obtain ⟨b₁, hconnective, fresh⟩ := runs_oneOf hmem hb
      have hstep : r.step (.connective c) = some ⟨r.group.push x c, r.outer, .operand⟩ := by
        have hne : Lexeme.connective c ≠ .mark .openParen := connective_ne_mark c .openParen
        rw [step_of_operand? hx hne, afterOperand, hc]
        rfl
      have hpasses : Passes r (.connective c :: ls) ls ⟨r.group.push x c, r.outer, .operand⟩ :=
        .step hstep (.refl _ ls)
      have hshorter : ∀ outer ms b, ms.length < ls.length → b.Holds ms.length [] →
          FollowsExpression (.rule .expression) ⟨.fresh, outer, .operand⟩ ms b :=
        fun outer ms b hms => hexpression outer ms b (by omega)
      -- the connective is taken back with the operand behind it
      have hback : ∀ {b'}, Runs .operand ls b₁ none b' →
          Stuck ⟨r.group.push x c, r.outer, .operand⟩ ls b' →
          FollowsExpression (.many (.seq .binary .operand)) r (.connective c :: ls) b :=
        fun run stuck => .cut (.noMore (.seq hconnective run)) rfl (connective_ne_mark c _)
          (Nat.lt_succ_of_le stuck.left_le) (stuck.of_passes hpasses)
      rcases follows_operand _ r.outer fresh hshorter with h | ⟨hstop, run⟩
      · cases h with
        | @ends ms r' y b₂ run passes operand houter holds alone =>
          have hle := passes.length_le
          have hpasses' := hpasses.trans passes
          cases ih ms.length (by omega) operand (by omega) holds alone rfl with
          | ends run' passes' operand' houter' holds' stop =>
            exact .ends (.many (.seq hconnective run) run') (hpasses'.trans passes') operand'
              (houter'.trans houter) holds' stop
          | cut run' head differs ahead stuck =>
            exact .cut (.many (.seq hconnective run) run') head differs ahead
              (stuck.of_passes hpasses')
          | stuck run' stuck =>
            exact .stuck (.many (.seq hconnective run) run') (stuck.of_passes hpasses')
        | cut run paren ahead stuck =>
          exact .cut (.many (.seq hconnective run) (noMore_of_paren paren ahead)) paren
            openParen_ne_closeParen ahead (stuck.of_passes hpasses)
        | stuck run ahead stuck => exact hback run stuck
      · exact hback run (.here hstop)
    · exact noMore_of_noBinary hx hb halone fun c hc hl => hbinary ⟨c, hc, hl⟩

theorem not_runs_many_none {p : Phrase} {b' : Book} : ¬ Runs (.many p) ls b none b' := by
  intro h
  generalize hphrase : Phrase.many p = q at h
  generalize hresult : (none : Option (List Lexeme)) = result at h
  induction h with
  | many first more _ ih => exact ih hphrase hresult
  | noMore => cases hresult
  | _ => cases hphrase

/-- An expression is followed from the start of its group. -/
theorem follows_expression (outer : List Group) (hb : b.Holds ls.length []) :
    FollowsExpression (.rule .expression) ⟨.fresh, outer, .operand⟩ ls b := by
  -- by the length of the row, since a group holds an expression that is shorter
  induction hlength : ls.length using Nat.strongRecOn generalizing outer ls b with
  | ind n ih =>
    subst hlength
    have hshorter : ∀ outer ms b, ms.length < ls.length → b.Holds ms.length [] →
        FollowsExpression (.rule .expression) ⟨.fresh, outer, .operand⟩ ms b :=
      fun outer ms b hms hb => ih ms.length hms outer hb rfl
    rcases follows_operand [] outer hb hshorter with h | ⟨hstop, run⟩
    · cases h with
      | ends run passes operand houter holds alone =>
        cases follows_operands hshorter operand passes.length_le holds alone with
        | ends run' passes' operand' houter' holds' stop =>
          exact .ends (.rule (.seq run run')) (passes.trans passes') operand'
            (houter'.trans houter) holds' stop
        | cut run' head differs ahead stuck =>
          exact .cut (.rule (.seq run run')) head differs ahead (stuck.of_passes passes)
        | stuck run' => exact absurd run' not_runs_many_none
      | cut run paren ahead stuck =>
        exact .cut (.rule (.seq run (noMore_of_paren paren ahead))) paren openParen_ne_closeParen
          ahead stuck
      | stuck run ahead stuck =>
        have hrun := Runs.noRule (r := .expression) (.noSeq run)
        rw [Book.note_of_lt .expression ahead] at hrun
        exact .stuck hrun stuck
    · -- what was tried for the operand goes under the name of the expression
      have hrun := Runs.noRule (r := .expression) (.noSeq run)
      have hseveral : 2 ≤ [Rule.connective .not, .symbol, .mark .openParen].length := by decide
      have hnote := hb.note_several .expression hseveral
      rw [List.nil_append, List.nil_append] at hnote
      rw [hnote] at hrun
      exact .stuck hrun (.here hstop)

end Operands

/-! ### Whole rows -/

theorem runs_length_le {p : Phrase} {ls ms : List Lexeme} {b b' : Book}
    (h : Runs p ls b (some ms) b') : ms.length ≤ ls.length := by
  generalize hresult : some ms = result at h
  -- along the run: only single lexemes take anything off the row
  induction h generalizing ms with
  | lexeme fits =>
    cases hresult
    exact Nat.le_succ _
  | endOfText =>
    cases hresult
    exact Nat.le_refl _
  | rule body ih => exact ih hresult
  | seq first second ih₁ ih₂ => exact Nat.le_trans (ih₂ hresult) (ih₁ rfl)
  | choice first ih => exact ih hresult
  | otherwise first second ih₁ ih₂ => exact ih₂ hresult
  | optional body ih => exact ih hresult
  | many first more ih₁ ih₂ => exact Nat.le_trans (ih₂ hresult) (ih₁ rfl)
  | absent | noMore =>
    cases hresult
    exact Nat.le_refl _
  | _ => cases hresult

/-- What fails further on than at the start of the row is all that the book holds. -/
theorem runs_noInput {ls : List Lexeme} {b b' : Book} (run : Runs (Rule.body .input) ls b none b')
    (hlt : b'.left < ls.length) : Runs (.rule .input) ls b none b' := by
  have hrun := Runs.noRule run
  rwa [Book.note_of_lt .input hlt] at hrun

theorem runs_noEnd (l : Lexeme) (ls : List Lexeme) (b : Book) :
    Runs (.rule .endOfText) (l :: ls) b none (Book.note .endOfText (l :: ls).length b b) :=
  .noRule .noEnd

/-- A reading has moved before it is behind an operand. -/
theorem Passes.length_lt {ls ms : List Lexeme} {r : Reading} {x : Expr}
    (h : Passes start ls ms r) (hx : r.operand? = some x) : ms.length < ls.length := by
  obtain ⟨passed, rfl, hadvance⟩ := h
  cases passed with
  | nil =>
    cases hadvance
    cases hx
  | cons l passed =>
    rw [List.length_append, List.length_cons]
    omega

/-- A reading that is stuck before the first lexeme of the row has not moved. -/
theorem Stuck.eq_of_left {r : Reading} {ls : List Lexeme} {b : Book} (h : Stuck r ls b)
    (hleft : b.left = ls.length) : b = ⟨ls.length, tried r⟩ := by
  obtain ⟨ms, r', ⟨passed, rfl, hadvance⟩, -, rfl⟩ := h
  have hlength : ms.length = (passed ++ ms).length := hleft
  rw [List.length_append] at hlength
  obtain rfl : passed = [] := List.length_eq_zero_iff.1 (by omega)
  cases hadvance
  rfl

/-- Outside all groups, what ends an expression has no place behind it. -/
theorem step_eq_none_of_ends {r : Reading} {x : Expr} {ms : List Lexeme}
    (hx : r.operand? = some x) (houter : r.outer = [])
    (stop : ∀ l ∈ ms.head?, l ≠ .mark .closeParen → r.step l = none) :
    ∀ l ∈ ms.head?, r.step l = none := by
  intro l hl
  by_cases hclose : l = .mark .closeParen
  · -- there is no group to close
    subst hclose
    rw [step_of_operand? hx openParen_ne_closeParen.symm, afterOperand, houter]
  · exact stop l hl hclose

/-- A row that is no expression is not accepted by descent either, and the book then holds
what is tried where the reading stops. -/
theorem runs_input {ls : List Lexeme} (h : (start.advance ls).bind result? = none) :
    ∃ b, Runs (.rule .input) ls (.blank ls.length) none b ∧ Stuck start ls b := by
  have hb := Book.holds_blank ls.length
  cases follows_expression [] hb with
  | @ends ms r' x b' run passes operand houter holds stop =>
    obtain ⟨g, outer, site⟩ := r'
    obtain rfl : outer = [] := houter
    cases ms with
    | nil =>
      -- the row would be an expression
      obtain ⟨passed, rfl, hadvance⟩ := passes
      have hresult : result? ⟨g, [], site⟩ = some (g.close x) := by
        show (operand? ⟨g, [], site⟩).map g.close = _
        rw [operand, Option.map_some]
      rw [List.append_nil] at h
      rw [show start.advance passed = _ from hadvance, Option.bind_some, hresult] at h
      cases h
    | cons l ms =>
      have hend := runs_noEnd l ms b'
      have htried : tried ⟨g, [], site⟩
          = triedFor ⟨g, [], site⟩ ++ binaries.map .connective ++ [.endOfText] :=
        tried_of_operand? operand
      rw [holds.note_self, ← htried] at hend
      exact ⟨_, runs_noInput (.seq run hend) (passes.length_lt operand),
        Stuck.of_passes passes (.here (step_eq_none_of_ends operand rfl stop))⟩
  | @cut ms l b' run head differs ahead stuck =>
    obtain ⟨ms, rfl⟩ := List.head?_eq_some_iff.1 head
    have hend := runs_noEnd l ms b'
    rw [Book.note_of_lt .endOfText ahead] at hend
    exact ⟨b', runs_noInput (.seq run hend) (Nat.lt_of_lt_of_le ahead (runs_length_le run)), stuck⟩
  | @stuck b' run stuck =>
    refine ⟨b', ?_, stuck⟩
    rcases Nat.lt_or_eq_of_le stuck.left_le with hlt | heq
    · exact runs_noInput (.noSeq run) hlt
    · -- the row does not even begin as an expression
      obtain rfl := stuck.eq_of_left heq
      have hnote : Book.note .input ls.length (.blank ls.length) ⟨ls.length, tried start⟩
          = ⟨ls.length, tried start⟩ := hb.note_one .input .expression
      have hrun : Runs (.rule .input) ls (.blank ls.length) none
          (Book.note .input ls.length (.blank ls.length) ⟨ls.length, tried start⟩) :=
        .noRule (.noSeq run)
      rwa [hnote] at hrun

end Sigil.Descent
