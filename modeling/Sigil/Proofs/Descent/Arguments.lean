import Sigil.Proofs.Descent.Book

/-! # Arguments by descent

    Values and arguments are followed along the reading.  Each of them
    fits, and the reading has passed over it; or the reading is stuck in
    it, and from then on the book does not change, whatever else is tried
    before that place.

    Key theorems: `Descent.follows_value`, `Descent.follows_arguments`. -/

namespace Sigil.Descent

open Reading

/-! ### Values and arguments -/

/-- A phrase is followed along the reading.  It fits, the reading is one of the `ends`
behind it and nothing has failed there yet; or it fails and the reading is stuck. -/
inductive Follows (p : Phrase) (r : Reading) (ends : Reading → Prop) (ls : List Lexeme)
    (b : Book) : Prop where
  | fits {ms : List Lexeme} {r' : Reading} {b' : Book} (run : Runs p ls b (some ms) b')
      (passes : Passes r ls ms r') (ended : ends r') (fresh : b'.Holds ms.length [])
  | stuck {b' : Book} (run : Runs p ls b none b') (stuck : Stuck r ls b')

/-- Behind each of the items a comma leads to another, which is followed in rows of up
to `n` lexemes. -/
def FollowsNext (item : Phrase) (ends : Reading → Prop) (n : Nat) : Prop :=
  ∀ r, ends r → ∃ r', r.step (.mark .comma) = some r' ∧
    ∀ ls b, ls.length ≤ n → b.Holds ls.length [] → Follows item r' ends ls b

/-- Items with commas between them are followed.  They end before another lexeme than a
comma; or the reading is stuck in the last of them, and they end before its comma. -/
inductive FollowsItems (item : Phrase) (r : Reading) (ends : Reading → Prop) (ls : List Lexeme)
    (b : Book) : Prop where
  | fits {ms : List Lexeme} {r' : Reading} {b' : Book}
      (run : Runs (.many (.seq (.rule (.mark .comma)) item)) ls b (some ms) b')
      (passes : Passes r ls ms r') (ended : ends r')
      (holds : b' = ⟨ms.length, [.mark .comma]⟩) (noComma : ms.head? ≠ some (.mark .comma))
  | stuck {ms : List Lexeme} {b' : Book}
      (run : Runs (.many (.seq (.rule (.mark .comma)) item)) ls b (some ms) b')
      (comma : ms.head? = some (.mark .comma)) (ahead : b'.left < ms.length)
      (stuck : Stuck r ls b')

theorem fits_mark_eq_false {m : Mark} {l : Lexeme} (h : l ≠ .mark m) :
    Rule.fits (.mark m) l = false := by
  cases l with
  | mark n =>
    have hne : m ≠ n := fun heq => h (by rw [heq])
    exact beq_false_of_ne hne
  | _ => rfl

theorem differs_of_head?_ne {m : Mark} {ls : List Lexeme} (h : ls.head? ≠ some (.mark m)) :
    ∀ l ∈ ls.head?, Rule.fits (.mark m) l = false := by
  intro l hl
  apply fits_mark_eq_false
  rintro rfl
  exact h hl

/-- When each item is followed and a comma leads on to another, all of them are. -/
theorem followsItems {item : Phrase} {ends : Reading → Prop} {n : Nat}
    (hitem : FollowsNext item ends n) :
    ∀ ls r b, ls.length ≤ n → ends r → b.Holds ls.length [] → FollowsItems item r ends ls b := by
  intro ls
  -- by the length of the row, since an item has as many lexemes as it likes
  induction hlength : ls.length using Nat.strongRecOn generalizing ls with
  | ind m ih =>
    intro r b hn hr hb
    subst hlength
    by_cases hcomma : ls.head? = some (.mark .comma)
    · obtain ⟨ls, rfl⟩ := List.head?_eq_some_iff.1 hcomma
      have hlt : ls.length < (Lexeme.mark .comma :: ls).length := Nat.lt_succ_self _
      obtain ⟨r', hstep, hfollows⟩ := hitem r hr
      have hrun : Runs (.rule (.mark .comma)) (.mark .comma :: ls) b (some ls) b :=
        runs_leaf rfl rfl
      cases hfollows ls b (by omega) (hb.further hlt) with
      | @fits ms r'' b' run passes ended fresh =>
        have hle := passes.length_le
        have hpasses := passes.step hstep
        cases ih ms.length (by omega) ms rfl r'' b' (by omega) ended fresh with
        | fits run' passes' ended' holds noComma =>
          exact .fits (.many (.seq hrun run) run') (hpasses.trans passes') ended' holds noComma
        | stuck run' comma ahead stuck =>
          exact .stuck (.many (.seq hrun run) run') comma ahead (stuck.of_passes hpasses)
      | stuck run stuck =>
        have hle := stuck.left_le
        exact .stuck (.noMore (.seq hrun run)) rfl (by omega) (stuck.step hstep)
    · refine .fits (.noMore (.noSeq ?_)) (.refl r ls) hr rfl hcomma
      exact runs_noLeaf_here rfl (differs_of_head?_ne hcomma) hb

/-- A mark closes what stands before `ms`, or the reading is stuck. -/
inductive FollowsClose (close : Mark) (r : Reading) (closed : Reading → Prop)
    (ls ms : List Lexeme) (b : Book) : Prop where
  | fits {ns : List Lexeme} {r' : Reading} (run : Runs (.rule (.mark close)) ms b (some ns) b)
      (passes : Passes r ls ns r') (ended : closed r') (fresh : b.Holds ns.length [])
  | stuck {b' : Book} (run : Runs (.rule (.mark close)) ms b none b') (stuck : Stuck r ls b')

/-- A rule that begins with a mark is followed from behind the mark. -/
inductive FollowsBehind (left : Mark) (rule : Rule) (r : Reading) (closed : Reading → Prop)
    (ls : List Lexeme) (b : Book) : Prop where
  | fits {ms : List Lexeme} {r' : Reading} {b' : Book}
      (run : Runs (.rule rule) (.mark left :: ls) b (some ms) b')
      (passes : Passes r ls ms r') (ended : closed r') (fresh : b'.Holds ms.length [])
  | stuck {b' : Book} (run : Runs (.rule rule) (.mark left :: ls) b none b')
      (stuck : Stuck r ls b')

theorem FollowsClose.behind {left close : Mark} {rule : Rule} {p : Phrase} {r : Reading}
    {closed : Reading → Prop} {ls ms : List Lexeme} {b b' : Book}
    (hbody : rule.body = .enclosed left p close) (run : Runs p ls b (some ms) b')
    (h : FollowsClose close r closed ls ms b') : FollowsBehind left rule r closed ls b := by
  cases h with
  | fits hclose passes ended fresh =>
    exact .fits (runs_enclosed hbody run hclose) passes ended fresh
  | stuck hclose stuck =>
    exact .stuck (runs_noEnclosed hbody (.seq run hclose) stuck.left_le) stuck

/-- Behind each of the items, a comma and one other mark fit and nothing else; the mark
closes them. -/
structure ClosedBy (close : Mark) (ends closed : Reading → Prop) : Prop where
  tried : ∀ r, ends r → tried r = [.mark .comma, .mark close]
  step : ∀ r, ends r → ∃ r', r.step (.mark close) = some r' ∧ closed r'
  stop : ∀ r, ends r → ∀ l, l ≠ .mark .comma → l ≠ .mark close → r.step l = none
  ne_comma : close ≠ .comma

theorem FollowsItems.close {item : Phrase} {close : Mark} {ends closed : Reading → Prop}
    {r : Reading} {ls : List Lexeme} {b : Book} (hclosed : ClosedBy close ends closed)
    (h : FollowsItems item r ends ls b) :
    ∃ ms b', Runs (.many (.seq (.rule (.mark .comma)) item)) ls b (some ms) b' ∧
      FollowsClose close r closed ls ms b' := by
  cases h with
  | @fits ms r' b' run passes ended holds noComma =>
    subst holds
    refine ⟨ms, _, run, ?_⟩
    by_cases hhead : ms.head? = some (.mark close)
    · obtain ⟨ns, rfl⟩ := List.head?_eq_some_iff.1 hhead
      obtain ⟨r'', hstep, hr''⟩ := hclosed.step r' ended
      refine .fits (runs_leaf rfl (beq_self_eq_true close))
        (passes.trans (.step hstep (.refl r'' ns))) hr'' ?_
      exact (Book.holds_self _ _).further (Nat.lt_succ_self ns.length)
    · refine .stuck (runs_noLeaf_next rfl (differs_of_head?_ne hhead)) ?_
      have hstuck : Stuck r' ms ⟨ms.length, Descent.tried r'⟩ := by
        apply Stuck.here
        intro l hl
        apply hclosed.stop r' ended
        · rintro rfl
          exact noComma hl
        · rintro rfl
          exact hhead hl
      rw [hclosed.tried r' ended] at hstuck
      exact hstuck.of_passes passes
  | @stuck ms b' run comma ahead stuck =>
    refine ⟨ms, b', run, .stuck (runs_noLeaf_before rfl (differs_of_head?_ne ?_) ahead) stuck⟩
    rw [comma]
    intro heq
    exact hclosed.ne_comma (Lexeme.mark.inj (Option.some.inj heq)).symm

/-- When the first item fits, the items are followed up to the mark that closes them. -/
theorem ClosedBy.separated {item : Phrase} {close : Mark} {ends closed : Reading → Prop} {n : Nat}
    {r r' : Reading} {ls ms : List Lexeme} {b b' : Book} (hclosed : ClosedBy close ends closed)
    (hitem : FollowsNext item ends n) (hn : ms.length ≤ n)
    (run : Runs item ls b (some ms) b') (passes : Passes r ls ms r')
    (ended : ends r') (fresh : b'.Holds ms.length []) :
    ∃ ns b'', Runs (.separated item) ls b (some ns) b'' ∧
      FollowsClose close r closed ls ns b'' := by
  obtain ⟨ns, b'', hmany, hclose⟩ := (followsItems hitem ms r' b' hn ended fresh).close hclosed
  refine ⟨ns, b'', .seq run hmany, ?_⟩
  cases hclose with
  | fits run' passes' ended' fresh' => exact .fits run' (passes.trans passes') ended' fresh'
  | stuck run' stuck => exact .stuck run' (stuck.of_passes passes)

/-- Behind a value. -/
def Filled (g : Group) (outer : List Group) (slot : Slot) (r : Reading) : Prop :=
  ∃ v, r = ⟨g, outer, slot.fill v⟩

/-- Behind an item of a list. -/
def Listed (g : Group) (outer : List Group) (slot : Slot) (r : Reading) : Prop :=
  ∃ items, r = ⟨g, outer, .listed slot items⟩

/-- Behind an argument. -/
def Collected (g : Group) (outer : List Group) (s : Symbol) (r : Reading) : Prop :=
  ∃ arguments, r = ⟨g, outer, .filled s arguments⟩

/-- Behind an operand to which nothing can be added. -/
def Completed (g : Group) (outer : List Group) (r : Reading) : Prop :=
  ∃ x, r = ⟨g, outer, .complete x⟩

section Values

variable {g : Group} {outer : List Group} {slot : Slot} {ls ms : List Lexeme} {b : Book}

theorem runs_noValue {failed : List Rule}
    (hstop : ∀ l ∈ ls.head?, Reading.step ⟨g, outer, .value slot⟩ l = none)
    (hb : b.Holds ls.length failed) :
    Runs .value ls b none
      ⟨ls.length, failed ++ [.mark .openBracket] ++ [.literal] ++ [.identifier]⟩ := by
  have hdiffers : ∀ r ∈ [Rule.mark .openBracket, .literal, .identifier], ∀ l ∈ ls.head?,
      r.fits l = false := by
    intro r hr l hl
    have hnone := hstop l hl
    simp only [List.mem_cons, List.not_mem_nil, or_false] at hr
    rcases hr with rfl | rfl | rfl <;> rcases l with _ | _ | _ | _ | ⟨⟨⟩⟩ <;>
      first | rfl | cases hnone
  have hlist := runs_noOpen (r := .list) rfl (hdiffers (.mark .openBracket) (by simp)) hb
  exact .otherwise hlist (.otherwise (runs_noLeaf_next rfl (hdiffers .literal (by simp)))
    (runs_noLeaf_next rfl (hdiffers .identifier (by simp))))

/-- Behind the opening of a list the reading goes on as before a value. -/
theorem passes_opened {r' : Reading} (hhead : ls.head? ≠ some (.mark .closeBracket))
    (h : Passes ⟨g, outer, .value (slot.within [])⟩ ls ms r') :
    (ms = ls ∧ r' = ⟨g, outer, .value (slot.within [])⟩) ∨
      (ms.length < ls.length ∧ Passes ⟨g, outer, .opened slot⟩ ls ms r') := by
  obtain ⟨passed, rfl, hadvance⟩ := h
  cases passed with
  | nil => exact .inl ⟨rfl, (Option.some.inj hadvance).symm⟩
  | cons l passed =>
    refine .inr ⟨?_, l :: passed, rfl, ?_⟩
    · rw [List.length_append, List.length_cons]
      omega
    have hl : l ≠ .mark .closeBracket := by
      rintro rfl
      exact hhead rfl
    rw [advance_cons, step_opened g outer slot hl]
    exact hadvance


theorem closedBy_closeBracket (g : Group) (outer : List Group) (slot : Slot) :
    ClosedBy .closeBracket (Listed g outer slot)
      (Filled g outer slot) where
  tried := by
    rintro r ⟨items, rfl⟩
    rfl
  step := by
    rintro r ⟨items, rfl⟩
    exact ⟨_, rfl, .list items.reverse, rfl⟩
  stop := by
    rintro r ⟨items, rfl⟩ l hcomma hclose
    rcases l with _ | _ | _ | _ | ⟨⟨⟩⟩ <;> first | rfl | contradiction
  ne_comma := nofun

/-- A list is followed when the values in it are. -/
theorem follows_list (hb : b.Holds ls.length [])
    (hvalue : ∀ slot ms b, ms.length ≤ ls.length → b.Holds ms.length [] →
      Follows .value ⟨g, outer, .value slot⟩ (Filled g outer slot) ms b) :
    FollowsBehind .openBracket .list ⟨g, outer, .opened slot⟩ (Filled g outer slot) ls b := by
  by_cases hhead : ls.head? = some (.mark .closeBracket)
  · -- the list is empty
    obtain ⟨ms, rfl⟩ := List.head?_eq_some_iff.1 hhead
    have hstop : ∀ l ∈ (Lexeme.mark .closeBracket :: ms).head?,
        Reading.step ⟨g, outer, .value slot⟩ l = none := by
      intro l hl
      cases hl
      rfl
    have hnone := runs_noValue hstop hb
    have hstep : Reading.step ⟨g, outer, .opened slot⟩ (.mark .closeBracket)
        = some ⟨g, outer, slot.fill (.list [])⟩ := rfl
    have hclose : ∀ failed, FollowsClose .closeBracket ⟨g, outer, .opened slot⟩
        (Filled g outer slot) (.mark .closeBracket :: ms) (.mark .closeBracket :: ms)
        ⟨(Lexeme.mark .closeBracket :: ms).length, failed⟩ := fun failed =>
      .fits (runs_leaf rfl rfl) (.step hstep (.refl _ ms)) ⟨.list [], rfl⟩
        ((Book.holds_self _ failed).further (Nat.lt_succ_self ms.length))
    exact (hclose _).behind rfl (.absent (.noSeq hnone))
  · have hitem : FollowsNext .value (Listed g outer slot) ls.length := by
      rintro r ⟨items, rfl⟩
      refine ⟨⟨g, outer, .value (slot.within items)⟩, rfl, ?_⟩
      intro ms b hle hb
      cases hvalue (slot.within items) ms b hle hb with
      | fits run passes ended fresh =>
        obtain ⟨v, rfl⟩ := ended
        exact .fits run passes ⟨v :: items, rfl⟩ fresh
      | stuck run stuck => exact .stuck run stuck
    cases hvalue (slot.within []) ls b (Nat.le_refl _) hb with
    | @fits ms r' b' run passes ended fresh =>
      obtain ⟨v, rfl⟩ := ended
      rcases passes_opened hhead passes with ⟨-, himpossible⟩ | ⟨hlt, hpasses⟩
      · cases himpossible
      · obtain ⟨ns, b'', hrun, hclose⟩ := (closedBy_closeBracket g outer slot).separated hitem
          (Nat.le_of_lt hlt) run hpasses ⟨[v], rfl⟩ fresh
        exact hclose.behind rfl (.optional hrun)
    | @stuck b' run stuck =>
      obtain ⟨ms, r', passes, hstop, rfl⟩ := stuck
      have hclose : FollowsClose .closeBracket ⟨g, outer, .opened slot⟩ (Filled g outer slot)
          ls ls ⟨ms.length, tried r'⟩ := by
        rcases passes_opened hhead passes with ⟨rfl, rfl⟩ | ⟨hlt, hpasses⟩
        · -- no item begins where the list would close
          refine .stuck (runs_noLeaf_next rfl (differs_of_head?_ne hhead)) (.here ?_)
          intro l hl
          rw [step_opened g outer slot (by rintro rfl; exact hhead hl)]
          exact hstop l hl
        · exact .stuck (runs_noLeaf_before rfl (differs_of_head?_ne hhead) hlt)
            ⟨ms, r', hpasses, hstop, rfl⟩
      exact hclose.behind rfl (.absent (.noSeq run))

/-- A name or a quoted text is a value, after what has been tried before it. -/
theorem runs_scalar {l : Lexeme} {v : Value} (hvalue : Grammar.IsValue [l] v)
    (hb : b.Holds (l :: ls).length []) :
    ∃ b', Runs .value (l :: ls) b (some ls) b' ∧ b'.Holds ls.length [] := by
  have hfresh : ∀ failed, Book.Holds ⟨(l :: ls).length, failed⟩ ls.length [] := fun failed =>
    (Book.holds_self _ failed).further (Nat.lt_succ_self ls.length)
  have hopen : Rule.fits (.mark .openBracket) l = false := by
    rcases scalar_of_isValue hvalue with ⟨name, rfl⟩ | ⟨q, content, rfl⟩ <;> rfl
  have hlist := runs_noOpen (r := .list) rfl (differs_cons hopen ls) hb
  rcases scalar_of_isValue hvalue with ⟨name, rfl⟩ | ⟨q, content, rfl⟩
  · have hliteral : Runs (.rule .literal) (.identifier name :: ls)
        ⟨(Lexeme.identifier name :: ls).length, [] ++ [.mark .openBracket]⟩ none _ :=
      runs_noLeaf_next rfl (differs_cons rfl ls)
    exact ⟨_, .otherwise hlist (.otherwise hliteral (runs_leaf rfl rfl)), hfresh _⟩
  · exact ⟨_, .otherwise hlist (.choice (runs_leaf rfl rfl)), hfresh _⟩

theorem follows_value (g : Group) (outer : List Group) (slot : Slot) (ls : List Lexeme) (b : Book)
    (hb : b.Holds ls.length []) :
    Follows .value ⟨g, outer, .value slot⟩ (Filled g outer slot) ls b := by
  -- by the length of the row, since the values of a list are themselves values
  induction hlength : ls.length using Nat.strongRecOn generalizing ls slot b with
  | ind n ih =>
    subst hlength
    by_cases hstop : ∀ l ∈ ls.head?, Reading.step ⟨g, outer, .value slot⟩ l = none
    · exact .stuck (runs_noValue hstop hb) (.here hstop)
    · cases ls with
      | nil => exact absurd nofun hstop
      | cons l ls =>
        have hsome : Reading.step ⟨g, outer, .value slot⟩ l ≠ none := by
          intro hnone
          apply hstop
          intro l' hl'
          cases hl'
          exact hnone
        obtain ⟨r', hstep⟩ := Option.ne_none_iff_exists'.1 hsome
        obtain ⟨site, hsite, rfl⟩ := Option.map_eq_some_iff.1 hstep
        rcases begin?_eq_some hsite with ⟨v, hv, rfl⟩ | ⟨rfl, rfl⟩
        · obtain ⟨b', run, fresh⟩ := runs_scalar hv hb
          exact .fits run (.step hstep (.refl _ ls)) ⟨v, rfl⟩ fresh
        · have hshorter : ∀ slot ms b, ms.length ≤ ls.length → b.Holds ms.length [] →
              Follows .value ⟨g, outer, .value slot⟩ (Filled g outer slot) ms b := by
            intro slot ms b hle hb
            exact ih ms.length (Nat.lt_succ_of_le hle) slot ms b hb rfl
          cases follows_list (hb.further (Nat.lt_succ_self ls.length)) hshorter with
          | fits run passes ended fresh =>
            exact .fits (.choice run) (passes.step hstep) ended fresh
          | @stuck b' run stuck =>
            -- the other ways to begin a value fail before the furthest place
            have hlt : b'.left < (Lexeme.mark .openBracket :: ls).length :=
              Nat.lt_succ_of_le stuck.left_le
            have hliteral : Runs (.rule .literal) (.mark .openBracket :: ls) b' none b' :=
              runs_noLeaf_before rfl (differs_cons rfl ls) hlt
            have hidentifier : Runs (.rule .identifier) (.mark .openBracket :: ls) b' none b' :=
              runs_noLeaf_before rfl (differs_cons rfl ls) hlt
            exact .stuck (.otherwise run (.otherwise hliteral hidentifier)) (stuck.step hstep)

/-- An argument is followed. -/
theorem follows_argument (g : Group) (outer : List Group) (s : Symbol) (earlier : Arguments)
    (ls : List Lexeme) (b : Book) (hb : b.Holds ls.length []) :
    Follows (.rule .argument) ⟨g, outer, .name s earlier⟩
      (Collected g outer s) ls b := by
  by_cases hname : ∃ key rest, ls = .identifier key :: rest
  · obtain ⟨key, ls, rfl⟩ := hname
    have hstep : Reading.step ⟨g, outer, .name s earlier⟩ (.identifier key)
        = some ⟨g, outer, .named s earlier key⟩ := rfl
    have hidentifier : Runs (.rule .identifier) (.identifier key :: ls) b (some ls) b :=
      runs_leaf rfl rfl
    have hfresh := hb.further (Nat.lt_succ_self ls.length)
    -- what fails behind the name is not booked for the argument
    have hfail : ∀ {b'}, Runs (.seq (.rule (.mark .colon)) .value) ls b none b' →
        b'.left ≤ ls.length → Runs (.rule .argument) (.identifier key :: ls) b none b' := by
      intro b' run hle
      have hlt : b'.left < (Lexeme.identifier key :: ls).length := Nat.lt_succ_of_le hle
      have hrun := Runs.noRule (r := .argument) (.seq hidentifier run)
      rwa [Book.note_of_lt .argument hlt] at hrun
    by_cases hcolon : ls.head? = some (.mark .colon)
    · obtain ⟨ls, rfl⟩ := List.head?_eq_some_iff.1 hcolon
      have hrun : Runs (.rule (.mark .colon)) (.mark .colon :: ls) b (some ls) b :=
        runs_leaf rfl rfl
      have hstep' : Reading.step ⟨g, outer, .named s earlier key⟩ (.mark .colon)
          = some ⟨g, outer, .value ⟨s, earlier, key, []⟩⟩ := rfl
      cases follows_value g outer ⟨s, earlier, key, []⟩ ls b
          (hfresh.further (Nat.lt_succ_self ls.length)) with
      | fits run passes ended fresh =>
        obtain ⟨v, rfl⟩ := ended
        exact .fits (.rule (.seq hidentifier (.seq hrun run)))
          (.step hstep (.step hstep' passes)) ⟨_, rfl⟩ fresh
      | stuck run stuck =>
        have hstuck := stuck.step hstep'
        exact .stuck (hfail (.seq hrun run) hstuck.left_le) (hstuck.step hstep)
    · have hstop : ∀ l ∈ ls.head?, Reading.step ⟨g, outer, .named s earlier key⟩ l = none := by
        intro l hl
        rcases l with _ | _ | _ | _ | ⟨⟨⟩⟩ <;> first | rfl | contradiction
      have hstuck : Stuck ⟨g, outer, .named s earlier key⟩ ls _ := .here hstop
      have hrun := runs_noLeaf_here rfl (differs_of_head?_ne hcolon) hfresh
      exact .stuck (hfail (.noSeq hrun) (Nat.le_refl _)) (hstuck.step hstep)
  · have hstop : ∀ l ∈ ls.head?, Rule.fits .identifier l = false ∧
        Reading.step ⟨g, outer, .name s earlier⟩ l = none := by
      intro l hl
      obtain ⟨rest, rfl⟩ := List.head?_eq_some_iff.1 hl
      cases l with
      | identifier key => exact absurd ⟨key, rest, rfl⟩ hname
      | _ => exact ⟨rfl, rfl⟩
    have hrun := Runs.noRule (r := .argument)
      (.noSeq (runs_noLeaf_here rfl (fun l hl => (hstop l hl).1) hb))
    rw [hb.note_one] at hrun
    exact .stuck hrun (.here fun l hl => (hstop l hl).2)

theorem closedBy_closeParen (g : Group) (outer : List Group) (s : Symbol) :
    ClosedBy .closeParen (Collected g outer s)
      (Completed g outer) where
  tried := by
    rintro r ⟨arguments, rfl⟩
    rfl
  step := by
    rintro r ⟨arguments, rfl⟩
    exact ⟨_, rfl, .call s arguments, rfl⟩
  stop := by
    rintro r ⟨arguments, rfl⟩ l hcomma hclose
    rcases l with _ | _ | _ | _ | ⟨⟨⟩⟩ <;> first | rfl | contradiction
  ne_comma := nofun

/-- The arguments of a symbol are followed behind their parenthesis. -/
theorem follows_arguments (g : Group) (outer : List Group) (s : Symbol)
    (hb : b.Holds ls.length []) :
    FollowsBehind .openParen .arguments ⟨g, outer, .name s .empty⟩
      (Completed g outer) ls b := by
  have hitem : FollowsNext (.rule .argument) (Collected g outer s) ls.length := by
    rintro r ⟨arguments, rfl⟩
    exact ⟨_, rfl, fun ms b _ hb => follows_argument g outer s arguments ms b hb⟩
  cases follows_argument g outer s .empty ls b hb with
  | fits run passes ended fresh =>
    obtain ⟨ns, b'', hrun, hclose⟩ := (closedBy_closeParen g outer s).separated hitem
      passes.length_le run passes ended fresh
    exact hclose.behind rfl hrun
  | stuck run stuck =>
    exact .stuck (runs_noEnclosed rfl (.noSeq (.noSeq run)) stuck.left_le) stuck

end Values

end Sigil.Descent
