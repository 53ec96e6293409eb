import Sigil.Expr.Printable
import Sigil.Proofs.Collecting
import Sigil.Proofs.Limits
import Sigil.Proofs.Precedence
import Sigil.Proofs.Spelling

/-! # What an expression of the grammar is like

    Two invariants of the grammar, each by induction on the derivation.

    * Lexemes that can stand in a text make a printable expression
      (`Expr.isPrintable_of_layer`).  Names are names already, and a text
      came without the quote that it stood in.  Expressions that are the
      same but for the order of arguments are printable together
      (`Expr.isPrintable_of_same`).
    * An expression has as many connectives as its lexemes
      (`Grammar.Layer.countP_isConnective`). -/

namespace Sigil

open Grammar

namespace Value

open Lexeme

/-! ### What is read is printable -/

theorem isPrintable_text {q : Quote} {s : String} (h : (Lexeme.literal q s).Valid) :
    (Value.text s).isPrintable = true := by
  rw [isPrintable, Bool.not_eq_true', Bool.and_eq_false_iff]
  cases q with
  | single => exact Or.inl (by simpa [Valid, Quote.char] using h)
  | double => exact Or.inr (by simpa [Valid, Quote.char] using h)

mutual

theorem isPrintable_of_isValue {ls : List Lexeme} {v : Value} (h : IsValue ls v)
    (hvalid : ∀ l ∈ ls, l.Valid) : v.isPrintable = true := by
  cases h with
  | text q content => exact isPrintable_text (hvalid _ List.mem_cons_self)
  | name identifier =>
    rw [isPrintable]
    exact hvalid _ List.mem_cons_self
  | nil => rfl
  | list items =>
    rw [isPrintable]
    refine arePrintable_of_areItems items fun l hl => hvalid l ?_
    exact List.mem_cons_of_mem _ (List.mem_append_left _ hl)

theorem arePrintable_of_areItems {ls : List Lexeme} {vs : List Value} (h : AreItems ls vs)
    (hvalid : ∀ l ∈ ls, l.Valid) : arePrintable vs = true := by
  cases h with
  | one value =>
    rw [arePrintable, isPrintable_of_isValue value hvalid]
    rfl
  | cons value rest =>
    obtain ⟨hfirst, hrest⟩ := List.forall_mem_append.1 hvalid
    rw [arePrintable, isPrintable_of_isValue value hfirst,
      arePrintable_of_areItems rest fun l hl => hrest l (List.mem_cons_of_mem _ hl)]
    rfl

end

end Value

namespace Arguments

open Lexeme

theorem isPrintable_of_isArgument {ls : List Lexeme} {entry : String × Value}
    (h : IsArgument ls entry) (hvalid : ∀ l ∈ ls, l.Valid) :
    (isName entry.1.toList && entry.2.isPrintable) = true := by
  cases h with
  | mk key value =>
    obtain ⟨hkey, hrest⟩ := List.forall_mem_cons.1 hvalid
    have hname : isName key.toList = true := hkey
    have hvalue := Value.isPrintable_of_isValue value (List.forall_mem_cons.1 hrest).2
    rw [hname, hvalue]
    rfl

theorem isPrintable_of_areArguments {ls : List Lexeme} {entries : List (String × Value)}
    (h : AreArguments ls entries) (hvalid : ∀ l ∈ ls, l.Valid) :
    ∀ e ∈ entries, (isName e.1.toList && e.2.isPrintable) = true := by
  induction h with
  | one argument =>
    intro e he
    rw [List.mem_singleton.1 he]
    exact isPrintable_of_isArgument argument hvalid
  | cons argument rest ih =>
    obtain ⟨hfirst, hrest⟩ := List.forall_mem_append.1 hvalid
    have hmore := ih (List.forall_mem_cons.1 hrest).2
    exact List.forall_mem_cons.2 ⟨isPrintable_of_isArgument argument hfirst, hmore⟩

theorem isPrintable_of_same {as bs : Arguments} (h : as.same bs = true)
    (has : as.isPrintable = true) : bs.isPrintable = true := by
  refine List.all_eq_true.2 fun e he => ?_
  exact List.all_eq_true.1 has e (mem_of_same h he)

end Arguments

namespace Expr

open Lexeme

/-- What the grammar makes of lexemes that can stand in a text is printable. -/
theorem isPrintable_of_layer {n : Nat} {ls : List Lexeme} {x : Expr} (h : Layer n ls x)
    (hvalid : ∀ l ∈ ls, l.Valid) : x.isPrintable = true := by
  induction h with
  | symbol s => rfl
  | @call s ls entries arguments =>
    rw [isPrintable, Arguments.isPrintable, List.all_eq_true]
    intro e he
    -- the arguments that have been collected are among those that were written
    refine Arguments.isPrintable_of_areArguments arguments (fun l hl => hvalid l ?_) e
      (Arguments.mem_of_mem_ofList he)
    simp [hl]
  | group inner ih => exact ih fun l hl => hvalid l (by simp [hl])
  | next c tighter ih => exact ih hvalid
  | not operand ih =>
    rw [isPrintable, ih (List.forall_mem_cons.1 hvalid).2]
    rfl
  | right side left right ihl ihr | left side left right ihl ihr =>
    obtain ⟨hl, hr⟩ := List.forall_mem_append.1 hvalid
    have hc := Connective.isUnary_eq_false_iff.2 (by first | exact Or.inl side | exact Or.inr side)
    rw [isPrintable, ihl hl, ihr (List.forall_mem_cons.1 hr).2, hc]
    rfl

theorem same_self (x : Expr) : x.same x = true := by
  induction x with
  | call s as => simp [same, as.same_self]
  | binary c l r ihl ihr => simp [same, ihl, ihr]
  | unary c x ih => simp [same, ih]

theorem isPrintable_of_same {x y : Expr} (h : y.same x = true) (hy : y.isPrintable = true) :
    x.isPrintable = true := by
  induction y generalizing x with
  | call s as =>
    cases x with
    | call t bs =>
      rw [same, Bool.and_eq_true] at h
      exact Arguments.isPrintable_of_same h.2 hy
    | binary | unary => cases h
  | binary c l r ihl ihr =>
    cases x with
    | binary d l' r' =>
      simp only [same, Bool.and_eq_true, beq_iff_eq] at h
      simp only [isPrintable, Bool.and_eq_true] at hy
      obtain ⟨⟨rfl, hl⟩, hr⟩ := h
      rw [isPrintable, hy.1.1, ihl hl hy.1.2, ihr hr hy.2]
      rfl
    | call | unary => cases h
  | unary c y ih =>
    cases x with
    | unary d x =>
      simp only [same, Bool.and_eq_true, beq_iff_eq] at h
      simp only [isPrintable, Bool.and_eq_true] at hy
      obtain ⟨rfl, hx⟩ := h
      rw [isPrintable, hy.1, ih hx hy.2]
      rfl
    | call | binary => cases h

/-! ### Counting connectives -/

end Expr

namespace Grammar

open Lexeme

mutual

/-- There is no connective in a value. -/
theorem IsValue.countP_isConnective {ls : List Lexeme} {v : Value} (h : IsValue ls v) :
    ls.countP isConnective = 0 := by
  cases h with
  | text | name | nil => rfl
  | list items =>
    have hitems := items.countP_isConnective
    simp [isConnective, hitems]

theorem AreItems.countP_isConnective {ls : List Lexeme} {vs : List Value}
    (h : AreItems ls vs) : ls.countP isConnective = 0 := by
  cases h with
  | one value => exact value.countP_isConnective
  | cons value rest =>
    have hfirst := value.countP_isConnective
    have hrest := rest.countP_isConnective
    rw [List.countP_append, List.countP_cons, hfirst, hrest]
    rfl

end

theorem IsArgument.countP_isConnective {ls : List Lexeme} {entry : String × Value}
    (h : IsArgument ls entry) : ls.countP isConnective = 0 := by
  cases h with
  | mk key value => simpa [isConnective] using value.countP_isConnective

theorem AreArguments.countP_isConnective {ls : List Lexeme}
    {entries : List (String × Value)} (h : AreArguments ls entries) :
    ls.countP isConnective = 0 := by
  induction h with
  | one argument => exact argument.countP_isConnective
  | cons argument rest ih =>
    rw [List.countP_append, List.countP_cons, argument.countP_isConnective, ih]
    rfl

theorem countP_connective_cons (c : Connective) (ls : List Lexeme) :
    (Lexeme.connective c :: ls).countP isConnective = ls.countP isConnective + 1 :=
  List.countP_cons_of_pos rfl

/-- An expression has the connectives of its lexemes. -/
theorem Layer.countP_isConnective {n : Nat} {ls : List Lexeme} {x : Expr}
    (h : Layer n ls x) : ls.countP isConnective = x.connectives.length := by
  induction h with
  | symbol s => rfl
  | call s arguments =>
    have hargs := arguments.countP_isConnective
    simp [isConnective, hargs, Expr.connectives]
  | group inner ih => simpa [isConnective] using ih
  | next c tighter ih => exact ih
  | not operand ih =>
    rw [countP_connective_cons, ih, Expr.connectives, List.length_cons]
  | right side left right ihl ihr | left side left right ihl ihr =>
    rw [List.countP_append, countP_connective_cons, ihl, ihr, Expr.connectives,
      List.length_append, List.length_cons]

end Grammar

end Sigil
