import Sigil.Grammar.Flat
import Sigil.Proofs.Precedence

/-! # Climbing a flat row gives the layers

    The layered grammar and the flat one agree (`Grammar.flatSentence_iff`).

    * A derivation by layers is a row that climbs to the same expression,
      under every bound that lets its layer through, and whatever follows
      (`Grammar.climbsTo_of_layer`).
    * What climbing makes of a row is an expression of the layer above the
      bound (`Grammar.splits_of_climbs`). -/

namespace Sigil.Grammar

/-! ### Bounds and layers -/

/-- What may follow the right operand of `c` stops the climb that is bound by
`c`. -/
theorem power_le_bound {c d : Connective} (h : d.leftLayer ≤ c.rank) : d.power ≤ c.bound := by
  revert h
  cases c <;> cases d <;> decide

/-- What stops the climb that is bound by `c` may follow all of `c`. -/
theorem leftLayer_le_of_power_le {c d : Connective} (hd : d.isUnary = false)
    (h : d.power ≤ c.bound) : d.leftLayer ≤ c.rank := by
  revert hd h
  cases c <;> cases d <;> decide

theorem bound_lt_rightLayer (c : Connective) : c.bound < 10 * c.rightLayer := by
  cases c <;> decide

/-- The layer above the bound of a binary connective is that of its right
operand. -/
theorem layer_above_bound {c : Connective} (hc : c.isUnary = false) :
    c.bound / 10 + 1 = c.rightLayer := by
  revert hc
  cases c <;> decide

theorem bound_lt_power_not {c : Connective} (hc : c.isUnary = false) :
    c.bound < Connective.not.power := by
  revert hc
  cases c <;> decide

/-- No binary connective gets through the bound of `¬`. -/
theorem power_le_bound_not {c : Connective} (hc : c.isUnary = false) :
    c.power ≤ Connective.not.bound := by
  revert hc
  cases c <;> decide

/-! ### From the layers to the row -/

/-- The row is empty, or begins with a connective that may stand right of an
expression of layer `n`. -/
inductive Follows (n : Nat) : List Item → Prop where
  | nil : Follows n []
  | sign {c : Connective} {items : List Item} (left : c.leftLayer ≤ n) :
      Follows n (.sign c :: items)

theorem Follows.mono {n m : Nat} {rest : List Item} (h : Follows n rest) (hle : n ≤ m) :
    Follows m rest := by
  cases h with
  | nil => exact .nil
  | sign left => exact .sign (Nat.le_trans left hle)

/-- Before what may follow all of `c`, the climb that is bound by `c` ends. -/
theorem Follows.extends {c : Connective} {rest : List Item} (h : Follows c.rank rest)
    (x : Expr) : Extends c.bound x rest x rest := by
  cases h with
  | nil => exact .done
  | sign left => exact .stop (power_le_bound left)

theorem IsRow.append {ls ms : List Lexeme} {items more : List Item} {c : Connective}
    (h : IsRow ls items) (hc : c.isUnary = false) (rest : IsRow ms more) :
    IsRow (ls ++ .connective c :: ms) (items ++ .sign c :: more) := by
  match h with
  | .one operand => exact .cons operand hc rest
  | .cons operand binary row =>
    have ih := row.append hc rest
    rw [List.append_assoc, List.append_assoc, List.cons_append, List.cons_append]
    exact .cons operand binary ih

/-- The lexemes are a row that climbs to `x`, whatever follows that may follow an
expression of layer `n`. -/
def ClimbsTo (n : Nat) (ls : List Lexeme) (x : Expr) : Prop :=
  ∃ items, IsRow ls items ∧ ∀ bound rest, bound < 10 * n → Follows n rest →
    ∀ y rest', Extends bound x rest y rest' → Climbs bound (items ++ rest) y rest'

theorem ClimbsTo.mono {n m : Nat} {ls : List Lexeme} {x : Expr} (h : ClimbsTo n ls x)
    (hle : m ≤ n) : ClimbsTo m ls x := by
  obtain ⟨items, hrow, hclimb⟩ := h
  refine ⟨items, hrow, fun bound rest hb hrest => ?_⟩
  exact hclimb bound rest (by omega) (hrest.mono hle)

theorem climbsTo_of_isPrimary {ls : List Lexeme} {x : Expr} (h : IsPrimary ls x) :
    ClimbsTo atoms ls x := by
  refine ⟨[.operand x], .one (.plain h), ?_⟩
  intro bound rest _ _ y rest' hy
  exact .operand hy

/-- The operand of a `¬` is all that is climbed under the bound of `¬`. -/
theorem climbsTo_not {ls : List Lexeme} {x : Expr} (h : IsPrimary ls x) :
    ClimbsTo Connective.not.rank (.connective .not :: ls) (.unary .not x) := by
  refine ⟨[.sign .not, .operand x], .one (.negated h), ?_⟩
  intro bound rest _ hrest y rest' hy
  exact .sign rfl (.operand (hrest.extends x)) hy

/-- The left side climbs up to the connective; the right side is climbed under its
bound and stops where the whole does. -/
theorem ClimbsTo.binary {ls ms : List Lexeme} {x y : Expr} {c : Connective}
    (hc : c.isUnary = false) (hl : ClimbsTo c.leftLayer ls x)
    (hr : ClimbsTo c.rightLayer ms y) :
    ClimbsTo c.rank (ls ++ .connective c :: ms) (.binary c x y) := by
  obtain ⟨items, hrow, hclimb⟩ := hl
  obtain ⟨more, hrow', hclimb'⟩ := hr
  refine ⟨items ++ .sign c :: more, hrow.append hc hrow', ?_⟩
  intro bound rest hb hrest z rest' hz
  -- what may follow the whole stops the climb of the right side
  have hright : Climbs c.bound (more ++ rest) y rest :=
    hclimb' c.bound rest (bound_lt_rightLayer c) (hrest.mono c.rank_le_rightLayer) y rest
      (hrest.extends y)
  have hgo : Extends bound x (.sign c :: (more ++ rest)) z rest' := .go hb hc hright hz
  -- the left side is climbed under the same bound as the whole
  have hleft := c.rank_le_leftLayer
  have hall := hclimb bound _ (by omega) (.sign (Nat.le_refl _)) z rest' hgo
  rw [List.append_assoc, List.cons_append]
  exact hall

theorem climbsTo_of_layer {n : Nat} {ls : List Lexeme} {x : Expr} (h : Layer n ls x) :
    ClimbsTo n ls x ∧ (n = atoms → IsPrimary ls x) := by
  -- atoms are primaries besides; this is what a `¬` or a pair of parentheses needs
  induction h with
  | symbol s => exact ⟨climbsTo_of_isPrimary (.symbol s), fun _ => .symbol s⟩
  | call s arguments =>
    exact ⟨climbsTo_of_isPrimary (.call s arguments), fun _ => .call s arguments⟩
  | @group ls x inner ih =>
    obtain ⟨⟨items, hrow, hclimb⟩, -⟩ := ih
    have hx : Climbs 0 (items ++ []) x [] := hclimb 0 [] (by decide) .nil x [] .done
    rw [List.append_nil] at hx
    exact ⟨climbsTo_of_isPrimary (.group hrow hx), fun _ => .group hrow hx⟩
  | next c tighter ih =>
    exact ⟨ih.1.mono (Nat.le_succ _), fun h => absurd h (Nat.ne_of_lt c.rank_lt_atoms)⟩
  | not operand ih => exact ⟨climbsTo_not (ih.2 rfl), fun h => absurd h (by decide)⟩
  | @right c side ls ms x y left right ihl ihr =>
    have hc : c.isUnary = false := Connective.isUnary_eq_false_iff.2 (Or.inr side)
    refine ⟨ClimbsTo.binary hc ?_ ?_, fun h => absurd h (Nat.ne_of_lt c.rank_lt_atoms)⟩
    · simpa [Connective.leftLayer, side] using ihl.1
    · simpa [Connective.rightLayer, side] using ihr.1
  | @left c side ls ms x y left right ihl ihr =>
    have hc : c.isUnary = false := Connective.isUnary_eq_false_iff.2 (Or.inl side)
    refine ⟨ClimbsTo.binary hc ?_ ?_, fun h => absurd h (Nat.ne_of_lt c.rank_lt_atoms)⟩
    · simpa [Connective.leftLayer, side] using ihl.1
    · simpa [Connective.rightLayer, side] using ihr.1

/-! ### From the row to the layers -/

mutual

/-- The lexemes are a row of operands that are atoms by the layered grammar, from
an operand on. -/
inductive Starts : List Item → List Lexeme → Prop where
  | plain {x : Expr} {items : List Item} {ls ms : List Lexeme} (operand : Layer atoms ls x)
      (tail : Continues items ms) : Starts (.operand x :: items) (ls ++ ms)
  | negated {x : Expr} {items : List Item} {ls ms : List Lexeme} (operand : Layer atoms ls x)
      (tail : Continues items ms) :
      Starts (.sign .not :: .operand x :: items) (.connective .not :: (ls ++ ms))

/-- The same, from a binary connective or the end on. -/
inductive Continues : List Item → List Lexeme → Prop where
  | nil : Continues [] []
  | cons {c : Connective} {items : List Item} {ms : List Lexeme} (binary : c.isUnary = false)
      (rest : Starts items ms) : Continues (.sign c :: items) (.connective c :: ms)

end

theorem starts_operand {x : Expr} {items : List Item} {ls : List Lexeme}
    (h : Starts (.operand x :: items) ls) :
    ∃ ks ms, ls = ks ++ ms ∧ Layer atoms ks x ∧ Continues items ms := by
  cases h with
  | plain operand tail => exact ⟨_, _, rfl, operand, tail⟩

/-- A row that begins with a `¬` goes on with an operand, and all that is climbed
under the bound of `¬` is this operand. -/
theorem starts_sign {c : Connective} {x : Expr} {items rest : List Item} {ls : List Lexeme}
    (h : Starts (.sign c :: items) ls) (hx : Climbs c.bound items x rest) :
    ∃ ks ms, ls = ks ++ ms ∧ Layer Connective.not.rank ks (.unary c x) ∧ Continues rest ms := by
  cases h with
  | @negated y items ks ms operand tail =>
    cases hx with
    | operand more =>
      refine ⟨.connective .not :: ks, ms, rfl, ?_⟩
      -- behind the operand there is the end, or a connective that has to stop
      cases more with
      | done | stop => exact ⟨.not operand, tail⟩
      | go strong binary => exact absurd (power_le_bound_not binary) (Nat.not_le.2 strong)

theorem continues_sign {c : Connective} {items : List Item} {ls : List Lexeme}
    (h : Continues (.sign c :: items) ls) :
    ∃ ms, ls = .connective c :: ms ∧ c.isUnary = false ∧ Starts items ms := by
  cases h with
  | cons binary rest => exact ⟨_, rfl, binary, rest⟩

/-- If the row begins with a connective, it may stand right of an expression of
layer `n`. -/
def Admitted (n : Nat) (items : List Item) : Prop :=
  ∀ c rest, items = .sign c :: rest → c.isUnary = false → c.leftLayer ≤ n

/-- If the row begins with a connective, it does not get through the bound. -/
def Stopped (bound : Nat) (items : List Item) : Prop :=
  ∀ c rest, items = .sign c :: rest → c.power ≤ bound

theorem Stopped.admitted {c : Connective} {items : List Item} (h : Stopped c.bound items) :
    Admitted c.rank items :=
  fun d rest hd hbinary => leftLayer_le_of_power_le hbinary (h d rest hd)

theorem admitted_of_not_rank_le {n : Nat} (h : Connective.not.rank ≤ n) (items : List Item) :
    Admitted n items :=
  fun _ _ _ hbinary => Nat.le_trans (Connective.leftLayer_le_not hbinary) h

/-- The lexemes begin with an expression `y` of the layer above the bound, and go on
with a rest before which the climb ends. -/
def Splits (bound : Nat) (ls : List Lexeme) (y : Expr) (rest : List Item) : Prop :=
  ∃ ms ks, ls = ms ++ ks ∧ Layer (bound / 10 + 1) ms y ∧ Continues rest ks ∧ Stopped bound rest

mutual

/-- What climbing makes of a row is an expression of the layer above the bound. -/
theorem splits_of_climbs {bound : Nat} {items rest : List Item} {y : Expr} :
    Climbs bound items y rest → bound < Connective.not.power → ∀ {ls : List Lexeme},
      Starts items ls → Splits bound ls y rest
  | .operand more, hb, _, hrow => by
    obtain ⟨ks, ms, rfl, operand, tail⟩ := starts_operand hrow
    have hpower : Connective.not.power = 70 := rfl
    have hatoms : atoms = 8 := rfl
    exact splits_of_extends more hb operand (admitted_of_not_rank_le (by decide) _) (by omega) tail
  | .sign _ inner more, hb, _, hrow => by
    obtain ⟨ks, ms, rfl, operand, tail⟩ := starts_sign hrow inner
    have hpower : Connective.not.power = 70 := rfl
    have hrank : Connective.not.rank = 7 := rfl
    exact splits_of_extends more hb operand (admitted_of_not_rank_le (Nat.le_refl _) _) (by omega)
      tail

/-- What has been climbed grows by whole operands. -/
theorem splits_of_extends {bound : Nat} {items rest : List Item} {x y : Expr} :
    Extends bound x items y rest → bound < Connective.not.power → ∀ {n js ls}, Layer n js x →
      Admitted n items → bound / 10 + 1 ≤ n → Continues items ls → Splits bound (js ++ ls) y rest
  | .done, _, _, js, ls, hx, _, hn, tail =>
    ⟨js, ls, rfl, hx.loosen (Nat.le_add_left _ _) hn, tail, nofun⟩
  | .stop weak, _, _, js, ls, hx, _, hn, tail => by
    refine ⟨js, ls, rfl, hx.loosen (Nat.le_add_left _ _) hn, tail, ?_⟩
    intro c rest h
    cases h
    exact weak
  | @Extends.go _ c _ _ _ _ _ _ strong binary operand more, hb, n, js, ls, hx, hadm, hn, tail => by
    obtain ⟨ls', rfl, -, row⟩ := continues_sign tail
    obtain ⟨ms, ks, rfl, hy, tail', hstop⟩ :=
      splits_of_climbs operand (bound_lt_power_not binary) row
    rw [layer_above_bound binary] at hy
    -- what has been climbed so far becomes the left operand
    have hleft := hx.loosen c.loosest_le_leftLayer (hadm c _ rfl binary)
    have hpower : c.power = 10 * c.rank := rfl
    have hall := splits_of_extends more hb (Layer.binary binary hleft hy) hstop.admitted
      (by omega) tail'
    simpa using hall

end

/-- A row that climbs to an expression is the expression by the layers. -/
theorem layer_of_starts {items : List Item} {ls : List Lexeme} {x : Expr}
    (hrow : Starts items ls) (h : Climbs 0 items x []) : Layer loosest ls x := by
  obtain ⟨ms, ks, rfl, hx, hrest, -⟩ := splits_of_climbs h (by decide) hrow
  cases hrest
  rw [List.append_nil]
  exact hx

mutual

theorem layer_of_isPrimary {ls : List Lexeme} {x : Expr} : IsPrimary ls x → Layer atoms ls x
  | .symbol s => .symbol s
  | .call s arguments => .call s arguments
  | .group inner climbs => .group (layer_of_starts (starts_of_isRow inner) climbs)

theorem starts_of_isOperand {ls : List Lexeme} {items : List Item} :
    IsOperand ls items → ∀ {more ms}, Continues more ms → Starts (items ++ more) (ls ++ ms)
  | .plain primary => fun tail => .plain (layer_of_isPrimary primary) tail
  | .negated primary => fun tail => .negated (layer_of_isPrimary primary) tail

theorem starts_of_isRow {ls : List Lexeme} {items : List Item} :
    IsRow ls items → Starts items ls
  | .one operand => by
    have hall := starts_of_isOperand operand .nil
    simpa using hall
  | .cons operand binary rest => starts_of_isOperand operand (.cons binary (starts_of_isRow rest))

end

/-- A flat row folds to what the layers make of it, and to nothing else. -/
theorem flatSentence_iff {ls : List Lexeme} {x : Expr} : FlatSentence ls x ↔ Sentence ls x := by
  constructor
  · rintro ⟨items, hrow, hclimb⟩
    exact layer_of_starts (starts_of_isRow hrow) hclimb
  · intro h
    obtain ⟨⟨items, hrow, hclimb⟩, -⟩ := climbsTo_of_layer h
    have hx : Climbs 0 (items ++ []) x [] := hclimb 0 [] (by decide) .nil x [] .done
    rw [List.append_nil] at hx
    exact ⟨items, hrow, hx⟩

end Sigil.Grammar
