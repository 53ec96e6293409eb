import Sigil.Proofs.Moves
import Sigil.Proofs.Precedence

/-! # A reading recognises the grammar

    A row that the grammar makes an expression is read as this expression,
    in every group where it may stand (`Reading.reads_of_layer`).  The
    induction goes along the derivation; what it needs to know of the group
    is that the latest connective in it leaves room for the layer, and what
    it says of the group afterwards is that everything on top of what
    waited there before gathers to the expression (`Reading.HasCome`). -/

namespace Sigil

open Grammar

namespace Reading

/-! ### From the grammar to the reading -/

variable {ls ms : List Lexeme} (g : Group) (outer : List Group)

/-- No value begins with a closing bracket. -/
theorem exists_cons_of_isValue {v : Value} (h : IsValue ls v) :
    ∃ l rest, ls = l :: rest ∧ l ≠ .mark .closeBracket := by
  cases h with
  | text q content => exact ⟨_, _, rfl, nofun⟩
  | name identifier => exact ⟨_, _, rfl, nofun⟩
  | nil => exact ⟨_, _, rfl, by decide⟩
  | list items => exact ⟨_, _, rfl, by decide⟩

theorem exists_cons_of_areItems {vs : List Value} (h : AreItems ls vs) :
    ∃ l rest, ls = l :: rest ∧ l ≠ .mark .closeBracket := by
  cases h with
  | one value => exact exists_cons_of_isValue value
  | cons value rest =>
    obtain ⟨l, ks, rfl, hl⟩ := exists_cons_of_isValue value
    exact ⟨l, _, rfl, hl⟩

mutual

/-- A value fills the slot that waits for it. -/
theorem advance_value {ls : List Lexeme} {v : Value} (h : IsValue ls v) (slot : Slot) :
    advance ⟨g, outer, .value slot⟩ ls = some ⟨g, outer, slot.fill v⟩ := by
  cases h with
  | text q content => rfl
  | name identifier => rfl
  | nil => rfl
  | @list ls vs items =>
    obtain ⟨l, rest, rfl, hl⟩ := exists_cons_of_areItems items
    -- the first item begins at once, without a step of its own
    have hitems := advance_items items slot []
    rw [List.append_nil, advance_cons, ← step_opened g outer slot hl, ← advance_cons] at hitems
    have hopen : step ⟨g, outer, .value slot⟩ (.mark .openBracket)
        = some ⟨g, outer, .opened slot⟩ := rfl
    rw [advance_cons, hopen, Option.bind_some, advance_append_of_eq_some hitems]
    show some (Reading.mk g outer (slot.fill (.list vs.reverse.reverse))) = _
    rw [List.reverse_reverse]

/-- Items come on top of those that a list has already. -/
theorem advance_items {ls : List Lexeme} {vs : List Value} (h : AreItems ls vs) (slot : Slot)
    (items : List Value) :
    advance ⟨g, outer, .value (slot.within items)⟩ ls
      = some ⟨g, outer, .listed slot (vs.reverse ++ items)⟩ := by
  cases h with
  | one value => exact advance_value value (slot.within items)
  | @cons ls ms v vs value rest =>
    have hfirst := advance_value value (slot.within items)
    have hrest := advance_items rest slot (v :: items)
    rw [advance_append_of_eq_some hfirst, List.reverse_cons, List.append_assoc]
    exact hrest

end

/-- An argument goes to the arguments before it. -/
theorem advance_argument {entry : String × Value} (h : IsArgument ls entry) (s : Symbol)
    (earlier : Arguments) :
    advance ⟨g, outer, .name s earlier⟩ ls
      = some ⟨g, outer, .filled s (earlier.insert entry.1 entry.2)⟩ := by
  cases h with
  | mk key value => exact advance_value g outer value ⟨s, earlier, key, []⟩

theorem advance_arguments {entries : List (String × Value)} (h : AreArguments ls entries)
    (s : Symbol) (earlier : Arguments) :
    advance ⟨g, outer, .name s earlier⟩ ls
      = some ⟨g, outer, .filled s
          (entries.foldl (fun as e => as.insert e.1 e.2) earlier)⟩ := by
  induction h generalizing earlier with
  | one argument => exact advance_argument g outer argument s earlier
  | @cons ls ms entry entries argument rest ih =>
    rw [advance_append_of_eq_some (advance_argument g outer argument s earlier)]
    exact ih (earlier.insert entry.1 entry.2)

/-- The expression `x` of layer `n` has been read in the group `g`: of `x`, some
operands wait on top of those of `g`, and the latest is `y`. -/
def HasCome (n : Nat) (g g' : Group) (y x : Expr) : Prop :=
  ∃ ws, g'.waiting = ws ++ g.waiting ∧ (∀ w ∈ ws, n ≤ w.2.rank) ∧
    Group.gather ws (g'.negate y) = g.negate x

/-- Reading on after an expression left of the binary connective `c`. -/
theorem HasCome.push {n : Nat} {g g' : Group} {x y : Expr} {c : Connective}
    (h : HasCome n g g' y x) (hc : c.isUnary = false) (hn : c.leftLayer ≤ n)
    (hg : Group.Admits g.waiting c.rank) (hneg : g.negated = false) :
    g'.push y c = ⟨(x, c) :: g.waiting, false⟩ := by
  obtain ⟨ws, hw, hrank, hx⟩ := h
  have hjoin := Group.join_append hc
    (fun w hm => Nat.le_trans hn (hrank w hm)) hg (Nat.le_refl _) (g'.negate y)
  have hplain : g.negate x = x := by simp [Group.negate, hneg]
  rw [Group.push, hw, hjoin, hx, hplain]

/-- The expression that a binary connective makes with what has been read right
of it. -/
theorem HasCome.binary {n m : Nat} {g g' : Group} {x y z : Expr} {c : Connective}
    (h : HasCome m ⟨(x, c) :: g.waiting, false⟩ g' z y) (hn : n ≤ c.rank) (hm : n ≤ m)
    (hneg : g.negated = false) : HasCome n g g' z (.binary c x y) := by
  obtain ⟨ws, hw, hrank, hy⟩ := h
  refine ⟨ws ++ [(x, c)], by rw [hw]; simp, ?_, ?_⟩
  · intro w hmem
    rcases List.mem_append.1 hmem with hmem | hmem
    · exact Nat.le_trans hm (hrank w hmem)
    · rw [List.mem_singleton.1 hmem]
      exact hn
  · rw [Group.gather_append, hy]
    simp [Group.negate, hneg]

/-- In every group that admits an expression of layer `n`, the lexemes are read as
the expression `x`. -/
def Reads (n : Nat) (ls : List Lexeme) (x : Expr) : Prop :=
  ∀ (g : Group) (outer : List Group), Group.Admits g.waiting n →
    (n = atoms ∨ g.negated = false) →
    ∃ r y, advance ⟨g, outer, .operand⟩ ls = some r ∧ r.outer = outer ∧
      r.operand? = some y ∧ HasCome n g r.group y x

/-- The right side of a binary connective starts from the group to which the left
side has been pushed. -/
theorem Reads.binary {c : Connective} {x y : Expr} (hc : c.isUnary = false)
    (hl : Reads c.leftLayer ls x) (hr : Reads c.rightLayer ms y) :
    Reads c.rank (ls ++ .connective c :: ms) (.binary c x y) := by
  intro g outer hadm hneg
  have hplain : g.negated = false := hneg.resolve_left (Nat.ne_of_lt c.rank_lt_atoms)
  obtain ⟨r, a, hra, hout, ha, hcome⟩ := hl g outer (hadm.mono c.rank_le_leftLayer) (Or.inr hplain)
  have hpush := hcome.push hc (Nat.le_refl _) hadm hplain
  have hstep : r.step (.connective c)
      = some ⟨⟨(x, c) :: g.waiting, false⟩, outer, .operand⟩ := by
    rw [step_of_operand? ha (by simp), afterOperand, hc, hpush, hout]
    rfl
  -- the right side finds the left one waiting, which leaves room for its layer
  obtain ⟨r', b, hrb, hout', hb, hcome'⟩ :=
    hr ⟨(x, c) :: g.waiting, false⟩ outer
      (Group.admits_cons.2 ⟨hc, Nat.le_refl _⟩) (Or.inr rfl)
  refine ⟨r', b, ?_, hout', hb,
    hcome'.binary (Nat.le_refl _) c.rank_le_rightLayer hplain⟩
  rw [advance_append_of_eq_some hra, advance_cons, hstep, Option.bind_some, hrb]

/-- A row that the grammar makes an expression is read as this expression. -/
theorem reads_of_layer {n : Nat} {x : Expr} (h : Layer n ls x) : Reads n ls x := by
  induction h with
  | symbol s =>
    intro g outer _ _
    exact ⟨⟨g, outer, .called s⟩, .call s .empty, rfl, rfl, rfl, [], rfl, nofun, rfl⟩
  | @call s ls entries arguments =>
    intro g outer _ _
    have hargs := advance_arguments g outer arguments s .empty
    refine ⟨⟨g, outer, .complete (.call s (.ofList entries))⟩, _, ?_, rfl, rfl, [], rfl,
      nofun, rfl⟩
    exact advance_append_of_eq_some hargs [.mark .closeParen]
  | @group ls x inner ih =>
    intro g outer _ _
    -- inside the parentheses nothing waits, so that all of `ws` belongs to `x`
    obtain ⟨r, y, hr, hout, hy, ws, hw, -, hx⟩ :=
      ih .fresh (g :: outer) (Group.admits_nil _) (Or.inr rfl)
    have hclose : r.group.close y = x := by
      rw [Group.close_eq_gather, hw]
      simpa [Group.fresh, Group.negate] using hx
    have hlast : r.step (.mark .closeParen) = some ⟨g, outer, .complete x⟩ := by
      rw [step_of_operand? hy (by decide), afterOperand, hout, hclose]
    refine ⟨⟨g, outer, .complete x⟩, x, ?_, rfl, rfl, [], rfl, nofun, rfl⟩
    show advance ⟨.fresh, g :: outer, .operand⟩ (ls ++ [.mark .closeParen]) = _
    rw [advance_append_of_eq_some hr, advance_cons, hlast]
    rfl
  | @next c ls x tighter ih =>
    intro g outer hadm hneg
    -- a group that leaves room for a layer leaves room for each tighter one
    have hc := c.rank_lt_atoms
    obtain ⟨r, y, hr, hout, hy, ws, hw, hrank, hx⟩ :=
      ih g outer (hadm.mono (Nat.le_succ _)) (Or.inr (hneg.resolve_left (by omega)))
    refine ⟨r, y, hr, hout, hy, ws, hw, fun w hmem => ?_, hx⟩
    exact Nat.le_of_succ_le (hrank w hmem)
  | @not ls x operand ih =>
    intro g outer hadm hneg
    have hplain : g.negated = false := hneg.resolve_left (by decide)
    obtain ⟨r, y, hr, hout, hy, ws, hw, hrank, hx⟩ :=
      ih { g with negated := true } outer (hadm.mono (by decide)) (Or.inl rfl)
    have hstep : step ⟨g, outer, .operand⟩ (.connective .not)
        = some ⟨{ g with negated := true }, outer, .operand⟩ := by
      simp [step, hplain]
    refine ⟨r, y, ?_, hout, hy, ws, hw, fun w hmem => ?_, ?_⟩
    · rw [advance_cons, hstep, Option.bind_some, hr]
    · exact Nat.le_trans (by decide) (hrank w hmem)
    · rw [hx]
      simp [Group.negate, hplain]
  | right side left right ihl ihr =>
    refine Reads.binary (Connective.isUnary_eq_false_iff.2 (Or.inr side)) ?_ ?_
    · simpa [Connective.leftLayer, side] using ihl
    · simpa [Connective.rightLayer, side] using ihr
  | left side left right ihl ihr =>
    refine Reads.binary (Connective.isUnary_eq_false_iff.2 (Or.inl side)) ?_ ?_
    · simpa [Connective.leftLayer, side] using ihl
    · simpa [Connective.rightLayer, side] using ihr

end Reading

end Sigil
