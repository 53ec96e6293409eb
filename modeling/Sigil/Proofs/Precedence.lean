import Sigil.Grammar
import Sigil.Reading

/-! # Ranks, layers, and the joining of operands

    The grammar says by layers how connectives group; a reading decides it
    by comparing two connectives that stand side by side.  This module ties
    the two together for a single group, without looking at lexemes one by
    one.

    * `Connective.leftLayer`, `Connective.rightLayer`: the layers of the
      operands of a binary connective.
    * `Group.Waits`: what the waiting operands of a group spell out, and
      that each of them may be followed by what comes after it.
    * `Group.waits_join`: joining keeps this, and what comes out is an
      operand for the connective that is seen.
    * `Group.layer_gather`: at the end of a group everything that waits is
      one expression. -/

namespace Sigil

namespace Connective

/-! ### Layers of operands -/

/-- The layer of what stands left of the connective. -/
def leftLayer (c : Connective) : Nat :=
  if c.grouping = .left then c.rank else c.rank + 1

/-- The layer of what stands right of the connective. -/
def rightLayer (c : Connective) : Nat :=
  if c.grouping = .right then c.rank else c.rank + 1

theorem rank_pos (c : Connective) : 1 ≤ c.rank := by
  cases c <;> decide

theorem rank_lt_atoms (c : Connective) : c.rank < Grammar.atoms := by
  cases c <;> decide

/-- Between the loosest layer and that of the atoms, each layer belongs to a
connective. -/
theorem exists_rank_eq {n : Nat} (h₁ : Grammar.loosest ≤ n) (h₂ : n < Grammar.atoms) :
    ∃ c : Connective, c.rank = n := by
  have hl : Grammar.loosest = 1 := rfl
  have ha : Grammar.atoms = 8 := rfl
  obtain rfl | rfl | rfl | rfl | rfl | rfl | rfl :
      n = 1 ∨ n = 2 ∨ n = 3 ∨ n = 4 ∨ n = 5 ∨ n = 6 ∨ n = 7 := by omega
  · exact ⟨.therefore, rfl⟩
  · exact ⟨.implies, rfl⟩
  · exact ⟨.equiv, rfl⟩
  · exact ⟨.or, rfl⟩
  · exact ⟨.and, rfl⟩
  · exact ⟨.compose, rfl⟩
  · exact ⟨.not, rfl⟩

/-- A connective that groups to the left or to the right has two operands. -/
theorem isUnary_eq_false_iff {c : Connective} :
    c.isUnary = false ↔ c.grouping = .left ∨ c.grouping = .right := by
  cases c <;> decide

theorem eq_not_of_isUnary {c : Connective} (h : c.isUnary = true) : c = .not := by
  cases c <;> first | rfl | cases h

/-- Every operand of a binary connective may stand under a `¬`. -/
theorem leftLayer_le_not {c : Connective} (h : c.isUnary = false) :
    c.leftLayer ≤ Connective.not.rank := by
  cases c <;> first | decide | cases h

theorem rightLayer_le_not {c : Connective} (h : c.isUnary = false) :
    c.rightLayer ≤ Connective.not.rank := by
  cases c <;> first | decide | cases h

theorem rank_le_leftLayer (c : Connective) : c.rank ≤ c.leftLayer := by
  cases c <;> decide

theorem rank_le_rightLayer (c : Connective) : c.rank ≤ c.rightLayer := by
  cases c <;> decide

theorem loosest_le_leftLayer (c : Connective) : Grammar.loosest ≤ c.leftLayer := by
  cases c <;> decide

theorem loosest_le_rightLayer (c : Connective) : Grammar.loosest ≤ c.rightLayer := by
  cases c <;> decide

/-! ### Which connective takes the operand between two -/

/-- When `c` takes the operand before `d`, all of `c` may stand left of `d`. -/
theorem leftLayer_le_of_takesBefore {c d : Connective} (h : c.takesBefore d = true) :
    d.leftLayer ≤ c.rank := by
  revert h
  cases c <;> cases d <;> decide

/-- When it does not, all of `d` may stand right of `c`. -/
theorem rightLayer_le_of_takesBefore {c d : Connective} (hc : c.isUnary = false)
    (h : c.takesBefore d = false) : c.rightLayer ≤ d.rank := by
  revert hc h
  cases c <;> cases d <;> decide

/-- A connective of the layer left of `d` takes its operand before `d`. -/
theorem takesBefore_of_leftLayer_le {c d : Connective} (hd : d.isUnary = false)
    (h : d.leftLayer ≤ c.rank) : c.takesBefore d = true := by
  revert h hd
  cases c <;> cases d <;> decide

/-- A binary connective of the layer right of `c` is not forestalled by `c`. -/
theorem takesBefore_of_rightLayer_le {c d : Connective} (hc : c.isUnary = false)
    (h : c.rightLayer ≤ d.rank) : c.takesBefore d = false := by
  revert h hc
  cases c <;> cases d <;> decide

end Connective

namespace Grammar

/-! ### Moving between layers -/

theorem Layer.le_atoms {n : Nat} {ls : List Lexeme} {x : Expr} (h : Layer n ls x) :
    n ≤ atoms := by
  cases h with
  | symbol | call | group => exact Nat.le_refl _
  | next c | right | left => exact Nat.le_of_lt (Connective.rank_lt_atoms _)
  | not => exact Nat.le_of_lt (Connective.rank_lt_atoms .not)

/-- An expression of a layer is one of each looser layer. -/
theorem Layer.loosen {n m : Nat} {ls : List Lexeme} {x : Expr} (h : Layer n ls x)
    (hm : loosest ≤ m) (hle : m ≤ n) : Layer m ls x := by
  obtain ⟨k, rfl⟩ := Nat.exists_eq_add_of_le hle
  have hk := h.le_atoms
  -- one layer after the other, each by its connective
  induction k with
  | zero => exact h
  | succ k ih =>
    obtain ⟨c, hc⟩ := Connective.exists_rank_eq (n := m + k) (by omega) (by omega)
    have h' : Layer (m + k) ls x := by
      rw [← hc]
      exact Layer.next c (by rw [hc]; exact h)
    exact ih h' (by omega) (by omega)

/-- Two operands of the right layers make an expression of the connective's
layer. -/
theorem Layer.binary {c : Connective} (hc : c.isUnary = false) {ls ms : List Lexeme}
    {x y : Expr} (hl : Layer c.leftLayer ls x) (hr : Layer c.rightLayer ms y) :
    Layer c.rank (ls ++ .connective c :: ms) (.binary c x y) := by
  rcases Connective.isUnary_eq_false_iff.1 hc with hg | hg
  · have hl' : Layer c.rank ls x := by simpa [Connective.leftLayer, hg] using hl
    have hr' : Layer (c.rank + 1) ms y := by simpa [Connective.rightLayer, hg] using hr
    exact Layer.left hg hl' hr'
  · have hl' : Layer (c.rank + 1) ls x := by simpa [Connective.leftLayer, hg] using hl
    have hr' : Layer c.rank ms y := by simpa [Connective.rightLayer, hg] using hr
    exact Layer.right hg hl' hr'

end Grammar

namespace Group

open Grammar

/-! ### Waiting operands -/

/-- The waiting operands joined with the operand `x` after them. -/
def gather (waiting : List (Expr × Connective)) (x : Expr) : Expr :=
  waiting.foldl (fun right w => .binary w.2 w.1 right) x

@[simp] theorem gather_nil (x : Expr) : gather [] x = x := rfl

@[simp] theorem gather_cons (w : Expr × Connective) (waiting : List (Expr × Connective))
    (x : Expr) : gather (w :: waiting) x = gather waiting (.binary w.2 w.1 x) := rfl

theorem gather_append (ws vs : List (Expr × Connective)) (x : Expr) :
    gather (ws ++ vs) x = gather vs (gather ws x) :=
  List.foldl_append

theorem close_eq_gather (g : Group) (x : Expr) : g.close x = gather g.waiting (g.negate x) :=
  rfl

/-- An expression of layer `n` may stand right of the latest connective. -/
def Admits (waiting : List (Expr × Connective)) (n : Nat) : Prop :=
  ∀ w ∈ waiting.head?, w.2.isUnary = false ∧ w.2.rightLayer ≤ n

theorem admits_nil (n : Nat) : Admits [] n := by
  intro w hw
  cases hw

theorem admits_cons {w : Expr × Connective} {waiting : List (Expr × Connective)} {n : Nat} :
    Admits (w :: waiting) n ↔ w.2.isUnary = false ∧ w.2.rightLayer ≤ n := by
  simp [Admits]

theorem Admits.mono {waiting : List (Expr × Connective)} {n m : Nat}
    (h : Admits waiting n) (hle : n ≤ m) : Admits waiting m := by
  intro w hw
  exact ⟨(h w hw).1, Nat.le_trans (h w hw).2 hle⟩

/-- The lexemes spell out the waiting operands with their connectives. -/
inductive Waits : List (Expr × Connective) → List Lexeme → Prop where
  | nil : Waits [] []
  | cons {waiting : List (Expr × Connective)} {ms ls : List Lexeme} {x : Expr}
      {c : Connective} (earlier : Waits waiting ms) (binary : c.isUnary = false)
      (operand : Layer c.leftLayer ls x) (fits : Admits waiting c.rank) :
      Waits ((x, c) :: waiting) (ms ++ (ls ++ [.connective c]))

/-- Joining goes through the waiting operands whose connective takes its
operand before `d`, and stops at the first that does not. -/
theorem join_append {d : Connective} {ws vs : List (Expr × Connective)} {n : Nat}
    (hd : d.isUnary = false) (hws : ∀ w ∈ ws, d.leftLayer ≤ w.2.rank)
    (hvs : Admits vs n) (hn : n ≤ d.rank) (x : Expr) :
    join d (ws ++ vs) x = (vs, gather ws x) := by
  induction ws generalizing x with
  | nil =>
    cases vs with
    | nil => rfl
    | cons v vs =>
      -- the connective of `v` leaves its right side to `d`
      have hv := admits_cons.1 hvs
      have hstop : v.2.takesBefore d = false :=
        Connective.takesBefore_of_rightLayer_le hv.1 (Nat.le_trans hv.2 hn)
      simp [join, hstop]
  | cons w ws ih =>
    have hgo : w.2.takesBefore d = true :=
      Connective.takesBefore_of_leftLayer_le hd (hws w List.mem_cons_self)
    have ih' := ih (fun v hv => hws v (List.mem_cons_of_mem w hv)) (.binary w.2 w.1 x)
    rw [List.cons_append, join, hgo, if_pos rfl, ih', gather_cons]

/-- What comes out of joining: the operand left of `d`, and waiting operands
after which all of `d` may stand. -/
theorem waits_join {waiting : List (Expr × Connective)} {ms ls : List Lexeme} {x : Expr}
    {n : Nat} {d : Connective} (hw : Waits waiting ms) (hx : Layer n ls x)
    (hfit : Admits waiting n) (hd : d.leftLayer ≤ n) :
    ∃ ms' ls', ms ++ ls = ms' ++ ls' ∧ Waits (join d waiting x).1 ms' ∧
      Layer d.leftLayer ls' (join d waiting x).2 ∧ Admits (join d waiting x).1 d.rank := by
  -- one waiting operand after the other; the operand so far keeps growing
  induction hw generalizing ls x n with
  | nil =>
    exact ⟨[], ls, rfl, .nil, hx.loosen d.loosest_le_leftLayer hd, admits_nil _⟩
  | @cons waiting ms ks y c earlier binary operand fits ih =>
    have hc := admits_cons.1 hfit
    cases hgo : c.takesBefore d with
    | false =>
      -- `c` leaves the operand to `d`, and nothing more is joined
      refine ⟨_, ls, rfl, ?_, ?_, ?_⟩
      · simpa [join, hgo] using Waits.cons earlier binary operand fits
      · simpa [join, hgo] using hx.loosen d.loosest_le_leftLayer hd
      · have hle := Connective.rightLayer_le_of_takesBefore binary hgo
        simpa [join, hgo] using admits_cons.2 ⟨binary, hle⟩
    | true =>
      -- `c` takes the operand, and what it makes of it is the operand from here on
      have hr : Layer c.rightLayer ls x := hx.loosen c.loosest_le_rightLayer hc.2
      have hjoined : Layer c.rank (ks ++ .connective c :: ls) (.binary c y x) :=
        Layer.binary binary operand hr
      have hle := Connective.leftLayer_le_of_takesBefore hgo
      obtain ⟨ms', ls', happ, hw', hx', hfit'⟩ := ih hjoined fits hle
      refine ⟨ms', ls', ?_, ?_, ?_, ?_⟩
      · rw [← happ]
        simp
      · simpa [join, hgo] using hw'
      · simpa [join, hgo] using hx'
      · simpa [join, hgo] using hfit'

/-- At the end of a group, what waits and the last operand are one
expression. -/
theorem layer_gather {waiting : List (Expr × Connective)} {ms ls : List Lexeme} {x : Expr}
    {n : Nat} (hw : Waits waiting ms) (hx : Layer n ls x) (hn : loosest ≤ n)
    (hfit : Admits waiting n) : Layer loosest (ms ++ ls) (gather waiting x) := by
  induction hw generalizing ls x n with
  | nil => exact hx.loosen (Nat.le_refl _) hn
  | @cons waiting ms ks y c earlier binary operand fits ih =>
    have hc := admits_cons.1 hfit
    have hr : Layer c.rightLayer ls x := hx.loosen c.loosest_le_rightLayer hc.2
    have hjoined : Layer c.rank (ks ++ .connective c :: ls) (.binary c y x) :=
      Layer.binary binary operand hr
    have hall := ih hjoined c.rank_pos fits
    rw [gather_cons]
    simpa using hall

end Group

end Sigil
