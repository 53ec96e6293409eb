import Sigil.Expr.Printable
import Sigil.Proofs.Limits
import Mathlib.Data.List.Forall2

/-! # The nesting of canonical forms

    `Lexeme.NestWithin` counts brackets along a row, `Expr.nesting` goes
    down an expression.  A row in which every bracket is closed has a depth
    (`Lexeme.Nests`): rows side by side have that of the deeper one, and a
    pair of brackets around a row adds one.  From this the depth of a
    canonical form follows by induction on the expression
    (`Expr.nests_lexemes`). -/

namespace Sigil

namespace Lexeme

/-! ### Depth of rows -/

/-- As many brackets are closed as are opened, and `n` is the largest number of them
that are open at a time. -/
structure Nests (n : Nat) (ls : List Lexeme) : Prop where
  balanced : ls.countP opens = ls.countP closes
  within : ∀ k, NestWithin k ls ↔ n ≤ k

/-- A beginning of two rows lies in the first or reaches into the second. -/
theorem prefix_append_cases {ks ls ms : List Lexeme} (h : ks <+: ls ++ ms) :
    ks <+: ls ∨ ∃ js, js <+: ms ∧ ks = ls ++ js := by
  rcases List.prefix_or_prefix_of_prefix h (List.prefix_append ls ms) with hks | hls
  · exact Or.inl hks
  · obtain ⟨js, rfl⟩ := hls
    exact Or.inr ⟨js, (List.prefix_append_right_inj ls).1 h, rfl⟩

/-- Behind a row whose brackets are all closed the counting starts anew. -/
theorem nestWithin_append {k : Nat} {ls ms : List Lexeme}
    (hls : ls.countP opens = ls.countP closes) :
    NestWithin k (ls ++ ms) ↔ NestWithin k ls ∧ NestWithin k ms := by
  constructor
  · intro h
    refine ⟨fun ks hks => h ks (hks.trans (List.prefix_append ls ms)), fun ks hks => ?_⟩
    have hwhole := h (ls ++ ks) ((List.prefix_append_right_inj ls).2 hks)
    rw [List.countP_append, List.countP_append] at hwhole
    omega
  · rintro ⟨hl, hm⟩ ks hks
    rcases prefix_append_cases hks with hks | ⟨js, hjs, rfl⟩
    · exact hl ks hks
    · have hrest := hm js hjs
      rw [List.countP_append, List.countP_append]
      omega

/-- An opening bracket is there in every beginning but the empty one. -/
theorem nestWithin_opening {k : Nat} {l : Lexeme} {ls : List Lexeme} (ho : l.opens = true)
    (hc : l.closes = false) :
    NestWithin k (l :: ls) ↔ 1 ≤ k ∧ NestWithin (k - 1) ls := by
  have hcount : ∀ ks : List Lexeme, (l :: ks).countP opens = ks.countP opens + 1 ∧
      (l :: ks).countP closes = ks.countP closes := by
    intro ks
    exact ⟨List.countP_cons_of_pos ho, List.countP_cons_of_neg (by simp [hc])⟩
  constructor
  · intro h
    have hrest : ∀ ks, ks <+: ls → ks.countP opens + 1 ≤ ks.countP closes + k := by
      intro ks hks
      have hle := h (l :: ks) (List.cons_prefix_cons.2 ⟨rfl, hks⟩)
      rwa [(hcount ks).1, (hcount ks).2] at hle
    have hpos : 1 ≤ k := by simpa using hrest [] List.nil_prefix
    refine ⟨hpos, fun ks hks => ?_⟩
    have hle := hrest ks hks
    omega
  · rintro ⟨hpos, h⟩ ks hks
    cases ks with
    | nil => exact Nat.zero_le _
    | cons l' ks =>
      obtain ⟨rfl, hrest⟩ := List.cons_prefix_cons.1 hks
      have hle := h ks hrest
      rw [(hcount ks).1, (hcount ks).2]
      omega

/-- A closing bracket at the end goes no deeper. -/
theorem nestWithin_closing {k : Nat} {l : Lexeme} {ls : List Lexeme} (ho : l.opens = false) :
    NestWithin k (ls ++ [l]) ↔ NestWithin k ls := by
  constructor
  · intro h ks hks
    exact h ks (hks.trans (List.prefix_append ls [l]))
  · intro h ks hks
    rcases prefix_append_cases hks with hks | ⟨js, hjs, rfl⟩
    · exact h ks hks
    · have hwhole := h ls (List.prefix_refl ls)
      have hlast := hjs.sublist.countP_le (p := opens)
      have hnone : [l].countP opens = 0 := by simp [ho]
      rw [List.countP_append, List.countP_append]
      omega

theorem nests_nil : Nests 0 [] where
  balanced := rfl
  within k := by
    refine iff_of_true (fun ks hks => ?_) (Nat.zero_le k)
    rw [List.prefix_nil.1 hks]
    exact Nat.zero_le _

/-- Rows side by side are as deep as the deeper of them. -/
theorem Nests.append {n m : Nat} {ls ms : List Lexeme} (hl : Nests n ls) (hm : Nests m ms) :
    Nests (max n m) (ls ++ ms) where
  balanced := by
    rw [List.countP_append, List.countP_append, hl.balanced, hm.balanced]
  within k := by
    rw [nestWithin_append hl.balanced, hl.within, hm.within]
    omega

theorem nests_singleton {l : Lexeme} (ho : l.opens = false) (hc : l.closes = false) :
    Nests 0 [l] where
  balanced := by simp [ho, hc]
  within k := by
    refine iff_of_true (fun ks hks => ?_) (Nat.zero_le k)
    have hcount := hks.sublist.countP_le (p := opens)
    have hnone : [l].countP opens = 0 := by simp [ho]
    omega

/-- A lexeme that is no bracket does not count. -/
theorem Nests.cons {n : Nat} {l : Lexeme} {ls : List Lexeme} (h : Nests n ls)
    (ho : l.opens = false) (hc : l.closes = false) : Nests n (l :: ls) := by
  have hboth := (nests_singleton ho hc).append h
  rwa [Nat.zero_max] at hboth

/-- A pair of brackets goes one deeper. -/
theorem Nests.enclosed {n : Nat} {ls : List Lexeme} {o c : Mark} (h : Nests n ls)
    (ho : (mark o).opens = true) (hc : (mark c).closes = true) :
    Nests (n + 1) (enclosed o c ls) := by
  have ho' : (mark o).closes = false := by cases o <;> first | rfl | cases ho
  have hc' : (mark c).opens = false := by cases c <;> first | rfl | cases hc
  refine ⟨?_, fun k => ?_⟩
  · have hbalanced := h.balanced
    simp [Lexeme.enclosed, ho, ho', hc, hc', hbalanced]
  · rw [Lexeme.enclosed, nestWithin_opening ho ho', nestWithin_closing hc', h.within]
    omega

/-! ### Depth of expressions -/

/-- A listing is as deep as its deepest part. -/
theorem nests_listing {ns : List Nat} {parts : List (List Lexeme)}
    (h : List.Forall₂ Nests ns parts) : Nests (ns.foldr max 0) (listing parts) := by
  induction h with
  | nil => exact nests_nil
  | @cons n part ns parts hpart hrest ih =>
    cases hrest with
    | nil => simpa [listing] using hpart
    | cons hnext hmore =>
      rw [listing, List.foldr_cons]
      exact hpart.append (ih.cons rfl rfl)

end Lexeme

namespace Value

open Lexeme

theorem itemNesting_eq_foldr (vs : List Value) :
    itemNesting vs = (vs.map nesting).foldr max 0 := by
  induction vs with
  | nil => rfl
  | cons v vs ih => rw [itemNesting, ih, List.map_cons, List.foldr_cons]

mutual

theorem nests_lexemes : (v : Value) → Nests v.nesting v.lexemes
  | .text s => by
    rw [lexemes, nesting]
    exact nests_singleton rfl rfl
  | .name s => by
    rw [lexemes, nesting]
    exact nests_singleton rfl rfl
  | .list vs => by
    rw [lexemes, nesting, itemNesting_eq_foldr]
    exact (nests_listing (nests_itemLexemes vs)).enclosed rfl rfl

theorem nests_itemLexemes : (vs : List Value) →
    List.Forall₂ Nests (vs.map nesting) (itemLexemes vs)
  | [] => .nil
  | v :: vs => .cons (nests_lexemes v) (nests_itemLexemes vs)

end

end Value

namespace Arguments

theorem nests_lexemes (as : Arguments) :
    Lexeme.Nests as.nesting (Lexeme.listing (as.entries.map lexemesOf)) := by
  rw [nesting, Value.itemNesting_eq_foldr, List.map_map]
  refine Lexeme.nests_listing ?_
  rw [List.forall₂_map_left_iff, List.forall₂_map_right_iff, List.forall₂_same]
  intro e _
  exact (e.2.nests_lexemes.cons rfl rfl).cons rfl rfl

end Arguments

namespace Expr

/-- The depth of a canonical form. -/
theorem nests_lexemes (x : Expr) : Lexeme.Nests x.nesting x.lexemes := by
  induction x with
  | call s as =>
    rw [lexemes, nesting]
    split
    · exact Lexeme.nests_singleton rfl rfl
    · exact (as.nests_lexemes.enclosed rfl rfl).cons rfl rfl
  | binary c l r ihl ihr =>
    rw [lexemes, nesting]
    exact (ihl.append (ihr.cons rfl rfl)).enclosed rfl rfl
  | unary c x ih =>
    rw [lexemes, nesting]
    split
    · exact (ih.enclosed rfl rfl).cons rfl rfl
    · exact ih.cons rfl rfl

end Expr

end Sigil
