import Sigil.Expr.Render
import Sigil.Proofs.Json.Writing
import Sigil.Proofs.Spelling

/-! # Expressions as JSON

    The document of an expression keeps everything but the difference
    between a quoted text and a name, and names a field at most once.
    What JSON says of a document it therefore says of an expression.

    * `Expr.toDoc_eq_iff`: when two expressions have the same document.
    * `Expr.json_is_faithful`: both layouts are JSON texts that stand for
      that document and no other. -/

namespace Sigil

/-! ### Names as texts -/

namespace Value

mutual

/-- The value with every name replaced by the quoted text of its letters. -/
def unnamed : Value → Value
  | .text s | .name s => .text s
  | .list vs => .list (unnamedItems vs)

/-- Several values with every name replaced. -/
def unnamedItems : List Value → List Value
  | [] => []
  | v :: vs => unnamed v :: unnamedItems vs

end

mutual

/-- A document shows a value up to the names in it. -/
theorem toDoc_eq_iff : (v w : Value) → (v.toDoc = w.toDoc ↔ v.unnamed = w.unnamed)
  | .text s, .text t | .text s, .name t | .name s, .text t | .name s, .name t => by
    simp only [toDoc, unnamed, Doc.text.injEq, text.injEq]
  | .list vs, .list ws => by
    simp only [toDoc, unnamed, Doc.list.injEq, list.injEq, toDocs_eq_iff vs ws]
  | .text _, .list _ | .name _, .list _ | .list _, .text _ | .list _, .name _ => by
    simp only [toDoc, unnamed, reduceCtorEq]

theorem toDocs_eq_iff : (vs ws : List Value) →
    (toDocs vs = toDocs ws ↔ unnamedItems vs = unnamedItems ws)
  | [], [] => by simp only [toDocs, unnamedItems]
  | [], _ :: _ | _ :: _, [] => by
    simp only [toDocs, unnamedItems, reduceCtorEq]
  | v :: vs, w :: ws => by
    simp only [toDocs, unnamedItems, List.cons.injEq, toDoc_eq_iff v w, toDocs_eq_iff vs ws]

end

mutual

theorem distinctNames_toDoc : (v : Value) → v.toDoc.DistinctNames
  | .text s | .name s => .text s
  | .list vs => .list (distinctNames_toDocs vs)

theorem distinctNames_toDocs : (vs : List Value) → ∀ d ∈ toDocs vs, d.DistinctNames
  | [] => nofun
  | v :: vs => List.forall_mem_cons.2 ⟨distinctNames_toDoc v, distinctNames_toDocs vs⟩

end

end Value

namespace Arguments

/-- The arguments with every name replaced that is a value or part of one. -/
def unnamed (as : Arguments) : Arguments where
  entries := as.entries.map fun e => (e.1, e.2.unnamed)
  nodup := by
    rw [List.map_map]
    exact as.nodup

theorem toFields_eq_iff {es es' : List (String × Value)} :
    (es.map fun e => (e.1, e.2.toDoc)) = (es'.map fun e => (e.1, e.2.toDoc))
      ↔ (es.map fun e => (e.1, e.2.unnamed)) = es'.map fun e => (e.1, e.2.unnamed) := by
  induction es generalizing es' with
  | nil => simp only [List.map_nil, List.nil_eq, List.map_eq_nil_iff]
  | cons e es ih =>
    cases es' with
    | nil => simp only [List.map_cons, List.map_nil, reduceCtorEq]
    | cons e' es' =>
      simp only [List.map_cons, List.cons.injEq, Prod.mk.injEq, Value.toDoc_eq_iff, ih]

theorem toDoc_eq_iff {as bs : Arguments} : as.toDoc = bs.toDoc ↔ as.unnamed = bs.unnamed := by
  rw [toDoc, toDoc, Doc.record.injEq, unnamed, unnamed, Arguments.mk.injEq]
  exact toFields_eq_iff

theorem distinctNames_toDoc (as : Arguments) : as.toDoc.DistinctNames := by
  refine .record ?_ ?_
  · rw [toFields, List.map_map]
    exact as.nodup
  · intro f hf
    obtain ⟨e, -, rfl⟩ := List.mem_map.1 hf
    exact e.2.distinctNames_toDoc

end Arguments

/-- A symbol can be read off its text. -/
theorem Symbol.text_inj {s t : Symbol} : s.text = t.text ↔ s = t := by
  constructor
  · intro h
    have hs : scan (s.chars ++ []) = some (s, []) := scan_chars_append fun _ => nofun
    have ht : scan (t.chars ++ []) = some (t, []) := scan_chars_append fun _ => nofun
    rw [← toList_text, h, toList_text, ht] at hs
    exact (Prod.mk.inj (Option.some.inj hs)).1.symm
  · rintro rfl
    rfl

/-- A connective can be read off its sign. -/
theorem Connective.text_inj {c d : Connective} : c.text = d.text ↔ c = d := by
  constructor
  · intro h
    have hglyph : c.text.toList = d.text.toList := by rw [h]
    rw [text, text, String.toList_singleton, String.toList_singleton] at hglyph
    exact glyph_injective (List.cons.inj hglyph).1
  · rintro rfl
    rfl

namespace Expr

/-- The expression with every name replaced that is a value or part of one. -/
def unnamed : Expr → Expr
  | .call s as => .call s as.unnamed
  | .binary c l r => .binary c l.unnamed r.unnamed
  | .unary c x => .unary c x.unnamed

theorem toFields_eq_iff {x y : Expr} : x.toFields = y.toFields ↔ x.unnamed = y.unnamed := by
  induction x generalizing y with
  | call s as =>
    cases y with
    | call t bs =>
      simp [toFields, form, unnamed, Symbol.text_inj, Arguments.toDoc_eq_iff]
    | _ => simp [toFields, form, unnamed]
  | binary c l r ihl ihr =>
    cases y with
    | binary d l' r' =>
      simp [toFields, form, unnamed, Connective.text_inj, ihl, ihr]
    | _ => simp [toFields, form, unnamed]
  | unary c x ih =>
    cases y with
    | unary d y => simp [toFields, form, unnamed, Connective.text_inj, ih]
    | _ => simp [toFields, form, unnamed]

/-- A document shows an expression up to the names among its values. -/
theorem toDoc_eq_iff {x y : Expr} : x.toDoc = y.toDoc ↔ x.unnamed = y.unnamed := by
  rw [toDoc, toDoc, Doc.record.injEq, toFields_eq_iff]

theorem distinctNames_toDoc (x : Expr) : x.toDoc.DistinctNames := by
  have htext (s : String) : (Doc.text s).DistinctNames := .text s
  induction x with
  | call s as =>
    have hnames : (((Expr.call s as).toFields).map Prod.fst).Nodup := by
      simp [toFields]
    refine .record hnames ?_
    simpa [toFields, htext] using as.distinctNames_toDoc
  | binary c l r ihl ihr =>
    have hnames : (((Expr.binary c l r).toFields).map Prod.fst).Nodup := by
      simp [toFields]
    refine .record hnames ?_
    simpa [toFields, toDoc, htext] using ⟨ihl, ihr⟩
  | unary c x ih =>
    have hnames : (((Expr.unary c x).toFields).map Prod.fst).Nodup := by
      simp [toFields]
    refine .record hnames ?_
    simpa [toFields, toDoc, htext] using ih

/-! ### Renderings -/

/-- The JSON text of an expression stands for its document, on one line as over several. -/
theorem isElement_render_iff {x : Expr} {compact : Bool} {d : Doc} :
    Doc.Json.IsElement (x.render .json compact).toList d ↔ d = x.toDoc := by
  cases compact with
  | false => exact Doc.Json.isElement_pretty_iff
  | true => exact Doc.Json.isElement_compact_iff

theorem render_json_eq_iff {x y : Expr} :
    x.render .json true = y.render .json true ↔ x.unnamed = y.unnamed :=
  Doc.Json.compact_inj.trans toDoc_eq_iff

/-- JSON is a faithful form of an expression.  In both layouts the text is JSON, without a
name that comes twice in a record, and stands for one document, the same in both; and the
texts of two expressions on one line are the same just when the expressions are, up to
names that are values. -/
theorem json_is_faithful (x y : Expr) :
    x.toDoc.DistinctNames
      ∧ (∀ compact d, Doc.Json.IsElement (x.render .json compact).toList d ↔ d = x.toDoc)
      ∧ (x.render .json true = y.render .json true ↔ x.unnamed = y.unnamed) :=
  ⟨distinctNames_toDoc x, fun _ _ => isElement_render_iff, render_json_eq_iff⟩

end Expr

end Sigil
