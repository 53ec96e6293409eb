import Sigil.Expr.Parse
import Sigil.Proofs.Json.Encoding
import Sigil.Proofs.Yaml.Lines

/-! # Expressions as YAML

    The lines of a YAML text show the expression, but the blanks at the
    end of the text are cut off, and blanks of every kind.  Where the last
    value of an expression ends in such blanks they are lost.  Nothing is
    lost where that value is written in quotes, ends in no blank, or ends
    in one line feed behind something else.

    * `Doc.Yaml.document_inj`: what the cut leaves shows the fields.
    * `Expr.yaml_tells_apart`: YAML tells apart what JSON does, where the
      last values are kept.
    * `Expr.not_yaml_tells_apart`: it does not where they are cut. -/

namespace Sigil

namespace Doc

mutual

/-- The text that a document ends with, if it ends with one. -/
def lastText? : Doc → Option String
  | .text s => some s
  | .number _ => none
  | .list ds => lastOfItems? ds
  | .record fs => lastOfFields? fs

/-- The text that the last of several documents ends with. -/
def lastOfItems? : List Doc → Option String
  | [] => none
  | [d] => lastText? d
  | _ :: d :: ds => lastOfItems? (d :: ds)

/-- The text that the last of several fields ends with. -/
def lastOfFields? : List (String × Doc) → Option String
  | [] => none
  | [(_, d)] => lastText? d
  | _ :: f :: fs => lastOfFields? (f :: fs)

end

namespace Yaml

/-! ### Texts that are cut by no more than a line feed -/

/-- The characters end in no blank, but for one line feed. -/
def Firm (cs : List Char) : Prop :=
  ∃ before c, Text.isBlank c = false ∧ (cs = before ++ [c] ∨ cs = before ++ [c, '\n'])

theorem Firm.append_left {cs : List Char} (h : Firm cs) (before : List Char) :
    Firm (before ++ cs) := by
  obtain ⟨inner, c, hc, rfl | rfl⟩ := h
  · exact ⟨before ++ inner, c, hc, .inl (List.append_assoc _ _ _).symm⟩
  · exact ⟨before ++ inner, c, hc, .inr (List.append_assoc _ _ _).symm⟩

theorem firm_of_getLast? {cs : List Char} {c : Char} (h : cs.getLast? = some c)
    (hc : Text.isBlank c = false) : Firm cs := by
  obtain ⟨before, rfl⟩ := List.getLast?_eq_some_iff.1 h
  exact ⟨before, c, hc, .inl rfl⟩

theorem isBlank_of_isBreak {c : Char} (h : isBreak c = true) : Text.isBlank c = true := by
  simp only [isBreak, Bool.or_eq_true, beq_iff_eq] at h
  rcases h with (rfl | rfl) | rfl <;> decide

/-- With its last line ended a firm text is what the cut leaves, and a line feed. -/
theorem Firm.ended_eq {cs : List Char} (h : Firm cs) :
    ended cs = Text.dropEndBlanks cs ++ ['\n'] := by
  obtain ⟨before, c, hc, rfl | rfl⟩ := h
  · have hbreak : isBreak c = false := by
      rw [← Bool.not_eq_true]
      intro hbreak
      rw [isBlank_of_isBreak hbreak] at hc
      cases hc
    rw [ended_of_getLast? List.getLast?_concat hbreak]
    simp [Text.dropEndBlanks, hc]
  · have hfeed : Text.isBlank '\n' = true := by decide
    have hended : ended (before ++ [c, '\n']) = before ++ [c, '\n'] := by
      rw [ended, List.getLast?_append_of_ne_nil _ (List.cons_ne_nil _ _)]
      rfl
    rw [hended]
    simp [Text.dropEndBlanks, hc, hfeed]

theorem firm_indented (column : Nat) (fresh : Bool) {cs : List Char} (h : Firm cs) :
    Firm (indented column (fun c => [c]) fresh cs) := by
  obtain ⟨before, c, hc, hcs⟩ := h
  have hlast : (indented column (fun c => [c]) fresh (before ++ [c])).getLast? = some c :=
    (getLast?_indented _ _ _).trans List.getLast?_concat
  rcases hcs with rfl | rfl
  · exact firm_of_getLast? hlast hc
  · rw [List.append_cons, indented_append_feed]
    obtain ⟨inner, hinner⟩ := List.getLast?_eq_some_iff.1 hlast
    exact ⟨inner, c, hc, .inr (by rw [hinner, List.append_assoc]; rfl)⟩

/-! ### Texts that are kept -/

/-- Standing at the end, the text loses nothing that could be missed. -/
def Kept (s : String) : Prop :=
  style s = .single ∨ style s = .double ∨ Firm s.toList

theorem firm_scalar (column : Nat) {s : String} (h : Kept s) :
    Firm (scalar column s).toList := by
  have hfirm (hsingle : style s ≠ .single) (hdouble : style s ≠ .double) : Firm s.toList :=
    (h.resolve_left hsingle).resolve_left hdouble
  unfold scalar
  cases hstyle : style s with
  | plain => exact hfirm (by rw [hstyle]; decide) (by rw [hstyle]; decide)
  | single =>
    rw [String.toList_ofList]
    refine firm_of_getLast? (c := '\'') ?_ (by decide)
    unfold singleQuoted
    exact List.getLast?_concat
  | double =>
    rw [String.toList_ofList]
    exact firm_of_getLast? (c := '"') List.getLast?_concat (by decide)
  | block =>
    rw [String.toList_ofList, block, List.append_cons]
    have hlines := firm_indented column true
      (hfirm (by rw [hstyle]; decide) (by rw [hstyle]; decide))
    exact hlines.append_left _

/-! ### Documents that are kept -/

theorem firm_items (column : Nat) {ds : List Doc} (hne : ds ≠ [])
    (hfirm : ∀ d ∈ ds, ∀ column before, (∀ s ∈ d.lastText?, Kept s) →
      Firm (node column before d).toList)
    (h : ∀ s ∈ lastOfItems? ds, Kept s) : Firm (stacked column (items column ds)).toList := by
  induction ds with
  | nil => exact absurd rfl hne
  | cons d ds ih =>
    cases ds with
    | nil =>
      rw [items, items, stacked, String.toList_append]
      exact (hfirm d List.mem_cons_self _ _ h).append_left _
    | cons e ds =>
      rw [items, items, stacked, ← items, String.toList_append]
      exact (ih (List.cons_ne_nil _ _) (List.forall_mem_cons.1 hfirm).2 h).append_left _

theorem firm_fields (column : Nat) {fs : List (String × Doc)} (hne : fs ≠ [])
    (hfirm : ∀ f ∈ fs, ∀ column before, (∀ s ∈ f.2.lastText?, Kept s) →
      Firm (node column before f.2).toList)
    (h : ∀ s ∈ lastOfFields? fs, Kept s) : Firm (stacked column (fields column fs)).toList := by
  induction fs with
  | nil => exact absurd rfl hne
  | cons f fs ih =>
    cases fs with
    | nil =>
      rw [fields, fields, stacked]
      split_ifs
      all_goals
        rw [String.toList_append]
        exact (hfirm f List.mem_cons_self _ _ h).append_left _
    | cons g fs =>
      rw [fields, fields, stacked, ← fields, String.toList_append]
      exact (ih (List.cons_ne_nil _ _) (List.forall_mem_cons.1 hfirm).2 h).append_left _

theorem firm_node {d : Doc} (hd : d.Textual) :
    ∀ column before, (∀ s ∈ d.lastText?, Kept s) → Firm (node column before d).toList := by
  induction hd with
  | text s =>
    intro column before h
    rw [node, String.toList_append]
    exact (firm_scalar _ (h s rfl)).append_left _
  | @list ds _ ih =>
    intro column before h
    by_cases hne : ds = []
    · exact firm_of_getLast? (c := ']') (by simp [node, hne]) (by decide)
    · simp only [node, List.isEmpty_iff, hne, if_false, String.toList_append]
      exact (firm_items _ hne ih h).append_left _
  | @record fs _ ih =>
    intro column before h
    by_cases hne : fs = []
    · exact firm_of_getLast? (c := '}') (by simp [node, hne]) (by decide)
    · simp only [node, List.isEmpty_iff, hne, if_false, String.toList_append]
      exact (firm_fields _ hne ih h).append_left _

/-- What the cut leaves of a YAML text shows the fields, where the last texts are kept. -/
theorem document_inj {fs gs : List (String × Doc)} (hfs : (Doc.record fs).Textual)
    (hgs : (Doc.record gs).Textual) (hne : fs ≠ []) (hne' : gs ≠ [])
    (hkept : ∀ s ∈ (Doc.record fs).lastText?, Kept s)
    (hkept' : ∀ s ∈ (Doc.record gs).lastText?, Kept s) (h : document fs = document gs) :
    fs = gs := by
  have hfirm := firm_fields 0 hne (fun f hf => firm_node (hfs.values f hf)) hkept
  have hfirm' := firm_fields 0 hne' (fun g hg => firm_node (hgs.values g hg)) hkept'
  have htrim : Text.dropEndBlanks (stacked 0 (fields 0 fs)).toList
      = Text.dropEndBlanks (stacked 0 (fields 0 gs)).toList := by
    simp only [document, List.isEmpty_iff, hne, hne', if_false, Text.trimEnd] at h
    exact String.ofList_injective h
  refine lines_inj hfs hgs hne hne' (String.toList_inj.1 ?_)
  rw [toList_lineEnded, toList_lineEnded, hfirm.ended_eq, hfirm'.ended_eq, htrim]

end Yaml

end Doc

namespace Value

mutual

theorem textual_toDoc : (v : Value) → v.toDoc.Textual
  | .text s | .name s => .text s
  | .list vs => .list (textual_toDocs vs)

theorem textual_toDocs : (vs : List Value) → ∀ d ∈ toDocs vs, d.Textual
  | [] => nofun
  | v :: vs => List.forall_mem_cons.2 ⟨textual_toDoc v, textual_toDocs vs⟩

end

end Value

namespace Expr

theorem textual_toDoc (x : Expr) : x.toDoc.Textual := by
  have htext (s : String) : (Doc.text s).Textual := .text s
  induction x with
  | call s as =>
    have hvalues : as.toDoc.Textual := by
      refine .record ?_
      intro f hf
      obtain ⟨e, -, rfl⟩ := List.mem_map.1 hf
      exact e.2.textual_toDoc
    refine .record ?_
    simpa [toFields, htext] using hvalues
  | binary c l r ihl ihr =>
    refine .record ?_
    simpa [toFields, toDoc, htext] using ⟨ihl, ihr⟩
  | unary c x ih =>
    refine .record ?_
    simpa [toFields, toDoc, htext] using ih

theorem toFields_ne_nil (x : Expr) : x.toFields ≠ [] := by
  cases x <;> exact List.cons_ne_nil _ _

/-- YAML tells two expressions apart just when JSON does, where neither ends in a text that is
cut by more than a line feed. -/
theorem yaml_tells_apart {x y : Expr} (hx : ∀ s ∈ x.toDoc.lastText?, Doc.Yaml.Kept s)
    (hy : ∀ s ∈ y.toDoc.lastText?, Doc.Yaml.Kept s) (compact compact' : Bool) :
    x.render .yaml compact = y.render .yaml compact'
      ↔ x.render .json true = y.render .json true := by
  rw [render_json_eq_iff, ← toFields_eq_iff]
  constructor
  · intro h
    exact Doc.Yaml.document_inj x.textual_toDoc y.textual_toDoc x.toFields_ne_nil
      y.toFields_ne_nil hx hy h
  · exact congrArg Doc.Yaml.document

/-- A symbol with a text under the name `K`. -/
def withText (s : Symbol) (content : String) : Expr :=
  .call s (.ofList [("K", .text content)])

/-- A line feed at the end is cut off too, but the text in a block is told from the plain
one. -/
theorem yaml_tells_apart_feed :
    ∃ x y, parse "ΔΑ1(K: 'x')" = .ok x ∧ parse "ΔΑ1(K: 'x\n')" = .ok y ∧
      (∀ s ∈ x.toDoc.lastText?, Doc.Yaml.Kept s) ∧ (∀ s ∈ y.toDoc.lastText?, Doc.Yaml.Kept s) ∧
      (x.render .yaml true = y.render .yaml true
        ↔ x.render .json true = y.render .json true) := by
  let symbol : Symbol := ⟨'Δ', ['Α'], ['1'], none, by decide, by decide, by decide, by decide,
    by decide, by decide⟩
  have hplain : ∀ s ∈ (withText symbol "x").toDoc.lastText?, Doc.Yaml.Kept s := by
    intro s hs
    obtain rfl := Option.some.inj hs
    exact .inr (.inr ⟨[], 'x', by decide, .inl rfl⟩)
  have hblock : ∀ s ∈ (withText symbol "x\n").toDoc.lastText?, Doc.Yaml.Kept s := by
    intro s hs
    obtain rfl := Option.some.inj hs
    exact .inr (.inr ⟨[], 'x', by decide, .inr rfl⟩)
  exact ⟨withText symbol "x", withText symbol "x\n", by decide +kernel, by decide +kernel, hplain,
    hblock, yaml_tells_apart hplain hblock true true⟩

/-- The ideographic space at the end of a plain text is cut off, and only JSON has it. -/
theorem not_yaml_tells_apart :
    ∃ x y, parse "ΔΑ1(K: 'x')" = .ok x ∧ parse "ΔΑ1(K: 'x\u3000')" = .ok y ∧
      x.render .yaml true = y.render .yaml true ∧
      x.render .json true ≠ y.render .json true := by
  let symbol : Symbol := ⟨'Δ', ['Α'], ['1'], none, by decide, by decide, by decide, by decide,
    by decide, by decide⟩
  refine ⟨withText symbol "x", withText symbol "x\u3000", ?_, ?_, ?_, ?_⟩ <;> decide +kernel

end Expr

end Sigil
