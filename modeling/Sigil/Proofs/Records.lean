import Sigil.Batch.Told
import Sigil.Cli.Run
import Sigil.Proofs.Batches
import Sigil.Proofs.Commands
import Sigil.Proofs.Json.Encoding
import Sigil.Proofs.Symbols

/-! # Lines and records

    A batch writes a line for each of its records.  No line feed comes into
    a line from the texts in it, so the output falls apart into the lines
    that were put together; and from a line all is read back that its
    record tells, with names that are values as texts
    (`Cli.batch_is_decodable`). -/

namespace Sigil

/-! ### Reading documents back -/

namespace Value

mutual

theorem ofDoc?_toDoc : (v : Value) → ofDoc? v.toDoc = some v.unnamed
  | .text s | .name s => by rw [toDoc, ofDoc?, unnamed]
  | .list vs => by
    rw [toDoc, ofDoc?, ofDocs?_toDocs vs, unnamed]
    rfl

theorem ofDocs?_toDocs : (vs : List Value) → ofDocs? (toDocs vs) = some (unnamedItems vs)
  | [] => by rw [toDocs, ofDocs?, unnamedItems]
  | v :: vs => by
    rw [toDocs, ofDocs?, ofDoc?_toDoc v, ofDocs?_toDocs vs, unnamedItems]
    rfl

end

end Value

namespace Arguments

theorem entriesOf?_map (es : List (String × Value)) :
    entriesOf? (es.map fun e => (e.1, e.2.toDoc)) = some (es.map fun e => (e.1, e.2.unnamed)) := by
  induction es with
  | nil => rfl
  | cons e es ih =>
    rw [List.map_cons, entriesOf?, Value.ofDoc?_toDoc, ih]
    rfl

/-- No name comes twice, so that collecting the entries again changes nothing. -/
theorem ofDoc?_toDoc (as : Arguments) : ofDoc? as.toDoc = some as.unnamed := by
  rw [toDoc, ofDoc?, toFields, entriesOf?_map]
  exact congrArg some (ofList_entries as.unnamed)

end Arguments

theorem Connective.ofText?_text (c : Connective) : ofText? c.text = some c := by
  cases c <;> decide

theorem Kind.ofName?_name (k : Kind) : ofName? k.name = some k := by
  rcases k with ⟨⟨⟩⟩ | _ | _ <;> decide

namespace Expr

/-- An expression is read back from its document, up to names that are values. -/
theorem ofDoc?_toDoc (x : Expr) : ofDoc? x.toDoc = some x.unnamed := by
  induction x with
  | call s as =>
    have htype : (Expr.call s as).toDoc.textAt? "type" = some "symbol_call" := rfl
    have hsymbol : (Expr.call s as).toDoc.textAt? "symbol" = some s.text := rfl
    have hfield : (Expr.call s as).toDoc.field? "parameters" = some as.toDoc := rfl
    have hparse : Symbol.parse? s.text = some s := Symbol.parse?_eq_some_iff.2 rfl
    rw [ofDoc?, htype, hsymbol, hfield]
    simp only [Option.bind_eq_bind, Option.bind_some, hparse, Arguments.ofDoc?_toDoc]
    rfl
  | binary c l r ihl ihr =>
    have htype : (Expr.binary c l r).toDoc.textAt? "type" = some "operation" := rfl
    have hsign : (Expr.binary c l r).toDoc.textAt? "operator" = some c.text := rfl
    have hleft : (Expr.binary c l r).toDoc.field? "left" = some l.toDoc := rfl
    have hright : (Expr.binary c l r).toDoc.field? "right" = some r.toDoc := rfl
    rw [ofDoc?, htype, hsign]
    simp only [Option.bind_eq_bind, Option.bind_some, Connective.ofText?_text]
    split
    · next d e hd he =>
      obtain rfl : l.toDoc = d := Option.some.inj (hleft.symm.trans hd)
      obtain rfl : r.toDoc = e := Option.some.inj (hright.symm.trans he)
      rw [ihl, ihr]
      rfl
    · next hnone => exact absurd hright (hnone _ _ hleft)
  | unary c x ih =>
    have htype : (Expr.unary c x).toDoc.textAt? "type" = some "unary_operation" := rfl
    have hsign : (Expr.unary c x).toDoc.textAt? "operator" = some c.text := rfl
    have hoperand : (Expr.unary c x).toDoc.field? "operand" = some x.toDoc := rfl
    rw [ofDoc?, htype, hsign]
    simp only [Option.bind_eq_bind, Option.bind_some, Connective.ofText?_text]
    split
    · next d hd =>
      obtain rfl : x.toDoc = d := Option.some.inj (hoperand.symm.trans hd)
      rw [ih]
      rfl
    · next hnone =>
      rw [hoperand] at hnone
      cases hnone

end Expr

/-! ### Lines of records -/

namespace Batch

namespace Record

/-- All that a record tells, but for the difference between a name that is a value and
a quoted text. -/
def told (r : Record) : Told :=
  match r.outcome with
  | .ok x => .success r.entry x.unnamed x.trace
  | .error refusal =>
    let diagnostic := refusal.diagnose (.inline r.entry.text)
    .failure r.entry diagnostic.kind diagnostic.sentence

theorem exists_toDoc_eq (r : Record) : ∃ fields, r.toDoc = .record fields :=
  ⟨_, rfl⟩

/-- The names of the outcome are none of those of the entry, and none of them comes
twice, whichever the outcome is. -/
theorem distinctNames_toDoc (r : Record) : r.toDoc.DistinctNames := by
  have htext (s : String) : (Doc.text s).DistinctNames := .text s
  have hnumber (n : Nat) : (Doc.number n).DistinctNames := .number n
  obtain ⟨entry, outcome⟩ := r
  cases outcome with
  | ok x =>
    refine .record (by simp) ?_
    simpa [htext, hnumber] using x.distinctNames_toDoc
  | error refusal =>
    refine .record (by simp) ?_
    simp [htext, hnumber]

theorem isElement_line_iff {r : Record} {d : Doc} :
    Doc.Json.IsElement r.line.toList d ↔ d = r.toDoc :=
  Doc.Json.isElement_compact_iff

theorem notMem_feed_line (r : Record) : '\n' ∉ r.line.toList :=
  (Doc.Json.controlFree_compact r.toDoc).notMem_feed

theorem line_ne_empty (r : Record) : r.line ≠ "" := by
  intro hempty
  have hread : Doc.Json.read? r.line.toList = some r.toDoc :=
    Doc.Json.read?_of_isElement (isElement_line_iff.2 rfl)
  rw [hempty] at hread
  cases hread

/-- From its line a record is read back. -/
theorem told?_line (r : Record) : told? r.line = some r.told := by
  have hread : Doc.Json.read? r.line.toList = some r.toDoc :=
    Doc.Json.read?_of_isElement (isElement_line_iff.2 rfl)
  have hnumber : r.toDoc.numberAt? "line" = some r.entry.line := rfl
  have htext : r.toDoc.textAt? "expression" = some r.entry.text := rfl
  unfold told?
  simp only [hread, hnumber, htext, Option.bind_eq_bind, Option.bind_some]
  obtain ⟨entry, outcome⟩ := r
  cases outcome with
  | ok x =>
    show (Expr.ofDoc? x.toDoc).bind _ = _
    rw [Expr.ofDoc?_toDoc]
    rfl
  | error refusal =>
    show (Kind.ofName? (refusal.diagnose (.inline entry.text)).kind.name).bind _ = _
    rw [Kind.ofName?_name]
    rfl

end Record

theorem failures_eq_zero_iff {records : List Record} :
    failures records = 0 ↔ ∀ r ∈ records, r.isSuccess = true := by
  simp [failures]

end Batch

/-! ### The output -/

namespace Cli

open Batch

/-- The lines of a text that are not empty. -/
def filledLines (text : String) : List String :=
  (Text.lines text).filter (· ≠ "")

theorem filledLines_runBatch (text : String) :
    filledLines (runBatch text).output = (process text).map Record.line := by
  have hfeeds : ∀ line ∈ (process text).map Record.line, '\n' ∉ line.toList := by
    intro line hline
    obtain ⟨r, -, rfl⟩ := List.mem_map.1 hline
    exact r.notMem_feed_line
  have hlines := Text.lines_join hfeeds
  rw [List.map_map] at hlines
  have hkeep : ∀ line ∈ (process text).map Record.line, decide (line ≠ "") = true := by
    intro line hline
    obtain ⟨r, -, rfl⟩ := List.mem_map.1 hline
    exact decide_eq_true r.line_ne_empty
  unfold filledLines
  rw [show (runBatch text).output = String.join ((process text).map ((· ++ "\n") ∘ Record.line))
    from rfl, hlines, List.filter_append, List.filter_eq_self.2 hkeep]
  simp

theorem Outcome.status_eq_zero_iff {o : Outcome} : o.status = 0 ↔ ¬ o.status = 1 := by
  unfold status
  cases o.success <;> simp

theorem status_runBatch_iff (text : String) :
    (runBatch text).status = 1 ↔ ∃ r ∈ process text, r.isSuccess = false := by
  have hsuccess : (runBatch text).success = true ↔ ∀ r ∈ process text, r.isSuccess = true := by
    rw [← failures_eq_zero_iff]
    exact beq_iff_eq
  unfold Outcome.status
  by_cases h : (runBatch text).success = true
  · rw [if_pos h]
    refine iff_of_false (by decide) ?_
    rintro ⟨r, hr, hfalse⟩
    rw [hsuccess.1 h r hr] at hfalse
    cases hfalse
  · rw [if_neg h]
    refine iff_of_true rfl ?_
    by_contra hnone
    refine h (hsuccess.2 fun r hr => ?_)
    by_contra hr'
    exact hnone ⟨r, hr, Bool.eq_false_iff.2 hr'⟩

theorem runOn_batch {console : Console} {o : Options} {world : World} {path text : String}
    {bytes : ByteArray} (hcommand : o.command = .batch path)
    (hworld : world (.file path) = .ok bytes) (htext : String.fromUTF8? bytes = some text) :
    runOn console o world = runBatch text := by
  have hpiped : (Channel.file path).isTerminal console = false := rfl
  rw [runOn, hcommand]
  simp only [Channel.receive, hpiped, hworld, htext]
  rfl

/-- The output of a batch has a line for each record, in order, and nothing besides.  Each
line is a JSON record without a name that comes twice, of one document only, and all that
its record tells is read back from it.  The status is 1 just when a record tells a failure,
and 0 otherwise. -/
theorem batch_is_decodable {console : Console} {o : Options} {world : World}
    {path text : String} {bytes : ByteArray} (hcommand : o.command = .batch path)
    (hworld : world (.file path) = .ok bytes) (htext : String.fromUTF8? bytes = some text) :
    (filledLines (runOn console o world).output).length = (process text).length ∧
    (∀ (k : Nat) (r : Record), (process text)[k]? = some r →
      ∃ line fields, (filledLines (runOn console o world).output)[k]? = some line ∧
        (∀ d, Doc.Json.IsElement line.toList d ↔ d = .record fields) ∧
        (Doc.record fields).DistinctNames ∧ told? line = some r.told) ∧
    ((runOn console o world).status = 1 ↔ ∃ r ∈ process text, r.isSuccess = false) ∧
    ((runOn console o world).status = 0 ↔ ∀ r ∈ process text, r.isSuccess = true) := by
  have hfilled := filledLines_runBatch text
  have hone := status_runBatch_iff text
  have hzero : (runBatch text).status = 0 ↔ ∀ r ∈ process text, r.isSuccess = true := by
    rw [Outcome.status_eq_zero_iff, hone]
    simp
  rw [runOn_batch hcommand hworld htext]
  refine ⟨by rw [hfilled, List.length_map], fun k r hr => ?_, hone, hzero⟩
  obtain ⟨fields, hfields⟩ := r.exists_toDoc_eq
  refine ⟨r.line, fields, ?_, fun d => ?_, ?_, r.told?_line⟩
  · rw [hfilled, List.getElem?_map, hr, Option.map_some]
  · rw [← hfields]
    exact Record.isElement_line_iff
  · rw [← hfields]
    exact r.distinctNames_toDoc

/-- A quote, a backslash and a carriage return come through in one record, and the failure
of the other decides on the status. -/
theorem batch_is_decodable_literal :
    let o : Options := ⟨.batch "b", 0, .auto⟩
    let text := "ΔΑ1(K:'\"\\\r')\n\nΔΑ1 ∧\n"
    let world : World := fun _ => .ok text.toUTF8
    let s : Symbol := ⟨'Δ', ['Α'], ['1'], none, by decide, by decide, by decide, by decide,
      by decide, by decide⟩
    (filledLines (run o world).output).length = 2 ∧
      (filledLines (run o world).output)[0]?.bind told?
        = some (.success ⟨1, "ΔΑ1(K:'\"\\\r')"⟩ (.call s (.ofList [("K", .text "\"\\\r")]))
            "Executed function: ΔΑ1(K: \"\\\r)") ∧
      (filledLines (run o world).output)[1]?.bind told?
        = some (.failure ⟨3, "ΔΑ1 ∧"⟩ (.fault .semantic)
            "Semantic violation: operator '∧' is missing its right-hand operand") ∧
      (run o world).status = 1 := by
  intro o text world s
  have htold : (process text).map Record.told
      = [.success ⟨1, "ΔΑ1(K:'\"\\\r')"⟩ (.call s (.ofList [("K", .text "\"\\\r")]))
          "Executed function: ΔΑ1(K: \"\\\r)",
        .failure ⟨3, "ΔΑ1 ∧"⟩ (.fault .semantic)
          "Semantic violation: operator '∧' is missing its right-hand operand"] := by
    decide +kernel
  have hrecords : (process text).map Record.isSuccess = [true, false] := by decide +kernel
  have hcommand : o.command = .batch "b" := rfl
  have hworld : world (.file "b") = .ok text.toUTF8 := rfl
  have hrun : run o world = runOn .pipes o world := rfl
  obtain ⟨hlength, hlines, hstatus, -⟩ :=
    batch_is_decodable hcommand hworld (Text.fromUTF8?_toUTF8 text)
  rw [← hrun] at hlength hlines hstatus
  have hread : ∀ (k : Nat) (told : Told), ((process text).map Record.told)[k]? = some told →
      (filledLines (run o world).output)[k]?.bind told? = some told := by
    intro k told hk
    rw [List.getElem?_map] at hk
    obtain ⟨r, hr, rfl⟩ := Option.map_eq_some_iff.1 hk
    obtain ⟨line, fields, hline, -, -, hline'⟩ := hlines k r hr
    rw [hline, Option.bind_some, hline']
  rw [htold] at hread
  refine ⟨?_, hread 0 _ rfl, hread 1 _ rfl, hstatus.2 ?_⟩
  · rw [hlength, ← List.length_map (f := Record.told), htold]
    rfl
  · have hmem : false ∈ (process text).map Record.isSuccess := by
      rw [hrecords]
      decide
    obtain ⟨r, hr, hfalse⟩ := List.mem_map.1 hmem
    exact ⟨r, hr, hfalse⟩

end Cli

end Sigil
