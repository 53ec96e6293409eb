import Sigil.Cli.CommandLine
import Sigil.Cli.Run
import Sigil.Proofs.Language
import Sigil.Proofs.Trimming

/-! # Commands on a single expression

    A command on a single expression works on its text without the blanks
    at the end, and yet it answers for the text as it stands.  It succeeds
    just when the text can be read, and then writes what is told of the
    expression, or of the tokens; else it writes nothing and reports the
    fault of the text.  So the commands agree with each other, and it does
    not matter on which channel the text comes (`Cli.single_answers`). -/

namespace Sigil

/-! ### Texts that are given -/

theorem Text.fromUTF8?_toUTF8 (s : String) : String.fromUTF8? s.toUTF8 = some s := by
  unfold String.fromUTF8?
  split
  · rfl
  · next h => exact absurd s.isValidUTF8 h

namespace Cli

/-- The input gives a text: in place, or as the bytes that its channel holds, when that is no
terminal. -/
inductive Input.Gives (console : Console) (world : World) : Input → String → Prop where
  | inline (text : String) : Gives console world (.inline text) text
  | channel {c : Channel} {text : String} (piped : c.isTerminal console = false)
      (held : world c = .ok text.toUTF8) : Gives console world (.channel c) text

theorem Channel.receive_eq {c : Channel} {console : Console} {world : World} {text : String}
    (hpiped : c.isTerminal console = false) (h : world c = .ok text.toUTF8) :
    c.receive console world = .ok ⟨c.sourceName, text⟩ := by
  simp only [receive, hpiped, h, Text.fromUTF8?_toUTF8]
  rfl

/-- A text that is given is received, under some name. -/
theorem Input.Gives.receive {i : Input} {console : Console} {world : World} {text : String}
    (h : i.Gives console world text) : ∃ name, i.receive console world = .ok ⟨name, text⟩ := by
  cases h with
  | inline => exact ⟨"expression", rfl⟩
  | channel piped held => exact ⟨_, Channel.receive_eq piped held⟩

theorem exists_run_single {i : Input} {console : Console} {world : World} {text : String}
    (h : i.Gives console world text) (verbosity : Nat) (color : ColorMode) :
    ∃ name, ∀ a : Action, runOn console ⟨.single a i, verbosity, color⟩ world
      = a.run (color.paints console) ⟨name, text⟩ := by
  obtain ⟨name, hreceive⟩ := h.receive
  exact ⟨name, fun a => by simp only [runOn, hreceive]⟩

/-! ### Answers -/

namespace Outcome

/-- The outcome answers for what a text is read as: it tells of what was read, or reports
the fault and writes nothing. -/
structure Answers {α : Type} (o : Outcome) (reading : Except Refusal α) (tell : α → String) :
    Prop where
  status : o.status = 0 ↔ ∃ a, reading = .ok a
  success : ∀ a, reading = .ok a → o.output = tell a ∧ o.report = none
  failure : ∀ r, reading = .error r → o.status = 1 ∧ o.output = "" ∧
    ∃ d, o.report = some d ∧ d.kind = .fault r.fault.stage ∧ d.message = r.fault.message

/-- The outcomes end with the same status and write the same, and what they report differs
at most in the name of the source. -/
structure Alike (o o' : Outcome) : Prop where
  status : o.status = o'.status
  output : o.output = o'.output
  report : (o.report.map fun d => (d.kind, d.message, d.span?, d.advice?))
    = o'.report.map fun d => (d.kind, d.message, d.span?, d.advice?)

end Outcome

namespace Action

section Runs

variable {a : Action} {colored : Bool} {s : Source}

theorem run_of_output {output : String}
    (h : a.output colored (Text.trimEnd s.text) = .ok output) :
    ∃ events, a.run colored s = ⟨output, events, true, none⟩ := by
  simp only [run, h]
  exact ⟨_, rfl⟩

theorem run_of_refusal {r : Refusal}
    (h : a.output colored (Text.trimEnd s.text) = .error r) :
    ∃ events, a.run colored s
      = .failed events (r.diagnose { s with text := Text.trimEnd s.text }) := by
  simp only [run, h]
  exact ⟨_, rfl⟩

/-- An action that tells of its reading answers for a text, if the reading does not depend
on the blanks at the end but for the place of a fault. -/
theorem answers_run {α : Type} {reading : String → Except Refusal α} {tell : α → String}
    (houtput : ∀ text, a.output colored text = (reading text).map tell)
    (htrim : (reading (Text.trimEnd s.text)).mapError (·.fault)
      = (reading s.text).mapError (·.fault)) :
    (a.run colored s).Answers (reading s.text) tell := by
  have hwritten := houtput (Text.trimEnd s.text)
  cases hreading : reading s.text with
  | ok x =>
    rw [eq_ok_of_fault_eq htrim hreading] at hwritten
    obtain ⟨events, hrun⟩ := run_of_output hwritten
    rw [hrun]
    refine ⟨iff_of_true rfl ⟨x, rfl⟩, ?_, nofun⟩
    intro y hy
    rw [Except.ok.inj hy]
    exact ⟨rfl, rfl⟩
  | error r =>
    -- The blanks are gone from the text, so that the fault may stand elsewhere.
    obtain ⟨span, htrimmed⟩ := eq_error_of_fault_eq htrim hreading
    rw [htrimmed] at hwritten
    obtain ⟨events, hrun⟩ := run_of_refusal hwritten
    rw [hrun]
    refine ⟨iff_of_false nofun nofun, nofun, ?_⟩
    intro r' hr'
    rw [← Except.error.inj hr']
    exact ⟨rfl, rfl, _, rfl, rfl, rfl⟩

/-- An action does the same for all texts that differ only in the blanks at their end. -/
theorem run_alike {s' : Source} (h : Text.trimEnd s.text = Text.trimEnd s'.text) :
    (a.run colored s).Alike (a.run colored s') := by
  cases houtput : a.output colored (Text.trimEnd s.text) with
  | ok output =>
    obtain ⟨events, hrun⟩ := run_of_output houtput
    rw [h] at houtput
    obtain ⟨events', hrun'⟩ := run_of_output houtput
    rw [hrun, hrun']
    exact ⟨rfl, rfl, rfl⟩
  | error r =>
    obtain ⟨events, hrun⟩ := run_of_refusal houtput
    rw [h] at houtput
    obtain ⟨events', hrun'⟩ := run_of_refusal houtput
    rw [hrun, hrun']
    exact ⟨rfl, rfl, rfl⟩

end Runs

/-! ### What each action tells -/

theorem output_ast (format : Format) (compact colored : Bool) (text : String) :
    output (.ast format compact) colored text
      = (Expr.parse text).map fun x => x.render format compact ++ "\n" := by
  unfold output
  cases Expr.parse text <;> rfl

theorem output_execute (colored : Bool) (text : String) :
    output .execute colored text = (Expr.parse text).map fun x => x.trace ++ "\n" := by
  unfold output
  cases Expr.parse text <;> rfl

theorem output_check (colored : Bool) (text : String) :
    output .check colored text = (Expr.parse text).map fun x =>
      Ink.boldGreen.paint colored "ok"
        ++ s!": {x.form} ({x.symbols.length} symbols, depth {x.depth})" ++ "\n" := by
  unfold output
  cases Expr.parse text <;> rfl

theorem output_tokens (colored : Bool) (text : String) :
    output .tokens colored text = (Token.readAll text).map fun tokens =>
      String.join (tokens.map (tokenLine colored)) := by
  unfold output
  cases Token.readAll text <;> rfl

end Action

/-! ### The four commands -/

section Runs

variable {input : Input} {console : Console} {world : World} {text : String}
  (h : input.Gives console world text) (verbosity : Nat) (color : ColorMode)

include h

theorem run_answers {α : Type} {a : Action} {reading : String → Except Refusal α}
    {tell : α → String}
    (houtput : ∀ text, a.output (color.paints console) text = (reading text).map tell)
    (htrim : ∀ text, (reading (Text.trimEnd text)).mapError (·.fault)
      = (reading text).mapError (·.fault)) :
    (runOn console ⟨.single a input, verbosity, color⟩ world).Answers (reading text) tell := by
  obtain ⟨name, hrun⟩ := exists_run_single h verbosity color
  rw [hrun a]
  exact Action.answers_run houtput (htrim text)

theorem run_tokens_answers :
    (runOn console ⟨.single .tokens input, verbosity, color⟩ world).Answers (Token.readAll text)
      fun tokens => String.join (tokens.map (Action.tokenLine (color.paints console))) :=
  run_answers h verbosity color (Action.output_tokens _) Token.fault_readAll_trimEnd

/-- The commands answer for a text as it is given, with the blanks at its end: three of them
for the expression that it is, and one for its tokens, which there are whenever it is an
expression.  Where else the text comes from, and with which blanks at its end, is all the
same, as long as the colors are. -/
theorem single_answers :
    let outcome (a : Action) := runOn console ⟨.single a input, verbosity, color⟩ world
    (∀ format compact, (outcome (.ast format compact)).Answers (Expr.parse text) fun x =>
      x.render format compact ++ "\n") ∧
    ((outcome .execute).Answers (Expr.parse text) fun x => x.trace ++ "\n") ∧
    ((outcome .check).Answers (Expr.parse text) fun x =>
      Ink.boldGreen.paint (color.paints console) "ok"
        ++ s!": {x.form} ({x.symbols.length} symbols, depth {x.depth})" ++ "\n") ∧
    ((outcome .tokens).Answers (Token.readAll text) fun tokens =>
      String.join (tokens.map (Action.tokenLine (color.paints console)))) ∧
    ((outcome .check).status = 0 → (outcome .tokens).status = 0) ∧
    ∀ (a : Action) (input' : Input) (console' : Console) (world' : World) (text' : String)
      (verbosity' : Nat), input'.Gives console' world' text' → Text.SameButEnd text text' →
        color.paints console' = color.paints console →
        (outcome a).Alike (runOn console' ⟨.single a input', verbosity', color⟩ world') := by
  intro outcome
  have hexpr {a : Action} {tell : Expr → String}
      (houtput : ∀ text, a.output (color.paints console) text = (Expr.parse text).map tell) :
      (outcome a).Answers (Expr.parse text) tell :=
    run_answers h verbosity color houtput Expr.fault_parse_trimEnd
  have hcheck := hexpr (Action.output_check _)
  have htokens := run_tokens_answers h verbosity color
  refine ⟨fun format compact => hexpr (Action.output_ast format compact _),
    hexpr (Action.output_execute _), hcheck, htokens, ?_, ?_⟩
  · intro hstatus
    obtain ⟨x, hparse⟩ := hcheck.status.1 hstatus
    obtain ⟨tokens, hread, -⟩ := Expr.parse_eq_ok_iff.1 hparse
    exact htokens.status.2 ⟨tokens, hread⟩
  · intro a input' console' world' text' verbosity' h' hsame hpaints
    -- The channels name their sources differently, and only the report shows the name.
    obtain ⟨name, hrun⟩ := exists_run_single h verbosity color
    obtain ⟨name', hrun'⟩ := exists_run_single h' verbosity' color
    show (runOn console _ world).Alike _
    rw [hrun a, hrun' a, hpaints]
    exact Action.run_alike hsame.trimEnd_eq

end Runs

/-- A file that ends in blanks where an operand is missing: its tokens are listed, and it
is refused as it is in place and without the blanks. -/
theorem single_answers_unfinished :
    let text := "ΔΑ1 ∧\u3000\n"
    let world : World := fun _ => .ok text.toUTF8
    let outcome (a : Action) := run ⟨.single a (.channel (.file "f")), 0, .never⟩ world
    Cli.parse ["--color", "never", "check", "-f", "f"]
      = .ok ⟨.single .check (.channel (.file "f")), 0, .never⟩ ∧
    (outcome .check).status = 1 ∧ (outcome .check).output = "" ∧
    (outcome .tokens).status = 0 ∧
    (outcome .tokens).output = "SYMBOL         ΔΑ1  0..5\nAND            ∧  6..9\n" ∧
    (outcome .check).Alike
      (run ⟨.single .check (.inline "ΔΑ1 ∧"), 2, .never⟩ fun _ => .error "closed") := by
  intro text world outcome
  let s : Symbol := ⟨'Δ', ['Α'], ['1'], none, by decide, by decide, by decide, by decide,
    by decide, by decide⟩
  have hread : Token.readAll text
      = .ok [⟨.symbol s, 0, 5⟩, ⟨.connective .and, 6, 9⟩] := by
    decide +kernel
  have hparse : Expr.parse text = .error ⟨.missingOperand .and, 6, 9⟩ := by decide +kernel
  have hgives : Input.Gives .pipes world (.channel (.file "f")) text := .channel rfl rfl
  have hsame : Text.SameButEnd text "ΔΑ1 ∧" :=
    ⟨"ΔΑ1 ∧".toList, ['\u3000', '\n'], [], by decide, rfl, by decide +kernel, by decide +kernel⟩
  obtain ⟨-, -, hcheck, htokens, -, halike⟩ := single_answers hgives 0 .never
  obtain ⟨hstatus, houtput, -⟩ := hcheck.failure _ hparse
  have hlisted := (htokens.success _ hread).1
  exact ⟨by decide +kernel, hstatus, houtput, htokens.status.2 ⟨_, hread⟩,
    hlisted.trans (by decide +kernel), halike .check _ .pipes _ _ 2 (.inline _) hsame rfl⟩

end Cli

end Sigil
