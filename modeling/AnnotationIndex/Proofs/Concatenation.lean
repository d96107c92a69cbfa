import AnnotationIndex.Proofs.Deposit
import AnnotationIndex.Proofs.Reader.Succession

/-!
# Index texts one after another

A package header closes whatever comes before it, so a text that can be read may be followed by one
that starts with such a header: reading both is reading the first and then the second, with the
definitions of the first in scope (`Scene.read_append`). Errors in the second text show on lines
counted on.

The text reads on through the tokens (`Lexer.tokens_append_break`), the statements
(`Continuation.runs_tokens`) and the deposits (`Scene.load_append`) of the first, and the lines of
the second move through the same layers.
-/

namespace AnnotationIndex

/-! ## Deposits on other lines -/

namespace Deposit

/-- A deposit is refused for the same reason on another line. -/
theorem refusal?_reline (f : Nat → Nat) (d : Deposit) (l : Label) :
    (d.reline f).refusal? l = (d.refusal? l).map (.reline f) := by
  cases d with
  | element => rfl
  | mark =>
    simp only [reline, refusal?]
    split <;> rfl
  | castType =>
    simp only [reline, refusal?]
    cases l.castType with
    | none => rfl
    | some existing =>
      dsimp only
      split <;> rfl

/-- Where a deposit goes does not depend on its line. -/
theorem path_reline (f : Nat → Nat) (d : Deposit) : (d.reline f).path = d.path := by
  cases d <;> rfl

/-- What a deposit does does not depend on its line. -/
theorem act_reline (f : Nat → Nat) (d : Deposit) : (d.reline f).act = d.act := by
  cases d <;> rfl

end Deposit

namespace Scene

/-- Deposits on other lines make the same scene, and the one that is refused is refused on its
line. -/
theorem load_reline (f : Nat → Nat) (s : Scene) (ds : List Deposit) :
    s.load (ds.map (.reline f)) = ((s.load ds).1, (s.load ds).2.map (.reline f)) := by
  induction ds generalizing s with
  | nil => rfl
  | cons d ds ih =>
    rw [List.map_cons]
    have hrefusal := d.refusal?_reline f (s.root.labelAt d.path)
    cases h : d.refusal? (s.root.labelAt d.path) with
    | some e =>
      rw [h] at hrefusal
      rw [load_cons_of_some h, load_cons_of_some (by rw [d.path_reline]; exact hrefusal)]
      rfl
    | none =>
      rw [h] at hrefusal
      rw [load_cons_of_none h, load_cons_of_none (by rw [d.path_reline]; exact hrefusal),
        d.path_reline, d.act_reline, ih]

end Scene

/-! ## Texts -/

/-- The definitions that a text makes. -/
def definitionsOf (text : String) : List Definition :=
  match tokenize text with
  | .error _ => []
  | .ok t => (Reader.stateAfter .start t.tokens).scope.definitions

/-- What a text deposits when definitions are in scope, and why it cannot be read to its end. -/
def depositsWith (ds : List Definition) (text : String) : List Deposit × Option ReadError :=
  match tokenize text with
  | .error e => ([], some e)
  | .ok t =>
    let (deposits, failure) := Reader.run (.startWith ds) t.tokens
    (deposits, failure.map fun e => ⟨e.line.getD t.lastLine, e.cause⟩)

/-- The line of a text that starts on a new line below another one. -/
def lineBelow (first : String) (line : Nat) : Nat := line + (first.toList.count '\n' + 1)

/-- The tokens of two texts with a line break between them. -/
theorem tokenize_append {first second : String} {t u : TokenizedText}
    (hfirst : tokenize first = .ok t) (hsecond : tokenize second = .ok u) :
    tokenize (first ++ "\n" ++ second) =
      .ok ((u.reline (lineBelow first)).prepend t.tokens) := by
  have htext : (first ++ "\n" ++ second).toList = first.toList ++ '\n' :: second.toList := by
    simp
  have hline : t.lastLine + 1 = 1 + (first.toList.count '\n' + 1) := by
    rw [Lexer.lastLine_eq hfirst, Nat.add_assoc]
  rw [tokenize] at hsecond ⊢
  rw [htext, Lexer.tokens_append_break hfirst, hline, Lexer.tokens_add, hsecond]
  rfl

/-- What both texts deposit. -/
theorem depositsOf_append {first second : String} {u : TokenizedText}
    (hfirst : (depositsOf first).2 = none) (hsecond : tokenize second = .ok u)
    (hpackage : u.tokens.head?.map (·.lexeme) = some (.word "package")) :
    depositsOf (first ++ "\n" ++ second) =
      ((depositsOf first).1 ++
          (depositsWith (definitionsOf first) second).1.map (.reline (lineBelow first)),
        (depositsWith (definitionsOf first) second).2.map (.reline (lineBelow first))) := by
  cases htokens : tokenize first with
  | error e => simp [depositsOf, htokens] at hfirst
  | ok t =>
    have hrun : (Reader.run .start t.tokens).2 = none := by
      simpa [depositsOf, htokens] using hfirst
    have hhead : (u.tokens.map (Token.reline (lineBelow first))).head?.map (·.lexeme) =
        some (.word "package") := by
      rw [List.head?_map, Option.map_map]
      exact hpackage
    have hruns := Reader.run_append hrun hhead
    rw [Reader.Runs, Reader.run_reline] at hruns
    simp only [depositsOf, depositsWith, definitionsOf, tokenize_append htokens hsecond, htokens,
      hsecond, TokenizedText.prepend, TokenizedText.reline, hruns]
    refine Prod.ext rfl ?_
    simp only [Option.map_map]
    refine congrArg (Option.map · _) (funext fun e => ?_)
    obtain ⟨line, cause⟩ := e
    cases line <;> rfl

namespace Scene

/-- Puts what a text says into a scene when definitions are in scope. -/
def readWith (s : Scene) (ds : List Definition) (text : String) : Scene × Option ReadError :=
  let (deposits, e) := depositsWith ds text
  match s.load deposits with
  | (s, some refused) => (s, some refused)
  | (s, none) => (s, e)

/-- Without definitions in scope this is reading. -/
theorem readWith_nil (s : Scene) (text : String) : s.readWith [] text = s.read text := rfl

/-- **A package header closes whatever precedes it.** When the first text can be read and the
second starts with a package, both with a line break between them are read as the second is read
into what the first has made, with the definitions of the first in scope. Errors show as many lines
further down as the first text and the line break take up. -/
theorem read_append {s s' : Scene} {first second : String} {u : TokenizedText}
    (hfirst : s.read first = (s', none)) (hsecond : tokenize second = .ok u)
    (hpackage : u.tokens.head?.map (·.lexeme) = some (.word "package")) :
    s.read (first ++ "\n" ++ second) =
      ((s'.readWith (definitionsOf first) second).1,
        (s'.readWith (definitionsOf first) second).2.map (.reline (lineBelow first))) := by
  rw [read] at hfirst ⊢
  have hload : s.load (depositsOf first).1 = (s', none) ∧ (depositsOf first).2 = none := by
    generalize depositsOf first = deposited at hfirst
    obtain ⟨deposits, e⟩ := deposited
    rcases hl : s.load deposits with ⟨s'', refused⟩
    cases refused <;> simp_all
  rw [depositsOf_append hload.2 hsecond hpackage]
  simp only
  rw [load_append (by rw [hload.1]), hload.1, load_reline, readWith]
  simp only
  generalize s'.load _ = r
  obtain ⟨s'', refused⟩ := r
  cases refused <;> rfl

/-- A definition whose fields could go on, and a package that uses it and fails on its second
line. -/
theorem read_append_openDefinition :
    let first := "package p:\nannotation visible @A:\n  int x"
    let second := "package q: class D: @p.A(x=1)\n  field f: @p.A(x=2) @p.A(x=3)"
    ∃ s u, empty.read first = (s, none) ∧ tokenize second = .ok u ∧
      u.tokens.head?.map (·.lexeme) = some (.word "package") ∧
      (definitionsOf first).map (·.name) = ["p.A"] ∧
      (s.readWith (definitionsOf first) second).2 = some ⟨2, .annotationTwice "p.A"⟩ ∧
      empty.read (first ++ "\n" ++ second) =
        ((s.readWith (definitionsOf first) second).1,
          (s.readWith (definitionsOf first) second).2.map (.reline (lineBelow first))) := by
  intro first second
  have hfirst : empty.read first = ((empty.read first).1, none) :=
    Prod.ext rfl (show (empty.read first).2 = none by decide +kernel)
  obtain ⟨u, hu⟩ : ∃ u, tokenize second = .ok u := by
    have hok : (tokenize second).toBool = true := by decide +kernel
    cases h : tokenize second with
    | ok u => exact ⟨u, rfl⟩
    | error e => simp [h, Except.toBool] at hok
  have hpackage : u.tokens.head?.map (·.lexeme) = some (.word "package") := by
    have hhead : (tokenize second).toOption.bind (·.tokens.head?.map (·.lexeme)) =
        some (.word "package") := by decide +kernel
    rwa [hu] at hhead
  exact ⟨_, u, hfirst, hu, hpackage, by decide +kernel, by decide +kernel,
    read_append hfirst hu hpackage⟩

end Scene

end AnnotationIndex
