/-
  Language.lean --- a grammar text in, a parser and a terminalizer out.
-/
import ChartGrammar.Grammar.Reader
import ChartGrammar.Parser.Compiled
import ChartGrammar.Yield.Terminalizer

set_option autoImplicit false

namespace ChartGrammar

/-- Why a file with a grammar text could not be read. -/
inductive FileFault where
  | missing
  | notUtf8
  deriving DecidableEq, Repr, Inhabited

/-- What went wrong with a language. -/
inductive Cause where
  | grammar (e : GrammarError)
  | compile (e : CompileError)
  | parse (e : ParseError)
  | terminalize (e : TerminalizeError)
  | noRule (name : String)
  | noLabel (label : String)
  | file (fault : FileFault)
  deriving DecidableEq, Repr, Inhabited

/-- The message of a cause. -/
def Cause.message : Cause → String
  | grammar e => e.message
  | compile e => e.message
  | parse e => e.message
  | terminalize e => e.message
  | noRule name => "no rule named '" ++ name ++ "'"
  | noLabel label => "no parser labeled '" ++ label ++ "'"
  | file .missing => "No such file or directory (os error 2)"
  | file .notUtf8 => "stream did not contain valid UTF-8"

/-- A cause, and what was being done, the widest context first. -/
structure Failure where
  contexts : List String
  cause : Cause
  deriving DecidableEq, Repr, Inhabited

namespace Failure

/-- A failure without context. -/
def of (cause : Cause) : Failure := ⟨[], cause⟩

/-- The message of a failure: its contexts, then its cause. -/
def message (f : Failure) : String := ": ".intercalate (f.contexts ++ [f.cause.message])

/-- An outcome whose failures stand in one context more. -/
def within {α : Type} (context : String) : Except Failure α → Except Failure α
  | .ok a => .ok a
  | .error f => .error { f with contexts := context :: f.contexts }

/-- An outcome whose errors are causes of failures. -/
def causedBy {ε α : Type} (cause : ε → Cause) : Except ε α → Except Failure α
  | .ok a => .ok a
  | .error e => .error (of (cause e))

end Failure

/-- Parse tokens with the parser of a label, and report what settled on the way. -/
def Product.parseReport (p : Product) (label : String) (tokens : List Token) :
    Except Failure Value × List Settled :=
  match p.get? label with
  | none => (.error (.of (.noLabel label)), [])
  | some root =>
    let report := p.rules.parseReport root tokens
    (Failure.causedBy .parse report.outcome, report.settled)

/-- Parse tokens with the parser of a label. -/
def Product.parse (p : Product) (label : String) (tokens : List Token) : Except Failure Value :=
  (p.parseReport label tokens).1

/-- A grammar compiled for one root rule. -/
structure Language where
  grammar : Grammar
  sig : Signature
  analysis : NonEmptiness
  rootId : RuleId
  parser : Parser
  terminalizer : Terminalizer

namespace Language

/-- The rule of a name, or the complaint that there is none. -/
def findRule (g : Grammar) (name : String) : Except Failure RuleId :=
  match g.find? name with
  | some id => .ok id
  | none => .error (.of (.noRule name))

/-- Compile a grammar for a root rule. -/
def ofGrammar (g : Grammar) (root : String) : Except Failure Language := do
  let rootId ← findRule g root
  let sig := Signature.ofGrammar g
  let parser ← Failure.within ("failed to compile parser for '" ++ root ++ "'")
    (Failure.causedBy .compile (Parser.compile sig g rootId))
  let terminalizer ← Failure.within ("failed to compile terminalizer for '" ++ root ++ "'")
    (Failure.causedBy .compile (Terminalizer.compile sig g rootId))
  return ⟨g, sig, NonEmptiness.analyze g, rootId, parser, terminalizer⟩

/-- Read a grammar text and compile it for a root rule. -/
def ofText (text root : String) : Except Failure Language := do
  let g ← Failure.within "invalid grammar" (Failure.causedBy .grammar (Grammar.parse text))
  ofGrammar g root

/-- The text of a file, given its contents if it exists. -/
def decodeFile (path : String) (contents : Option ByteArray) : Except Failure String :=
  Failure.within ("failed to read grammar " ++ path)
    (match contents with
      | none => .error (.of (.file .missing))
      | some bytes =>
        match String.fromUTF8? bytes with
        | some text => .ok text
        | none => .error (.of (.file .notUtf8)))

/-- Read the grammar text in a file and compile it for a root rule. -/
def ofFile (path : String) (contents : Option ByteArray) (root : String) :
    Except Failure Language := do
  let text ← decodeFile path contents
  Failure.within ("in grammar " ++ path) (ofText text root)

/-- The name of the root rule. -/
def root (l : Language) : String := l.grammar.nameOf l.rootId

/-- Parse a text, and report what settled on the way. -/
def parseReport (l : Language) (text : String) : Except Failure Value × List Settled :=
  let report := l.parser.parseReport (Token.stream text)
  (Failure.within ("failed to parse " ++ l.root) (Failure.causedBy .parse report.outcome),
    report.settled)

/-- Parse a text. -/
def parse (l : Language) (text : String) : Except Failure Value := (l.parseReport text).1

/-- The tokens of a value. -/
def terminalize (l : Language) (v : Value) : Except Failure Yield :=
  Failure.causedBy .terminalize (l.terminalizer.terminalize v)

/-- Parse a text and give back the text of the value, and report what settled on the
way. -/
def roundTripReport (l : Language) (text : String) : Except Failure String × List Settled :=
  let (parsed, settled) := l.parseReport text
  (do return (← l.terminalize (← parsed)).text, settled)

/-- Parse a text and give back the text of the value, which is the same one. -/
def roundTrip (l : Language) (text : String) : Except Failure String :=
  (l.roundTripReport text).1

/-- Whether every value of a rule holds a token. -/
def isNonempty (l : Language) (rule : String) : Except Failure Bool :=
  return l.analysis.isNonempty (← findRule l.grammar rule)

/-- Parsers for some rules and everything they reach, under the names of the rules. -/
def product (l : Language) (roots : List String) : Except Failure Product := do
  let ids ← roots.mapM (findRule l.grammar)
  Failure.causedBy .compile (Product.compile l.sig id l.grammar ids)

end Language

end ChartGrammar
