/-
  Grammar/Reader.lean --- reading grammar texts.

      # comments run to the end of their line
      digit           = @digit ;
      digits "number" = digit+ ;
      pair            = ( digits comma digits ) ;
      comma           = ',' ;
      expr            = Add: expr plus digits | Num: digits ;

  A step reads the front of the text and hands on the rest.  When it fails, the
  text before it is whole again and something else may be tried, except after the
  name of a class that does not exist: nothing else can begin that way, and
  reading stops there.
-/
import ChartGrammar.Grammar.Builder

set_option autoImplicit false

namespace ChartGrammar.Reader

/-- What a step that failed was looking for, and where.  After a final fault nothing
else is tried. -/
structure Fault where
  wanted : Wanted
  rest : List Char
  final : Bool := false
  deriving DecidableEq, Repr, Inhabited

/-- A step: it reads the front of a text and hands on the rest. -/
abbrev Step := StateT (List Char) (Except Fault)

variable {α β : Type}

/-! ## Combining steps -/

/-- Try one step and, if it fails without being final, another one. -/
def orElse (p q : Step α) : Step α := fun cs =>
  match p cs with
  | .ok r => .ok r
  | .error f => if f.final then .error f else q cs

/-- Try a step that may be left out. -/
def maybe (p : Step α) : Step (Option α) := fun cs =>
  match p cs with
  | .ok (a, rest) => .ok (some a, rest)
  | .error f => if f.final then .error f else .ok (none, cs)

/-- Take a step again and again until it fails.  A step that reads nothing ends the
run. -/
def many (p : Step α) (cs : List Char) : Except Fault (List α × List Char) :=
  match p cs with
  | .error f => if f.final then .error f else .ok ([], cs)
  | .ok (a, rest) =>
    if rest.length < cs.length then
      match many p rest with
      | .ok (as, rest) => .ok (a :: as, rest)
      | .error f => .error f
    else .ok ([], cs)
termination_by cs.length

/-- A step at least once, with another one in between. -/
def separated (sep : Step β) (p : Step α) : Step (List α) := do
  let first ← p
  let others ← many do
    let _ ← sep
    p
  return first :: others

/-- A step that looks at the text and may refuse it. -/
def ofOption (wanted : Wanted) (read? : List Char → Option (α × List Char)) :
    Step α := fun cs =>
  match read? cs with
  | some r => .ok r
  | none => .error ⟨wanted, cs, false⟩

/-! ## Filler, marks and names -/

/-- Blanks between the parts of a text. -/
def isBlank (c : Char) : Bool := c == ' ' || c == '\t' || c == '\r' || c == '\n'

/-- What follows a comment, given the text after its `#`.  The comment ends before a
line feed, a carriage return with a line feed, or at the end of the text; it may
contain no other carriage return. -/
def afterComment? : List Char → Option (List Char)
  | [] => some []
  | '\n' :: rest => some ('\n' :: rest)
  | '\r' :: '\n' :: rest => some ('\r' :: '\n' :: rest)
  | '\r' :: _ => none
  | _ :: rest => afterComment? rest

theorem length_afterComment? {cs rest : List Char} (h : afterComment? cs = some rest) :
    rest.length ≤ cs.length := by
  fun_induction afterComment? cs with
  | case1 => simp_all
  | case2 r => simp_all
  | case3 r => simp_all
  | case4 => simp at h
  | case5 c r _ _ _ ih =>
    have := ih h
    simp only [List.length_cons]
    omega

/-- The text without the blanks and comments in front of it. -/
def skipFiller (cs : List Char) : List Char :=
  match cs with
  | [] => []
  | c :: rest =>
    if isBlank c then skipFiller rest
    else if c = '#' then
      match _h : afterComment? rest with
      | some after => skipFiller after
      | none => c :: rest
    else c :: rest
termination_by cs.length
decreasing_by
  · simp
  · have := length_afterComment? _h
    simp only [List.length_cons]
    omega

/-- Skip blanks and comments. -/
def filler : Step Unit := modify skipFiller

/-- A mark. -/
def mark (c : Char) : Step Unit :=
  ofOption .mark fun cs =>
    match cs with
    | d :: rest => if d = c then some ((), rest) else none
    | [] => none

/-- Whether a name may begin with a character: an ASCII letter or an underscore. -/
def beginsName (c : Char) : Bool := c.isAlpha || c == '_'

/-- Whether a name may go on with a character: an ASCII letter, a digit or an
underscore. -/
def continuesName (c : Char) : Bool := c.isAlphanum || c == '_'

/-- A name. -/
def name : Step String :=
  ofOption .word fun cs =>
    match cs with
    | c :: rest =>
      if beginsName c then
        some (String.ofList (c :: rest.takeWhile continuesName), rest.dropWhile continuesName)
      else none
    | [] => none

/-! ## Literals -/

/-- What an escape stands for, given the character after its backslash. -/
def unescape? : Char → Option Char
  | 'n' => some '\n'
  | 't' => some '\t'
  | 'r' => some '\r'
  | '\\' => some '\\'
  | '\'' => some '\''
  | '"' => some '"'
  | _ => none

/-- A character in apostrophes. -/
def charLiteral? : List Char → Option (Char × List Char)
  | '\'' :: '\\' :: c :: '\'' :: rest => (unescape? c).map (·, rest)
  | '\'' :: c :: '\'' :: rest => if c = '\\' || c = '\'' then none else some (c, rest)
  | _ => none

/-- The characters up to the next double quote. -/
def literalBody? : List Char → Option (List Char × List Char)
  | [] => none
  | '"' :: rest => some ([], rest)
  | '\\' :: c :: rest =>
    match unescape? c, literalBody? rest with
    | some d, some (body, rest) => some (d :: body, rest)
    | _, _ => none
  | c :: rest =>
    if c = '\\' then none
    else
      match literalBody? rest with
      | some (body, rest) => some (c :: body, rest)
      | none => none

/-- A text in double quotes that is not empty. -/
def textLiteral : Step String :=
  ofOption .mark fun cs =>
    match cs with
    | '"' :: rest =>
      match literalBody? rest with
      | some (body, rest) => if body.isEmpty then none else some (String.ofList body, rest)
      | none => none
    | _ => none

/-! ## Right-hand sides -/

/-- A class: `@` and a name.  A name that no class has is a final fault. -/
def className : Step Predicate := fun cs =>
  match (do mark '@'; name : Step String) cs with
  | .ok (n, rest) =>
    match Predicate.ofClass? n with
    | some p => .ok (p, rest)
    | none => .error ⟨.word, cs, true⟩
  | .error f => .error f

/-- A character, or a range of characters with two dots in between. -/
def charPredicate : Step Predicate :=
  ofOption .mark fun cs =>
    match charLiteral? cs with
    | some (lo, '.' :: '.' :: rest) =>
      match charLiteral? rest with
      | some (hi, rest) => some (.range lo hi, rest)
      | none => some (.char lo, '.' :: '.' :: rest)
    | some (c, rest) => some (.char c, rest)
    | none => none

/-- One token that passes a test. -/
def terminal : Step (Rhs String) := return .terminal (← orElse className charPredicate)

/-- The characters of a literal. -/
def series : Step (Rhs String) := return .series (← textLiteral)

/-- Names in parentheses. -/
def record : Step (Rhs String) := do
  mark '('
  filler
  let fields ← many do
    let field ← name
    filler
    return field
  mark ')'
  return .record fields

/-- A label, a colon, and names. -/
def branch : Step (Branch String) := do
  let label ← name
  filler
  mark ':'
  let fields ← many do
    filler
    name
  return ⟨label, fields⟩

/-- Branches with bars in between. -/
def choice : Step (Rhs String) := do
  let bar : Step Unit := do
    filler
    mark '|'
    filler
  return .choice (← separated bar branch)

/-- The mark directly after a name that says how often the rule may occur. -/
def suffix? : List Char → Option ((String → Rhs String) × List Char)
  | '?' :: rest => some (.opt, rest)
  | '*' :: rest => some (.star, rest)
  | '+' :: rest => some (.plus, rest)
  | _ => none

/-- A name, alone or with a suffix. -/
def repetition : Step (Rhs String) := do
  let n ← name
  match ← maybe (ofOption .mark suffix?) with
  | some make => return make n
  | none => return .wrap n

/-- A right-hand side. -/
def rhs : Step (Rhs String) := do
  filler
  orElse terminal (orElse series (orElse record (orElse choice repetition)))

/-! ## Productions -/

/-- A production: a name, an optional description, `=`, a right-hand side, `;`. -/
def production : Step (Production String) := do
  filler
  let n ← name
  let description ← maybe do
    filler
    textLiteral
  filler
  mark '='
  let r ← rhs
  filler
  mark ';'
  return ⟨n, description, r⟩

/-- All the productions of a text, with nothing but filler after them. -/
def productions : Step (List (Production String)) := do
  let ps ← many production
  filler
  match ← get with
  | [] => return ps
  | rest => throw ⟨.finish, rest, false⟩

/-- The error that a fault amounts to: it shows how the text goes on. -/
def Fault.toError (f : Fault) : GrammarError :=
  .malformed f.wanted (String.ofList (f.rest.take 24))

/-- What a step reads from the front of a text. -/
def read (p : Step α) (s : String) : Except GrammarError α :=
  match p s.toList with
  | .ok (a, _) => .ok a
  | .error f => .error f.toError

end ChartGrammar.Reader

namespace ChartGrammar

/-- The right-hand side at the front of a text. -/
def Rhs.parse (s : String) : Except GrammarError (Rhs String) := Reader.read Reader.rhs s

/-- The production at the front of a text. -/
def Production.parse (s : String) : Except GrammarError (Production String) :=
  Reader.read Reader.production s

/-- The productions that make up a text. -/
def Production.parseAll (s : String) : Except GrammarError (List (Production String)) :=
  Reader.read Reader.productions s

/-- The grammar that a text describes. -/
def Grammar.parse (s : String) : Except GrammarError Grammar := do
  ofProductions (← Production.parseAll s)

end ChartGrammar
