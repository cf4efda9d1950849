import LoopInduction.Toml.Scalar
import LoopInduction.Toml.Token

/-!
# Statements of a settings document

A document is a sequence of statements, each on a line of its own: a heading that opens a table, or
an assignment to a key. A value between brackets or braces may run over several lines.

* `Value` and `Statement` are what a document holds. Tables keep the keys as they were written; no
  key of a table may lead to or through the place of another (`compatible`).
* `Reader` is a machine that takes one token at a time, and `statements?` reads a document with it.
-/

namespace LoopInduction.Toml

/-- A value. -/
inductive Value
  | bool (b : Bool)
  /-- A text, a number or a moment. -/
  | plain
  | array (items : List Value)
  | table (members : List (List String × Value))

/-- A line of a document. -/
inductive Statement
  | heading (path : List String)
  | assign (path : List String) (value : Value)

/-- The value without quotation marks that a text is. -/
def Value.ofText? (text : String) : Option Value :=
  if text = "true" then some (.bool true)
  else if text = "false" then some (.bool false)
  else if isNumber text.toList || isMoment text.toList then some .plain
  else none

/-- Whether no path is another or leads through its place. -/
def compatible (paths : List (List String)) : Bool :=
  decide (paths.Pairwise fun p q ↦ ¬ p <+: q ∧ ¬ q <+: p)

/-- The number of brackets and braces that may be open at the same time, and that of the parts of a
key. -/
def nesting : Nat := 80

/-- Where the value that comes next belongs. Paths and lists are kept last first. -/
inductive Context
  | line (path : List String)
  | item (items : List Value) (outer : Context)
  | member (members : List (List String × Value)) (key : List String) (outer : Context)

/-- The number of brackets and braces around a value. -/
def Context.depth : Context → Nat
  | line _ => 0
  | item _ outer | member _ _ outer => outer.depth + 1

/-- Where the reader stands. -/
inductive Place
  | lineStart
  /-- Behind a statement; only the end of the line may follow. -/
  | lineRest
  | heading (path : List String)
  | headingKey (path : List String)
  | key (path : List String)
  | afterKey (path : List String)
  | value (c : Context)
  /-- Inside a value without quotation marks. -/
  | scalar (c : Context) (text : String)
  /-- Behind blanks that follow such a value or are part of it. -/
  | scalarGap (c : Context) (text gap : String)
  | afterItem (items : List Value) (outer : Context)
  | member (members : List (List String × Value)) (outer : Context)
  | memberKey (members : List (List String × Value)) (key : List String) (outer : Context)
  | afterMemberKey (members : List (List String × Value)) (key : List String) (outer : Context)
  /-- Behind a key and the end of its line; the key does not go on. -/
  | memberEquals (members : List (List String × Value)) (key : List String) (outer : Context)
  | afterMember (members : List (List String × Value)) (outer : Context)
  | refused

/-- The statements read so far, last first, and where the reader stands. -/
structure Reader where
  statements : List Statement := []
  place : Place := .lineStart

namespace Reader

/-- Goes on at another place. -/
def goTo (r : Reader) (place : Place) : Reader :=
  { r with place := place }

/-- Goes on behind a key, or refuses what is no key. -/
def takeKey (r : Reader) (t : Token) (next : String → Place) : Reader :=
  r.goTo (match t.key? with | some k => next k | none => .refused)

/-- Goes on behind the dot of a key, unless it has too many parts. -/
def takeDot (r : Reader) (key : List String) (place : Place) : Reader :=
  r.goTo (if key.length < nesting then place else .refused)

/-- Ends a statement. -/
def finish (r : Reader) (s : Statement) : Reader where
  statements := s :: r.statements
  place := .lineRest

/-- Puts a value where it belongs. -/
def supply (r : Reader) (v : Value) : Context → Reader
  | .line path => r.finish (.assign path.reverse v)
  | .item items outer => r.goTo (.afterItem (v :: items) outer)
  | .member members key outer => r.goTo (.afterMember ((key.reverse, v) :: members) outer)

/-- Opens a bracket or a brace, unless too many are open. -/
def enter (r : Reader) (c : Context) (place : Place) : Reader :=
  r.goTo (if c.depth < nesting then place else .refused)

/-- Closes a table. -/
def closeTable (r : Reader) (members : List (List String × Value)) (outer : Context) : Reader :=
  if compatible (members.map Prod.fst) then r.supply (.table members.reverse) outer
  else r.goTo .refused

/-- Takes a token where a value may begin. -/
def beginValue (r : Reader) (c : Context) (t : Token) : Reader :=
  match t, c with
  | .openBracket, c => r.enter c (.value (.item [] c))
  | .openBrace, c => r.enter c (.member [] c)
  | .quoted _, c | .lines, c => r.supply .plain c
  | .word s, c => r.goTo (.scalar c s)
  | .closeBracket, .item items outer => r.supply (.array items.reverse) outer
  | .lineEnd, .item _ _ | .lineEnd, .member _ _ _ => r
  | _, _ => r.goTo .refused

/-- Takes a token behind a value. -/
def followValue (r : Reader) (t : Token) : Reader :=
  match r.place, t with
  | .lineRest, .lineEnd => r.goTo .lineStart
  | .afterItem items outer, .comma => r.goTo (.value (.item items outer))
  | .afterItem items outer, .closeBracket => r.supply (.array items.reverse) outer
  | .afterMember members outer, .comma => r.goTo (.member members outer)
  | .afterMember members outer, .closeBrace => r.closeTable members outer
  | .afterItem _ _, .lineEnd | .afterMember _ _, .lineEnd => r
  | _, _ => r.goTo .refused

/-- Takes a token behind a value without quotation marks, which is complete. -/
def endScalar (r : Reader) (c : Context) (text : String) (t : Token) : Reader :=
  match Value.ofText? text with
  | some v => (r.supply v c).followValue t
  | none => r.goTo .refused

/-- Takes one token. -/
def step (r : Reader) (t : Token) : Reader :=
  match r.place, t with
  | .scalar c text, .word s => r.goTo (.scalar c (text ++ s))
  | .scalar c text, .dot => r.goTo (.scalar c (text ++ "."))
  | .scalar c text, .blank gap => r.goTo (.scalarGap c text gap)
  | .scalarGap c text gap, .word s => r.goTo (.scalar c (text ++ gap ++ s))
  | .scalar c text, t | .scalarGap c text _, t => r.endScalar c text t
  | _, .blank _ => r
  | .lineStart, .lineEnd => r
  | .lineStart, .openBracket => r.goTo (.heading [])
  | .lineStart, t => r.takeKey t fun k ↦ .afterKey [k]
  | .heading path, t => r.takeKey t fun k ↦ .headingKey (k :: path)
  | .headingKey path, .dot => r.takeDot path (.heading path)
  | .headingKey path, .closeBracket => r.finish (.heading path.reverse)
  | .key path, t => r.takeKey t fun k ↦ .afterKey (k :: path)
  | .afterKey path, .dot => r.takeDot path (.key path)
  | .afterKey path, .equals => r.goTo (.value (.line path))
  | .value c, t => r.beginValue c t
  | .member _ _, .lineEnd => r
  | .member members outer, .closeBrace => r.closeTable members outer
  | .member members outer, t => r.takeKey t fun k ↦ .afterMemberKey members [k] outer
  | .memberKey members key outer, t =>
    r.takeKey t fun k ↦ .afterMemberKey members (k :: key) outer
  | .afterMemberKey members key outer, .dot =>
    r.takeDot key (.memberKey members key outer)
  | .afterMemberKey members key outer, .lineEnd => r.goTo (.memberEquals members key outer)
  | .memberEquals _ _ _, .lineEnd => r
  | .afterMemberKey members key outer, .equals | .memberEquals members key outer, .equals =>
    r.goTo (.value (.member members key outer))
  | .lineRest, t | .afterItem _ _, t | .afterMember _ _, t => r.followValue t
  | _, _ => r.goTo .refused

end Reader

/-- The statements of a document. The last line may lack its end. -/
def statements? (text : String) : Option (List Statement) :=
  let r := (Token.ofDocument text ++ [Token.lineEnd]).foldl Reader.step {}
  match r.place with
  | .lineStart => some r.statements.reverse
  | _ => none

end LoopInduction.Toml
